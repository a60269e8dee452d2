import XdrSchema.Rust.Decoder

/-! The encoders of a generated module. An encoder checks what the declared types leave open:
bounds, and the raw discriminant that a variant carries. -/
namespace XdrSchema.Rust

open Schema (Ref Ty Definition Arm Union)

/-- Where a value to encode is found: at a place, or behind a reference. -/
inductive Place
  | direct (path : String)
  | behind (name : String)

namespace Place

/-- A reference to the value. -/
def reference : Place → String
  | direct path => "&" ++ path
  | behind name => name

/-- The value as the receiver of a method. -/
def receiver : Place → String
  | direct path => path
  | behind name => name

end Place

/-- Writing one type. -/
inductive Write
  | value
  | fixedArray (item : Write)
  | varArray (bound : Option Nat) (item : Write)
  | optional (item : Write)
  | fixedOpaque
  | varOpaque (bound : Option Nat)

namespace Write

/-- An expression that appends the value at a place. -/
def text (w : Write) (p : Place) : String :=
  match w with
  | value => p.receiver ++ ".encode(_out)"
  | fixedArray item =>
    "encode_fixed_array(" ++ p.reference ++ ", _out, |_item, _out| "
      ++ item.text (.behind "_item") ++ ")"
  | varArray n item =>
    "encode_var_array(" ++ p.reference ++ ", " ++ boundText n ++ ", _out, |_item, _out| "
      ++ item.text (.behind "_item") ++ ")"
  | optional item =>
    "encode_optional(" ++ p.reference ++ ", _out, |_item, _out| "
      ++ item.text (.behind "_item") ++ ")"
  | fixedOpaque => "encode_fixed_opaque(" ++ p.reference ++ ", _out)"
  | varOpaque n =>
    "encode_opaque(::core::convert::AsRef::<[u8]>::as_ref(" ++ p.reference ++ "), "
      ++ boundText n ++ ", _out)"

def ofType : Ty → Write
  | .plain _ => value
  | .array _ _ => fixedArray value
  | .vector _ n => varArray n value
  | .optional _ => optional value
  | .fixedBytes _ => fixedOpaque
  | .bytes n | .string n => varOpaque n

end Write

/-- What is written for the discriminant of a variant: the single label, or the carried word, which
must be one of some values, or none of them. -/
inductive Tag
  | literal (value : Int) (word : String)
  | oneOf (values : List Int)
  | noneOf (values : List Int)

namespace Tag

def isCarried : Tag → Bool
  | literal .. => false
  | _ => true

/-- The check of a carried discriminant. -/
def guardCode (condition : String) (values : List Int) : Code :=
  .block ("if " ++ condition ++ "::core::matches!(*_disc, " ++ patternText values ++ ")") ""
    [.line ("return " ++ errText ++ "(XdrError::InvalidUnionDiscriminant(*_disc as i64));")]

def code : Tag → List Code
  | literal n word => [.line (s!"({n}{word}).encode(_out)?;")]
  | oneOf values => [guardCode "!" values, .line "_disc.encode(_out)?;"]
  | noneOf [] => [.line "_disc.encode(_out)?;"]
  | noneOf values => [guardCode "" values, .line "_disc.encode(_out)?;"]

end Tag

/-- Encoding one variant. -/
structure EncodeArm where
  variant : String
  tag : Tag
  payload : Option Write

namespace EncodeArm

/-- The arm of a case. -/
def ofCase (word : String) (a : Arm) : EncodeArm :=
  let tag := match a.values with
    | [n] => Tag.literal n word
    | values => Tag.oneOf values
  ⟨a.variant, tag, a.field.map fun f => Write.ofType f.type⟩

/-- The default arm, which is for every value that no case has. -/
def ofDefault (cases : List Int) (a : Arm) : EncodeArm :=
  ⟨a.variant, .noneOf cases, a.field.map fun f => Write.ofType f.type⟩

def code (a : EncodeArm) : Code :=
  let binds := (if a.tag.isCarried then ["_disc"] else [])
    ++ (if a.payload.isSome then ["_v"] else [])
  let payload := match a.payload with
    | some w => w.text (.behind "_v")
    | none => okText ++ "(())"
  .block (applied ("Self::" ++ identifier a.variant) binds ++ " =>") ""
    (a.tag.code ++ [.line payload])

end EncodeArm

inductive EncodeBody
  | newtype (write : Write)
  | record (fields : List (String × Write))
  | enum
  | choice (arms : List EncodeArm)

structure EncodeImpl where
  target : Syntax
  parameter : Option String
  body : EncodeBody

namespace EncodeBody

def ofDefinition : Definition → EncodeBody
  | .typedef t => newtype (Write.ofType t)
  | .struct fields => record (fields.map fun f => (f.name, Write.ofType f.type))
  | .enum _ => enum
  | .union u =>
    choice (u.arms.map (EncodeArm.ofCase (discriminantType u))
      ++ (u.default.map (EncodeArm.ofDefault u.caseValues)).toList)

def code : EncodeBody → List Code
  | newtype w => [.line (w.text (.direct "self.0"))]
  | record [] => [.line "let _ = _out;", .line (okText ++ "(())")]
  | record fields =>
    fields.map (fun (name, w) => .line (w.text (.direct ("self." ++ identifier name)) ++ "?;"))
      ++ [.line (okText ++ "(())")]
  | enum => [.line "self.xdr_value().encode(_out)"]
  | choice arms => [.block "match self" "" (arms.map EncodeArm.code)]

end EncodeBody

namespace EncodeImpl

def code (e : EncodeImpl) : Code :=
  let header := match e.parameter with
    | some p => "impl<" ++ p ++ ": ::core::convert::AsRef<[u8]>> XdrEncode for "
    | none => "impl XdrEncode for "
  .block (header ++ e.target.text) ""
    [.block "fn encode(&self, _out: &mut ::std::vec::Vec<u8>) -> XdrResult<()>" "" e.body.code]

end EncodeImpl

end XdrSchema.Rust
