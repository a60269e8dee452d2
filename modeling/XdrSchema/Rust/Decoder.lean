import XdrSchema.Rust.Source
import XdrSchema.Rust.Type

/-! The decoders of a generated module. A decoder is first a description of what it reads, in which
the support functions are constructors, and then text. -/
namespace XdrSchema.Rust

open Schema (Ref Ty Definition Arm Union)

/-- Reading one type. -/
inductive Read
  | scalar (p : Primitive)
  | named (target : Syntax)
  | fixedArray (length : Nat) (item : Read)
  | varArray (bound : Option Nat) (item : Read)
  | optional (item : Read)
  | fixedOpaque (length : Nat)
  | varOpaque (bound : Option Nat)

namespace Read

/-- An expression that reads from the cursor. -/
def text : Read → String
  | scalar p => scalarName p ++ "::decode(_cur)"
  | named (.named ident none) => ident ++ "::decode(_cur)"
  | named t => "<" ++ t.text ++ ">::decode(_cur)"
  | fixedArray n item =>
    s!"decode_fixed_array::<_, _, {n}>(_cur, |_cur| " ++ item.text ++ ")"
  | varArray n item =>
    "decode_var_array(_cur, " ++ boundText n ++ ", |_cur| " ++ item.text ++ ")"
  | optional item => "decode_optional(_cur, |_cur| " ++ item.text ++ ")"
  | fixedOpaque n => s!"_cur.read_fixed_opaque::<{n}>()"
  | varOpaque n => "_cur.read_opaque(" ++ boundText n ++ ")"

def ofBase (naming : Naming) : Base Ref → Read
  | .primitive p => scalar p
  | .named r => named (naming.decoded r.name)

def ofType (naming : Naming) : Ty → Read
  | .plain b => ofBase naming b
  | .array b n => fixedArray n (ofBase naming b)
  | .vector b n => varArray n (ofBase naming b)
  | .optional b => optional (ofBase naming b)
  | .fixedBytes n => fixedOpaque n
  | .bytes n | .string n => varOpaque n

end Read

/-- Building a variant: from the raw discriminant, if it carries one, and from its payload. -/
structure Construct where
  variant : String
  discriminant : Bool
  payload : Option Read

namespace Construct

def ofArm (naming : Naming) (a : Arm) : Construct :=
  ⟨a.variant, a.carriesDiscriminant, a.field.map fun f => Read.ofType naming f.type⟩

def text (c : Construct) : String :=
  applied ("Self::" ++ identifier c.variant)
    ((if c.discriminant then ["_disc"] else [])
      ++ (c.payload.map fun r => r.text ++ "?").toList)

end Construct

/-- What a decoder does after its checks. -/
inductive DecodeBody
  | newtype (read : Read)
  | record (fields : List (String × Read))
  | enum
  | choice (unsigned : Bool) (arms : List (List Int × Construct)) (default : Option Construct)

structure DecodeImpl where
  target : Syntax
  ensures : Bool
  body : DecodeBody

/-- Numbers as a pattern. -/
def patternText (values : List Int) : String := " | ".intercalate (values.map toString)

namespace DecodeBody

def ofDefinition (naming : Naming) : Definition → DecodeBody
  | .typedef t => newtype (Read.ofType naming t)
  | .struct fields => record (fields.map fun f => (f.name, Read.ofType naming f.type))
  | .enum _ => enum
  | .union u =>
    choice u.isUnsigned (u.arms.map fun a => (a.values, Construct.ofArm naming a))
      (u.default.map (Construct.ofArm naming))

/-- Fields are read in the order in which they are written down. -/
def code : DecodeBody → List Code
  | newtype r => [.line (okText ++ "(Self(" ++ r.text ++ "?))")]
  | record [] => [.line (okText ++ "(Self \x7b\x7d)")]
  | record fields =>
    [.block (okText ++ "(Self") ")"
      (fields.map fun (name, r) => .line (identifier name ++ ": " ++ r.text ++ "?,"))]
  | enum =>
    [.line "let _value = _cur.read_u32()? as i32;",
     .line "Self::from_xdr_value(_value).ok_or(XdrError::InvalidEnumValue(_value as i64))"]
  | choice unsigned arms default =>
    let word := if unsigned then "let _disc = _cur.read_u32()?;"
      else "let _disc = _cur.read_u32()? as i32;"
    let arm (pattern : String) (c : Construct) : Code :=
      .line (pattern ++ " => " ++ okText ++ "(" ++ c.text ++ "),")
    let last := match default with
      | some c => arm "_" c
      | none =>
        .line ("_ => " ++ errText ++ "(XdrError::InvalidUnionDiscriminant(_disc as i64)),")
    [.line word,
     .block "match _disc" ""
      (arms.map (fun (values, c) => arm (patternText values) c) ++ [last])]

end DecodeBody

namespace DecodeImpl

/-- A decoder checks the least size first, unless that is 0, and spends a level of nesting. -/
def code (d : DecodeImpl) : Code :=
  .block ("impl<'a> XdrDecode<'a> for " ++ d.target.text) ""
    [.block "fn decode(_cur: &mut XdrCursor<'a>) -> XdrResult<Self>" ""
      ((if d.ensures then [.line "_cur.ensure(Self::XDR_MIN_SIZE)?;"] else [])
        ++ [.block "_cur.nested(|_cur|" ")" d.body.code])]

end DecodeImpl

end XdrSchema.Rust
