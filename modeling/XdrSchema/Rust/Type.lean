import XdrSchema.Rust.Identifier
import XdrSchema.Schema.Basic

/-! The types that a schema becomes. Byte data of variable length is a view, so that decoding can
borrow it from the input; a type that holds such data, at whatever depth, takes the type of the view
as a parameter. -/
namespace XdrSchema.Rust

open Schema (Ref Ty Definition Union)

/-- The type of a byte view: a parameter, or the borrowed slice that decoding uses for it. -/
inductive View
  | parameter (name : String)
  | borrowed
deriving DecidableEq

def View.text : View → String
  | parameter name => name
  | borrowed => "&'a [u8]"

/-- A type of the generated module. -/
inductive Syntax
  | scalar (name : String)
  | named (ident : String) (view : Option View)
  | view (v : View)
  | byteArray (length : Nat)
  | array (element : Syntax) (length : Nat)
  | vec (element : Syntax)
  | boxedOption (target : Syntax)

namespace Syntax

def text : Syntax → String
  | scalar name => name
  | named ident none => ident
  | named ident (some v) => ident ++ "<" ++ v.text ++ ">"
  | view v => v.text
  | byteArray n => s!"[u8; {n}]"
  | array e n => "[" ++ e.text ++ s!"; {n}]"
  | vec e => "::std::vec::Vec<" ++ e.text ++ ">"
  | boxedOption t => "::core::option::Option<::std::boxed::Box<" ++ t.text ++ ">>"

end Syntax

def scalarName : Primitive → String
  | .int => "i32"
  | .unsignedInt => "u32"
  | .hyper => "i64"
  | .unsignedHyper => "u64"
  | .float => "f32"
  | .double => "f64"
  | .bool => "bool"

/-- The type holds byte data of variable length itself. -/
def isByteData : Ty → Bool
  | .bytes _ | .string _ => true
  | _ => false

/-! ### Which types take a view -/

/-- A member type takes a view if it is byte data or names a type that takes one. -/
def needsView (generic : List String) (t : Ty) : Bool :=
  isByteData t || (t.target?.any fun r => r.name ∈ generic)

/-- The names found to take a view, with those that are found through them. -/
def widen (types : List (String × Definition)) (generic : List String) : List String :=
  (types.filter fun (_, d) => d.members.any (needsView generic)).map (·.1)

/-- The types that take a view. A chain of members visits each type at most once, so that as many
rounds as there are types find all. -/
def generics (types : List (String × Definition)) : List String :=
  (List.range types.length).foldl (fun generic _ => widen types generic) []

/-! ### Spelling types -/

/-- What spelling the types of a schema takes: the types with a view, and the name of the view
parameter. -/
structure Naming where
  generic : List String
  parameter : String

namespace Naming

/-- The parameter is `B` unless the specification uses that name. -/
def ofSchema (s : Schema) : Naming :=
  ⟨generics s.types, if (Symbol.find? s.symbols "B").isSome then "XdrBuf" else "B"⟩

variable (naming : Naming)

def isGeneric (name : String) : Bool := name ∈ naming.generic

/-- A named type with the given view, if it takes one. -/
def named (v : View) (name : String) : Syntax :=
  .named (identifier name) (if naming.isGeneric name then some v else none)

/-- A named type in a declaration. -/
def declared (name : String) : Syntax := naming.named (.parameter naming.parameter) name

/-- A named type as decoded. -/
def decoded (name : String) : Syntax := naming.named .borrowed name

def base : Base Ref → Syntax
  | .primitive p => .scalar (scalarName p)
  | .named r => naming.declared r.name

/-- A type in a declaration. -/
def type : Ty → Syntax
  | .plain b => naming.base b
  | .array b n => .array (naming.base b) n
  | .vector b _ => .vec (naming.base b)
  | .optional b => .boxedOption (naming.base b)
  | .fixedBytes n => .byteArray n
  | .bytes _ | .string _ => .view (.parameter naming.parameter)

end Naming

/-- The type of a raw discriminant. -/
def discriminantType (u : Union) : String := if u.isUnsigned then "u32" else "i32"

/-- A bound as an argument. The greatest is written by name. -/
def boundText (bound : Option Nat) : String :=
  match bound with
  | none => "u32::MAX"
  | some n => if n = 4294967295 then "u32::MAX" else toString n

def okText : String := "::core::result::Result::Ok"

def errText : String := "::core::result::Result::Err"

def optionText : String := "::core::option::Option"

/-- A name followed by its arguments, if there are any. -/
def applied (name : String) (args : List String) : String :=
  if args.isEmpty then name else name ++ "(" ++ ", ".intercalate args ++ ")"

end XdrSchema.Rust
