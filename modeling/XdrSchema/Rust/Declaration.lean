import XdrSchema.Rust.Source
import XdrSchema.Rust.Type
import XdrSchema.Settings.Basic
import XdrSchema.Text.Blank
import XdrSchema.Wire.SizeTable

/-! The declarations of a generated module: a type for each definition, with the range of its
encoded size as constants. -/
namespace XdrSchema.Rust

open Schema (Ref Ty Definition Arm Union)

/-- The greatest number that a size constant can state. -/
def maxSize : Int := 0xffffffffffffffff

def constantCode (name : String) (value : Int) : Code :=
  .line (s!"pub const {identifier name}: i64 = {value};")

/-- A variant with what it holds: the raw discriminant, if it carries one, and its payload. -/
structure Variant where
  name : String
  discriminant : Option String
  payload : Option Syntax

namespace Variant

def ofArm (naming : Naming) (word : String) (a : Arm) : Variant :=
  ⟨a.variant, if a.carriesDiscriminant then some word else none,
    a.field.map fun f => naming.type f.type⟩

def code (v : Variant) : Code :=
  .line (applied (identifier v.name) (v.discriminant.toList ++ (v.payload.map (·.text)).toList)
    ++ ",")

end Variant

/-- What a definition is declared as. -/
inductive DeclBody
  | newtype (target : Syntax)
  | record (fields : List (String × Syntax))
  | enum (labels : List (String × Int))
  | variants (arms : List Variant)

namespace DeclBody

def ofDefinition (naming : Naming) : Definition → DeclBody
  | .typedef t => newtype (naming.type t)
  | .struct fields => record (fields.map fun f => (f.name, naming.type f.type))
  | .enum labels => enum labels
  | .union u => variants (u.allArms.map (Variant.ofArm naming (discriminantType u)))

def code (target : Syntax) : DeclBody → List Code
  | newtype t => [.line ("pub struct " ++ target.text ++ "(pub " ++ t.text ++ ");")]
  | record fields =>
    [.block ("pub struct " ++ target.text) ""
      (fields.map fun (name, t) => .line ("pub " ++ identifier name ++ ": " ++ t.text ++ ","))]
  | enum labels =>
    [.line "#[repr(i32)]",
     .block ("pub enum " ++ target.text) ""
      (labels.map fun (label, n) => .line (s!"{identifier label} = {n},"))]
  | variants arms => [.block ("pub enum " ++ target.text) "" (arms.map Variant.code)]

/-- The conversions between an enumeration and its numbers. -/
def conversions (target : Syntax) : DeclBody → List Code
  | enum labels =>
    let toLabel := labels.map fun (label, n) =>
      Code.line (s!"{n} => {optionText}::Some(Self::{identifier label}),")
    let toNumber := labels.map fun (label, n) =>
      Code.line (s!"Self::{identifier label} => {n},")
    [.blank,
     .block ("impl " ++ target.text) ""
      [.block ("pub fn from_xdr_value(_value: i32) -> " ++ optionText ++ "<Self>") ""
        [.block "match _value" "" (toLabel ++ [.line ("_ => " ++ optionText ++ "::None,")])],
       .blank,
       .block "pub fn xdr_value(&self) -> i32" "" [.block "match self" "" toNumber]]]
  | _ => []

end DeclBody

/-- A definition as declared: its name, how it is spelled, its encoded size and its annotations. -/
structure Declaration where
  name : String
  kind : TypeKind
  target : Syntax
  parameter : Option String
  size : Wire.Size
  annotations : List String
  body : DeclBody

namespace Declaration

/-- The size constants. A least size that is too large is stated as the greatest number that fits,
a greatest size that is too large is not stated, nor is an exact one. -/
def sizeCode (d : Declaration) : Code :=
  let header := match d.parameter with
    | some p => "impl<" ++ p ++ "> "
    | none => "impl "
  let greatest := match d.size.max with
    | some n => if n ≤ maxSize then s!"{optionText}::Some({n})" else optionText ++ "::None"
    | none => optionText ++ "::None"
  let exact : List Code :=
    if d.size.fixed && d.size.min ≤ maxSize then
      [.line (s!"pub const XDR_FIXED_SIZE: u64 = {d.size.min};")]
    else []
  .block (header ++ d.target.text) ""
    ([.line (s!"pub const XDR_MIN_SIZE: u64 = {min d.size.min maxSize};"),
      .line (s!"pub const XDR_MAX_SIZE: {optionText}<u64> = {greatest};")] ++ exact)

def code (d : Declaration) : List Code :=
  [.line ("/// XDR " ++ d.kind.text ++ " `" ++ d.name ++ "`, encoded size " ++ d.size.text ++ ".")]
    ++ d.annotations.map (fun a => .line (String.ofList (Text.trim a.toList)))
    ++ d.body.code d.target
    ++ [.blank, d.sizeCode]
    ++ d.body.conversions d.target

end Declaration

end XdrSchema.Rust
