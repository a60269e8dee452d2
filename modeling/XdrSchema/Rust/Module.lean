import XdrSchema.Rust.Declaration
import XdrSchema.Rust.Encoder
import XdrSchema.Rust.Support
import XdrSchema.Schema.Constant

/-! A whole generated module: the support code or its import, the constants, and for each type its
declaration, decoder and encoder. Names that the module cannot declare are refused first. -/
namespace XdrSchema.Rust

open Schema (Ref Ty Definition Arm Union)

/-! ### Names -/

def refuse {α : Type} (name : String) (what : Reserved) (span : Option Span) :
    Except SpecError α :=
  throw ⟨.reserved name what, span⟩

/-- A name at module level. -/
def checkItem (name : String) (span : Option Span) : Except SpecError Unit :=
  if name ∈ supportItems then refuse name .supportItem span
  else if name ∈ primitiveTypes then refuse name .primitiveType span
  else if name ∈ hardKeywords then refuse name .keyword span
  else return ()

/-- A name inside a type. -/
def checkInner (name : String) (span : Option Span) : Except SpecError Unit :=
  if name ∈ hardKeywords then refuse name .keyword span else return ()

/-- The names of a type, its fields and its variants. -/
def checkType (s : Schema) (symbol : Symbol) : Except SpecError Unit := do
  let some (_, d) := symbol.type? | return ()
  checkItem symbol.name symbol.span
  match d.body with
  | .struct fields => fields.forM fun f => checkInner f.name (some f.nameSpan)
  | _ => pure ()
  match s.definition? symbol.name with
  | some (.union u) => u.allArms.forM fun a => checkInner a.variant symbol.span
  | _ => return ()

/-- The names of labels and constants. -/
def checkValue (symbol : Symbol) : Except SpecError Unit :=
  match symbol.meaning with
  | .label .. => checkInner symbol.name symbol.span
  | .constant _ => checkItem symbol.name symbol.span
  | _ => return ()

def checkNames (s : Schema) : Except SpecError Unit := do
  s.symbols.forM (checkType s)
  s.symbols.forM checkValue

/-! ### Types -/

/-- The three parts that a definition becomes. -/
structure Item where
  declaration : Declaration
  decoder : DecodeImpl
  encoder : EncodeImpl

namespace Item

def ofDefinition (naming : Naming) (settings : Settings) (sizes : Wire.SizeTable) (name : String)
    (d : Definition) : Item :=
  let size := sizes.get name
  let target := naming.declared name
  let parameter := if naming.isGeneric name then some naming.parameter else none
  { declaration := ⟨name, d.kind, target, parameter, size, settings.annotationsFor name,
      DeclBody.ofDefinition naming d⟩
    decoder := ⟨naming.decoded name, 0 < size.min, DecodeBody.ofDefinition naming d⟩
    encoder := ⟨target, parameter, EncodeBody.ofDefinition d⟩ }

def code (i : Item) : List Code :=
  i.declaration.code ++ [.blank, i.decoder.code, .blank, i.encoder.code, .blank]

end Item

/-! ### The module -/

def version : String := "0.1.0"

def lints : List String :=
  ["dead_code", "non_camel_case_types", "non_snake_case", "non_upper_case_globals"]

structure Module where
  sourceName : String
  support : Bool
  supportPath : String
  constants : List (String × Int)
  items : List Item

namespace Module

def ofSchema (s : Schema) (settings : Settings) (sourceName : String) : Module :=
  let naming := Naming.ofSchema s
  let sizes := Wire.SizeTable.ofSchema s
  ⟨sourceName, settings.support, settings.supportPath, Symbol.constants s.symbols,
    s.types.map fun (name, d) => Item.ofDefinition naming settings sizes name d⟩

def code (m : Module) : List Code :=
  [.line ("// Code generated by xdrc " ++ version ++ " from " ++ m.sourceName ++ ". DO NOT EDIT."),
   .line ("#![allow(" ++ ", ".intercalate lints ++ ")]"),
   .blank]
    ++ (if m.support then supportLines.map .line else [.line ("use " ++ m.supportPath ++ "::*;")])
    ++ [.blank]
    ++ m.constants.map (fun (name, n) => constantCode name n)
    ++ (if m.constants.isEmpty then [] else [.blank])
    ++ m.items.flatMap Item.code

def text (m : Module) : String := (Source.empty.writeAll m.code).text

end Module

/-- The module of a schema, unless a name cannot be declared. -/
def generate (s : Schema) (settings : Settings) (sourceName : String) :
    Except SpecError String := do
  checkNames s
  return (Module.ofSchema s settings sourceName).text

end XdrSchema.Rust
