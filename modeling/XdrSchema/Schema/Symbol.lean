import XdrSchema.Spec.Basic
import XdrSchema.Diagnostic.Fault

/-! The names of a specification. Constants, types and enumeration labels share one name space,
which starts with the two truth values. -/
namespace XdrSchema

/-- What a name stands for. -/
inductive Meaning
  | builtin (value : Int)
  | constant (value : Spec.Value)
  | label (owner : String) (value : Spec.Value)
  | type (kind : TypeKind) (definition : Spec.Definition)

def Meaning.kind : Meaning → SymbolKind
  | builtin _ | constant _ => .constant
  | label .. => .label
  | type k _ => .type k

structure Symbol where
  name : String
  span : Option Span
  meaning : Meaning

namespace Symbol

def kind (s : Symbol) : SymbolKind := s.meaning.kind

/-- The enumeration that a label belongs to. -/
def owner? (s : Symbol) : Option String :=
  match s.meaning with
  | .label owner _ => some owner
  | _ => none

/-- The definition of a type. -/
def type? (s : Symbol) : Option (TypeKind × Spec.Definition) :=
  match s.meaning with
  | .type k d => some (k, d)
  | _ => none

/-- The truth values; they have no place in the text. -/
def builtins : List Symbol := [⟨"TRUE", none, .builtin 1⟩, ⟨"FALSE", none, .builtin 0⟩]

/-- The names a definition introduces: its own, then those of its labels. -/
def ofDefinition (d : Spec.Definition) : List Symbol :=
  let symbol (m : Meaning) : Symbol := ⟨d.name, some d.nameSpan, m⟩
  match d.body with
  | .const v => [symbol (.constant v)]
  | .typedef _ => [symbol (.type .typedef d)]
  | .struct _ => [symbol (.type .struct d)]
  | .union _ => [symbol (.type .union d)]
  | .enum members =>
    symbol (.type .enum d)
      :: members.map fun m => ⟨m.name, some m.span, .label d.name m.value⟩

/-- All names in the order of their introduction. -/
def ofSpec (s : Spec) : List Symbol := builtins ++ s.definitions.flatMap ofDefinition

/-- The first symbol of a name. -/
def find? (symbols : List Symbol) (name : String) : Option Symbol :=
  symbols.find? (·.name = name)

/-- No name may be introduced twice. `seen` are the symbols before. -/
def checkDistinct (seen : List Symbol) : List Symbol → Except SpecError Unit
  | [] => return ()
  | s :: rest =>
    match find? seen s.name with
    | some previous => throw ⟨.redefined s.name previous.span, s.span⟩
    | none => checkDistinct (seen ++ [s]) rest

/-- The types among some symbols. -/
def types (symbols : List Symbol) : List (TypeKind × Spec.Definition) := symbols.filterMap type?

end Symbol

end XdrSchema
