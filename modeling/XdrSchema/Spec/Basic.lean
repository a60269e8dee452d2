import XdrSchema.TypeExpr
import XdrSchema.Text.Span

/-! A specification whose every definition is well formed by itself: literals have values, fields
carry data and have distinct names, and a union selects its arms by a plain type. Names are still
unresolved. -/
namespace XdrSchema.Spec

/-- A literal, with its text as written, or the name of a constant. -/
inductive Value
  | literal (value : Int) (text : String) (span : Span)
  | constant (name : String) (span : Span)

namespace Value

def span : Value → Span
  | literal _ _ s => s
  | constant _ s => s

/-- The value as written. -/
def text : Value → String
  | literal _ t _ => t
  | constant n _ => n

/-- The name a value was written as, if it is not a literal. -/
def name? : Value → Option String
  | literal .. => none
  | constant n _ => some n

end Value

abbrev Ty := TypeExpr Value String

/-- A type as messages write it. -/
def Ty.display (t : Ty) : String := t.text Value.text id

/-- A name with its type. -/
structure Field (τ : Type) where
  name : String
  type : τ
  span : Span
  nameSpan : Span

/-- What an arm carries: nothing, or a field. -/
inductive Payload
  | void (span : Span)
  | field (f : Field Ty)

namespace Payload

def field? : Payload → Option (Field Ty)
  | void _ => none
  | field f => some f

def name? (p : Payload) : Option String := p.field?.map (·.name)

end Payload

/-- A label of an enumeration. -/
structure Member where
  name : String
  value : Value
  span : Span

structure Arm where
  labels : List Value
  payload : Payload
  span : Span

structure Union where
  discriminant : Field (Base String)
  arms : List Arm
  default : Option Payload

inductive Body
  | const (value : Value)
  | typedef (type : Ty)
  | struct (fields : List (Field Ty))
  | enum (members : List Member)
  | union (u : Union)

structure Definition where
  name : String
  body : Body
  span : Span
  nameSpan : Span

end XdrSchema.Spec

namespace XdrSchema

/-- The definitions of a specification in order. -/
structure Spec where
  definitions : List Spec.Definition

/-- From the first definition to the last; a specification without definitions has no place. -/
def Spec.span? (s : Spec) : Option Span := do
  return (← s.definitions.head?).span.cover (← s.definitions.getLast?).span

end XdrSchema
