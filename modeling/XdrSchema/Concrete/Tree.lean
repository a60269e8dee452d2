import XdrSchema.Concrete.Token
import XdrSchema.TypeExpr

/-! A specification text after reading: what was written, in order, with nothing checked beyond
the grammar. Spans run from the first token of a construct to its last. -/
namespace XdrSchema.Concrete

/-- A name or a number as written. -/
structure Word where
  text : String
  span : Span

inductive Value
  | number (w : Word)
  | reference (w : Word)

inductive Declaration
  | void (span : Span)
  | item (name : Word) (type : TypeExpr Value String) (span : Span)

namespace Declaration

def span : Declaration → Span
  | void s => s
  | item _ _ s => s

end Declaration

/-- An arm of a union; several labels can share one. -/
inductive Arm
  | case (labels : List Value) (declaration : Declaration) (span : Span)
  | default (declaration : Declaration) (span : Span)

inductive Body
  | const (name : Word) (value : Value)
  | typedef (declaration : Declaration)
  | struct (name : Word) (fields : List Declaration)
  | enum (name : Word) (members : List (Word × Value))
  | union (name : Word) (switch : Declaration) (arms : List Arm)

structure Definition where
  body : Body
  span : Span

end XdrSchema.Concrete
