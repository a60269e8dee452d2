import XdrSchema.Schema.Symbol

/-! A schema: the definitions of a specification with every name resolved and every bound a
number. Definitions refer to each other by name, so that recursive types stay finite. -/
namespace XdrSchema

namespace Schema

/-- A reference to a definition. -/
structure Ref where
  name : String
  kind : TypeKind
deriving DecidableEq

abbrev Ty := TypeExpr Nat Ref

/-- A type as messages write it. -/
def Ty.display (t : Ty) : String := t.text toString Ref.name

structure Field where
  name : String
  type : Ty
deriving DecidableEq

/-- A case label: its value, and the name it was written as, if it was not a literal. -/
structure Label where
  value : Int
  name : Option String
deriving DecidableEq

/-- An arm of a union under the name of its variant. The default arm has no labels; a void arm has
no field. -/
structure Arm where
  variant : String
  labels : List Label
  field : Option Field
deriving DecidableEq

namespace Arm

def values (a : Arm) : List Int := a.labels.map (·.value)

/-- Unless its single label determines it, the discriminant belongs to a value of the arm. -/
def carriesDiscriminant (a : Arm) : Bool := a.labels.length ≠ 1

end Arm

/-- What a discriminant is, with typedefs followed. -/
inductive Selector
  | signed
  | unsigned
  | bool
  | enum (name : String)
deriving DecidableEq

structure Union where
  discriminantName : String
  discriminant : Base Ref
  selector : Selector
  arms : List Arm
  default : Option Arm
deriving DecidableEq

namespace Union

/-- The arms with the default arm last. -/
def allArms (u : Union) : List Arm := u.arms ++ u.default.toList

/-- The arm that a discriminant selects. -/
def armFor? (u : Union) (value : Int) : Option Arm :=
  match u.arms.find? fun a => value ∈ a.values with
  | some a => some a
  | none => u.default

/-- The labels of all arms. -/
def caseValues (u : Union) : List Int := u.arms.flatMap Arm.values

def isUnsigned (u : Union) : Bool := u.selector = .unsigned

end Union

inductive Definition
  | typedef (target : Ty)
  | struct (fields : List Field)
  | enum (labels : List (String × Int))
  | union (u : Union)
deriving DecidableEq

namespace Definition

def kind : Definition → TypeKind
  | typedef _ => .typedef
  | struct _ => .struct
  | enum _ => .enum
  | union _ => .union

/-- The types of the data that a value of the definition holds. -/
def members : Definition → List Ty
  | typedef t => [t]
  | struct fields => fields.map (·.type)
  | enum _ => []
  | union u => u.allArms.filterMap fun a => a.field.map (·.type)

end Definition

/-- The value of a label. -/
def labelValue? (labels : List (String × Int)) (label : String) : Option Int :=
  labels.lookup label

/-- The label of a value. -/
def labelOf? (labels : List (String × Int)) (value : Int) : Option String :=
  (labels.find? (·.2 = value)).map (·.1)

end Schema

/-- The names of a specification and its types in the order of their definition. -/
structure Schema where
  symbols : List Symbol
  types : List (String × Schema.Definition)

namespace Schema

def definition? (s : Schema) (name : String) : Option Definition := s.types.lookup name

def typeNames (s : Schema) : List String := s.types.map (·.1)

end Schema

end XdrSchema
