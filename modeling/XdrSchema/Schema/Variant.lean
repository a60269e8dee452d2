import XdrSchema.Schema.Basic

/-! The names of union variants. An arm is named after its single label if that is an identifier,
else after its field, else after the values of its labels. A name that is taken is numbered. -/
namespace XdrSchema.Schema.Variant

/-- A case arm before it has its name. -/
structure Draft where
  labels : List Label
  fieldName : Option String
  span : Span

def defaultName : String := "Default"

/-- A number as part of a name. -/
def valueText (n : Int) : String := if n < 0 then s!"Neg{n.natAbs}" else toString n

/-- The name made from the values of some labels. -/
def caseName (labels : List Label) : String :=
  "Case" ++ "_".intercalate (labels.map fun l => valueText l.value)

def preferred (d : Draft) : String :=
  match d.labels, d.fieldName with
  | [⟨_, some name⟩], _ => name
  | _, some name => name
  | _, none => caseName d.labels

/-- The name itself, or the first of its variations by number, from 2 on, that is not taken. -/
def unique (taken : List String) (name : String) : String :=
  let variation (k : Nat) : String := s!"{name}_{k + 2}"
  if name ∈ taken then
    match (List.range (taken.length + 1)).find? fun k => variation k ∉ taken with
    | some k => variation k
    | none => variation taken.length
  else name

/-- The names of the remaining arms. A name that several arms prefer, or that the default arm has,
gives way to the name made from the labels. -/
def assignFrom (all : List String) (hasDefault : Bool) (taken : List String) :
    List Draft → List String
  | [] => []
  | d :: rest =>
    let name := preferred d
    let name :=
      if 1 < all.count name || (hasDefault && name = defaultName) then caseName d.labels else name
    let name := unique taken name
    name :: assignFrom all hasDefault (taken ++ [name]) rest

/-- A name for each arm. -/
def assign (hasDefault : Bool) (drafts : List Draft) : List String :=
  assignFrom (drafts.map preferred) hasDefault [] drafts

/-- The name of the default arm. -/
def defaultFor (names : List String) : String := unique names defaultName

end XdrSchema.Schema.Variant
