import XdrSchema.Schema.Constant
import XdrSchema.Schema.Variant

/-! Which types can select the arms of a union, and which values its labels can have. -/
namespace XdrSchema.Schema

/-- The selector for a type in which typedefs have been followed. -/
def Selector.ofType? : Ty → Option Selector
  | .plain (.primitive .int) => some .signed
  | .plain (.primitive .unsignedInt) => some .unsigned
  | .plain (.primitive .bool) => some .bool
  | .plain (.named ⟨name, .enum⟩) => some (.enum name)
  | _ => none

namespace CaseSet

def shown (l : Label) : CaseLabel := l.name.elim (.literal l.value) .name

/-- Why the discriminant cannot have a value; `labels` are those of its enumeration. -/
def refusal? (selector : Selector) (labels : List (String × Int)) (l : Label) :
    Option CaseFault :=
  match selector with
  | .enum name => if l.value ∈ labels.map (·.2) then none else some (.foreign (shown l) name)
  | .unsigned =>
    if l.value < 0 then some (.negative (shown l))
    else if Constant.isUnsigned32 l.value then none
    else some (.wideUnsigned (shown l))
  | .bool => if l.value = 0 || l.value = 1 then none else some (.notBool (shown l))
  | .signed => if Constant.isSigned32 l.value then none else some (.wide (shown l))

/-- Checks labels one by one, given those before. -/
def checkLabels (selector : Selector) (labels : List (String × Int)) (seen : List Label) :
    List Label → Except CaseFault Unit
  | [] => return ()
  | l :: rest =>
    match seen.find? (·.value = l.value) with
    | some earlier => throw (.repeated (shown l) l.value (shown earlier))
    | none =>
      match refusal? selector labels l with
      | some fault => throw fault
      | none => checkLabels selector labels (seen ++ [l]) rest

/-- Checks the labels of all arms of a union. A fault is at its arm. -/
def checkFrom (union : String) (selector : Selector) (labels : List (String × Int))
    (seen : List Label) : List Variant.Draft → Except SpecError Unit
  | [] => return ()
  | d :: rest =>
    match checkLabels selector labels seen d.labels with
    | .error fault => throw ⟨.caseSet union fault, some d.span⟩
    | .ok () => checkFrom union selector labels (seen ++ d.labels) rest

def check (union : String) (selector : Selector) (labels : List (String × Int))
    (drafts : List Variant.Draft) : Except SpecError Unit :=
  checkFrom union selector labels [] drafts

/-- The labels of an enumeration that no case names. -/
def uncovered (labels : List (String × Int)) (covered : List Int) : List String :=
  (labels.filter fun l => l.2 ∉ covered).map (·.1)

end CaseSet

end XdrSchema.Schema
