import Mathlib.Data.Fintype.Card
import Mathlib.Logic.Relation
import XdrSchema.Proofs.Lookup
import XdrSchema.Proofs.Schema.CaseSet
import XdrSchema.Wire.Unit

/-! What holds of every schema that was resolved: each name means one thing, each reference leads to
a definition of its kind, and no definition holds itself directly. -/
namespace XdrSchema

/-- A relation without cycles among finitely many things cannot be followed forever. -/
theorem wellFounded_of_finite {α : Type} {r : α → α → Prop} {s : Set α} (hfinite : Finite s)
    (hacyclic : ∀ a ∈ s, ¬ Relation.TransGen r a a) :
    WellFounded fun inner outer : s => Relation.TransGen r outer.1 inner.1 := by
  have htrans : IsTrans s fun inner outer => Relation.TransGen r outer.1 inner.1 :=
    ⟨fun _ _ _ hab hbc => hbc.trans hab⟩
  have hirrefl : Std.Irrefl fun inner outer : s => Relation.TransGen r outer.1 inner.1 :=
    ⟨fun x hcyclic => hacyclic x.1 x.2 hcyclic⟩
  exact Finite.wellFounded_of_trans_of_irrefl _

namespace TypeExpr

variable {β ρ : Type}

/-- The length or bound of a type. -/
def bound? : TypeExpr β ρ → Option β
  | plain _ | optional _ => none
  | array _ n | fixedBytes n => some n
  | vector _ n | bytes n | string n => n

section Named

variable {b : Base ρ} {n : β} {k : Option β} {r : ρ}

@[simp] theorem direct?_plain : (plain b : TypeExpr β ρ).direct? = some r ↔ b = .named r := by
  cases b <;> simp [direct?]

@[simp] theorem direct?_array : (array b n).direct? = some r ↔ b = .named r := by
  cases b <;> simp [direct?]

@[simp] theorem direct?_vector : (vector b k).direct? = none := rfl

@[simp] theorem direct?_optional : (optional b : TypeExpr β ρ).direct? = none := rfl

@[simp] theorem direct?_fixedBytes : (fixedBytes n : TypeExpr β ρ).direct? = none := rfl

@[simp] theorem direct?_bytes : (bytes k : TypeExpr β ρ).direct? = none := rfl

@[simp] theorem direct?_string : (string k : TypeExpr β ρ).direct? = none := rfl

@[simp] theorem target?_plain : (plain b : TypeExpr β ρ).target? = some r ↔ b = .named r := by
  cases b <;> simp [target?]

@[simp] theorem target?_array : (array b n).target? = some r ↔ b = .named r := by
  cases b <;> simp [target?]

@[simp] theorem target?_vector : (vector b k).target? = some r ↔ b = .named r := by
  cases b <;> simp [target?]

@[simp] theorem target?_optional : (optional b : TypeExpr β ρ).target? = some r ↔ b = .named r := by
  cases b <;> simp [target?]

@[simp] theorem target?_fixedBytes : (fixedBytes n : TypeExpr β ρ).target? = none := rfl

@[simp] theorem target?_bytes : (bytes k : TypeExpr β ρ).target? = none := rfl

@[simp] theorem target?_string : (string k : TypeExpr β ρ).target? = none := rfl

end Named

theorem target?_of_direct? {t : TypeExpr β ρ} {r : ρ} (h : t.direct? = some r) :
    t.target? = some r := by
  unfold direct? at h
  split at h <;> cases h <;> rfl

end TypeExpr

namespace Schema

/-- The values of all labels differ and fit the word of the discriminant; every arm has a name of its
own, and every case arm a label. -/
structure Union.Proper (u : Union) : Prop where
  arms : u.allArms ≠ []
  labelled : ∀ a ∈ u.arms, a.labels ≠ []
  unlabelled : ∀ a ∈ u.default, a.labels = []
  distinct : u.caseValues.Nodup
  fits : ∀ n ∈ u.caseValues, CaseSet.FitsWord u.selector n
  variants : (u.allArms.map (·.variant)).Nodup

/-- Labels and values differ, and the values fit a signed word. -/
structure LabelsProper (labels : List (String × Int)) : Prop where
  names : (labels.map (·.1)).Nodup
  values : (labels.map (·.2)).Nodup
  fits : ∀ l ∈ labels, Constant.isSigned32 l.2 = true

/-- What an arm carries is a member of the union. -/
theorem Union.type_mem_members {u : Union} {a : Arm} {f : Field} (ha : a ∈ u.allArms) (hf : a.field = some f) :
    f.type ∈ (Definition.union u).members :=
  List.mem_filterMap.mpr ⟨a, ha, by rw [hf]; rfl⟩

theorem labelOf?_eq_none_iff {labels : List (String × Int)} {n : Int} :
    labelOf? labels n = none ↔ n ∉ labels.map (·.2) := by
  rw [labelOf?, Option.map_eq_none_iff, List.find?_eq_none, List.mem_map]
  simp only [decide_eq_true_eq, not_exists, not_and]

theorem LabelsProper.append {seen : List (String × Int)} {name : String} {n : Int}
    (h : LabelsProper seen) (hname : name ∉ seen.map (·.1)) (hn : labelOf? seen n = none)
    (hfits : Constant.isSigned32 n = true) : LabelsProper (seen ++ [(name, n)]) := by
  have hvalue : n ∉ seen.map (·.2) := labelOf?_eq_none_iff.mp hn
  refine ⟨?_, ?_, ?_⟩
  · rw [List.map_append, List.map_singleton]
    exact h.names.append (List.nodup_singleton _) (by simpa using hname)
  · rw [List.map_append, List.map_singleton]
    exact h.values.append (List.nodup_singleton _) (by simpa using hvalue)
  · simpa [or_imp, forall_and] using ⟨fun a b => h.fits (a, b), hfits⟩

theorem LabelsProper.labelValue?_eq_some_iff {labels : List (String × Int)} (h : LabelsProper labels)
    {label : String} {n : Int} : labelValue? labels label = some n ↔ (label, n) ∈ labels :=
  lookup_eq_some_iff_of_nodup h.names

theorem LabelsProper.labelOf?_eq_some_iff {labels : List (String × Int)} (h : LabelsProper labels)
    {label : String} {n : Int} : labelOf? labels n = some label ↔ (label, n) ∈ labels := by
  rw [labelOf?, Option.map_eq_some_iff]
  constructor
  · rintro ⟨x, hfind, rfl⟩
    obtain ⟨hmem, rfl⟩ := (find?_eq_some_iff_of_nodup h.values).mp hfind
    exact hmem
  · intro hmem
    exact ⟨(label, n), (find?_eq_some_iff_of_nodup h.values).mpr ⟨hmem, rfl⟩, rfl⟩

def Definition.Proper : Definition → Prop
  | .typedef _ => True
  | .struct fields => (fields.map (·.name)).Nodup
  | .enum labels => labels ≠ [] ∧ LabelsProper labels
  | .union u => u.Proper

/-- The one definition refers to the other directly: neither a flag nor a length stands in between. -/
def Holds (s : Schema) (outer inner : String) : Prop :=
  ∃ d, s.definition? outer = some d ∧ ∃ t ∈ d.members, ∃ r, t.direct? = some r ∧ r.name = inner

/-- A value of the one definition may contain a value of the other. -/
def Mentions (s : Schema) (outer inner : String) : Prop :=
  ∃ d, s.definition? outer = some d ∧ ∃ t ∈ d.members, ∃ r, t.target? = some r ∧ r.name = inner

/-- A length word can hold the bound of the type, and its name is that of a definition of the kind
it is referred to by. -/
structure Ty.Resolved (s : Schema) (t : Ty) : Prop where
  bound : ∀ n ∈ t.bound?, n ≤ Wire.maxLength
  target : ∀ r, t.target? = some r → ∃ d, s.definition? r.name = some d ∧ d.kind = r.kind

theorem Ty.Resolved.isSome_target {s : Schema} {t : Ty} (h : t.Resolved s) {r : Ref} (hr : t.target? = some r) :
    (s.definition? r.name).isSome := by
  obtain ⟨d, hd, -⟩ := h.target r hr
  exact Option.isSome_iff_exists.mpr ⟨d, hd⟩

structure WellFormed (s : Schema) : Prop where
  distinct : s.typeNames.Nodup
  symbol : ∀ name d, s.definition? name = some d →
    ∃ x, Symbol.find? s.symbols name = some x ∧ x.kind = .type d.kind
  defined : ∀ name x k, Symbol.find? s.symbols name = some x → x.kind = .type k →
    name ∈ s.typeNames
  proper : ∀ name d, s.definition? name = some d → d.Proper
  resolved : ∀ name d, s.definition? name = some d → ∀ t ∈ d.members, t.Resolved s
  ranked : ∃ rank : String → Nat, (∀ name ∈ s.typeNames, rank name < s.types.length) ∧
    ∀ outer inner, s.Holds outer inner → rank inner < rank outer

theorem mem_typeNames_iff {s : Schema} {name : String} :
    name ∈ s.typeNames ↔ ∃ d, s.definition? name = some d := by
  rw [← Option.isSome_iff_exists]
  exact lookup_isSome_iff_mem.symm

end Schema

end XdrSchema
