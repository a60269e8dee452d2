import Mathlib.Data.List.Nodup
import Mathlib.Data.List.Perm.Subperm
import XdrSchema.Schema.Variant

/-! No two arms of a union have the same variant name: of more variations of a name than there are
names taken, one is free. -/
namespace XdrSchema

theorem isDigit_of_mem_repr {k : Nat} {c : Char} (h : c ∈ k.repr.toList) : c.isDigit = true := by
  rw [Nat.toList_repr] at h
  exact Nat.isDigit_of_mem_toDigits (by decide) (by decide) h

namespace Schema.Variant

theorem repr_injective : Function.Injective Nat.repr := by
  intro m n h
  have h10 : (1 : Nat) < 10 := by decide
  rw [← Nat.ofDigitChars_toDigits h10 Nat.le.refl (n := m), ← Nat.ofDigitChars_toDigits h10 Nat.le.refl (n := n),
    ← Nat.toList_repr, ← Nat.toList_repr, h]

theorem variation_injective (name : String) :
    Function.Injective fun k : Nat => s!"{name}_{k + 2}" := by
  intro j k h
  have hrepr := repr_injective ((String.append_right_inj _).mp h)
  omega

/-- One of the first variations is not taken. -/
theorem exists_variation (taken : List String) (name : String) :
    ∃ k ∈ List.range (taken.length + 1), s!"{name}_{k + 2}" ∉ taken := by
  by_contra hnone
  push Not at hnone
  have hnodup := (List.nodup_range (n := taken.length + 1)).map (variation_injective name)
  have hsub : (List.range (taken.length + 1)).map (fun k => s!"{name}_{k + 2}") ⊆ taken := by
    intro x hx
    obtain ⟨k, hk, rfl⟩ := List.mem_map.mp hx
    exact hnone k hk
  have hle := (List.subperm_of_subset hnodup hsub).length_le
  rw [List.length_map, List.length_range] at hle
  omega

theorem unique_not_mem (taken : List String) (name : String) : unique taken name ∉ taken := by
  unfold unique
  dsimp only
  split
  · next hmem =>
    obtain ⟨k, hk, hfree⟩ := exists_variation taken name
    split
    · next j hj => simpa using List.find?_some hj
    · next hnone => exact absurd hfree (by simpa using List.find?_eq_none.mp hnone k hk)
  · assumption

theorem assignFrom_distinct (all : List String) (hasDefault : Bool) (drafts : List Draft)
    (taken : List String) : (assignFrom all hasDefault taken drafts).Nodup ∧
      ∀ name ∈ assignFrom all hasDefault taken drafts, name ∉ taken := by
  induction drafts generalizing taken with
  | nil => simp [assignFrom]
  | cons d rest ih =>
    rw [assignFrom]
    set name := unique taken _ with hname
    obtain ⟨hrest, hnew⟩ := ih (taken ++ [name])
    have hfree : name ∉ taken := hname ▸ unique_not_mem taken _
    rw [List.nodup_cons]
    refine ⟨⟨fun hmem => hnew name hmem (by simp), hrest⟩, ?_⟩
    rw [List.forall_mem_cons]
    exact ⟨hfree, fun other hother hmem => hnew other hother (by simp [hmem])⟩

theorem length_assignFrom (all : List String) (hasDefault : Bool) (drafts : List Draft)
    (taken : List String) : (assignFrom all hasDefault taken drafts).length = drafts.length := by
  induction drafts generalizing taken with
  | nil => rfl
  | cons d rest ih => rw [assignFrom, List.length_cons, ih, List.length_cons]

theorem assign_nodup (hasDefault : Bool) (drafts : List Draft) :
    (assign hasDefault drafts).Nodup := (assignFrom_distinct _ _ _ _).1

theorem length_assign (hasDefault : Bool) (drafts : List Draft) :
    (assign hasDefault drafts).length = drafts.length := length_assignFrom _ _ _ _

/-- The default arm has a name of its own. -/
theorem defaultFor_not_mem (names : List String) : defaultFor names ∉ names :=
  unique_not_mem names defaultName

/-! ### What names are made of -/

/-- The name is the one that the arm prefers or the one made from its labels, or one of these with a number. -/
def Made (d : Draft) (name : String) : Prop :=
  ∃ base, (base = preferred d ∨ base = caseName d.labels) ∧ (name = base ∨ ∃ k : Nat, name = s!"{base}_{k}")

theorem unique_eq (taken : List String) (name : String) :
    unique taken name = name ∨ ∃ k : Nat, unique taken name = s!"{name}_{k}" := by
  unfold unique
  dsimp only
  split
  · right
    split <;> exact ⟨_, rfl⟩
  · exact .inl rfl

theorem made_assignFrom {β : Type} (all : List String) (hasDefault : Bool) (drafts : List Draft) (taken : List String)
    (bs : List β) : ∀ x ∈ (assignFrom all hasDefault taken drafts).zip (drafts.zip bs), Made x.2.1 x.1 := by
  induction drafts generalizing taken bs with
  | nil => simp
  | cons d rest ih =>
    cases bs with
    | nil => simp
    | cons b bs =>
      rw [assignFrom, List.zip_cons_cons, List.zip_cons_cons, List.forall_mem_cons]
      refine ⟨⟨_, ?_, unique_eq taken _⟩, ih _ bs⟩
      split
      · exact .inr rfl
      · exact .inl rfl

/-- The names of arms that carry something each. -/
theorem made_assign {β : Type} (hasDefault : Bool) (drafts : List Draft) (bs : List β) :
    ∀ x ∈ (assign hasDefault drafts).zip (drafts.zip bs), Made x.2.1 x.1 := made_assignFrom _ _ _ _ bs

end Schema.Variant

end XdrSchema
