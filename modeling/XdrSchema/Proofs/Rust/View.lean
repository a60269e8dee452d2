import XdrSchema.Proofs.Rust.Reorder

/-! Which types take a view of byte data: those in which byte data of variable length can be found by going
from a type to those that it mentions. To look in rounds, each from what the one before has found, and to
go over all types in order until nothing is found any more both come to the same types. -/
namespace XdrSchema

open Schema (Ty Definition)

/-- Byte data of variable length is in the type, or in one that it mentions, at whatever depth. -/
def Schema.CarriesBytes (s : Schema) (name : String) : Prop :=
  ∃ inner d, Relation.ReflTransGen s.Mentions name inner ∧ s.definition? inner = some d ∧
    ∃ t ∈ d.members, Rust.isByteData t = true

namespace Rust

variable {s : Schema} {types : List (String × Definition)} {generic : List String} {name : String}

theorem needsView_iff {t : Ty} : needsView generic t = true ↔
    isByteData t = true ∨ ∃ r, t.target? = some r ∧ r.name ∈ generic := by
  cases ht : t.target? <;> simp [needsView, ht]

/-- What is found through types that carry byte data carries it too. -/
theorem carriesBytes_of_needsView {d : Definition} (hd : s.definition? name = some d) {t : Ty}
    (ht : t ∈ d.members) (hgeneric : ∀ n ∈ generic, s.CarriesBytes n) (h : needsView generic t = true) :
    s.CarriesBytes name := by
  rcases needsView_iff.mp h with hbytes | ⟨r, hr, hmem⟩
  · exact ⟨name, d, .refl, hd, t, ht, hbytes⟩
  · obtain ⟨inner, d', hreach, hbytes⟩ := hgeneric r.name hmem
    exact ⟨inner, d', .head ⟨d, hd, t, ht, r, hr, rfl⟩ hreach, hbytes⟩

/-- Types through which no further one is found are all that carry byte data. -/
theorem mem_of_carriesBytes (hclosed : ∀ n d, s.definition? n = some d → ∀ t ∈ d.members,
      needsView generic t = true → n ∈ generic) (h : s.CarriesBytes name) : name ∈ generic := by
  obtain ⟨inner, d, hreach, hd, t, ht, hbytes⟩ := h
  induction hreach using Relation.ReflTransGen.head_induction_on with
  | refl => exact hclosed inner d hd t ht (needsView_iff.mpr (.inl hbytes))
  | head hmentions _ ih =>
    obtain ⟨d', hd', t', ht', r, hr, rfl⟩ := hmentions
    exact hclosed _ d' hd' t' ht' (needsView_iff.mpr (.inr ⟨r, hr, ih⟩))

/-! ### In rounds -/

theorem generics_eq_iterate (types : List (String × Definition)) :
    generics types = (widen types)^[types.length] [] := by
  rw [generics, List.foldl_const, List.length_range]

theorem widen_sublist {generic' : List String} (h : generic.Sublist generic') :
    (widen types generic).Sublist (widen types generic') := by
  refine List.Sublist.map _ (List.monotone_filter_right types fun x hx => ?_)
  obtain ⟨t, ht, hneeds⟩ := List.any_eq_true.mp hx
  refine List.any_eq_true.mpr ⟨t, ht, needsView_iff.mpr ((needsView_iff.mp hneeds).imp_right ?_)⟩
  rintro ⟨r, hr, hmem⟩
  exact ⟨r, hr, h.subset hmem⟩

/-- A round finds again what was found before. -/
theorem iterate_widen_sublist (types : List (String × Definition)) (k : Nat) :
    ((widen types)^[k] []).Sublist ((widen types)^[k + 1] []) := by
  induction k with
  | zero => exact List.nil_sublist _
  | succ k ih =>
    rw [Function.iterate_succ_apply', Function.iterate_succ_apply']
    exact widen_sublist ih

/-- As long as the rounds find something, each finds one type more. -/
theorem iterate_widen_eq_or_lt (types : List (String × Definition)) (k : Nat) :
    (widen types)^[k + 1] [] = (widen types)^[k] [] ∨ k < ((widen types)^[k + 1] []).length := by
  induction k with
  | zero => exact (Nat.eq_zero_or_pos _).imp_left List.eq_nil_of_length_eq_zero
  | succ k ih =>
    have hsub := iterate_widen_sublist types (k + 1)
    rcases ih with hstable | hlt
    · left
      rw [Function.iterate_succ_apply' _ (k + 1), hstable, ← Function.iterate_succ_apply' (widen types) k,
        hstable]
    · rcases hsub.length_le.eq_or_lt with heq | hlt'
      · exact .inl (hsub.eq_of_length heq).symm
      · exact .inr (by omega)

/-- As many rounds as there are types find all. -/
theorem widen_generics (types : List (String × Definition)) : widen types (generics types) = generics types := by
  rw [generics_eq_iterate, ← Function.iterate_succ_apply' (widen types)]
  refine (iterate_widen_eq_or_lt types types.length).resolve_right ?_
  have hlength : ((widen types)^[types.length + 1] []).length ≤ types.length := by
    rw [Function.iterate_succ_apply', widen, List.length_map]
    exact List.length_filter_le _ types
  omega

theorem mem_generics_iff (hdistinct : s.typeNames.Nodup) : name ∈ generics s.types ↔ s.CarriesBytes name := by
  constructor
  · rw [generics_eq_iterate]
    generalize s.types.length = k
    induction k generalizing name with
    | zero => nofun
    | succ k ih =>
      rw [Function.iterate_succ_apply', mem_widen_iff]
      rintro ⟨d, hd, t, ht, hneeds⟩
      exact carriesBytes_of_needsView ((lookup_eq_some_iff_of_nodup hdistinct).mpr hd) ht (fun _ => ih) hneeds
  · refine mem_of_carriesBytes fun n d hd t ht hneeds => ?_
    rw [← widen_generics]
    exact mem_widen_iff.mpr ⟨d, (lookup_eq_some_iff_of_nodup hdistinct).mp hd, t, ht, hneeds⟩

/-! ### In place -/

/-- Goes over the types in order. What is found is used for the types after it. -/
def sweep : List (String × Definition) → List String → List String
  | [], generic => generic
  | (name, d) :: rest, generic =>
    sweep rest (if name ∉ generic ∧ d.members.any (needsView generic) then name :: generic else generic)

theorem suffix_sweep (types : List (String × Definition)) (generic : List String) :
    generic <:+ sweep types generic := by
  induction types generalizing generic with
  | nil => exact List.suffix_rfl
  | cons x rest ih =>
    rw [sweep]
    split
    · exact (List.suffix_cons _ _).trans (ih _)
    · exact ih _

/-- What is found is among the types. -/
theorem exists_new_of_sweep_ne (h : sweep types generic ≠ generic) :
    ∃ x ∈ types, x.1 ∉ generic ∧ x.1 ∈ sweep types generic := by
  induction types with
  | nil => exact absurd rfl h
  | cons x rest ih =>
    rw [sweep] at h ⊢
    split at h
    · next hfound =>
      rw [if_pos hfound]
      exact ⟨x, List.mem_cons_self, hfound.1, (suffix_sweep rest _).subset List.mem_cons_self⟩
    · next hfound =>
      rw [if_neg hfound]
      obtain ⟨y, hy, hnew, hmem⟩ := ih h
      exact ⟨y, List.mem_cons_of_mem _ hy, hnew, hmem⟩

theorem length_filter_sweep_lt (h : sweep types generic ≠ generic) :
    (types.filter (·.1 ∉ sweep types generic)).length < (types.filter (·.1 ∉ generic)).length := by
  have hsub : (types.filter (·.1 ∉ sweep types generic)).Sublist (types.filter (·.1 ∉ generic)) := by
    refine List.monotone_filter_right types fun x hx => ?_
    simp only [decide_eq_true_eq] at hx ⊢
    exact fun hmem => hx ((suffix_sweep types generic).subset hmem)
  refine Nat.lt_of_le_of_ne hsub.length_le fun heq => ?_
  obtain ⟨x, hx, hnew, hmem⟩ := exists_new_of_sweep_ne h
  have hin : x ∈ types.filter (·.1 ∉ generic) := List.mem_filter.mpr ⟨hx, by simpa using hnew⟩
  rw [← hsub.eq_of_length heq] at hin
  simpa [hmem] using (List.mem_filter.mp hin).2

/-- Goes over the types until nothing is found any more. -/
def rescan (types : List (String × Definition)) (generic : List String) : List String :=
  if _h : sweep types generic = generic then generic else rescan types (sweep types generic)
termination_by (types.filter (·.1 ∉ generic)).length
decreasing_by exact length_filter_sweep_lt _h

theorem carriesBytes_of_mem_sweep (hsub : ∀ x ∈ types, s.definition? x.1 = some x.2)
    (hgeneric : ∀ n ∈ generic, s.CarriesBytes n) : ∀ n ∈ sweep types generic, s.CarriesBytes n := by
  induction types generalizing generic with
  | nil => exact hgeneric
  | cons x rest ih =>
    rw [List.forall_mem_cons] at hsub
    refine ih hsub.2 ?_
    split
    · next hfound =>
      obtain ⟨t, ht, hneeds⟩ := List.any_eq_true.mp hfound.2
      exact List.forall_mem_cons.mpr ⟨carriesBytes_of_needsView hsub.1 ht hgeneric hneeds, hgeneric⟩
    · exact hgeneric

/-- When nothing is found any more, no type is missing. -/
theorem mem_of_sweep_eq (h : sweep types generic = generic) {d : Definition} (hmem : (name, d) ∈ types)
    {t : Ty} (ht : t ∈ d.members) (hneeds : needsView generic t = true) : name ∈ generic := by
  induction types with
  | nil => cases hmem
  | cons x rest ih =>
    rw [sweep] at h
    split at h
    -- had the first type been found, the sweep would have grown
    · have hlength := (suffix_sweep rest (x.1 :: generic)).length_le
      rw [h, List.length_cons] at hlength
      omega
    · next hfound =>
      rcases List.mem_cons.mp hmem with rfl | hmem
      · by_contra hnew
        exact hfound ⟨hnew, List.any_eq_true.mpr ⟨t, ht, hneeds⟩⟩
      · exact ih h hmem

theorem mem_rescan_iff (hdistinct : s.typeNames.Nodup) (generic : List String)
    (hgeneric : ∀ n ∈ generic, s.CarriesBytes n) : name ∈ rescan s.types generic ↔ s.CarriesBytes name := by
  have hlookup {n : String} {d : Definition} : s.definition? n = some d ↔ (n, d) ∈ s.types :=
    lookup_eq_some_iff_of_nodup hdistinct
  rw [rescan]
  by_cases hstable : sweep s.types generic = generic
  · rw [dif_pos hstable]
    exact ⟨hgeneric name, mem_of_carriesBytes fun n d hd t ht hneeds =>
      mem_of_sweep_eq hstable (hlookup.mp hd) ht hneeds⟩
  · rw [dif_neg hstable]
    exact mem_rescan_iff hdistinct _ (carriesBytes_of_mem_sweep (fun x hx => hlookup.mpr hx) hgeneric)
termination_by (s.types.filter (·.1 ∉ generic)).length
decreasing_by exact length_filter_sweep_lt hstable

end Rust

end XdrSchema
