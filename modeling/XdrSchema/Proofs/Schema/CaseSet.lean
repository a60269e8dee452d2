import Mathlib.Algebra.Group.Int.Defs
import Mathlib.Data.List.Nodup
import XdrSchema.Proofs.Chain
import XdrSchema.Schema.CaseSet

/-! The labels of a union that passed the check: no value occurs twice, and the discriminant can
have each of them. -/
namespace XdrSchema.Schema.CaseSet

/-- The values of some labels are distinct, and none is that of a label seen before. -/
def Fresh (seen labels : List Label) : Prop :=
  (labels.map (·.value)).Nodup ∧ ∀ l ∈ labels, ∀ earlier ∈ seen, l.value ≠ earlier.value

theorem fresh_append_iff {seen first rest : List Label} :
    Fresh seen (first ++ rest) ↔ Fresh seen first ∧ Fresh (seen ++ first) rest := by
  unfold Fresh
  rw [List.map_append, List.nodup_append]
  constructor
  · rintro ⟨⟨hfirst, hrest, hapart⟩, hseen⟩
    refine ⟨⟨hfirst, fun l hl => hseen l (List.mem_append_left _ hl)⟩, hrest,
      fun l hl earlier hearlier => ?_⟩
    rcases List.mem_append.mp hearlier with hearlier | hearlier
    · exact hseen l (List.mem_append_right _ hl) earlier hearlier
    · exact (hapart _ (List.mem_map_of_mem hearlier) _ (List.mem_map_of_mem hl)).symm
  · rintro ⟨⟨hfirst, hseen⟩, hrest, hnew⟩
    refine ⟨⟨hfirst, hrest, ?_⟩, ?_⟩
    · rintro x hx y hy rfl
      obtain ⟨earlier, hearlier, rfl⟩ := List.mem_map.mp hx
      obtain ⟨l, hl, heq⟩ := List.mem_map.mp hy
      exact hnew l hl earlier (List.mem_append_right _ hearlier) heq
    · intro l hl earlier hearlier
      rcases List.mem_append.mp hl with hl | hl
      · exact hseen l hl earlier hearlier
      · exact hnew l hl earlier (List.mem_append_left _ hearlier)

theorem fresh_singleton_iff {seen : List Label} {l : Label} :
    Fresh seen [l] ↔ seen.find? (·.value = l.value) = none := by
  rw [List.find?_eq_none]
  simp [Fresh, eq_comm]

variable {union : String} {selector : Selector} {labels : List (String × Int)}

theorem checkLabels_eq_ok_iff {ls seen : List Label} : checkLabels selector labels seen ls = .ok () ↔
    Fresh seen ls ∧ ∀ l ∈ ls, refusal? selector labels l = none := by
  induction ls generalizing seen with
  | nil => simp [checkLabels, Fresh, pure, Except.pure]
  | cons l rest ih =>
    rw [← List.singleton_append, fresh_append_iff, fresh_singleton_iff, List.singleton_append,
      List.forall_mem_cons, checkLabels]
    cases seen.find? (·.value = l.value) with
    | some earlier => simp
    | none =>
      cases refusal? selector labels l with
      | some fault => simp
      | none => simp [ih]

theorem checkFrom_eq_ok_iff {drafts : List Variant.Draft} {seen : List Label} :
    checkFrom union selector labels seen drafts = .ok () ↔ Fresh seen (drafts.flatMap (·.labels)) ∧
      ∀ l ∈ drafts.flatMap (·.labels), refusal? selector labels l = none := by
  induction drafts generalizing seen with
  | nil => simp [checkFrom, Fresh, pure, Except.pure]
  | cons d rest ih =>
    rw [List.flatMap_cons, fresh_append_iff, List.forall_mem_append, checkFrom]
    have hlabels : checkLabels selector labels seen d.labels = .ok () ↔ _ := checkLabels_eq_ok_iff
    cases hcheck : checkLabels selector labels seen d.labels with
    | error fault =>
      rw [hcheck] at hlabels
      refine ⟨nofun, fun ⟨hfresh, hrefusal⟩ => ?_⟩
      exact nomatch hlabels.mpr ⟨hfresh.1, hrefusal.1⟩
    | ok =>
      obtain ⟨hfresh, hrefusal⟩ := hlabels.mp hcheck
      simp only [ih, hfresh, true_and, and_congr_right_iff]
      exact fun _ => (and_iff_right hrefusal).symm

/-- What is found wrong with the cases of a union is said so. -/
theorem failsWith_checkFrom {E : SpecError → Prop} (h : ∀ fault span, E ⟨.caseSet union fault, span⟩)
    (drafts : List Variant.Draft) (seen : List Label) :
    FailsWith E (checkFrom union selector labels seen drafts) := by
  induction drafts generalizing seen with
  | nil => exact failsWith_ok ()
  | cons d rest ih =>
    rw [checkFrom]
    split
    · exact failsWith_error (h _ _)
    · exact ih _

theorem check_eq_ok_iff {drafts : List Variant.Draft} :
    check union selector labels drafts = .ok () ↔
      ((drafts.flatMap (·.labels)).map (·.value)).Nodup ∧
        ∀ l ∈ drafts.flatMap (·.labels), refusal? selector labels l = none := by
  rw [check, checkFrom_eq_ok_iff, Fresh]
  simp

/-- A value that the word of a discriminant can hold. -/
def FitsWord (selector : Selector) (value : Int) : Prop :=
  if selector = .unsigned then 0 ≤ value ∧ value < 2 ^ 32
  else -2 ^ 31 ≤ value ∧ value < 2 ^ 31

theorem isSigned32_iff {n : Int} : Constant.isSigned32 n = true ↔ -2 ^ 31 ≤ n ∧ n < 2 ^ 31 := by
  simp only [Constant.isSigned32, Bool.and_eq_true, decide_eq_true_eq]
  omega

theorem isUnsigned32_iff {n : Int} : Constant.isUnsigned32 n = true ↔ 0 ≤ n ∧ n < 2 ^ 32 := by
  simp only [Constant.isUnsigned32, Bool.and_eq_true, decide_eq_true_eq]
  omega

/-- A label that is not refused fits, provided that those of an enumeration do. -/
theorem fitsWord_of_refusal {l : Label} (hlabels : ∀ x ∈ labels, Constant.isSigned32 x.2 = true)
    (h : refusal? selector labels l = none) : FitsWord selector l.value := by
  cases selector with
  | signed =>
    have hfits : Constant.isSigned32 l.value = true := by simpa [refusal?] using h
    simpa [FitsWord] using isSigned32_iff.mp hfits
  | unsigned =>
    have hfits : ¬ l.value < 0 ∧ Constant.isUnsigned32 l.value = true := by
      unfold refusal? at h
      dsimp only at h
      split at h
      · cases h
      · next hneg => exact ⟨hneg, by simpa using h⟩
    simpa [FitsWord] using isUnsigned32_iff.mp hfits.2
  | bool =>
    have hbit : l.value = 0 ∨ l.value = 1 :=
      Decidable.or_iff_not_imp_left.mpr (by simpa [refusal?] using h)
    rcases hbit with hbit | hbit <;> simp [FitsWord, hbit]
  | enum name =>
    have hmem : l.value ∈ labels.map (·.2) := by
      unfold refusal? at h
      dsimp only at h
      split at h
      · assumption
      · cases h
    obtain ⟨x, hx, hvalue⟩ := List.mem_map.mp hmem
    rw [← hvalue]
    simpa [FitsWord] using isSigned32_iff.mp (hlabels x hx)

end XdrSchema.Schema.CaseSet
