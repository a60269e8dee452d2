import Mathlib.Algebra.Ring.Int.Defs
import Mathlib.Data.List.Forall2
import XdrSchema.Wire.Size

/-! The arithmetic of sizes. In a proper size the least and the greatest size are in order; on proper
sizes every operation acts on the least size, the greatest size and the mark of a fixed size
separately. -/
namespace XdrSchema.Wire.Size

/-- The least size is not above the greatest; of a fixed size they are the same. -/
structure Proper (z : Size) : Prop where
  nonneg : 0 ≤ z.min
  ordered : ∀ m, z.max = some m → z.min ≤ m
  fixed : z.fixed = true → z.max = some z.min

variable {a b z : Size} {n : Nat}

@[simp] theorem proper_exact {n : Int} (h : 0 ≤ n) : (exact n).Proper :=
  ⟨h, fun _ hm => by cases hm; exact Int.le_refl n, fun _ => rfl⟩

@[simp] theorem proper_unknown : unknown.Proper := ⟨Int.le_refl 0, nofun, nofun⟩

theorem Proper.max_nonneg (h : z.Proper) {m : Int} (hm : z.max = some m) : 0 ≤ m :=
  Int.le_trans h.nonneg (h.ordered m hm)

/-- The two ways to build a size from its parts agree on proper sizes. -/
theorem Proper.eq_exact_or_range (h : z.Proper) :
    (if z.fixed then exact z.min else range z.min z.max) = z := by
  obtain ⟨lo, hi, fixed⟩ := z
  cases fixed with
  | false => rfl
  | true =>
    obtain rfl : hi = some lo := h.fixed rfl
    rfl

/-! ### One after another -/

theorem addMax_eq_some_iff {x y : Option Int} {m : Int} :
    addMax x y = some m ↔ ∃ i j, x = some i ∧ y = some j ∧ i + j = m := by
  cases x <;> cases y <;> simp [addMax]

theorem addMax_eq_none_iff {x y : Option Int} : addMax x y = none ↔ x = none ∨ y = none := by
  cases x <;> cases y <;> simp [addMax]

theorem append_exact_zero (z : Size) : z.append (exact 0) = z := by
  obtain ⟨lo, hi, fixed⟩ := z
  cases hi <;> simp [append, exact, addMax]

theorem append_assoc (a b z : Size) : (a.append b).append z = a.append (b.append z) := by
  have hmax : addMax (addMax a.max b.max) z.max = addMax a.max (addMax b.max z.max) := by
    cases a.max <;> cases b.max <;> cases z.max <;> simp [addMax, Int.add_assoc]
  simp only [append, hmax, Int.add_assoc, Bool.and_assoc]

theorem Proper.append (ha : a.Proper) (hb : b.Proper) : (a.append b).Proper := by
  refine ⟨Int.add_nonneg ha.nonneg hb.nonneg, ?_, ?_⟩
  · intro m hm
    obtain ⟨i, j, hi, hj, rfl⟩ := addMax_eq_some_iff.mp hm
    exact Int.add_le_add (ha.ordered i hi) (hb.ordered j hj)
  · intro hfixed
    obtain ⟨hfa, hfb⟩ := Bool.and_eq_true_iff.mp hfixed
    simp only [Size.append, ha.fixed hfa, hb.fixed hfb, addMax]

theorem foldl_append (parts : List Size) (z : Size) :
    parts.foldl append z = z.append (parts.foldr append (exact 0)) := by
  induction parts generalizing z with
  | nil => exact (append_exact_zero z).symm
  | cons p rest ih => rw [List.foldl_cons, ih, append_assoc, List.foldr_cons]

theorem proper_foldr_append {parts : List Size} (h : ∀ p ∈ parts, p.Proper) :
    (parts.foldr append (exact 0)).Proper := by
  induction parts with
  | nil => exact proper_exact (Int.le_refl 0)
  | cons p rest ih =>
    rw [List.forall_mem_cons] at h
    exact h.1.append (ih h.2)

/-- A sequence of proper sizes is their sum. -/
theorem sequence_eq_foldr {parts : List Size} (h : ∀ p ∈ parts, p.Proper) :
    sequence parts = parts.foldr append (exact 0) := by
  have hstart : (exact 0).append (parts.foldr append (exact 0)) = parts.foldr append (exact 0) := by
    obtain ⟨lo, hi, fixed⟩ := parts.foldr append (exact 0)
    cases hi <;> simp [append, exact, addMax]
  have hproper := proper_foldr_append h
  rw [sequence, foldl_append, hstart]
  exact hproper.eq_exact_or_range

theorem proper_sequence {parts : List Size} (h : ∀ p ∈ parts, p.Proper) : (sequence parts).Proper := by
  rw [sequence_eq_foldr h]
  exact proper_foldr_append h

theorem sequence_cons {p : Size} {rest : List Size} (hp : p.Proper) (h : ∀ q ∈ rest, q.Proper) :
    sequence (p :: rest) = p.append (sequence rest) := by
  rw [sequence_eq_foldr (List.forall_mem_cons.mpr ⟨hp, h⟩), sequence_eq_foldr h, List.foldr_cons]

theorem sequence_min {parts : List Size} (h : ∀ p ∈ parts, p.Proper) :
    (sequence parts).min = (parts.map (·.min)).sum := by
  rw [sequence_eq_foldr h]
  clear h
  induction parts with
  | nil => rfl
  | cons p rest ih => rw [List.foldr_cons, List.map_cons, List.sum_cons, ← ih, append]

theorem sequence_max_eq_some {parts : List Size} (h : ∀ p ∈ parts, p.Proper) {m : Int}
    (hm : (sequence parts).max = some m) :
    ∃ ns, List.Forall₂ (fun p n => p.max = some n) parts ns ∧ ns.sum = m := by
  rw [sequence_eq_foldr h] at hm
  clear h
  induction parts generalizing m with
  | nil =>
    cases hm
    exact ⟨[], .nil, rfl⟩
  | cons p rest ih =>
    obtain ⟨i, j, hi, hj, rfl⟩ := addMax_eq_some_iff.mp hm
    obtain ⟨ns, hns, rfl⟩ := ih hj
    exact ⟨i :: ns, .cons hi hns, List.sum_cons⟩

/-! ### Repetition -/

theorem times_eq (h : z.Proper) : z.times n = ⟨z.min * n, z.max.map (· * n), z.fixed⟩ := by
  unfold times
  cases hfixed : z.fixed with
  | false => rfl
  | true =>
    rw [h.fixed hfixed]
    rfl

theorem Proper.times (h : z.Proper) : (z.times n).Proper := by
  rw [times_eq h]
  refine ⟨Int.mul_nonneg h.nonneg (Int.natCast_nonneg n), ?_, ?_⟩
  · intro m hm
    obtain ⟨i, hi, rfl⟩ := Option.map_eq_some_iff.mp hm
    exact Int.mul_le_mul_of_nonneg_right (h.ordered i hi) (Int.natCast_nonneg n)
  · intro hfixed
    simp only [h.fixed hfixed, Option.map_some]

@[simp] theorem exact_times (i : Int) (n : Nat) : (exact i).times n = exact (i * n) := rfl

@[simp] theorem exact_max_ne_none (n : Int) : (exact n).max ≠ none := nofun

theorem times_max_eq_none_iff (h : z.Proper) : (z.times n).max = none ↔ z.max = none := by
  rw [times_eq h, Option.map_eq_none_iff]

@[simp] theorem upTo_max_eq_none_iff {bound : Option Nat} :
    (z.upTo bound).max = none ↔ bound = none ∨ z.max = none := by
  cases bound <;> cases h : z.max <;> simp [upTo, range, h]

theorem upTo_max {m : Int} {bound : Nat} (hm : z.max = some m) :
    (z.upTo (some bound)).max = some (4 + bound * m) := by
  simp [upTo, range, hm]

@[simp] theorem optional_max_eq_none_iff : z.optional.max = none ↔ z.max = none := by
  show addMax (some 4) z.max = none ↔ _
  rw [addMax_eq_none_iff]
  simp

@[simp] theorem data_max_eq_none_iff {bound : Option Nat} : (data bound).max = none ↔ bound = none := by
  cases bound <;> simp [data, range]

theorem Proper.upTo (h : z.Proper) (bound : Option Nat) : (z.upTo bound).Proper := by
  refine ⟨(by decide : (0 : Int) ≤ 4), ?_, nofun⟩
  intro m hm
  cases bound with
  | none => cases hm
  | some n =>
    cases hz : z.max with
    | none => simp [Size.upTo, range, hz] at hm
    | some k =>
      rw [upTo_max hz] at hm
      cases hm
      have hk := Int.mul_nonneg (Int.natCast_nonneg n) (h.max_nonneg hz)
      show (4 : Int) ≤ 4 + n * k
      omega

theorem Proper.optional (h : z.Proper) : z.optional.Proper := by
  refine ⟨(by decide : (0 : Int) ≤ 4), ?_, nofun⟩
  intro m hm
  obtain ⟨i, j, hi, hj, rfl⟩ := addMax_eq_some_iff.mp hm
  cases hi
  have hj' := h.max_nonneg hj
  show (4 : Int) ≤ 4 + j
  omega

theorem proper_data (bound : Option Nat) : (data bound).Proper := by
  refine ⟨(by decide : (0 : Int) ≤ 4), ?_, nofun⟩
  intro m hm
  obtain ⟨n, rfl, rfl⟩ := Option.map_eq_some_iff.mp hm
  show (4 : Int) ≤ 4 + paddedSize n
  omega

/-! ### Choice -/

theorem least_le {xs : List Int} {x : Int} (hx : x ∈ xs) : least xs ≤ x := by
  induction xs with
  | nil => cases hx
  | cons y rest ih =>
    cases rest with
    | nil =>
      rw [List.mem_singleton] at hx
      exact Int.le_of_eq hx.symm
    | cons y' rest =>
      rw [least]
      · rcases List.mem_cons.mp hx with rfl | hx
        · split <;> omega
        · have hrest := ih hx
          split <;> omega
      · exact List.cons_ne_nil _ _

theorem least_mem {xs : List Int} (h : xs ≠ []) : least xs ∈ xs := by
  induction xs with
  | nil => exact absurd rfl h
  | cons y rest ih =>
    cases rest with
    | nil => exact List.mem_singleton_self y
    | cons y' rest =>
      rw [least]
      · split
        · exact List.mem_cons_self
        · exact List.mem_cons_of_mem _ (ih (List.cons_ne_nil _ _))
      · exact List.cons_ne_nil _ _

theorem greatest_eq_none_iff {xs : List (Option Int)} : greatest xs = none ↔ none ∈ xs := by
  induction xs with
  | nil => simp [greatest]
  | cons x rest ih => cases x <;> simp [greatest, ih]

theorem le_greatest {xs : List (Option Int)} {m : Int} (h : greatest xs = some m) :
    0 ≤ m ∧ ∀ x ∈ xs, ∃ n, x = some n ∧ n ≤ m := by
  induction xs generalizing m with
  | nil =>
    cases h
    exact ⟨Int.le_refl 0, nofun⟩
  | cons x rest ih =>
    cases x with
    | none => cases h
    | some n =>
      obtain ⟨k, hk, rfl⟩ := Option.map_eq_some_iff.mp h
      obtain ⟨hnonneg, hrest⟩ := ih hk
      rw [List.forall_mem_cons]
      refine ⟨by split <;> omega, ⟨n, rfl, by split <;> omega⟩, ?_⟩
      intro y hy
      obtain ⟨i, rfl, hi⟩ := hrest y hy
      exact ⟨i, rfl, by split <;> omega⟩

/-- Unless there are no items, the greatest size is that of one of them. -/
theorem greatest_mem {xs : List (Option Int)} {m : Int} (hne : xs ≠ [])
    (hnonneg : ∀ x, some x ∈ xs → 0 ≤ x) (h : greatest xs = some m) : some m ∈ xs := by
  induction xs generalizing m with
  | nil => exact absurd rfl hne
  | cons x rest ih =>
    cases x with
    | none => cases h
    | some n =>
      obtain ⟨k, hk, rfl⟩ := Option.map_eq_some_iff.mp h
      have hn := hnonneg n List.mem_cons_self
      by_cases hempty : rest = []
      · subst hempty
        cases hk
        have hmax : (if n ≤ 0 then 0 else n) = n := by split <;> omega
        rw [hmax]
        exact List.mem_cons_self
      · have hmem := ih hempty (fun x hx => hnonneg x (List.mem_cons_of_mem _ hx)) hk
        split
        · exact List.mem_cons_of_mem _ hmem
        · exact List.mem_cons_self

/-- The mark of a choice: every item has the same exact size. -/
def uniform (items : List Size) : Bool :=
  items.all fun s => s.fixed && s.min = least (items.map (·.min))

theorem greatest_of_uniform {items : List Size} (hne : items ≠ []) (h : ∀ z ∈ items, z.Proper)
    (hall : uniform items = true) :
    greatest (items.map (·.max)) = some (least (items.map (·.min))) := by
  have hsame : ∀ x ∈ items.map (·.max), x = some (least (items.map (·.min))) := by
    intro x hx
    obtain ⟨z, hz, rfl⟩ := List.mem_map.mp hx
    obtain ⟨hfixed, hmin⟩ : z.fixed = true ∧ z.min = least (items.map (·.min)) := by
      simpa using List.all_eq_true.mp hall z hz
    rw [(h z hz).fixed hfixed, hmin]
  have hmaxes : items.map (·.max) ≠ [] := by simpa using hne
  cases hg : greatest (items.map (·.max)) with
  | none => cases hsame none (greatest_eq_none_iff.mp hg)
  | some m =>
    refine hsame _ (greatest_mem hmaxes ?_ hg)
    intro x hx
    obtain ⟨z, hz, hzx⟩ := List.mem_map.mp hx
    exact (h z hz).max_nonneg hzx

theorem choice_eq {items : List Size} (hne : items ≠ []) (h : ∀ z ∈ items, z.Proper) :
    choice items = ⟨4 + least (items.map (·.min)), addMax (some 4) (greatest (items.map (·.max))),
      uniform items⟩ := by
  unfold choice
  by_cases hall : uniform items = true
  · rw [greatest_of_uniform hne h hall, hall]
    exact if_pos hall
  · rw [Bool.not_eq_true] at hall
    rw [hall]
    exact if_neg (by simpa [uniform] using hall)

theorem proper_choice {items : List Size} (hne : items ≠ []) (h : ∀ z ∈ items, z.Proper) :
    (choice items).Proper := by
  have hmins : items.map (·.min) ≠ [] := by simpa using hne
  obtain ⟨z, hz, hleast⟩ := List.mem_map.mp (least_mem hmins)
  have hnonneg := (h z hz).nonneg
  rw [choice_eq hne h]
  refine ⟨?_, ?_, ?_⟩
  · show 0 ≤ 4 + least (items.map (·.min))
    omega
  · intro m hm
    obtain ⟨i, j, hi, hj, rfl⟩ := addMax_eq_some_iff.mp hm
    cases hi
    obtain ⟨n, hn, hnj⟩ := (le_greatest hj).2 z.max (List.mem_map_of_mem hz)
    have hordered := (h z hz).ordered n hn
    show 4 + least (items.map (·.min)) ≤ 4 + j
    omega
  · intro hall
    show addMax (some 4) (greatest (items.map (·.max))) = _
    rw [greatest_of_uniform hne h hall, addMax]

/-- Both bounds of a choice are those of one of the items. -/
theorem exists_choice_min {items : List Size} (hne : items ≠ []) (h : ∀ z ∈ items, z.Proper) :
    ∃ z ∈ items, (choice items).min = 4 + z.min := by
  have hmins : items.map (·.min) ≠ [] := by simpa using hne
  obtain ⟨z, hz, hleast⟩ := List.mem_map.mp (least_mem hmins)
  exact ⟨z, hz, by rw [choice_eq hne h, hleast]⟩

theorem exists_choice_max {items : List Size} (hne : items ≠ []) (h : ∀ z ∈ items, z.Proper) {m : Int}
    (hm : (choice items).max = some m) : ∃ z ∈ items, ∃ k, z.max = some k ∧ 4 + k = m := by
  rw [choice_eq hne h] at hm
  obtain ⟨i, j, hi, hj, rfl⟩ := addMax_eq_some_iff.mp hm
  cases hi
  have hmaxes : items.map (·.max) ≠ [] := by simpa using hne
  have hmem := greatest_mem hmaxes (fun x hx => ?_) hj
  · obtain ⟨z, hz, hmax⟩ := List.mem_map.mp hmem
    exact ⟨z, hz, j, hmax, rfl⟩
  · obtain ⟨z, hz, hmax⟩ := List.mem_map.mp hx
    exact (h z hz).max_nonneg hmax

/-! ### Greatest sizes -/

theorem sequence_max {parts : List Size} (h : ∀ p ∈ parts, p.Proper) :
    (sequence parts).max = (parts.map (·.max)).foldr addMax (some 0) := by
  rw [sequence_eq_foldr h]
  clear h
  induction parts with
  | nil => rfl
  | cons p rest ih => rw [List.foldr_cons, List.map_cons, List.foldr_cons, ← ih, append]

theorem choice_max {items : List Size} (hne : items ≠ []) (h : ∀ z ∈ items, z.Proper) :
    (choice items).max = addMax (some 4) (greatest (items.map (·.max))) := by rw [choice_eq hne h]

theorem foldr_addMax_eq_none_iff {xs : List (Option Int)} :
    xs.foldr addMax (some 0) = none ↔ none ∈ xs := by
  induction xs with
  | nil => simp
  | cons x rest ih => rw [List.foldr_cons, addMax_eq_none_iff, ih, List.mem_cons, eq_comm]

theorem sequence_max_eq_none_iff {parts : List Size} (h : ∀ p ∈ parts, p.Proper) :
    (sequence parts).max = none ↔ ∃ p ∈ parts, p.max = none := by
  rw [sequence_max h, foldr_addMax_eq_none_iff, List.mem_map]

theorem choice_max_eq_none_iff {items : List Size} (hne : items ≠ []) (h : ∀ z ∈ items, z.Proper) :
    (choice items).max = none ↔ ∃ z ∈ items, z.max = none := by
  rw [choice_max hne h, addMax_eq_none_iff, greatest_eq_none_iff, List.mem_map]
  simp

/-- The first size has no greatest size yet, or the same as the second. -/
def Refines (a b : Size) : Prop := a.max = none ∨ a.max = b.max

theorem Refines.times (ha : a.Proper) (hb : b.Proper) (h : Refines a b) :
    Refines (a.times n) (b.times n) := by
  rw [times_eq ha, times_eq hb]
  rcases h with h | h
  · exact .inl (by simp [h])
  · exact .inr (by simp [h])

theorem Refines.upTo (h : Refines a b) (bound : Option Nat) : Refines (a.upTo bound) (b.upTo bound) := by
  rcases h with h | h
  · exact .inl (upTo_max_eq_none_iff.mpr (.inr h))
  · exact .inr (by simp [Size.upTo, range, h])

theorem Refines.optional (h : Refines a b) : Refines a.optional b.optional := by
  rcases h with h | h
  · exact .inl (by simp [Size.optional, range, addMax, h])
  · exact .inr (by simp [Size.optional, range, h])

/-- Either a part is still open, or all of them agree. -/
theorem open_or_agree {as bs : List Size} (h : List.Forall₂ Refines as bs) :
    (∃ a ∈ as, a.max = none) ∨ as.map (·.max) = bs.map (·.max) := by
  induction h with
  | nil => exact .inr rfl
  | cons hab _ ih =>
    rcases hab, ih with ⟨hopen | hagree, ⟨z, hz, hnone⟩ | hrest⟩
    · exact .inl ⟨_, List.mem_cons_self, hopen⟩
    · exact .inl ⟨_, List.mem_cons_self, hopen⟩
    · exact .inl ⟨z, List.mem_cons_of_mem _ hz, hnone⟩
    · exact .inr (by rw [List.map_cons, List.map_cons, hagree, hrest])

theorem refines_sequence {as bs : List Size} (ha : ∀ a ∈ as, a.Proper) (hb : ∀ b ∈ bs, b.Proper)
    (h : List.Forall₂ Refines as bs) : Refines (sequence as) (sequence bs) := by
  rcases open_or_agree h with hopen | hagree
  · exact .inl ((sequence_max_eq_none_iff ha).mpr hopen)
  · exact .inr (by rw [sequence_max ha, sequence_max hb, hagree])

theorem refines_choice {as bs : List Size} (hne : as ≠ []) (ha : ∀ a ∈ as, a.Proper)
    (hb : ∀ b ∈ bs, b.Proper) (h : List.Forall₂ Refines as bs) : Refines (choice as) (choice bs) := by
  have hne' : bs ≠ [] := by
    rintro rfl
    exact hne (List.forall₂_nil_right_iff.mp h)
  rcases open_or_agree h with hopen | hagree
  · exact .inl ((choice_max_eq_none_iff hne ha).mpr hopen)
  · exact .inr (by rw [choice_max hne ha, choice_max hne' hb, hagree])

/-! ### Least sizes -/

/-- The least sizes are the same, and both are exact or neither is. -/
def SameLeast (a b : Size) : Prop := a.min = b.min ∧ a.fixed = b.fixed

theorem SameLeast.times (ha : a.Proper) (hb : b.Proper) (h : SameLeast a b) :
    SameLeast (a.times n) (b.times n) := by
  rw [times_eq ha, times_eq hb]
  exact ⟨congrArg (· * (n : Int)) h.1, h.2⟩

theorem sameLeast_upTo (bound : Option Nat) : SameLeast (a.upTo bound) (b.upTo bound) := ⟨rfl, rfl⟩

theorem sameLeast_optional : SameLeast a.optional b.optional := ⟨rfl, rfl⟩

theorem sameLeast_sequence {as bs : List Size} (ha : ∀ a ∈ as, a.Proper) (hb : ∀ b ∈ bs, b.Proper)
    (h : List.Forall₂ SameLeast as bs) : SameLeast (sequence as) (sequence bs) := by
  induction h with
  | nil => exact ⟨rfl, rfl⟩
  | cons hab _ ih =>
    rw [List.forall_mem_cons] at ha hb
    rw [sequence_cons ha.1 ha.2, sequence_cons hb.1 hb.2]
    obtain ⟨hmin, hfixed⟩ := ih ha.2 hb.2
    exact ⟨by simp only [append, hab.1, hmin], by simp only [append, hab.2, hfixed]⟩

theorem sameLeast_choice {as bs : List Size} (hne : as ≠ []) (ha : ∀ a ∈ as, a.Proper)
    (hb : ∀ b ∈ bs, b.Proper) (h : List.Forall₂ SameLeast as bs) :
    SameLeast (choice as) (choice bs) := by
  have hne' : bs ≠ [] := by
    rintro rfl
    exact hne (List.forall₂_nil_right_iff.mp h)
  have hmins : as.map (·.min) = bs.map (·.min) := by
    clear ha hb hne hne'
    induction h with
    | nil => rfl
    | cons hab _ ih => rw [List.map_cons, List.map_cons, hab.1, ih]
  have huniform : uniform as = uniform bs := by
    unfold uniform
    rw [hmins]
    generalize least (bs.map (·.min)) = lo
    clear ha hb hne hne' hmins
    induction h with
    | nil => rfl
    | cons hab _ ih => rw [List.all_cons, List.all_cons, hab.1, hab.2, ih]
  rw [choice_eq hne ha, choice_eq hne' hb]
  exact ⟨by simp only [hmins], huniform⟩

theorem SameLeast.eq_of_max (h : SameLeast a b) (hmax : a.max = b.max) : a = b := by
  obtain ⟨hmin, hfixed⟩ := h
  cases a
  cases b
  simp_all

/-! ### Lengths within a size -/

/-- A length is a number of words between the least and the greatest size, and the least size itself
if that is exact. -/
structure Admits (z : Size) (n : Int) : Prop where
  unit : 4 ∣ n
  least : z.min ≤ n
  greatest : ∀ m, z.max = some m → n ≤ m
  exact : z.fixed = true → n = z.min

theorem admits_exact {n : Int} (h : 4 ∣ n) : (exact n).Admits n :=
  ⟨h, Int.le_refl n, fun _ hm => by cases hm; exact Int.le_refl n, fun _ => rfl⟩

theorem Admits.append {i j : Int} (ha : a.Admits i) (hb : b.Admits j) : (a.append b).Admits (i + j) := by
  refine ⟨Int.dvd_add ha.unit hb.unit, Int.add_le_add ha.least hb.least, ?_, ?_⟩
  · intro m hm
    obtain ⟨x, y, hx, hy, rfl⟩ := addMax_eq_some_iff.mp hm
    exact Int.add_le_add (ha.greatest x hx) (hb.greatest y hy)
  · intro hfixed
    obtain ⟨hfa, hfb⟩ := Bool.and_eq_true_iff.mp hfixed
    show i + j = a.min + b.min
    rw [ha.exact hfa, hb.exact hfb]

theorem admits_sequence {parts : List Size} {ns : List Int} (hproper : ∀ p ∈ parts, p.Proper)
    (h : List.Forall₂ Admits parts ns) : (sequence parts).Admits ns.sum := by
  induction h with
  | nil => exact admits_exact (Int.dvd_zero 4)
  | cons hp _ ih =>
    rw [List.forall_mem_cons] at hproper
    rw [sequence_cons hproper.1 hproper.2, List.sum_cons]
    exact hp.append (ih hproper.2)

theorem admits_sum {ns : List Int} (h : ∀ n ∈ ns, z.Admits n) :
    4 ∣ ns.sum ∧ z.min * ns.length ≤ ns.sum ∧ (∀ m, z.max = some m → ns.sum ≤ m * ns.length) ∧
      (z.fixed = true → ns.sum = z.min * ns.length) := by
  induction ns with
  | nil => exact ⟨Int.dvd_zero 4, by simp, by simp, by simp⟩
  | cons n rest ih =>
    rw [List.forall_mem_cons] at h
    obtain ⟨hunit, hleast, hgreatest, hexact⟩ := ih h.2
    have hlen (i : Int) : i * ((n :: rest).length : Int) = i * rest.length + i := by
      rw [List.length_cons, Int.natCast_add, Int.mul_add, Int.natCast_one, Int.mul_one]
    rw [List.sum_cons, hlen]
    have hn := h.1
    refine ⟨Int.dvd_add hn.unit hunit, ?_, ?_, ?_⟩
    · have := hn.least
      omega
    · intro m hm
      rw [hlen]
      have := hn.greatest m hm
      have := hgreatest m hm
      omega
    · intro hfixed
      have := hn.exact hfixed
      have := hexact hfixed
      omega

theorem admits_times (hz : z.Proper) {ns : List Int} (hlen : ns.length = n)
    (h : ∀ k ∈ ns, z.Admits k) : (z.times n).Admits ns.sum := by
  obtain ⟨hunit, hleast, hgreatest, hexact⟩ := admits_sum h
  rw [hlen] at hleast hgreatest hexact
  rw [times_eq hz]
  refine ⟨hunit, hleast, ?_, hexact⟩
  intro m hm
  obtain ⟨i, hi, rfl⟩ := Option.map_eq_some_iff.mp hm
  exact hgreatest i hi

theorem admits_upTo (hz : z.Proper) {bound : Option Nat} {ns : List Int}
    (hlen : ∀ k, bound = some k → ns.length ≤ k) (h : ∀ k ∈ ns, z.Admits k) :
    (z.upTo bound).Admits (4 + ns.sum) := by
  obtain ⟨hunit, hleast, hgreatest, -⟩ := admits_sum h
  have hnonneg : 0 ≤ z.min * ns.length := Int.mul_nonneg hz.nonneg (Int.natCast_nonneg _)
  refine ⟨by omega, ?_, ?_, nofun⟩
  · show 4 ≤ 4 + ns.sum
    omega
  · intro m hm
    cases bound with
    | none => cases hm
    | some k =>
      cases hmax : z.max with
      | none => simp [Size.upTo, range, hmax] at hm
      | some i =>
        rw [upTo_max hmax] at hm
        cases hm
        have hk : (ns.length : Int) ≤ k := Int.ofNat_le.mpr (hlen k rfl)
        have hmul := Int.mul_le_mul_of_nonneg_right hk (hz.max_nonneg hmax)
        have := hgreatest i hmax
        rw [Int.mul_comm i] at this
        omega

theorem admits_absent (hz : z.Proper) : z.optional.Admits 4 := by
  refine ⟨Int.dvd_refl 4, Int.le_refl 4, ?_, nofun⟩
  intro m hm
  exact hz.optional.ordered m hm

theorem admits_present {n : Int} (hz : z.Proper) (h : z.Admits n) : z.optional.Admits (4 + n) := by
  have hnonneg := Int.le_trans hz.nonneg h.least
  refine ⟨Int.dvd_add (Int.dvd_refl 4) h.unit, ?_, ?_, nofun⟩
  · show 4 ≤ 4 + n
    omega
  · intro m hm
    obtain ⟨i, j, hi, hj, rfl⟩ := addMax_eq_some_iff.mp hm
    cases hi
    have := h.greatest j hj
    omega

theorem paddedSize_mono {m n : Nat} (h : m ≤ n) : paddedSize m ≤ paddedSize n := by
  unfold paddedSize padding
  omega

theorem dvd_paddedSize (n : Nat) : (4 : Int) ∣ paddedSize n := by
  have := paddedSize_mod n
  omega

theorem admits_data {bound : Option Nat} {n : Nat} (h : ∀ k, bound = some k → n ≤ k) :
    (data bound).Admits (4 + paddedSize n) := by
  refine ⟨Int.dvd_add (Int.dvd_refl 4) (dvd_paddedSize n), ?_, ?_, nofun⟩
  · show (4 : Int) ≤ 4 + paddedSize n
    omega
  · intro m hm
    obtain ⟨k, rfl, rfl⟩ := Option.map_eq_some_iff.mp hm
    have := paddedSize_mono (h k rfl)
    omega

theorem admits_choice {items : List Size} (hproper : ∀ z ∈ items, z.Proper) (hz : z ∈ items) {n : Int}
    (h : z.Admits n) : (choice items).Admits (4 + n) := by
  have hleast : least (items.map (·.min)) ≤ z.min := least_le (List.mem_map_of_mem hz)
  have hmin := h.least
  rw [choice_eq (List.ne_nil_of_mem hz) hproper]
  refine ⟨Int.dvd_add (Int.dvd_refl 4) h.unit, ?_, ?_, ?_⟩
  · show 4 + least (items.map (·.min)) ≤ 4 + n
    omega
  · intro m hm
    obtain ⟨i, j, hi, hj, rfl⟩ := addMax_eq_some_iff.mp hm
    cases hi
    obtain ⟨k, hk, hkj⟩ := (le_greatest hj).2 z.max (List.mem_map_of_mem hz)
    have := h.greatest k hk
    omega
  · intro hall
    obtain ⟨hfixed, hsame⟩ : z.fixed = true ∧ z.min = least (items.map (·.min)) := by
      simpa using List.all_eq_true.mp hall z hz
    show 4 + n = 4 + least (items.map (·.min))
    rw [h.exact hfixed, hsame]

end XdrSchema.Wire.Size
