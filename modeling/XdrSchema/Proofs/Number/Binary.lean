import Mathlib.Tactic.Ring
import XdrSchema.Number.Binary

/-! Singles among the doubles. A single that is not a NaN, widened to a double and rounded back, is
itself; so is every single that a double was rounded to. -/
namespace XdrSchema.Number

namespace Datum

def IsNaN (d : Datum) : Prop := ∃ negative payload, d = .nan negative payload

def IsZero (d : Datum) : Prop := ∃ negative e, d = .finite negative 0 e

end Datum

namespace BinaryFormat

variable {f : BinaryFormat} {negative : Bool} {m : Nat} {e : Int}

/-- A number as the words of a format write it: with all bits of the fraction, unless the exponent is
the least one. -/
structure Kept (f : BinaryFormat) (m : Nat) (e : Int) : Prop where
  least : f.leastExponent ≤ e
  bound : m < 2 ^ (f.fractionBits + 1)
  leading : e = f.leastExponent ∨ 2 ^ f.fractionBits ≤ m

/-- The word of a positive number. A leading bit of the fraction counts into the exponent. -/
def magnitude (f : BinaryFormat) (m : Nat) (e : Int) : Nat :=
  (e - f.leastExponent).toNat * 2 ^ f.fractionBits + m

theorem topField_eq (f : BinaryFormat) : f.topField = 2 ^ f.exponentBits - 1 := by
  rw [topField, Nat.shiftLeft_eq, Nat.one_mul]

theorem signBit_eq (f : BinaryFormat) (negative : Bool) :
    f.signBit negative = negative.toNat * 2 ^ (f.exponentBits + f.fractionBits) := by
  cases negative <;> simp [signBit, Nat.shiftLeft_eq]

/-- Every word is a sign and the word of a positive number. -/
theorem exists_signBit_add {w : Nat} (hw : w < 2 ^ (1 + f.exponentBits + f.fractionBits)) :
    ∃ negative r, r < 2 ^ (f.exponentBits + f.fractionBits) ∧ w = f.signBit negative + r := by
  have hdouble : 2 ^ (1 + f.exponentBits + f.fractionBits)
      = 2 * 2 ^ (f.exponentBits + f.fractionBits) := by rw [Nat.add_assoc, Nat.pow_add, Nat.pow_one]
  by_cases h : w < 2 ^ (f.exponentBits + f.fractionBits)
  · exact ⟨false, w, h, by simp [signBit]⟩
  · refine ⟨true, w - 2 ^ (f.exponentBits + f.fractionBits), by omega, ?_⟩
    rw [signBit_eq, Bool.toNat_true]
    omega

theorem datum_signBit_add {r : Nat} (hr : r < 2 ^ (f.exponentBits + f.fractionBits)) :
    f.datum (f.signBit negative + r) =
      if r / 2 ^ f.fractionBits = f.topField then
        if r % 2 ^ f.fractionBits = 0 then .infinite negative
        else .nan negative (r % 2 ^ f.fractionBits)
      else if r / 2 ^ f.fractionBits = 0 then .finite negative (r % 2 ^ f.fractionBits) f.leastExponent
      else .finite negative (2 ^ f.fractionBits + r % 2 ^ f.fractionBits)
        (f.leastExponent + (r / 2 ^ f.fractionBits : Nat) - 1) := by
  have hpos : 0 < 2 ^ f.fractionBits := Nat.two_pow_pos _
  have hsplit : 2 ^ (f.exponentBits + f.fractionBits)
      = 2 ^ f.exponentBits * 2 ^ f.fractionBits := Nat.pow_add ..
  have hfield : r / 2 ^ f.fractionBits < 2 ^ f.exponentBits := by
    rw [Nat.div_lt_iff_lt_mul hpos, ← hsplit]
    exact hr
  have hword : f.signBit negative + r
      = r + 2 ^ f.fractionBits * (2 ^ f.exponentBits * negative.toNat) := by
    rw [signBit_eq, hsplit]
    ring
  have hlow : (f.signBit negative + r) % 2 ^ f.fractionBits = r % 2 ^ f.fractionBits := by
    rw [hword, Nat.add_mul_mod_self_left]
  have hmid : (f.signBit negative + r) / 2 ^ f.fractionBits % 2 ^ f.exponentBits
      = r / 2 ^ f.fractionBits := by
    rw [hword, Nat.add_mul_div_left _ _ hpos, Nat.add_mul_mod_self_left, Nat.mod_eq_of_lt hfield]
  have hhigh : (f.signBit negative + r) / 2 ^ (f.exponentBits + f.fractionBits) = negative.toNat := by
    rw [signBit_eq, Nat.add_comm, Nat.add_mul_div_right _ _ (Nat.two_pow_pos _),
      Nat.div_eq_of_lt hr, Nat.zero_add]
  have hsign : decide (negative.toNat % 2 = 1) = negative := by cases negative <;> rfl
  simp only [datum, Nat.shiftLeft_eq, Nat.one_mul, Nat.shiftRight_eq_div_pow, hlow, hmid, hhigh, hsign]

theorem magnitude_lt (h : f.magnitude m e < f.topField * 2 ^ f.fractionBits) :
    f.magnitude m e < 2 ^ (f.exponentBits + f.fractionBits) := by
  rw [Nat.pow_add]
  refine Nat.lt_of_lt_of_le h (Nat.mul_le_mul_right _ ?_)
  rw [topField_eq]
  exact Nat.sub_le _ 1

/-- The word of a number that is kept stands for it. -/
theorem datum_of_kept (hkept : f.Kept m e) (h : f.magnitude m e < f.topField * 2 ^ f.fractionBits) :
    f.datum (f.signBit negative + f.magnitude m e) = .finite negative m e := by
  have hpos : 0 < 2 ^ f.fractionBits := Nat.two_pow_pos _
  have hfield : f.magnitude m e / 2 ^ f.fractionBits < f.topField :=
    (Nat.div_lt_iff_lt_mul hpos).mpr h
  have hleast := hkept.least
  have hbound := hkept.bound
  rw [Nat.pow_succ] at hbound
  rw [datum_signBit_add (magnitude_lt h), if_neg (Nat.ne_of_lt hfield)]
  by_cases hm : m < 2 ^ f.fractionBits
  · have he : e = f.leastExponent := hkept.leading.resolve_right (by omega)
    have hmag : f.magnitude m e = m := by simp [magnitude, he]
    rw [hmag, if_pos (Nat.div_eq_of_lt hm), Nat.mod_eq_of_lt hm, he]
  · obtain ⟨k, rfl⟩ : ∃ k : Nat, e = f.leastExponent + k := ⟨(e - f.leastExponent).toNat, by omega⟩
    have hmag : f.magnitude m (f.leastExponent + k)
        = (m - 2 ^ f.fractionBits) + 2 ^ f.fractionBits * (k + 1) := by
      have hk : (f.leastExponent + k - f.leastExponent).toNat = k := by omega
      rw [magnitude, hk, Nat.mul_succ, Nat.mul_comm]
      omega
    have hrest : m - 2 ^ f.fractionBits < 2 ^ f.fractionBits := by omega
    have hdiv : f.magnitude m (f.leastExponent + k) / 2 ^ f.fractionBits = k + 1 := by
      rw [hmag, Nat.add_mul_div_left _ _ hpos, Nat.div_eq_of_lt hrest, Nat.zero_add]
    have hmod : f.magnitude m (f.leastExponent + k) % 2 ^ f.fractionBits = m - 2 ^ f.fractionBits := by
      rw [hmag, Nat.add_mul_mod_self_left, Nat.mod_eq_of_lt hrest]
    rw [hdiv, hmod, if_neg (Nat.succ_ne_zero k)]
    congr 1 <;> omega

/-- What stands for a number is the word of it. -/
theorem kept_of_datum {w : Nat} (hw : w < 2 ^ (1 + f.exponentBits + f.fractionBits))
    (h : f.datum w = .finite negative m e) :
    f.Kept m e ∧ f.magnitude m e < f.topField * 2 ^ f.fractionBits ∧
      w = f.signBit negative + f.magnitude m e := by
  obtain ⟨sign, r, hr, rfl⟩ := exists_signBit_add hw
  have hpos : 0 < 2 ^ f.fractionBits := Nat.two_pow_pos _
  have hlow := Nat.mod_lt r hpos
  have hsplit := Nat.div_add_mod r (2 ^ f.fractionBits)
  have hfield : r / 2 ^ f.fractionBits < 2 ^ f.exponentBits := by
    rw [Nat.div_lt_iff_lt_mul hpos, ← Nat.pow_add]
    exact hr
  rw [datum_signBit_add hr] at h
  split at h
  · split at h <;> cases h
  · next htop =>
    have htopField : r < f.topField * 2 ^ f.fractionBits := by
      rw [← Nat.div_lt_iff_lt_mul hpos]
      rw [topField_eq] at htop ⊢
      omega
    split at h
    · next hzero =>
      cases h
      have hr' : r % 2 ^ f.fractionBits = r := by
        rw [hzero] at hsplit
        omega
      have hmag : f.magnitude r f.leastExponent = r := by simp [magnitude]
      rw [hr'] at hlow ⊢
      rw [hmag]
      exact ⟨⟨Int.le_refl _, by rw [Nat.pow_succ]; omega, .inl rfl⟩, htopField, rfl⟩
    · next hnonzero =>
      cases h
      obtain ⟨k, hk⟩ := Nat.exists_eq_succ_of_ne_zero hnonzero
      have hmag : f.magnitude (2 ^ f.fractionBits + r % 2 ^ f.fractionBits)
          (f.leastExponent + (r / 2 ^ f.fractionBits : Nat) - 1) = r := by
        have hshift : (f.leastExponent + (r / 2 ^ f.fractionBits : Nat) - 1
            - f.leastExponent).toNat = k := by omega
        rw [hk, Nat.mul_succ] at hsplit
        rw [magnitude, hshift, Nat.mul_comm]
        omega
      rw [hmag]
      exact ⟨⟨by omega, by rw [Nat.pow_succ]; omega, .inr (by omega)⟩, htopField, rfl⟩

theorem lastExponent_of_kept (hkept : f.Kept m e) : f.lastExponent m e = e := by
  have hleast := hkept.least
  unfold lastExponent
  split
  · next hm =>
    have hpos := Nat.two_pow_pos f.fractionBits
    exact (hkept.leading.resolve_right (by omega)).symm
  · next hm =>
    have hlog : Nat.log2 m < f.fractionBits + 1 := (Nat.log2_lt hm).mpr hkept.bound
    rcases hkept.leading with he | hlead
    · omega
    · have hlog' : f.fractionBits ≤ Nat.log2 m := (Nat.le_log2 hm).mpr hlead
      omega

/-! ### Rounding what needs none -/

/-- The bits that the format keeps of `m * 2 ^ e`. -/
def significand (f : BinaryFormat) (m : Nat) (e : Int) : Nat :=
  if f.lastExponent m e ≤ e then m * 2 ^ (e - f.lastExponent m e).toNat
  else halveEven m (f.lastExponent m e - e).toNat

theorem nearest?_eq : f.nearest? negative m e =
    let word := f.magnitude (f.significand m e) (f.lastExponent m e)
    if word < f.topField * 2 ^ f.fractionBits then some (f.signBit negative + word) else none := by
  simp only [nearest?, magnitude, significand, Nat.shiftLeft_eq]
  rfl

theorem halveEven_mul (m k : Nat) : halveEven (m * 2 ^ k) k = m := by
  have hpos : 0 < 2 ^ k := Nat.two_pow_pos k
  have hquotient : (m * 2 ^ k) >>> k = m := by
    rw [Nat.shiftRight_eq_div_pow, Nat.mul_div_cancel _ hpos]
  have hrest : m * 2 ^ k % (1 <<< k) = 0 := by
    rw [Nat.shiftLeft_eq, Nat.one_mul, Nat.mul_mod_left]
  have hunit : 0 ≠ 1 <<< k := by
    rw [Nat.shiftLeft_eq, Nat.one_mul]
    omega
  simp only [halveEven, hquotient, hrest, Nat.mul_zero, Nat.not_lt_zero, hunit, decide_false,
    Bool.false_and, Bool.or_self, Bool.false_eq_true, if_false]

/-- Zero bits at the end are dropped. -/
theorem nearest?_of_narrower {k : Nat} (hlast : f.lastExponent (m * 2 ^ k) (e - k) = e)
    (h : f.magnitude m e < f.topField * 2 ^ f.fractionBits) :
    f.nearest? negative (m * 2 ^ k) (e - k) = some (f.signBit negative + f.magnitude m e) := by
  have hbits : f.significand (m * 2 ^ k) (e - k) = m := by
    rw [significand, hlast]
    split
    · have hk : k = 0 := by omega
      subst hk
      simp
    · have hk : (e - (e - k)).toNat = k := by omega
      rw [hk, halveEven_mul]
  rw [nearest?_eq, hlast, hbits]
  exact if_pos h

/-- Zero bits are added at the end. -/
theorem nearest?_of_wider {k : Nat} (hlast : f.lastExponent m e = e - k)
    (h : f.magnitude (m * 2 ^ k) (e - k) < f.topField * 2 ^ f.fractionBits) :
    f.nearest? negative m e = some (f.signBit negative + f.magnitude (m * 2 ^ k) (e - k)) := by
  have hbits : f.significand m e = m * 2 ^ k := by
    have hle : e - k ≤ e := by omega
    have hk : (e - (e - k)).toNat = k := by omega
    rw [significand, hlast, if_pos hle, hk]
  rw [nearest?_eq, hlast, hbits]
  exact if_pos h

theorem nearest?_lt {w : Nat} (h : f.nearest? negative m e = some w) :
    ∃ r, r < f.topField * 2 ^ f.fractionBits ∧ w = f.signBit negative + r := by
  rw [nearest?_eq] at h
  obtain ⟨hlt, hw⟩ := Option.ite_none_right_eq_some.mp h
  cases hw
  exact ⟨_, hlt, rfl⟩

theorem infinity_eq (f : BinaryFormat) (negative : Bool) :
    f.infinity negative = f.signBit negative + f.topField * 2 ^ f.fractionBits := by
  rw [infinity, Nat.shiftLeft_eq]

theorem topField_mul_add_lt {r : Nat} (hr : r < 2 ^ f.fractionBits) :
    f.topField * 2 ^ f.fractionBits + r < 2 ^ (f.exponentBits + f.fractionBits) := by
  have hpos : 0 < 2 ^ f.exponentBits := Nat.two_pow_pos _
  obtain ⟨n, hn⟩ := Nat.exists_eq_succ_of_ne_zero (Nat.ne_of_gt hpos)
  rw [Nat.pow_add, topField_eq, hn, Nat.succ_sub_one, Nat.succ_mul]
  omega

theorem datum_top {r : Nat} (hr : r < 2 ^ f.fractionBits) :
    f.datum (f.infinity negative + r) = if r = 0 then .infinite negative else .nan negative r := by
  have hfield : (f.topField * 2 ^ f.fractionBits + r) / 2 ^ f.fractionBits = f.topField := by
    rw [Nat.mul_comm, Nat.mul_add_div (Nat.two_pow_pos _), Nat.div_eq_of_lt hr, Nat.add_zero]
  have hlow : (f.topField * 2 ^ f.fractionBits + r) % 2 ^ f.fractionBits = r := by
    rw [Nat.mul_comm, Nat.mul_add_mod, Nat.mod_eq_of_lt hr]
  rw [infinity_eq, Nat.add_assoc, datum_signBit_add (topField_mul_add_lt hr), if_pos hfield, hlow]

theorem datum_infinity (f : BinaryFormat) (negative : Bool) :
    f.datum (f.infinity negative) = .infinite negative := by
  have h : f.datum (f.infinity negative + 0) = _ := datum_top (Nat.two_pow_pos _)
  simpa using h

/-- The payload of a NaN that was made quiet. -/
def quieted (f : BinaryFormat) (payload : Nat) : Nat :=
  (payload ||| 1 <<< (f.fractionBits - 1)) % 2 ^ f.fractionBits

theorem testBit_quieted (f : BinaryFormat) (payload i : Nat) :
    (f.quieted payload).testBit i =
      (decide (i < f.fractionBits) && (payload.testBit i || decide (f.fractionBits - 1 = i))) := by
  rw [quieted, Nat.testBit_mod_two_pow, Nat.testBit_or, Nat.shiftLeft_eq, Nat.one_mul,
    Nat.testBit_two_pow]

theorem quieted_lt (f : BinaryFormat) (payload : Nat) : f.quieted payload < 2 ^ f.fractionBits :=
  Nat.mod_lt _ (Nat.two_pow_pos _)

theorem quieted_ne_zero (hf : 0 < f.fractionBits) (payload : Nat) : f.quieted payload ≠ 0 := by
  intro h
  have hbit := f.testBit_quieted payload (f.fractionBits - 1)
  rw [h, Nat.zero_testBit] at hbit
  simp [hf] at hbit

theorem quietNaN_eq (f : BinaryFormat) (negative : Bool) (payload : Nat) :
    f.quietNaN negative payload = f.infinity negative + f.quieted payload := by
  rw [quietNaN, quieted, Nat.shiftLeft_eq 1 f.fractionBits, Nat.one_mul]

theorem datum_quietNaN (hf : 0 < f.fractionBits) (negative : Bool) (payload : Nat) :
    f.datum (f.quietNaN negative payload) = .nan negative (f.quieted payload) := by
  rw [quietNaN_eq, datum_top (f.quieted_lt payload), if_neg (quieted_ne_zero hf payload)]

end BinaryFormat

/-! ### Singles and doubles -/

namespace Double

open BinaryFormat

variable {w : Nat} {d : Double}

theorem log2_mul_two_pow {m : Nat} (hm : m ≠ 0) (k : Nat) : Nat.log2 (m * 2 ^ k) = Nat.log2 m + k := by
  induction k with
  | zero => simp
  | succ k ih =>
    have hne : m * 2 ^ k ≠ 0 := Nat.mul_ne_zero hm (Nat.two_pow_pos k).ne'
    rw [Nat.pow_succ, ← Nat.mul_assoc, Nat.mul_comm _ 2, Nat.log2_two_mul hne, ih, Nat.add_assoc]

/-- A finite single, with zero bits added to its fraction, is a double. -/
theorem kept_double {m : Nat} {e : Int} (h : single.Kept m e)
    (htop : single.magnitude m e < single.topField * 2 ^ single.fractionBits) :
    ∃ k : Nat, single.lastExponent (m * 2 ^ k) (e - k) = e ∧ double.lastExponent m e = e - k ∧
      double.Kept (m * 2 ^ k) (e - k) ∧
      double.magnitude (m * 2 ^ k) (e - k) < double.topField * 2 ^ double.fractionBits := by
  have hsingle : single.leastExponent = -149 := by decide
  have hdouble : double.leastExponent = -1074 := by decide
  have hsingleTop : single.topField = 255 := by decide
  have hdoubleTop : double.topField = 2047 := by decide
  have hleast := h.least
  by_cases hm : m = 0
  · subst hm
    have he : e = -149 := by
      rcases h.leading with he | hlead
      · rw [he, hsingle]
      · have := Nat.two_pow_pos single.fractionBits
        omega
    subst he
    refine ⟨925, ?_⟩
    rw [Nat.zero_mul]
    exact ⟨by decide, by decide, ⟨by decide, by decide, .inl (by decide)⟩, by decide⟩
  · have hlog : Nat.log2 m < 24 := (Nat.log2_lt hm).mpr h.bound
    have hlast : max (e + Nat.log2 m - 23) (-149) = e := by
      have hkept := lastExponent_of_kept h
      rwa [lastExponent, if_neg hm, hsingle] at hkept
    obtain ⟨k, hk⟩ := Nat.exists_eq_add_of_le (show Nat.log2 m ≤ 52 by omega)
    have hne : m * 2 ^ k ≠ 0 := Nat.mul_ne_zero hm (Nat.two_pow_pos k).ne'
    have hlog' : Nat.log2 (m * 2 ^ k) = 52 := by rw [log2_mul_two_pow hm, ← hk]
    have hlow : 2 ^ 52 ≤ m * 2 ^ k := (Nat.le_log2 hne).mp (Nat.le_of_eq hlog'.symm)
    have hhigh : m * 2 ^ k < 2 ^ 53 := (Nat.log2_lt hne).mp (by omega)
    have hexponent : e + 149 < 255 := by
      rw [hsingleTop, magnitude, hsingle] at htop
      dsimp only [single] at htop
      omega
    rw [hsingle] at hleast
    refine ⟨k, ?_, ?_, ⟨?_, hhigh, .inr hlow⟩, ?_⟩
    · rw [lastExponent, if_neg hne, hlog', hsingle]
      dsimp only [single]
      omega
    · rw [lastExponent, if_neg hm, hdouble]
      dsimp only [double]
      omega
    · rw [hdouble]
      omega
    · rw [magnitude, hdouble, hdoubleTop]
      dsimp only [double]
      omega

/-- Widening adds zero bits to the fraction of a finite single, and loses nothing of it. -/
theorem datum_ofSingle {negative : Bool} {m : Nat} {e : Int} (hw : w < 2 ^ 32)
    (h : single.datum w = .finite negative m e) :
    ∃ k : Nat, (ofSingle w).datum = .finite negative (m * 2 ^ k) (e - k) ∧
      single.nearest? negative (m * 2 ^ k) (e - k) = some w := by
  obtain ⟨hkept, htop, hword⟩ := kept_of_datum (f := single) hw h
  obtain ⟨k, hnarrow, hwide, hdouble, hbound⟩ := kept_double hkept htop
  refine ⟨k, ?_, ?_⟩
  · rw [ofSingle, h]
    dsimp only
    rw [nearest?_of_wider hwide hbound, Option.getD_some]
    exact datum_of_kept hdouble hbound
  · rw [nearest?_of_narrower hnarrow htop, hword]

theorem datum_ofSingle_infinite {negative : Bool} (h : single.datum w = .infinite negative) :
    (ofSingle w).datum = .infinite negative := by
  rw [ofSingle, h]
  exact datum_infinity double negative

theorem quieted_widen (payload : Nat) :
    single.quieted (double.quieted (payload <<< 29) >>> 29) = single.quieted payload := by
  apply Nat.eq_of_testBit_eq
  intro i
  rw [testBit_quieted, testBit_quieted, Nat.testBit_shiftRight, testBit_quieted, Nat.testBit_shiftLeft]
  by_cases hi : i < 23
  · have hquiet : 51 = 29 + i ↔ 22 = i := by omega
    have hin : 29 + i < 52 := by omega
    by_cases hlast : 22 = i <;> simp [single, double, hi, hin, hquiet, hlast]
  · simp [single, hi]

theorem quieted_quieted (f : BinaryFormat) (payload : Nat) :
    f.quieted (f.quieted payload) = f.quieted payload := by
  apply Nat.eq_of_testBit_eq
  intro i
  rw [testBit_quieted, testBit_quieted]
  cases decide (i < f.fractionBits) <;> simp

theorem datum_ofSingle_nan {negative : Bool} {payload : Nat}
    (h : single.datum w = .nan negative payload) :
    (ofSingle w).datum = .nan negative (double.quieted (payload <<< 29)) := by
  rw [ofSingle, h]
  exact datum_quietNaN (by decide) negative _

/-- A NaN comes back quiet. -/
theorem toSingle?_ofSingle_nan {negative : Bool} {payload : Nat}
    (h : single.datum w = .nan negative payload) :
    (ofSingle w).toSingle? = some (single.quietNaN negative payload) := by
  rw [toSingle?, datum_ofSingle_nan h]
  dsimp only
  rw [quietNaN_eq, quietNaN_eq, quieted_widen]

/-- A single word is that of a NaN if and only if the double is one. -/
theorem isNaN_ofSingle (hw : w < 2 ^ 32) :
    (ofSingle w).isNaN = true ↔ ∃ negative payload, single.datum w = .nan negative payload := by
  cases h : single.datum w with
  | nan negative payload => simp [isNaN, datum_ofSingle_nan h]
  | infinite negative => simp [isNaN, datum_ofSingle_infinite h]
  | finite negative m e =>
    obtain ⟨k, hdatum, -⟩ := datum_ofSingle hw h
    simp [isNaN, hdatum]

theorem eq_infinity_of_datum {f : BinaryFormat} {negative : Bool}
    (hw : w < 2 ^ (1 + f.exponentBits + f.fractionBits)) (h : f.datum w = .infinite negative) :
    w = f.infinity negative := by
  obtain ⟨sign, r, hr, rfl⟩ := exists_signBit_add hw
  rw [datum_signBit_add hr] at h
  split at h
  · next htop =>
    split at h
    · next hzero =>
      cases h
      have hsplit := Nat.div_add_mod r (2 ^ f.fractionBits)
      rw [infinity_eq, ← htop]
      rw [hzero, Nat.mul_comm] at hsplit
      omega
    · cases h
  · split at h <;> cases h

/-- A single that is not a NaN survives as a double. -/
theorem toSingle?_ofSingle (hw : w < 2 ^ 32) (hnan : (ofSingle w).isNaN = false) :
    (ofSingle w).toSingle? = some w := by
  cases h : single.datum w with
  | nan negative payload => simp [isNaN, datum_ofSingle_nan h] at hnan
  | infinite negative =>
    rw [toSingle?, datum_ofSingle_infinite h]
    exact congrArg some (eq_infinity_of_datum (f := single) hw h).symm
  | finite negative m e =>
    obtain ⟨k, hdatum, hnearest⟩ := datum_ofSingle hw h
    rw [toSingle?, hdatum]
    exact hnearest

theorem signBit_add_lt {negative : Bool} {f : BinaryFormat} {r : Nat}
    (hr : r < 2 ^ (f.exponentBits + f.fractionBits)) :
    f.signBit negative + r < 2 ^ (1 + f.exponentBits + f.fractionBits) := by
  rw [signBit_eq, Nat.add_assoc 1, Nat.add_comm 1, Nat.pow_succ]
  have hbit := Bool.toNat_le negative
  have := Nat.mul_le_mul_right (2 ^ (f.exponentBits + f.fractionBits)) hbit
  omega

theorem toSingle?_lt (h : d.toSingle? = some w) : w < 2 ^ 32 := by
  have hspell : ∃ negative r, r < 2 ^ (single.exponentBits + single.fractionBits)
      ∧ w = single.signBit negative + r := by
    unfold toSingle? at h
    split at h
    · next negative payload _ =>
      cases h
      refine ⟨negative, _, topField_mul_add_lt (single.quieted_lt (payload >>> 29)), ?_⟩
      rw [quietNaN_eq, infinity_eq, Nat.add_assoc]
    · next negative _ =>
      cases h
      exact ⟨negative, _, topField_mul_add_lt (Nat.two_pow_pos _), infinity_eq single negative⟩
    · next negative m e _ =>
      obtain ⟨r, hr, rfl⟩ := nearest?_lt h
      exact ⟨negative, r, Nat.lt_trans hr (topField_mul_add_lt (Nat.two_pow_pos _)), rfl⟩
  obtain ⟨negative, r, hr, rfl⟩ := hspell
  exact signBit_add_lt hr

/-- What a double was rounded to is rounded to itself. -/
theorem toSingle?_idem (h : d.toSingle? = some w) : (ofSingle w).toSingle? = some w := by
  by_cases hnan : (ofSingle w).isNaN = true
  · obtain ⟨negative, payload, hdatum⟩ := (isNaN_ofSingle (toSingle?_lt h)).mp hnan
    rw [toSingle?_ofSingle_nan hdatum]
    unfold toSingle? at h
    split at h
    · next sign p _ =>
      cases h
      rw [datum_quietNaN (by decide)] at hdatum
      cases hdatum
      rw [quietNaN_eq, quieted_quieted, ← quietNaN_eq]
    · next sign _ =>
      cases h
      rw [datum_infinity] at hdatum
      cases hdatum
    · next sign m e _ =>
      obtain ⟨r, hr, rfl⟩ := nearest?_lt h
      rw [datum_signBit_add (Nat.lt_trans hr (topField_mul_add_lt (Nat.two_pow_pos _))),
        if_neg (Nat.ne_of_lt ((Nat.div_lt_iff_lt_mul (Nat.two_pow_pos _)).mpr hr))] at hdatum
      split at hdatum <;> cases hdatum
  · exact toSingle?_ofSingle (toSingle?_lt h) (by simpa using hnan)

/-! ### Equal numbers -/

/-- A zero has no bit but its sign, and is the same number under either. -/
theorem isZero_ofSingle (hw : w < 2 ^ 32) : (ofSingle w).datum.IsZero ↔ (single.datum w).IsZero := by
  cases h : single.datum w with
  | nan negative payload => simp [Datum.IsZero, datum_ofSingle_nan h]
  | infinite negative => simp [Datum.IsZero, datum_ofSingle_infinite h]
  | finite negative m e =>
    obtain ⟨k, hdatum, -⟩ := datum_ofSingle hw h
    simp [Datum.IsZero, hdatum]

theorem isNaN_iff : d.isNaN = true ↔ d.datum.IsNaN := by
  rw [isNaN]
  cases d.datum <;> simp [Datum.IsNaN]

theorem sameNumber_iff {a b : Double} : a.sameNumber b = true ↔
    ¬ a.datum.IsNaN ∧ ¬ b.datum.IsNaN ∧ (a = b ∨ a.datum.IsZero ∧ b.datum.IsZero) := by
  unfold sameNumber
  split
  · next ha => simp [ha, Datum.IsNaN]
  · next hb _ => simp [hb, Datum.IsNaN]
  · next ha hb => simp [ha, hb, Datum.IsNaN, Datum.IsZero]
  · next hna hnb hzero =>
    have ha : ¬ a.datum.IsNaN := fun ⟨negative, payload, h⟩ => hna negative payload h
    have hb : ¬ b.datum.IsNaN := fun ⟨negative, payload, h⟩ => hnb negative payload h
    have hnot : ¬ (a.datum.IsZero ∧ b.datum.IsZero) :=
      fun ⟨⟨negative, e, h⟩, negative', e', h'⟩ => hzero negative e negative' e' h h'
    simp [ha, hb, hnot]

/-- Singles are compared as the doubles they widen to. -/
theorem sameNumber_ofSingle {w' : Nat} (hw : w < 2 ^ 32) (hw' : w' < 2 ^ 32) :
    (ofSingle w).sameNumber (ofSingle w') = true ↔ ¬ (single.datum w).IsNaN ∧
      ¬ (single.datum w').IsNaN ∧ (w = w' ∨ (single.datum w).IsZero ∧ (single.datum w').IsZero) := by
  have hnan {v : Nat} (hv : v < 2 ^ 32) : (ofSingle v).datum.IsNaN ↔ (single.datum v).IsNaN :=
    isNaN_iff.symm.trans (isNaN_ofSingle hv)
  rw [sameNumber_iff, hnan hw, hnan hw', isZero_ofSingle hw, isZero_ofSingle hw']
  refine and_congr_right fun hne => and_congr_right fun hne' => or_congr_left ⟨fun heq => ?_, ?_⟩
  · have hback {v : Nat} (hv : v < 2 ^ 32) (hne : ¬ (single.datum v).IsNaN) :
        (ofSingle v).toSingle? = some v :=
      toSingle?_ofSingle hv (by rwa [← Bool.not_eq_true, isNaN_iff, hnan hv])
    exact Option.some.inj ((hback hw hne).symm.trans ((congrArg toSingle? heq).trans (hback hw' hne')))
  · rintro rfl
    rfl

end Double

end XdrSchema.Number
