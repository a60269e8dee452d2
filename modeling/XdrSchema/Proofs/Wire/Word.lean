import Mathlib.Data.List.Induction
import XdrSchema.Wire.Word

/-! Words and numbers determine each other: bytes are the word of the number they spell, and a number
in the range of a word, signed or not, is the one its word stands for. -/
namespace XdrSchema.Wire

theorem wordCount_pos (width : Nat) : 0 < wordCount width := by
  induction width with
  | zero => exact Nat.one_pos
  | succ width ih => exact Nat.mul_pos (by decide) ih

theorem wordOf_lt (bytes : List UInt8) : wordOf bytes < wordCount bytes.length := by
  induction bytes using List.reverseRecOn with
  | nil => exact Nat.one_pos
  | append_singleton bytes b ih =>
    rw [wordOf_append, List.length_append, List.length_singleton, wordCount]
    have hb := b.toNat_lt
    omega

theorem wordBytes_wordOf (bytes : List UInt8) : wordBytes bytes.length (wordOf bytes) = bytes := by
  induction bytes using List.reverseRecOn with
  | nil => rfl
  | append_singleton bytes b ih =>
    have hb : b.toNat < 256 := b.toNat_lt
    have hhigh : (wordOf bytes * 256 + b.toNat) / 256 = wordOf bytes := by omega
    have hlow : (wordOf bytes * 256 + b.toNat) % 256 = b.toNat := by omega
    rw [wordOf_append, List.length_append, List.length_singleton, wordBytes, hhigh, hlow, ih,
      UInt8.ofNat_toNat]

theorem wordOf_wordBytes_of_lt {width n : Nat} (h : n < wordCount width) :
    wordOf (wordBytes width n) = n := by
  rw [wordOf_wordBytes, Nat.mod_eq_of_lt h]

theorem wordBytes_mod (width n : Nat) : wordBytes width (n % wordCount width) = wordBytes width n := by
  have h := wordBytes_wordOf (wordBytes width n)
  rwa [length_wordBytes, wordOf_wordBytes] at h

/-! ### Signed words -/

theorem unsigned_lt (width : Nat) (n : Int) : unsigned width n < wordCount width := by
  have hpos := wordCount_pos width
  have h := Int.emod_lt_of_pos n (Int.natCast_pos.mpr hpos)
  have h' := Int.emod_nonneg n (Int.natCast_ne_zero.mpr (Nat.ne_of_gt hpos))
  unfold unsigned
  omega

theorem unsigned_of_nonneg {width : Nat} {n : Int} (hn : 0 ≤ n) (h : n < wordCount width) :
    (unsigned width n : Int) = n := by
  rw [unsigned, Int.emod_eq_of_lt hn h, Int.toNat_of_nonneg hn]

/-- A word of at least one byte has a sign bit. -/
theorem wordCount_half {width : Nat} (hw : 0 < width) :
    wordCount width / 2 + wordCount width / 2 = wordCount width := by
  obtain ⟨width, rfl⟩ := Nat.exists_eq_add_of_le' hw
  rw [wordCount]
  omega

theorem signed_range {width n : Nat} (hw : 0 < width) (h : n < wordCount width) :
    -((wordCount width / 2 : Nat) : Int) ≤ signed width n ∧
      signed width n ≤ ((wordCount width / 2 : Nat) : Int) - 1 := by
  have hhalf := wordCount_half hw
  unfold signed
  split <;> omega

theorem unsigned_signed {width n : Nat} (h : n < wordCount width) :
    unsigned width (signed width n) = n := by
  have hn : ((n : Int) % wordCount width) = n :=
    Int.emod_eq_of_lt (Int.natCast_nonneg n) (Int.ofNat_lt.mpr h)
  unfold unsigned signed
  split
  · rw [hn, Int.toNat_natCast]
  · rw [Int.sub_emod_right, hn, Int.toNat_natCast]

theorem signed_unsigned {width : Nat} {n : Int} (hw : 0 < width)
    (hlow : -((wordCount width / 2 : Nat) : Int) ≤ n)
    (hhigh : n ≤ ((wordCount width / 2 : Nat) : Int) - 1) : signed width (unsigned width n) = n := by
  have hhalf := wordCount_half hw
  by_cases hn : 0 ≤ n
  · have hword : (unsigned width n : Int) = n := unsigned_of_nonneg hn (by omega)
    rw [signed, if_pos (by omega), hword]
  · have hshift : n % wordCount width = n + wordCount width := by
      rw [← Int.add_emod_right]
      exact Int.emod_eq_of_lt (by omega) (by omega)
    have hword : (unsigned width n : Int) = n + wordCount width := by
      rw [unsigned, hshift, Int.toNat_of_nonneg (by omega)]
    rw [signed, if_neg (by omega), hword]
    omega

end XdrSchema.Wire
