/-! Big-endian words. Main statement: `wordOf_wordBytes`, the bytes of a number spell it, up to as many
words as there are. -/
namespace XdrSchema.Wire

/-- The last `width` base-256 digits of `n`, the highest first. -/
def wordBytes (width n : Nat) : List UInt8 :=
  match width with
  | 0 => []
  | width + 1 => wordBytes width (n / 256) ++ [UInt8.ofNat (n % 256)]

/-- How many words of `width` bytes there are. -/
def wordCount : Nat → Nat
  | 0 => 1
  | width + 1 => 256 * wordCount width

/-- The number that bytes spell, the highest digit first. -/
def wordOf (bytes : List UInt8) : Nat := bytes.foldl (fun n b => n * 256 + b.toNat) 0

@[simp] theorem length_wordBytes (width n : Nat) : (wordBytes width n).length = width := by
  induction width generalizing n with
  | zero => rfl
  | succ width ih => simp [wordBytes, ih]

theorem wordOf_append (bytes : List UInt8) (b : UInt8) :
    wordOf (bytes ++ [b]) = wordOf bytes * 256 + b.toNat := by simp [wordOf]

theorem wordOf_wordBytes (width n : Nat) : wordOf (wordBytes width n) = n % wordCount width := by
  induction width generalizing n with
  | zero => simp [wordBytes, wordOf, wordCount, Nat.mod_one]
  | succ width ih =>
    have hbyte : (UInt8.ofNat (n % 256)).toNat = n % 256 :=
      (UInt8.toNat_ofNat').trans (Nat.mod_eq_of_lt (Nat.mod_lt _ (by decide)))
    rw [wordBytes, wordOf_append, ih, hbyte, wordCount, Nat.mod_mul]
    omega

/-- A word read as a signed number of the same width. -/
def signed (width n : Nat) : Int :=
  if n < wordCount width / 2 then n else (n : Int) - wordCount width

/-- The word of a signed number. -/
def unsigned (width : Nat) (n : Int) : Nat := (n % wordCount width).toNat

end XdrSchema.Wire
