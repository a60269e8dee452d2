/-! The unit of encoded data. Every item takes a multiple of four bytes; zero bytes fill up what is
shorter. -/
namespace XdrSchema.Wire

/-- The next multiple of four, of any integer. -/
def roundUp (n : Int) : Int := (n + 3) / 4 * 4

/-- How far an integer is from the next multiple of four. -/
def shortfall (n : Int) : Int := roundUp n - n

/-- The number of zero bytes after `n` bytes of data. -/
def padding (n : Nat) : Nat := (4 - n % 4) % 4

/-- The size of `n` bytes of data with their padding. -/
def paddedSize (n : Nat) : Nat := n + padding n

theorem paddedSize_mod (n : Nat) : paddedSize n % 4 = 0 := by
  unfold paddedSize padding; omega

/-- The largest length or bound a length word can hold. -/
def maxLength : Nat := 0xffffffff

end XdrSchema.Wire
