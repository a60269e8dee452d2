/-! Decimal digits of numbers. A number is converted from or to decimal text only up to a number of digits; in other
bases any number is. -/
namespace XdrSchema.Number

/-- The most decimal digits that a number is read from or written with. -/
def digitLimit : Nat := 4300

/-- A number has too many digits to be converted: so many were to be read, or it was to be written. No fault is
reported of it; the work that meets it ends there. -/
inductive Overlong
  | reading (digits : Nat)
  | writing

def Overlong.message : Overlong → String
  | reading digits => s!"a number of {digits} digits cannot be read, only one of up to {digitLimit}"
  | writing => s!"a number of more than {digitLimit} digits cannot be written"

/-- The least number that has too many digits. -/
def writeLimit : Nat := Nat.pow 10 digitLimit

def isWritable (n : Int) : Bool := n.natAbs < writeLimit

/-- What keeps a text from being written that shows the given numbers. -/
def unwritable? (numbers : List Int) : Option Overlong :=
  if numbers.all isWritable then none else some .writing

theorem unwritable?_eq_none_iff {numbers : List Int} :
    unwritable? numbers = none ↔ ∀ n ∈ numbers, isWritable n = true := by
  simp [unwritable?]

theorem isWritable_of_natAbs_le {m n : Int} (hm : isWritable m = true) (h : n.natAbs ≤ m.natAbs) :
    isWritable n = true := by
  rw [isWritable, decide_eq_true_eq] at hm ⊢
  exact Nat.lt_of_le_of_lt h hm

-- The power is compared for a variable exponent, so that none of its digits is computed.
theorem le_writeLimit : 10000000000 ≤ writeLimit := by
  have hten : 0 < 10 := by decide
  have hmono (k : Nat) (hk : 10 ≤ k) : Nat.pow 10 10 ≤ Nat.pow 10 k := Nat.pow_le_pow_right hten hk
  have hlimit : 10 ≤ digitLimit := by decide
  unfold writeLimit
  generalize digitLimit = k at hlimit ⊢
  exact hmono k hlimit

/-- A number of at most ten digits is written. -/
theorem isWritable_of_natAbs_lt {n : Int} (h : n.natAbs < 10000000000) : isWritable n = true := by
  rw [isWritable, decide_eq_true_eq]
  exact Nat.lt_of_lt_of_le h le_writeLimit

theorem isWritable_writeLimit : isWritable writeLimit = false := by
  rw [isWritable, Int.natAbs_natCast]
  exact decide_eq_false (Nat.lt_irrefl _)

end XdrSchema.Number
