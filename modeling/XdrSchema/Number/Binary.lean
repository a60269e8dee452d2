/-! Binary floating-point formats: what a word of bits stands for, and the word nearest to a given
number. A number is written `m * 2 ^ e` with a natural `m` and an integer `e`. -/
namespace XdrSchema.Number

/-- An interchange format: one sign bit, then exponent and fraction fields. -/
structure BinaryFormat where
  exponentBits : Nat
  fractionBits : Nat

/-- What a word stands for. A NaN keeps the fraction field. -/
inductive Datum
  | nan (negative : Bool) (payload : Nat)
  | infinite (negative : Bool)
  | finite (negative : Bool) (m : Nat) (e : Int)

namespace BinaryFormat

def single : BinaryFormat := ⟨8, 23⟩

def double : BinaryFormat := ⟨11, 52⟩

variable (f : BinaryFormat)

/-- The largest exponent field, kept for infinities and NaN. -/
def topField : Nat := (1 <<< f.exponentBits) - 1

/-- The exponent of the last fraction bit of the smallest numbers. -/
def leastExponent : Int := 2 - ((1 <<< (f.exponentBits - 1) : Nat) : Int) - f.fractionBits

def signBit (negative : Bool) : Nat :=
  if negative then 1 <<< (f.exponentBits + f.fractionBits) else 0

def infinity (negative : Bool) : Nat := f.signBit negative + (f.topField <<< f.fractionBits)

/-- The quiet NaN with the given payload. -/
def quietNaN (negative : Bool) (payload : Nat) : Nat :=
  f.infinity negative + (payload ||| 1 <<< (f.fractionBits - 1)) % (1 <<< f.fractionBits)

def datum (word : Nat) : Datum :=
  let fraction := word % (1 <<< f.fractionBits)
  let field := (word >>> f.fractionBits) % (1 <<< f.exponentBits)
  let negative := (word >>> (f.exponentBits + f.fractionBits)) % 2 = 1
  if field = f.topField then
    if fraction = 0 then .infinite negative else .nan negative fraction
  else if field = 0 then .finite negative fraction f.leastExponent
  else .finite negative ((1 <<< f.fractionBits) + fraction) (f.leastExponent + field - 1)

/-- `m / 2 ^ shift` rounded to the nearest integer; a tie goes to the even neighbour. -/
def halveEven (m shift : Nat) : Nat :=
  let quotient := m >>> shift
  let unit := 1 <<< shift
  let twice := 2 * (m % unit)
  if unit < twice || (twice = unit && quotient % 2 = 1) then quotient + 1 else quotient

/-- The exponent of the last bit that the format keeps of `m * 2 ^ e`. -/
def lastExponent (m : Nat) (e : Int) : Int :=
  if m = 0 then f.leastExponent else max (e + Nat.log2 m - f.fractionBits) f.leastExponent

/-- The word nearest to `m * 2 ^ e`, ties to the even one; nothing for a number that is too large
for the format. A fraction that rounds up to the next power of two carries into the exponent field,
which is what that field has to become. -/
def nearest? (negative : Bool) (m : Nat) (e : Int) : Option Nat :=
  let last := f.lastExponent m e
  let significand :=
    if last ≤ e then m <<< (e - last).toNat else halveEven m (last - e).toNat
  let word := ((last - f.leastExponent).toNat <<< f.fractionBits) + significand
  if word < f.topField <<< f.fractionBits then some (f.signBit negative + word) else none

end BinaryFormat

/-- A double, by its bits. -/
structure Double where
  bits : Nat
deriving DecidableEq

namespace Double

def datum (d : Double) : Datum := BinaryFormat.double.datum d.bits

def nan : Double := ⟨BinaryFormat.double.quietNaN false 0⟩

def isNaN (d : Double) : Bool :=
  match d.datum with
  | .nan _ _ => true
  | _ => false

/-- The same number as a double. A NaN keeps its sign and payload and becomes quiet. -/
def ofSingle (word : Nat) : Double :=
  match BinaryFormat.single.datum word with
  | .nan negative payload =>
    ⟨BinaryFormat.double.quietNaN negative (payload <<< 29)⟩
  | .infinite negative => ⟨BinaryFormat.double.infinity negative⟩
  | .finite negative m e =>
    ⟨(BinaryFormat.double.nearest? negative m e).getD (BinaryFormat.double.infinity negative)⟩

/-- The nearest single; nothing for a finite number too large for one. -/
def toSingle? (d : Double) : Option Nat :=
  match d.datum with
  | .nan negative payload => some (BinaryFormat.single.quietNaN negative (payload >>> 29))
  | .infinite negative => some (BinaryFormat.single.infinity negative)
  | .finite negative m e => BinaryFormat.single.nearest? negative m e

/-- The double nearest to an integer; nothing for one that is too large. -/
def ofInt? (n : Int) : Option Double :=
  (BinaryFormat.double.nearest? (n < 0) n.natAbs 0).map Double.mk

/-- `m * 2 ^ e` is the integer `n`. -/
def isInt (m : Nat) (e : Int) (n : Nat) : Bool :=
  if 0 ≤ e then m <<< e.toNat = n else m = n <<< (-e).toNat

/-- The double and the integer are the same number. Both zeros equal 0. -/
def equalsInt (d : Double) (n : Int) : Bool :=
  match d.datum with
  | .finite negative m e => (isInt m e n.natAbs) && (n = 0 || negative = (n < 0 : Bool))
  | _ => false

/-- Equality of numbers: the zeros are equal and no NaN equals anything. -/
def sameNumber (a b : Double) : Bool :=
  match a.datum, b.datum with
  | .nan _ _, _ => false
  | _, .nan _ _ => false
  | .finite _ 0 _, .finite _ 0 _ => true
  | _, _ => a = b

end Double

end XdrSchema.Number
