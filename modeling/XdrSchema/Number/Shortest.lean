import XdrSchema.Number.Binary

/-! The shortest decimal text of a double: the coarsest decimal grid with a point that reads back
as the number, and the point of it that is nearest. -/
namespace XdrSchema.Number

/-- The reals that round to a double, in the unit `2 ^ unit`: `value` is the number itself, and
everything between `low` and `high` rounds to it, the ends included when `closed` holds. -/
structure Interval where
  low : Nat
  value : Nat
  high : Nat
  unit : Int
  closed : Bool

/-- The gap below a power of two is half the gap above it, unless the number is one of the
smallest. A tie goes to the even significand, so an even one owns its ends. -/
def intervalOf (m : Nat) (e : Int) : Interval :=
  let f := BinaryFormat.double
  let narrow := m = 1 <<< f.fractionBits && f.leastExponent < e
  ⟨if narrow then 4 * m - 1 else 4 * m - 2, 4 * m, 4 * m + 2, e - 2, m % 2 = 0⟩

/-- `n * 10 ^ exponent` -/
structure Decimal where
  n : Nat
  exponent : Int
deriving DecidableEq

/-- The multiples of `10 ^ exponent` are compared with the interval after both are multiplied by
powers of two and ten that clear the denominators. -/
def Interval.gridPoint? (i : Interval) (exponent : Int) : Option Decimal :=
  let scale := Nat.pow 10 (-exponent).toNat <<< i.unit.toNat
  let step := Nat.pow 10 exponent.toNat <<< (-i.unit).toNat
  let inside (n : Nat) : Bool :=
    if i.closed then i.low * scale ≤ n * step && n * step ≤ i.high * scale
    else i.low * scale < n * step && n * step < i.high * scale
  let value := i.value * scale
  let below := value / step
  let above := below + 1
  let down := value - below * step
  let up := above * step - value
  if inside below && (!inside above || down < up || (down = up && below % 2 = 0)) then
    some ⟨below, exponent⟩
  else if inside above then some ⟨above, exponent⟩
  else none

/-- The decimal exponents of doubles, the greatest first. The last one is fine enough for every
double. -/
def gridExponents : List Int := (List.range 633).map fun (k : Nat) => 308 - (k : Int)

/-- The shortest decimal that reads back as `m * 2 ^ e`, the nearest among those. -/
def shortest (m : Nat) (e : Int) : Decimal :=
  (gridExponents.findSome? (intervalOf m e).gridPoint?).getD ⟨m, e⟩

/-- How a decimal is laid out: positionally for numbers from `0.0001` up to, not including,
`10 ^ 16`, with a digit on both sides of the point, and otherwise with one digit before the point
and a signed exponent of at least two digits. -/
def Decimal.text (d : Decimal) : String :=
  let digits := toString d.n
  let point : Int := digits.length + d.exponent
  let zeros (n : Int) : String := String.ofList (List.replicate n.toNat '0')
  if 0 < point && point ≤ 16 then
    let padded := digits ++ zeros d.exponent
    let fraction := padded.toList.drop point.toNat
    String.ofList (padded.toList.take point.toNat) ++ "."
      ++ (if fraction.isEmpty then "0" else String.ofList fraction)
  else if -4 < point && point ≤ 0 then "0." ++ zeros (-point) ++ digits
  else
    let mantissa := match digits.toList with
      | [] => ""
      | [c] => String.ofList [c]
      | c :: rest => String.ofList (c :: '.' :: rest)
    let power := point - 1
    let size := toString power.natAbs
    mantissa ++ "e" ++ (if power < 0 then "-" else "+")
      ++ (if size.length < 2 then "0" ++ size else size)

/-- The text of a double. -/
def Double.text (d : Double) : String :=
  match d.datum with
  | .nan _ _ => "nan"
  | .infinite negative => if negative then "-inf" else "inf"
  | .finite negative m e =>
    (if negative then "-" else "") ++ (if m = 0 then "0.0" else (shortest m e).text)

end XdrSchema.Number
