import XdrSchema.Number.Digits
import XdrSchema.Text.Lines

/-! Integer literals: an optional minus, then a decimal number without leading zeros, `0x` with
hexadecimal digits, or `0` with octal digits. A decimal number is read if it has not too many
digits. -/
namespace XdrSchema.Number

/-- The value of a digit of the given base. -/
def digit? (base : Nat) (c : Char) : Option Nat :=
  let value :=
    if '0' ≤ c && c ≤ '9' then c.toNat - '0'.toNat
    else if 'a' ≤ c && c ≤ 'f' then c.toNat - 'a'.toNat + 10
    else if 'A' ≤ c && c ≤ 'F' then c.toNat - 'A'.toNat + 10
    else base
  if value < base then some value else none

/-- The number that follows `high`, digit by digit. -/
def digitsFrom? (base high : Nat) : List Char → Option Nat
  | [] => some high
  | c :: rest => do digitsFrom? base (high * base + (← digit? base c)) rest

/-- The number that a non-empty row of digits spells. -/
def digits? (base : Nat) (text : List Char) : Option Nat :=
  if text.isEmpty then none else digitsFrom? base 0 text

/-- A literal without its sign. -/
def magnitude? : List Char → Option Nat
  | ['0'] => some 0
  | '0' :: 'x' :: digits => digits? 16 digits
  | '0' :: 'X' :: digits => digits? 16 digits
  | '0' :: digits => digits? 8 digits
  | digits => if digits.length ≤ digitLimit then digits? 10 digits else none

/-- The value of a literal. One line feed may follow it. -/
def literal? (text : List Char) : Option Int :=
  match Text.dropFinalNewline text with
  | '-' :: rest => (magnitude? rest).map fun n => -(n : Int)
  | text => (magnitude? text).map fun n => (n : Int)

def dropMinus : List Char → List Char
  | '-' :: rest => rest
  | text => text

/-- The number of digits of a literal that is decimal and has too many of them. -/
def excess? (text : List Char) : Option Nat :=
  let digits := dropMinus (Text.dropFinalNewline text)
  if digitLimit < digits.length && digits.head? ≠ some '0' && (digits? 10 digits).isSome then
    some digits.length
  else none

end XdrSchema.Number
