import XdrSchema.Number.Literal
import XdrSchema.Toml.Basic

/-! The values of a TOML document that are written without quotes or brackets: booleans, numbers,
dates and times. A float or a date is kept as it was written. -/
namespace XdrSchema.Toml

open Number (digit?)

/-! ### Numbers -/

/-- The number that follows `high`. A single underscore may stand before each further digit. -/
def spacedFrom? (base high : Nat) : List Char → Option Nat
  | [] => some high
  | '_' :: c :: rest => do spacedFrom? base (high * base + (← digit? base c)) rest
  | c :: rest => do spacedFrom? base (high * base + (← digit? base c)) rest

/-- The number that a row of digits spells, with single underscores between them. -/
def spaced? (base : Nat) : List Char → Option Nat
  | [] => none
  | c :: rest => do spacedFrom? base (← digit? base c) rest

/-- A decimal number has no leading zeros. -/
def decimal? : List Char → Option Nat
  | '0' :: _ :: _ => none
  | text => spaced? 10 text

/-- An integer of any length. Only a decimal number can have a sign. -/
def integer? : List Char → Option Int
  | '0' :: 'x' :: digits => (spaced? 16 digits).map Int.ofNat
  | '0' :: 'o' :: digits => (spaced? 8 digits).map Int.ofNat
  | '0' :: 'b' :: digits => (spaced? 2 digits).map Int.ofNat
  | '+' :: digits => (decimal? digits).map Int.ofNat
  | '-' :: digits => (decimal? digits).map fun n => -(n : Int)
  | digits => (decimal? digits).map Int.ofNat

def dropSign : List Char → List Char
  | '+' :: rest | '-' :: rest => rest
  | text => text

def isSpaced (c : Char) : Bool := c.isDigit || c = '_'

/-- What may follow the digits before it: nothing, or an exponent. -/
def isExponent : List Char → Bool
  | [] => true
  | e :: rest => (e = 'e' || e = 'E') && (spaced? 10 (dropSign rest)).isSome

/-- What may follow the whole part of a float: a fraction, an exponent, or both. -/
def isFraction : List Char → Bool
  | '.' :: rest =>
    (spaced? 10 (rest.takeWhile isSpaced)).isSome && isExponent (rest.dropWhile isSpaced)
  | rest => isExponent rest

def isFloat (text : List Char) : Bool :=
  let text := dropSign text
  text = "inf".toList || text = "nan".toList
    || ((decimal? (text.takeWhile isSpaced)).isSome && isFraction (text.dropWhile isSpaced))

/-- How many digits there are next, with single underscores before them, and the text after them. -/
def furtherDigits : List Char → Nat × List Char
  | '_' :: c :: rest =>
    if c.isDigit then
      let (n, after) := furtherDigits rest
      (n + 1, after)
    else (0, '_' :: c :: rest)
  | c :: rest =>
    if c.isDigit then
      let (n, after) := furtherDigits rest
      (n + 1, after)
    else (0, c :: rest)
  | [] => (0, [])

/-- Whether a fraction or an exponent begins, so that the digits before it are those of a float. -/
def beginsFraction : List Char → Bool
  | '.' :: c :: _ => c.isDigit
  | e :: rest => (e = 'e' || e = 'E') && (dropSign rest).head?.any Char.isDigit
  | [] => false

/-- The number of digits of the decimal integer that a text begins with, if it has too many. -/
def excess? (text : List Char) : Option Nat :=
  match dropSign text with
  | first :: rest =>
    let (n, after) := furtherDigits rest
    if first.isDigit && first ≠ '0' && Number.digitLimit < n + 1 && !beginsFraction after then
      some (n + 1)
    else none
  | [] => none

/-! ### Dates and times -/

/-- The number of a row of digits that may not be spaced. -/
def plain? (digits : List Char) : Option Nat := Number.digits? 10 digits

def isLeap (year : Nat) : Bool := year % 4 = 0 && (year % 100 ≠ 0 || year % 400 = 0)

def daysIn (year month : Nat) : Nat :=
  if month = 2 then (if isLeap year then 29 else 28)
  else if month = 4 || month = 6 || month = 9 || month = 11 then 30
  else 31

/-- The date that a text starts with, and the text after it: `year-month-day`. -/
def afterDate? : List Char → Option (List Char)
  | a :: b :: c :: d :: '-' :: e :: f :: '-' :: g :: h :: rest => do
    let year ← plain? [a, b, c, d]
    let month ← plain? [e, f]
    let day ← plain? [g, h]
    if 1 ≤ year && 1 ≤ month && month ≤ 12 && 1 ≤ day && day ≤ daysIn year month then some rest
    else none
  | _ => none

/-- The hours and minutes that a text starts with. -/
def afterMinutes? : List Char → Option (List Char)
  | a :: b :: ':' :: c :: d :: rest => do
    if (← plain? [a, b]) ≤ 23 && (← plain? [c, d]) ≤ 59 then some rest else none
  | _ => none

/-- Seconds may have a fraction. -/
def afterTime? (text : List Char) : Option (List Char) := do
  match ← afterMinutes? text with
  | ':' :: a :: b :: rest =>
    if 59 < (← plain? [a, b]) then none
    else
      match rest with
      | '.' :: fraction =>
        if (fraction.takeWhile Char.isDigit).isEmpty then none
        else some (fraction.dropWhile Char.isDigit)
      | _ => some rest
  | _ => none

/-- What may follow the time of a date: nothing, or the distance from universal time. -/
def isOffset : List Char → Bool
  | [] => true
  | ['Z'] | ['z'] => true
  | '+' :: rest | '-' :: rest => afterMinutes? rest = some []
  | _ => false

def isDate (text : List Char) : Bool := afterDate? text = some []

/-- A date, a time, or both with a mark or a blank between them. -/
def isMoment (text : List Char) : Bool :=
  afterTime? text = some []
    || match afterDate? text with
      | some [] => true
      | some (c :: rest) =>
        (c = 'T' || c = 't' || c = ' ') && (afterTime? rest).any isOffset
      | none => false

/-! ### The value -/

/-- Why a text is not read. -/
inductive Fault
  | malformed
  | overlong (n : Number.Overlong)

/-- An integer with too many digits counts before what follows it. -/
def scalar (text : List Char) : Except Fault Toml :=
  if text = "true".toList then return .boolean true
  else if text = "false".toList then return .boolean false
  else
    match excess? text with
    | some digits => throw (.overlong (.reading digits))
    | none =>
      match integer? text with
      | some n => return .integer n
      | none =>
        if isFloat text then return .float (String.ofList text)
        else if isMoment text then return .date (String.ofList text)
        else throw .malformed

end XdrSchema.Toml
