import XdrSchema.Text.Lines
import XdrSchema.Text.Word
import XdrSchema.Toml.Document
import XdrSchema.Toml.Quoted
import XdrSchema.Toml.Scalar

/-! Reading a TOML document, one statement a line. The first fault ends the work, so that a statement
counts before those after it. Values nest in arrays and tables; a nested value costs a bracket, so
that a budget of twice the length of the text is never used up. -/
namespace XdrSchema.Toml

/-- Reads from the text that is left. -/
abbrev Reader := StateT (List Char) (Except Fault)

namespace Reader

variable {α : Type}

def fail : Reader α := throw .malformed

def ofOption : Option α → Reader α
  | some a => return a
  | none => fail

/-- Reads with a function from the text to a result and the text after it. -/
def lift (f : List Char → Option (α × List Char)) : Reader α := do
  let (a, rest) ← ofOption (f (← get))
  set rest
  return a

def peek : Reader (Option Char) := do return (← get).head?

/-- Takes the next character, which must be `c`. -/
def take (c : Char) : Reader Unit := do
  match ← get with
  | d :: rest => if d = c then set rest else fail
  | [] => fail

/-- Takes one of two characters, and says whether it was the first. -/
def takeEither (c d : Char) : Reader Bool := do
  if (← peek) = some c then take c; return true
  else take d; return false

/-- Takes characters for as long as they are of a kind. -/
def takeWhile (p : Char → Bool) : Reader (List Char) := do
  let text ← get
  set (text.dropWhile p)
  return text.takeWhile p

def skipBlanks : Reader Unit := do let _ ← takeWhile isBlank

end Reader

open Reader

/-! ### Gaps -/

/-- A comment runs to the end of its line. -/
def comment : Reader Unit := do
  if (← peek) = some '#' then
    let text ← takeWhile (· ≠ '\n')
    if text.any isControl then fail

/-- The text after blanks, line ends and comments. -/
def afterGap? (inComment : Bool) : List Char → Option (List Char)
  | [] => some []
  | c :: rest =>
    if c = '\n' then afterGap? false rest
    else if inComment then (if isControl c then none else afterGap? true rest)
    else if c = '#' then afterGap? true rest
    else if isBlank c then afterGap? false rest
    else some (c :: rest)

def skipGap : Reader Unit := lift fun text => (afterGap? false text).map fun rest => ((), rest)

/-! ### Keys -/

def isKeyChar (c : Char) : Bool := Text.isWordChar c || c = '-'

/-- A name in a key: a bare word, or a string on one line. -/
def keyPart : Reader String := do
  match ← peek with
  | some '"' => take '"'; return String.ofList (← lift (basic? false))
  | some '\x27' => take '\x27'; return String.ofList (← lift (literal? false))
  | _ =>
    let word ← takeWhile isKeyChar
    if word.isEmpty then fail
    return String.ofList word

/-- The names of a key, with dots between them and blanks where they like. -/
def keyParts : Nat → Reader (List String)
  | 0 => fail
  | n + 1 => do
    let part ← keyPart
    skipBlanks
    if (← peek) = some '.' then
      take '.'
      skipBlanks
      return part :: (← keyParts n)
    else return [part]

def key : Reader Key := do
  let parts ← keyParts ((← get).length + 1)
  return ⟨parts.dropLast, ← ofOption parts.getLast?⟩

/-- A key up to the value after its equals sign. -/
def keyBeforeValue : Reader Key := do
  let key ← key
  take '='
  skipBlanks
  return key

/-! ### Values -/

def isScalarChar (c : Char) : Bool := isKeyChar c || c = '+' || c = '.' || c = ':'

/-- What stands without quotes or brackets. A date may be followed by its time after a blank. -/
def plain : Reader Toml := do
  let word ← takeWhile isScalarChar
  let time ← (do
    match ← get with
    | ' ' :: c :: rest =>
      if isDate word && c.isDigit then
        set (c :: rest)
        return ' ' :: (← takeWhile isScalarChar)
      else return []
    | _ => return [])
  scalar (word ++ time)

/-- A string, with its opening mark still to be taken. -/
def quoted (quote : Char) (read : Bool → List Char → Option (List Char × List Char)) :
    Reader Toml := do
  take quote
  match ← get with
  | a :: b :: rest =>
    if a = quote && b = quote then
      set (dropLineEnd rest)
      return .string (String.ofList (← lift (read true)))
    else return .string (String.ofList (← lift (read false)))
  | _ => return .string (String.ofList (← lift (read false)))

mutual

def value : Nat → Reader Toml
  | 0 => fail
  | n + 1 => do
    match ← peek with
    | some '"' => quoted '"' basic?
    | some '\x27' => quoted '\x27' literal?
    | some '[' =>
      take '['
      skipGap
      return .array (← elements n)
    | some '\x7b' =>
      take '\x7b'
      skipBlanks
      if (← peek) = some '\x7d' then
        take '\x7d'
        return .table []
      return .table (← entries Document.empty n).toToml
    | _ => plain

/-- The rest of an array. A comma may follow its last element. -/
def elements : Nat → Reader (List Toml)
  | 0 => fail
  | n + 1 => do
    if (← peek) = some ']' then
      take ']'
      return []
    let v ← value n
    skipGap
    if ← takeEither ',' ']' then
      skipGap
      return v :: (← elements n)
    else return [v]

/-- A table in braces, which stands on one line, after the entries before. -/
def entries (d : Document) : Nat → Reader Document
  | 0 => fail
  | n + 1 => do
    let key ← keyBeforeValue
    let d ← ofOption (d.add? (.entry key (← value n)))
    skipBlanks
    if ← takeEither ',' '\x7d' then
      skipBlanks
      entries d n
    else return d

end

/-! ### Statements -/

/-- A header in single or in double brackets. -/
def header : Reader Statement := do
  take '['
  if (← peek) = some '[' then
    take '['
    skipBlanks
    let key ← key
    take ']'
    take ']'
    return .element key
  else
    skipBlanks
    let key ← key
    take ']'
    return .table key

/-- A statement, if the line has one. -/
def statement? : Reader (Option Statement) := do
  match ← peek with
  | none | some '\n' | some '#' => return none
  | some '[' => return some (← header)
  | _ =>
    let key ← keyBeforeValue
    return some (.entry key (← value (2 * (← get).length + 2)))

/-- A line of a document up to and with its end, after the lines before. -/
def line (d : Document) : Reader Document := do
  skipBlanks
  let d ← match ← statement? with
    | some s => ofOption (d.add? s)
    | none => pure d
  skipBlanks
  comment
  if (← get).isEmpty then return d
  take '\n'
  return d

/-- The lines of a document. Each takes a character. -/
def lines (d : Document) : Nat → Reader Document
  | 0 => fail
  | n + 1 => do if (← get).isEmpty then return d else lines (← line d) n

/-- The entries of the document that a text spells. A carriage return before a line feed is not
part of the text. -/
def parse (text : String) : Except Fault (List (String × Toml)) := do
  let text := Text.unifyLineEnds false text.toList
  let (d, _) ← (lines Document.empty (text.length + 1)).run text
  return d.toToml

end XdrSchema.Toml
