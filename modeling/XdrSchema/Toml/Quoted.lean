import XdrSchema.Number.Literal

/-! The strings of a TOML document: in double quotes with escapes or in single quotes without, on
one line in single marks or on several in triple ones. Each reader takes the text after the opening
mark and returns the string and the text after the closing one. -/
namespace XdrSchema.Toml

def isBlank (c : Char) : Bool := c = ' ' || c = '\t'

/-- Control characters, of which a tab alone may stand in a line. -/
def isControl (c : Char) : Bool := (c.toNat < 32 && c ≠ '\t') || c.toNat = 127

/-- What a string may hold as it is: line ends only if it is long. -/
def isAllowed (long : Bool) (c : Char) : Bool := !isControl c || (long && c = '\n')

/-- Up to two quotes before the mark that closes a long string belong to it. -/
def closing (quote : Char) : List Char → List Char × List Char
  | a :: b :: rest =>
    if a = quote then
      if b = quote then ([a, b], rest) else ([a], b :: rest)
    else ([], a :: b :: rest)
  | [a] => if a = quote then ([a], []) else ([], [a])
  | [] => ([], [])

def shortEscape? (c : Char) : Option Char :=
  [('b', '\x08'), ('t', '\t'), ('n', '\n'), ('f', '\x0c'), ('r', '\r'), ('"', '"'),
   ('\\', '\\')].lookup c

/-- The character with the code point that hexadecimal digits spell. -/
def codePoint? (digits : List Char) : Option Char := do
  let n ← Number.digits? 16 digits
  if n.isValidChar then some (Char.ofNat n) else none

/-- After a backslash that ends a line: the text from the next character that is not blank. -/
def afterLineEnd? (text : List Char) : Option (List Char) :=
  match text.dropWhile isBlank with
  | '\n' :: rest => some (rest.dropWhile fun c => isBlank c || c = '\n')
  | _ => none

theorem length_afterLineEnd? {text rest : List Char} (h : afterLineEnd? text = some rest) :
    rest.length < text.length := by
  unfold afterLineEnd? at h
  split at h
  · next tail heq =>
    have hdrop := (List.dropWhile_sublist isBlank (l := text)).length_le
    have htail := (List.dropWhile_sublist (fun c => isBlank c || c = '\n') (l := tail)).length_le
    rw [heq] at hdrop
    simp only [Option.some.injEq] at h
    subst h
    simp only [List.length_cons] at hdrop
    omega
  · simp at h

/-- Puts a character before the string that was read. -/
def prepend (c : Char) (result : Option (List Char × List Char)) :
    Option (List Char × List Char) :=
  result.map fun (s, rest) => (c :: s, rest)

/-- A string in double quotes. -/
def basic? (long : Bool) : List Char → Option (List Char × List Char)
  | [] => none
  | '"' :: '"' :: '"' :: rest => if long then some (closing '"' rest) else some ([], '"' :: '"' :: rest)
  | '"' :: rest => if long then prepend '"' (basic? long rest) else some ([], rest)
  | '\\' :: 'u' :: a :: b :: c :: d :: rest => do
    prepend (← codePoint? [a, b, c, d]) (basic? long rest)
  | '\\' :: 'U' :: a :: b :: c :: d :: e :: f :: g :: h :: rest => do
    prepend (← codePoint? [a, b, c, d, e, f, g, h]) (basic? long rest)
  | '\\' :: c :: rest =>
    match shortEscape? c with
    | some e => prepend e (basic? long rest)
    | none =>
      if long then
        match _h : afterLineEnd? (c :: rest) with
        | some rest => basic? long rest
        | none => none
      else none
  | c :: rest => if isAllowed long c then prepend c (basic? long rest) else none
termination_by text => text.length
decreasing_by
  all_goals try have hlength := length_afterLineEnd? _h
  all_goals simp only [List.length_cons] at *
  all_goals omega

/-- A string in single quotes. -/
def literal? (long : Bool) : List Char → Option (List Char × List Char)
  | [] => none
  | '\x27' :: '\x27' :: '\x27' :: rest =>
    if long then some (closing '\x27' rest) else some ([], '\x27' :: '\x27' :: rest)
  | '\x27' :: rest => if long then prepend '\x27' (literal? long rest) else some ([], rest)
  | c :: rest => if isAllowed long c then prepend c (literal? long rest) else none

/-- A line end right after the opening mark is left out. -/
def dropLineEnd : List Char → List Char
  | '\n' :: rest => rest
  | text => text

end XdrSchema.Toml
