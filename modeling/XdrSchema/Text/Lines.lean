/-! Lines and line ends. Unlike positions, which know the line feed only, display lines end at
every character that moves to a new line. -/
namespace XdrSchema.Text

/-- A text with a line feed for each carriage return and line feed. A carriage return alone is
replaced too if `alone`, and kept otherwise. -/
def unifyLineEnds (alone : Bool) : List Char → List Char
  | '\r' :: '\n' :: rest => '\n' :: unifyLineEnds alone rest
  | c :: rest => (if c = '\r' && alone then '\n' else c) :: unifyLineEnds alone rest
  | [] => []

/-- A text without its last line feed, if it ends in one. -/
def dropFinalNewline (text : List Char) : List Char :=
  if text.getLast? = some '\n' then text.dropLast else text

/-- The characters that end a display line. -/
def isLineEnd (c : Char) : Bool :=
  c = '\n' || c = '\r' || c = '\x0b' || c = '\x0c' || ('\x1c' ≤ c && c ≤ '\x1e')
    || c = '\u0085' || c = '\u2028' || c = '\u2029'

/-- `current` is the line read so far, last character first. A carriage return and the line feed
after it end one line together; no empty line follows the last line end. -/
def linesFrom (current : List Char) : List Char → List (List Char)
  | [] => if current.isEmpty then [] else [current.reverse]
  | '\r' :: '\n' :: rest => current.reverse :: linesFrom [] rest
  | c :: rest =>
    if isLineEnd c then current.reverse :: linesFrom [] rest else linesFrom (c :: current) rest

/-- The display lines of a text, without their line ends. -/
def lines (text : List Char) : List (List Char) := linesFrom [] text

end XdrSchema.Text
