/-! Source text built line by line, indented by the depth of open blocks. -/
namespace XdrSchema.Rust

/-- The lines so far, the last one first, and what follows the closing brace of each open block,
the innermost first. -/
structure Source where
  reversed : List String
  closers : List String

namespace Source

def empty : Source := ⟨[], []⟩

def lines (s : Source) : List String := s.reversed.reverse

def depth (s : Source) : Nat := s.closers.length

def push (s : Source) (line : String) : Source := { s with reversed := line :: s.reversed }

/-- A line at the current depth. An empty line is not indented. -/
def line (s : Source) (text : String) : Source :=
  if text.isEmpty then s.push ""
  else s.push (String.ofList (List.replicate (4 * s.depth) ' ') ++ text)

/-- An empty line, unless the text starts here or has one already. -/
def blank (s : Source) : Source :=
  match s.reversed with
  | [] => s
  | last :: _ => if last.isEmpty then s else s.push ""

/-- A text of several lines. The line ends after it add nothing. -/
def raw (s : Source) (text : String) : Source :=
  let kept := (text.toList.reverse.dropWhile (· = '\n')).reverse
  ((String.ofList kept).splitOn "\n").foldl line s

/-- Opens a block after its header; `suffix` is to follow the closing brace. -/
def openBlock (s : Source) (header suffix : String) : Source :=
  let s := s.line (if header.isEmpty then "\x7b" else header ++ " \x7b")
  { s with closers := suffix :: s.closers }

/-- Closes the innermost open block. -/
def closeBlock (s : Source) : Source :=
  match s.closers with
  | [] => s
  | suffix :: rest => ({ s with closers := rest }).line ("\x7d" ++ suffix)

/-- Empty lines at the end are dropped. -/
def trimEnd (s : Source) : Source :=
  { s with reversed := s.reversed.dropWhile (·.isEmpty) }

/-- The text with one line end after its last line. -/
def text (s : Source) : String := "\n".intercalate s.trimEnd.lines ++ "\n"

end Source

/-- A piece of source text. -/
inductive Code
  | line (text : String)
  | blank
  | raw (text : String)
  | block (header suffix : String) (body : List Code)

mutual

def Source.write (s : Source) : Code → Source
  | .line t => s.line t
  | .blank => s.blank
  | .raw t => s.raw t
  | .block header suffix body => ((s.openBlock header suffix).writeAll body).closeBlock

def Source.writeAll (s : Source) : List Code → Source
  | [] => s
  | c :: rest => (s.write c).writeAll rest

end

end XdrSchema.Rust
