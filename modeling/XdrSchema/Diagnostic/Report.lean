import XdrSchema.Diagnostic.Basic
import XdrSchema.Text.Lines
import XdrSchema.Text.Path

/-! Reports on a source text. A diagnostic is shown with the line it is about and a mark under the
place, in a frame or plainly, with or without colours. Colours are spans of the report: the plain
report is what is left of the coloured one without its escape sequences. -/
namespace XdrSchema

/-- A source text, if it is known, under a file name. -/
structure Report where
  source : Option String
  filename : String
  items : List Diagnostic

namespace Report

/-- How to show a report. -/
structure Style where
  color : Bool
  unicode : Bool

/-- The colours and weights in use. -/
inductive Tint
  | bold | dim | red | yellow | cyan | gray

def Tint.code : Tint → String
  | bold => "1"
  | dim => "2"
  | red => "31"
  | yellow => "33"
  | cyan => "36"
  | gray => "90"

def Tint.escape (t : Tint) : String := "\x1b[" ++ t.code ++ "m"

/-- A part of a report: plain text, or a text in one or several tints. -/
inductive Segment
  | plain (text : String)
  | tinted (tints : List Tint) (text : String)

/-- A tinted text is followed by a reset. -/
def Segment.text (color : Bool) : Segment → String
  | plain s => s
  | tinted tints s =>
    if color then String.join (tints.map Tint.escape) ++ s ++ "\x1b[0m" else s

def lineText (color : Bool) (line : List Segment) : String :=
  String.join (line.map (Segment.text color))

def tint : Diagnostic.Severity → Tint
  | .error => .red
  | .warning => .yellow

/-- The message as a sentence. -/
def sentence (message : String) : String :=
  if message.toList.getLast? = some '.' then message else message ++ "."

/-- Place, kind, code and message. -/
def head (name : String) (d : Diagnostic) : List Segment :=
  let place := match d.span with
    | some s => name ++ ":" ++ s.label
    | none => name
  [.tinted [.cyan] place, .plain ": ", .tinted [.bold, tint d.severity] d.severity.text,
   .plain " [", .tinted [.dim] d.code, .plain ("]: " ++ sentence d.message)]

/-- The source line that a span starts in. -/
def lineAt? (lines : List (List Char)) (s : Span) : Option (List Char) :=
  if 0 < s.line then lines[(s.line - 1).toNat]? else none

/-- How many columns to mark: the span on its own line, else up to the end of the line, and at
least one. -/
def markWidth (s : Span) (line : List Char) : Nat :=
  if s.endLine = s.line && s.column < s.endColumn then (s.endColumn - s.column).toNat
  else (max 1 ((line.length : Int) - s.column + 1)).toNat

/-- A text filled up with spaces on its left. -/
def alignRight (width : Nat) (text : String) : String :=
  String.ofList (List.replicate (width - text.length) ' ') ++ text

/-- The lines that show a diagnostic. -/
def display (unicode : Bool) (name : String) (lines : List (List Char)) (d : Diagnostic) :
    List (List Segment) :=
  let head := head name d
  match d.span.bind fun s => (lineAt? lines s).map fun line => (s, line) with
  | none => [head]
  | some (s, line) =>
    let indent := String.ofList (List.replicate ((max 1 s.column) - 1).toNat ' ')
    let mark (c : Char) : Segment :=
      .tinted [tint d.severity] (String.ofList (List.replicate (markWidth s line) c))
    let number := toString s.line
    if unicode then
      [.tinted [.gray] "  ╭─ " :: head,
       [.tinted [.gray] (alignRight 3 number ++ " │"), .plain (" " ++ String.ofList line)],
       [.tinted [.gray] "    │", .plain (" " ++ indent), mark '━'],
       [.tinted [.gray] "    ╰─"]]
    else
      [head,
       [.plain (alignRight 4 number ++ " | " ++ String.ofList line)],
       [.plain ("     | " ++ indent), mark '^']]

/-- The report as text, without a line end after the last line. -/
def format (r : Report) (style : Style) : String :=
  let lines := Text.lines (r.source.getD "").toList
  let name := (Text.Path.parse r.filename).display
  let shown := r.items.flatMap (display style.unicode name lines)
  "\n".intercalate (shown.map (lineText style.color))

/-- The report as written out, with a closing line that counts what was reported; nothing when
nothing was. -/
def printed (r : Report) (style : Style) : String :=
  let text := r.format style
  if text.isEmpty then ""
  else text ++ "\n" ++ r.filename ++ ": " ++ Diagnostic.summary r.items ++ "\n"

def exitCode (r : Report) : Nat := Diagnostic.exitCode r.items

end Report

end XdrSchema
