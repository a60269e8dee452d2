/-! Places in a text. Lines end at a line feed only and columns count characters; both start at
one, and the end of a span is the place after its last character. -/
namespace XdrSchema

/-- The place of one character. -/
structure Position where
  line : Nat
  column : Nat
deriving DecidableEq

namespace Position

def start : Position := ⟨1, 1⟩

/-- The place after `c`, which stands at `p`. -/
def after (p : Position) (c : Char) : Position :=
  if c = '\n' then ⟨p.line + 1, 1⟩ else ⟨p.line, p.column + 1⟩

/-- The place after a text that starts at `p`. -/
def afterAll (p : Position) (text : List Char) : Position := text.foldl after p

end Position

/-- A stretch of text. Coordinates are integers because a diagnostic may be given a place that no
text has; such a place is shown as it is. -/
structure Span where
  line : Int
  column : Int
  endLine : Int
  endColumn : Int
deriving DecidableEq

namespace Span

/-- The stretch from `p` up to, not including, `q`. -/
def between (p q : Position) : Span := ⟨p.line, p.column, q.line, q.column⟩

/-- The empty stretch at `p`. -/
def point (p : Position) : Span := between p p

/-- The empty stretch at the first character of `s`. -/
def head (s : Span) : Span := ⟨s.line, s.column, s.line, s.column⟩

/-- From the start of `a` to the end of `b`. -/
def cover (a b : Span) : Span := ⟨a.line, a.column, b.endLine, b.endColumn⟩

/-- How messages name the place: `line:column`. -/
def label (s : Span) : String := s!"{s.line}:{s.column}"

end Span

end XdrSchema
