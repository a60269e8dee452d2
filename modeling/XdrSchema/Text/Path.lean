/-! File names with slashes. -/
namespace XdrSchema.Text

/-- A path: the slashes it starts with, of which one or two count, and its components. Empty
components and single dots mean nothing and are left out. -/
structure Path where
  root : String
  parts : List String
deriving DecidableEq

namespace Path

def parse (s : String) : Path :=
  let slashes := (s.toList.takeWhile (· = '/')).length
  let root := if slashes = 0 then "" else if slashes = 2 then "//" else "/"
  ⟨root, ((s.toList.splitOn '/').map String.ofList).filter fun p => p ≠ "" && p ≠ "."⟩

/-- The path as written out. An empty path is a dot. -/
def text (p : Path) : String :=
  let s := p.root ++ "/".intercalate p.parts
  if s.isEmpty then "." else s

/-- The last component; a root has none. -/
def name (p : Path) : String := p.parts.getLast?.getD ""

/-- The components from a starting directory on, with each double dot undone against the component
before it; nothing if that leaves the directory. `above` are the components so far, the last one
first. -/
def descendFrom (above : List String) : List String → Option (List String)
  | [] => some above.reverse
  | ".." :: rest =>
    match above with
    | [] => none
    | _ :: above => descendFrom above rest
  | p :: rest => descendFrom (p :: above) rest

/-- The components of a relative path that stays within its starting directory. -/
def within? (p : Path) : Option (List String) :=
  if p.root.isEmpty then descendFrom [] p.parts else none

/-- A null character ends a name, so no file is at a path that has one. -/
def isPlace (p : Path) : Bool := p.parts.all fun part => !part.toList.contains '\x00'

/-- How reports name a file: by its place within the working directory, or else by its last
component. -/
def display (p : Path) : String :=
  match p.within?.filter fun _ => p.isPlace with
  | some parts => "./" ++ (⟨"", parts⟩ : Path).text
  | none => p.name

end Path

end XdrSchema.Text
