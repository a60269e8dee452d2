import XdrSchema.Cli.Action
import XdrSchema.Text.Path

/-! Files in memory, and running an action on them. There are no directories but those that hold a
file; what is outside of the tree is not there. -/
namespace XdrSchema.Cli

/-- Files by the components of their paths. -/
structure FileTree where
  files : List (List String × String)

namespace FileTree

/-- What a path leads to. -/
inductive Found
  | file (place : List String) (text : String)
  | directory
  | absent (place : List String)

def hasDirectory (t : FileTree) (place : List String) : Bool :=
  t.files.any fun f => place.isPrefixOf f.1 && f.1 ≠ place

/-- Walks from a directory along a path. A file on the way is not passed through. -/
def walk (t : FileTree) (here : List String) : List String → Except FileError Found
  | [] => return .directory
  | ".." :: rest => if here.isEmpty then throw .notFound else walk t here.dropLast rest
  | name :: rest =>
    let place := here ++ [name]
    match t.files.lookup place with
    | some text => if rest.isEmpty then return .file place text else throw .notDirectory
    | none =>
      if t.hasDirectory place then walk t place rest
      else if rest.isEmpty then return .absent place
      else throw .notFound

def find (t : FileTree) (path : String) : Except FileError Found :=
  if '\x00' ∈ path.toList then throw .nullCharacter
  else
    let path := Text.Path.parse path
    if path.root.isEmpty then t.walk [] path.parts else throw .notFound

def read (t : FileTree) (path : String) : Except FileError String := do
  match ← t.find path with
  | .file _ text => return text
  | .directory => throw .isDirectory
  | .absent _ => throw .notFound

/-- Puts a text at a place, over the one there. -/
def put (t : FileTree) (place : List String) (text : String) : FileTree :=
  ⟨t.files.filter (·.1 ≠ place) ++ [(place, text)]⟩

def write (t : FileTree) (path text : String) : Except FileError FileTree := do
  match ← t.find path with
  | .file place _ | .absent place => return t.put place text
  | .directory => throw .isDirectory

end FileTree

/-- How a run ended. -/
inductive Ending
  | exit (code : Nat)
  | abort (i : Interruption)

/-- What a run leaves behind. -/
structure Outcome where
  ending : Ending
  output : String
  report : String
  files : FileTree

namespace Action

/-- Runs an action on the given files, after the given output and report. -/
def runFrom (output report : String) (files : FileTree) : Action → Outcome
  | exit code => ⟨.exit code, output, report, files⟩
  | abort i => ⟨.abort i, output, report, files⟩
  | .output text next => next.runFrom (output ++ text) report files
  | .report text next => next.runFrom output (report ++ text) files
  | read path next => (next (files.read path)).runFrom output report files
  | write path text next =>
    match files.write path text with
    | .ok files => (next (.ok ())).runFrom output report files
    | .error e => (next (.error e)).runFrom output report files

def run (a : Action) (files : FileTree) : Outcome := a.runFrom "" "" files

end Action

end XdrSchema.Cli
