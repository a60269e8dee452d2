import XdrSchema.Diagnostic.Catalog
import XdrSchema.Text.Span

/-! What is reported about a specification: a kind, a code, a message and the place it is about. -/
namespace XdrSchema

structure Diagnostic where
  severity : Diagnostic.Severity
  code : String
  message : String
  span : Option Span

namespace Diagnostic

/-- How many errors and how many warnings there are. -/
def count (severity : Severity) (items : List Diagnostic) : Nat :=
  items.countP (·.severity = severity)

/-- The exit code of a run: 0 when nothing was reported, 1 for warnings only, 2 with an error. -/
def exitCode (items : List Diagnostic) : Nat :=
  if 0 < count .error items then 2 else if 0 < count .warning items then 1 else 0

/-- A number of things, in the plural unless it is one. -/
def tally (n : Nat) (thing : String) : String := s!"{n} {thing}" ++ (if n = 1 then "" else "s")

/-- The number of errors and of warnings, of those that there are. -/
def summary (items : List Diagnostic) : String :=
  let part (severity : Severity) : List String :=
    let n := count severity items
    if n = 0 then [] else [tally n severity.text]
  ", ".intercalate (part .error ++ part .warning)

end Diagnostic

end XdrSchema
