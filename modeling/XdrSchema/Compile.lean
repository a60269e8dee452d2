import XdrSchema.Diagnostic.Report
import XdrSchema.Rust.Module
import XdrSchema.Schema.Resolve
import XdrSchema.Spec.OfTree

/-! From a specification text to a generated module: reading, resolving and generating, up to the
first fault. -/
namespace XdrSchema

/-- The analysis of a text. -/
def Schema.analyzeText (source : String) : Schema.Analysis :=
  match Spec.parse source with
  | .error e => ⟨.error e, []⟩
  | .ok spec => Schema.analyze spec

/-- The module generated from a text, or the first fault in it, and the warnings up to then. -/
structure Compilation where
  result : Except SpecError String
  warnings : List Diagnostic

namespace Compilation

/-- The module of an analysed text. It names the file that the text was read from. -/
def ofAnalysis (a : Schema.Analysis) (settings : Settings) (filename : String) : Compilation :=
  ⟨a.result.bind fun s => Rust.generate s settings (Text.Path.parse filename).name, a.warnings⟩

/-- What there is to report: the warnings, and the fault after them. -/
def diagnostics (c : Compilation) : List Diagnostic :=
  match c.result with
  | .error e => c.warnings ++ [e.diagnostic]
  | .ok _ => c.warnings

end Compilation

def compile (source : String) (settings : Settings) (filename : String) : Compilation :=
  Compilation.ofAnalysis (Schema.analyzeText source) settings filename

/-- The number of too many digits at which a compilation ends, with neither a module nor a report:
one that keeps the fault from being reported, or one in the sizes that the module states. -/
def Compilation.overlong? (source : String) (settings : Settings) (filename : String) :
    Option Number.Overlong :=
  match (compile source settings filename).result with
  | .error e => e.fault.overlong?
  | .ok _ =>
    (Schema.analyzeText source).result.toOption.bind fun s =>
      Number.unwritable? (Wire.sizeNumbers s)

end XdrSchema
