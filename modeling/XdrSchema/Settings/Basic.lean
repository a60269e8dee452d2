/-! Settings of code generation. -/
namespace XdrSchema

/-- The annotations of types, by default and by name, whether the support code is written out, and
the path it is imported from otherwise. -/
structure Settings where
  annotations : List String
  typeAnnotations : List (String × List String)
  support : Bool
  supportPath : String

namespace Settings

def default : Settings := ⟨["#[derive(Debug, Clone, PartialEq)]"], [], true, "super"⟩

/-- The annotations of a type: its own, or else those for all. -/
def annotationsFor (s : Settings) (name : String) : List String :=
  (s.typeAnnotations.lookup name).getD s.annotations

end Settings

end XdrSchema
