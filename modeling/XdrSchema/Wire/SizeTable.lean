import XdrSchema.Wire.Size

/-! The encoded size of every type of a schema. A table of sizes is improved by computing each
definition's size from those in the table. At first nothing is known; since a value does not hold
itself directly, as many rounds as there are definitions settle every least size, and a greatest
size that is still open by then has no bound. -/
namespace XdrSchema.Wire

open Schema (Definition)

abbrev SizeTable := List (String × Size)

namespace SizeTable

/-- The size of a named type, of which nothing may be known yet. -/
def get (t : SizeTable) (name : String) : Size := (t.lookup name).getD Size.unknown

/-- The size of a definition, given those of the named types. -/
def ofDefinition (named : String → Size) (d : Definition) : Size :=
  Id.run (Size.ofDefinition (fun name => pure (named name)) d)

/-- The table computed from a table. -/
def improve (types : List (String × Definition)) (t : SizeTable) : SizeTable :=
  types.map fun (name, d) => (name, ofDefinition t.get d)

/-- The table after some rounds. -/
def rounds (types : List (String × Definition)) : Nat → SizeTable
  | 0 => []
  | n + 1 => improve types (rounds types n)

def ofSchema (s : Schema) : SizeTable := rounds s.types s.types.length

end SizeTable

/-- One line for each type, with its encoded size. -/
def layout (s : Schema) : List String :=
  let table := SizeTable.ofSchema s
  s.typeNames.map fun name => s!"{name}: " ++ (table.get name).text

/-- The numbers in the sizes of the types. -/
def sizeNumbers (s : Schema) : List Int :=
  let table := SizeTable.ofSchema s
  s.typeNames.flatMap fun name => (table.get name).numbers

end XdrSchema.Wire
