import XdrSchema.Toml.Basic

/-! Building a TOML document from its statements. A header opens a table or adds an element to an
array of tables, and the entries after it belong there. Dotted keys open tables on their way. A
table can be opened once: by its own header, or by the dotted keys of one block of entries. -/
namespace XdrSchema.Toml

/-- A dotted key: the tables on the way to it, and its name in the last of them. -/
structure Key where
  path : List String
  name : String

inductive Statement
  | table (key : Key)
  | element (key : Key)
  | entry (key : Key) (value : Toml)

/-- What stands under a name while the document is built: a complete value; a table, with the
number of the block that opened it, if one did; or an array of tables, the last of which is still
being filled. -/
inductive Node
  | value (v : Toml)
  | table (opened : Option Nat) (entries : List (String × Node))
  | tables (earlier : List (List (String × Node))) (last : List (String × Node))

abbrev Entries := List (String × Node)

namespace Entries

/-- Changes what stands under a name, or adds it at the end. -/
def change (name : String) (f : Option Node → Option Node) : Entries → Option Entries
  | [] => do return [(name, ← f none)]
  | (n, node) :: rest => do
    if n = name then return (n, ← f (some node)) :: rest
    else return (n, node) :: (← change name f rest)

/-- Makes a change at the end of a path, where `via` says how to pass through each name. -/
def under (via : (Entries → Option Entries) → Option Node → Option Node) (path : List String)
    (inner : Entries → Option Entries) : Entries → Option Entries :=
  path.foldr (fun name inner => change name (via inner)) inner

end Entries

namespace Node

/-- On the way of a header: tables may be open or not, and of an array the last element counts. -/
def enter (inner : Entries → Option Entries) : Option Node → Option Node
  | none => do return .table none (← inner [])
  | some (.table opened entries) => do return .table opened (← inner entries)
  | some (.tables earlier last) => do return .tables earlier (← inner last)
  | some (.value _) => none

/-- On the way of a dotted key: a table may not have been opened by another block. -/
def extend (block : Nat) (inner : Entries → Option Entries) : Option Node → Option Node
  | none => do return .table (some block) (← inner [])
  | some (.table opened entries) => do
    if opened.getD block = block then return .table (some block) (← inner entries) else none
  | _ => none

/-- A header opens a table that is not open yet. -/
def openTable (block : Nat) : Option Node → Option Node
  | none => some (.table (some block) [])
  | some (.table none entries) => some (.table (some block) entries)
  | _ => none

/-- A header of the other kind adds an element to an array of tables. -/
def addElement : Option Node → Option Node
  | none => some (.tables [] [])
  | some (.tables earlier last) => some (.tables (earlier ++ [last]) [])
  | _ => none

/-- A value is set once. -/
def set (v : Toml) : Option Node → Option Node
  | none => some (.value v)
  | some _ => none

mutual

def toToml : Node → Toml
  | .value v => v
  | .table _ entries => .table (entriesToml entries)
  | .tables earlier last => .array (tablesToml earlier ++ [.table (entriesToml last)])

def entriesToml : List (String × Node) → List (String × Toml)
  | [] => []
  | (name, node) :: rest => (name, node.toToml) :: entriesToml rest

def tablesToml : List (List (String × Node)) → List Toml
  | [] => []
  | entries :: rest => .table (entriesToml entries) :: tablesToml rest

end

end Node

/-- A document so far: its entries, the header in force, and the number of the current block. -/
structure Document where
  entries : Entries
  header : List String
  block : Nat

namespace Document

def empty : Document := ⟨[], [], 0⟩

/-- Starts a block under a header that makes the given change. -/
def start (d : Document) (key : Key) (f : Option Node → Option Node) : Option Document := do
  let entries ← Entries.under Node.enter key.path (Entries.change key.name f) d.entries
  return ⟨entries, key.path ++ [key.name], d.block + 1⟩

/-- The document with one more statement, unless that contradicts one before it. -/
def add? (d : Document) : Statement → Option Document
  | .table key => d.start key (Node.openTable (d.block + 1))
  | .element key => d.start key Node.addElement
  | .entry key v => do
    let inner := Entries.under (Node.extend d.block) key.path (Entries.change key.name (Node.set v))
    return { d with entries := ← Entries.under Node.enter d.header inner d.entries }

def toToml (d : Document) : List (String × Toml) := Node.entriesToml d.entries

end Document

end XdrSchema.Toml
