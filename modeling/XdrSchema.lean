import XdrSchema.Cli.FileTree
import XdrSchema.Main
import XdrSchema.Proofs.Chain
import XdrSchema.Proofs.Cli.Command
import XdrSchema.Proofs.Concrete.Derivation
import XdrSchema.Proofs.Concrete.Descent
import XdrSchema.Proofs.Concrete.Fault
import XdrSchema.Proofs.Concrete.Grammar
import XdrSchema.Proofs.Concrete.Language
import XdrSchema.Proofs.Concrete.Pattern
import XdrSchema.Proofs.Concrete.Place
import XdrSchema.Proofs.Concrete.Printing
import XdrSchema.Proofs.Concrete.Reading
import XdrSchema.Proofs.Concrete.Splitting
import XdrSchema.Proofs.Concrete.Stopping
import XdrSchema.Proofs.Concrete.Stretch
import XdrSchema.Proofs.Concrete.Structure
import XdrSchema.Proofs.Concrete.Unambiguous
import XdrSchema.Proofs.Concrete.Unplaced
import XdrSchema.Proofs.Diagnostic.Color
import XdrSchema.Proofs.Diagnostic.Snippet
import XdrSchema.Proofs.Lookup
import XdrSchema.Proofs.Number.Binary
import XdrSchema.Proofs.Number.Literal
import XdrSchema.Proofs.Order
import XdrSchema.Proofs.Rust.Agreement
import XdrSchema.Proofs.Rust.Closed
import XdrSchema.Proofs.Rust.Layout
import XdrSchema.Proofs.Rust.Legible
import XdrSchema.Proofs.Rust.Lines
import XdrSchema.Proofs.Rust.Machine
import XdrSchema.Proofs.Rust.Names
import XdrSchema.Proofs.Rust.Numbers
import XdrSchema.Proofs.Rust.Reorder
import XdrSchema.Proofs.Rust.Reserved
import XdrSchema.Proofs.Rust.Support
import XdrSchema.Proofs.Rust.SupportText
import XdrSchema.Proofs.Rust.Template
import XdrSchema.Proofs.Rust.Tidy
import XdrSchema.Proofs.Rust.Union
import XdrSchema.Proofs.Rust.View
import XdrSchema.Proofs.Rust.Vocabulary
import XdrSchema.Proofs.Rust.WellLaid
import XdrSchema.Proofs.Rust.Words
import XdrSchema.Proofs.Rust.Written
import XdrSchema.Proofs.Schema.Accept
import XdrSchema.Proofs.Schema.CaseSet
import XdrSchema.Proofs.Schema.Caution
import XdrSchema.Proofs.Schema.Constant
import XdrSchema.Proofs.Schema.Coverage
import XdrSchema.Proofs.Schema.Cycle
import XdrSchema.Proofs.Schema.Cyclic
import XdrSchema.Proofs.Schema.Decide
import XdrSchema.Proofs.Schema.Known
import XdrSchema.Proofs.Schema.Linked
import XdrSchema.Proofs.Schema.Memory
import XdrSchema.Proofs.Schema.Naming
import XdrSchema.Proofs.Schema.Placed
import XdrSchema.Proofs.Schema.Progress
import XdrSchema.Proofs.Schema.Resolve
import XdrSchema.Proofs.Schema.Scope
import XdrSchema.Proofs.Schema.Shared
import XdrSchema.Proofs.Schema.Variant
import XdrSchema.Proofs.Schema.WellFormed
import XdrSchema.Proofs.Settings.Document
import XdrSchema.Proofs.Settings.Form
import XdrSchema.Proofs.Spec.Language
import XdrSchema.Proofs.Spec.Layout
import XdrSchema.Proofs.Spec.Node
import XdrSchema.Proofs.Spec.Placed
import XdrSchema.Proofs.Spec.Printing
import XdrSchema.Proofs.Spec.Proper
import XdrSchema.Proofs.Spec.Records
import XdrSchema.Proofs.Spec.Reorder
import XdrSchema.Proofs.Spec.Resolution
import XdrSchema.Proofs.Spec.Shared
import XdrSchema.Proofs.Spec.Source
import XdrSchema.Proofs.Spec.Structure
import XdrSchema.Proofs.Spec.Unplaced
import XdrSchema.Proofs.Spec.WellFormed
import XdrSchema.Proofs.Spec.Words
import XdrSchema.Proofs.Strict.Compile
import XdrSchema.Proofs.Strict.Constant
import XdrSchema.Proofs.Strict.Failure
import XdrSchema.Proofs.Strict.Generate
import XdrSchema.Proofs.Strict.Lookup
import XdrSchema.Proofs.Strict.Resolve
import XdrSchema.Proofs.Strict.Scope
import XdrSchema.Proofs.Strict.Settings
import XdrSchema.Proofs.Strict.Sizing
import XdrSchema.Proofs.Strict.Table
import XdrSchema.Proofs.Strict.Tree
import XdrSchema.Proofs.Text.Bracket
import XdrSchema.Proofs.Text.Escape
import XdrSchema.Proofs.Text.Lines
import XdrSchema.Proofs.Text.Path
import XdrSchema.Proofs.Wire.Agree
import XdrSchema.Proofs.Wire.Bounds
import XdrSchema.Proofs.Wire.Budget
import XdrSchema.Proofs.Wire.Complete
import XdrSchema.Proofs.Wire.Coverage
import XdrSchema.Proofs.Wire.Encode
import XdrSchema.Proofs.Wire.Equality
import XdrSchema.Proofs.Wire.Extent
import XdrSchema.Proofs.Wire.Faults
import XdrSchema.Proofs.Wire.Local
import XdrSchema.Proofs.Wire.Lookahead
import XdrSchema.Proofs.Wire.Normal
import XdrSchema.Proofs.Wire.Part
import XdrSchema.Proofs.Wire.Pieces
import XdrSchema.Proofs.Wire.Place
import XdrSchema.Proofs.Wire.Reads
import XdrSchema.Proofs.Wire.Refusal
import XdrSchema.Proofs.Wire.RoundTrip
import XdrSchema.Proofs.Wire.Simulation
import XdrSchema.Proofs.Wire.Size
import XdrSchema.Proofs.Wire.SizeTable
import XdrSchema.Proofs.Wire.Sizing
import XdrSchema.Proofs.Wire.Sound
import XdrSchema.Proofs.Wire.Span
import XdrSchema.Proofs.Wire.Spelling
import XdrSchema.Proofs.Wire.Stated
import XdrSchema.Proofs.Wire.Unbounded
import XdrSchema.Proofs.Wire.Word
import XdrSchema.Wire.Encode
