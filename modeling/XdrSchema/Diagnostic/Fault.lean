import XdrSchema.Concrete.Terminal
import XdrSchema.Diagnostic.Basic
import XdrSchema.Number.Digits

/-! The ways in which a specification can be faulty, and the message for each. A message is made
only if the numbers in it can be written. -/
namespace XdrSchema

/-- Why a text is outside the grammar. -/
inductive SyntaxFault
  | character (c : Char)
  | token (text : String) (expected : List Concrete.Terminal)
  | endOfInput (expected : List Concrete.Terminal)

/-- Where data is required, so that `void` is misplaced. -/
inductive DataPlace
  | typedef
  | struct (name : String)

/-- The kinds of named types. -/
inductive TypeKind
  | typedef | struct | union | enum
deriving DecidableEq

/-- What a name can stand for. -/
inductive SymbolKind
  | constant | label | type (k : TypeKind)
deriving DecidableEq

/-- Why a value cannot be used where a constant is needed. -/
inductive ConstantFault
  | names (name : String) (kind : SymbolKind)
  | wide
  | wideLabel
  | bound (value : Int)

/-- A case label as messages show it: by its name, or by its value when it is a literal. -/
inductive CaseLabel
  | name (name : String)
  | literal (value : Int)

/-- Why a discriminant type or a case label is refused. -/
inductive CaseFault
  | discriminant (type : String)
  | repeated (label : CaseLabel) (value : Int) (earlier : CaseLabel)
  | foreign (label : CaseLabel) (enumName : String)
  | negative (label : CaseLabel)
  | wideUnsigned (label : CaseLabel)
  | notBool (label : CaseLabel)
  | wide (label : CaseLabel)

/-- What of the generated module a name collides with. -/
inductive Reserved
  | supportItem | primitiveType | keyword

/-- What is wrong with a specification. An overlong literal is well formed, but has too many digits
to be read. -/
inductive Fault
  | grammar (f : SyntaxFault)
  | duplicateField (field owner : String)
  | malformedLiteral (literal : String)
  | overlongLiteral (literal : String) (digits : Nat)
  | noArms (union : String)
  | misplacedVoid (place : DataPlace)
  | discriminantForm (union : String)
  | duplicateDefault (union : String)
  | undefined (name : String)
  | redefined (name : String) (previous : Option Span)
  | cyclic (chain : List String)
  | duplicateValue (enum : String) (value : Int) (first second : String)
  | notConstant (what : String) (reason : ConstantFault)
  | caseSet (union : String) (reason : CaseFault)
  | reserved (name : String) (what : Reserved)

/-- A fault and the place it is at. -/
structure SpecError where
  fault : Fault
  span : Option Span

/-- What does not keep a specification from being used. -/
inductive Caution
  | uncovered (union : String) (labels : List String)
  | noTypes

namespace SyntaxFault

/-- A list of more than six terminals says nothing and is left out. -/
def expectation (expected : List Concrete.Terminal) : String :=
  if 6 < expected.length then ""
  else
    let shown := (expected.map (·.display)).mergeSort fun a b => decide (a ≤ b)
    ", expected one of: " ++ ", ".intercalate shown

def message : SyntaxFault → String
  | character c => "unexpected character '" ++ String.singleton c ++ "'"
  | token text expected => s!"unexpected '{text}'" ++ expectation expected
  | endOfInput expected => "unexpected end of input" ++ expectation expected

end SyntaxFault

def TypeKind.text : TypeKind → String
  | typedef => "typedef"
  | struct => "struct"
  | union => "union"
  | enum => "enum"

def SymbolKind.text : SymbolKind → String
  | constant => "constant"
  | label => "enum label"
  | type k => k.text

def DataPlace.text : DataPlace → String
  | typedef => "a typedef"
  | struct name => s!"struct '{name}'"

def ConstantFault.reason : ConstantFault → String
  | names name kind => s!"'{name}' names a {kind.text}, not a constant"
  | wide => "value does not fit in a signed 64-bit integer"
  | wideLabel => "enum values must fit in a signed 32-bit int"
  | bound value => s!"bound {value} is outside 0..4294967295"

def CaseLabel.text : CaseLabel → String
  | name n => n
  | literal value => toString value

def CaseFault.reason : CaseFault → String
  | discriminant type =>
    s!"discriminant type '{type}' is not int, unsigned int, bool or an enum"
  | repeated label value earlier =>
    s!"case {label.text} repeats value {value} (already used by case {earlier.text})"
  | foreign label enumName => s!"case {label.text} is not a value of enum '{enumName}'"
  | negative label => s!"case {label.text} is negative but the discriminant is unsigned"
  | wideUnsigned label => s!"case {label.text} does not fit in an unsigned int"
  | notBool label => s!"case {label.text} is not a bool value (TRUE or FALSE)"
  | wide label => s!"case {label.text} does not fit in an int"

def Reserved.text : Reserved → String
  | supportItem => "support item"
  | primitiveType => "Rust primitive type"
  | keyword => "Rust keyword"

namespace Fault

/-- The code of a fault and the values that fill its wording. -/
def entry : Fault → String × List (String × String)
  | grammar f => ("XE1001", [("message", f.message)])
  | duplicateField field owner => ("XE1002", [("field", field), ("owner", owner)])
  | malformedLiteral literal | overlongLiteral literal _ => ("XE1003", [("literal", literal)])
  | noArms union => ("XE1004", [("name", union)])
  | misplacedVoid place => ("XE1005", [("context", place.text)])
  | discriminantForm union => ("XE1006", [("name", union)])
  | duplicateDefault union => ("XE1007", [("name", union)])
  | undefined name => ("XE2001", [("name", name)])
  | redefined name previous =>
    let prev := match previous with
      | some s => s!" (previous definition at {s.label})"
      | none => ""
    ("XE2002", [("name", name), ("prev", prev)])
  | cyclic chain => ("XE2003", [("chain", " -> ".intercalate chain)])
  | duplicateValue enum value first second =>
    ("XE2004",
      [("name", enum), ("value", toString value), ("first", first), ("second", second)])
  | notConstant what reason => ("XE2005", [("what", what), ("reason", reason.reason)])
  | caseSet union reason => ("XE2006", [("name", union), ("reason", reason.reason)])
  | reserved name what => ("XE3001", [("name", name), ("what", what.text)])

def code (f : Fault) : String := f.entry.1

def message (f : Fault) : String := Diagnostic.wording f.entry.1 f.entry.2

end Fault

/-! ### Numbers in messages -/

def CaseLabel.numbers : CaseLabel → List Int
  | name _ => []
  | literal value => [value]

def CaseFault.numbers : CaseFault → List Int
  | discriminant _ => []
  | repeated label value earlier => label.numbers ++ value :: earlier.numbers
  | foreign label _ | negative label | wideUnsigned label | notBool label | wide label =>
    label.numbers

def ConstantFault.numbers : ConstantFault → List Int
  | bound value => [value]
  | _ => []

namespace Fault

/-- The numbers that the message shows. -/
def numbers : Fault → List Int
  | duplicateValue _ value _ _ => [value]
  | notConstant _ reason => reason.numbers
  | caseSet _ reason => reason.numbers
  | _ => []

/-- The number of too many digits for which a fault is not reported: that of the literal, or one
that the message shows. The fault is reported if there is none. -/
def overlong? : Fault → Option Number.Overlong
  | overlongLiteral _ digits => some (.reading digits)
  | f => Number.unwritable? f.numbers

end Fault

def SpecError.diagnostic (e : SpecError) : Diagnostic :=
  ⟨.error, e.fault.code, e.fault.message, e.span⟩

def Caution.entry : Caution → String × List (String × String)
  | uncovered union labels =>
    ("XW2001", [("name", union), ("labels", ", ".intercalate (labels.map fun l => s!"'{l}'"))])
  | noTypes => ("XW2002", [])

def Caution.diagnostic (c : Caution) (span : Option Span) : Diagnostic :=
  ⟨.warning, c.entry.1, Diagnostic.wording c.entry.1 c.entry.2, span⟩

end XdrSchema
