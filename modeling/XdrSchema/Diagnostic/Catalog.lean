/-! The catalogue of messages: a code for each fault, with its severity, category, wording and
explanation. -/
namespace XdrSchema.Diagnostic

inductive Severity
  | error | warning
deriving DecidableEq

def Severity.text : Severity → String
  | error => "error"
  | warning => "warning"

inductive Category
  | general | lexical | name | type | constant | union | codegen | internal

def Category.text : Category → String
  | general => "general"
  | lexical => "syntax"
  | name => "name"
  | type => "type"
  | constant => "constant"
  | union => "union"
  | codegen => "codegen"
  | internal => "internal"

/-- A part of a wording: text that stands for itself, or a field that a message fills. -/
inductive Piece
  | plain (text : String)
  | field (name : String)

namespace Piece

/-- A field is shown by its name in braces. -/
def unfilled : Piece → String
  | plain s => s
  | field name => "\x7b" ++ name ++ "\x7d"

def fill (values : List (String × String)) : Piece → String
  | plain s => s
  | field name => (values.lookup name).getD ""

end Piece

structure Entry where
  code : String
  severity : Severity
  category : Category
  text : List Piece
  doc : String

/-- The wording with its fields unfilled. -/
def Entry.template (e : Entry) : String := String.join (e.text.map Piece.unfilled)

def catalog : List Entry :=
  [⟨"XE0001", .error, .internal, [.plain "unknown parse tree node '", .field "node", .plain "'"],
    "The AST builder met a grammar rule it does not handle."⟩,
   ⟨"XE0002", .error, .internal, [.plain "unknown type node '", .field "node", .plain "'"],
    "A type description reached a phase that cannot handle it."⟩,
   ⟨"XE0003", .error, .internal,
    [.plain "unresolved reference '", .field "name", .plain "' after resolution"],
    "A later phase found a symbol the resolver should have completed."⟩,
   ⟨"XE0004", .error, .internal,
    [.plain "symbol '", .field "name", .plain "' has no resolved definition"],
    "Lookup of a resolved definition by name failed."⟩,
   ⟨"XE1001", .error, .lexical, [.field "message"],
    "The spec text does not match the XDR grammar."⟩,
   ⟨"XE1002", .error, .lexical,
    [.plain "duplicate field '", .field "field", .plain "' in '", .field "owner", .plain "'"],
    "Field and arm names must be unique within one struct or union."⟩,
   ⟨"XE1003", .error, .lexical,
    [.plain "malformed integer literal '", .field "literal", .plain "'"],
    "Integer literals are decimal, 0x-prefixed hex, or leading-zero octal."⟩,
   ⟨"XE1004", .error, .lexical,
    [.plain "union '", .field "name", .plain "' needs a default arm when it declares no cases"],
    "A union must have at least one case arm or a default arm."⟩,
   ⟨"XE1005", .error, .lexical,
    [.plain "'void' is only allowed as a union arm, not in ", .field "context"],
    "Void declarations carry no data and only make sense inside a union."⟩,
   ⟨"XE1006", .error, .lexical,
    [.plain "union '", .field "name",
     .plain "' discriminant must be a plain 'type name' declaration"],
    "Arrays, opaque data, strings and pointers cannot select a union arm."⟩,
   ⟨"XE1007", .error, .lexical,
    [.plain "union '", .field "name", .plain "' declares more than one default arm"],
    "Only one default arm is allowed per union."⟩,
   ⟨"XE2001", .error, .name, [.plain "undefined reference '", .field "name", .plain "'"],
    "Every referenced name must be declared somewhere in the spec."⟩,
   ⟨"XE2002", .error, .name,
    [.plain "'", .field "name", .plain "' is already defined", .field "prev"],
    "Constants, types and enum labels share one flat namespace."⟩,
   ⟨"XE2003", .error, .type, [.plain "cyclic definition: ", .field "chain"],
    "Self-referential types need an optional ('*') or variable-length array link."⟩,
   ⟨"XE2004", .error, .constant,
    [.plain "enum '", .field "name", .plain "' assigns value ", .field "value",
     .plain " to both '", .field "first", .plain "' and '", .field "second", .plain "'"],
    "Enum label values must be distinct."⟩,
   ⟨"XE2005", .error, .constant,
    [.plain "'", .field "what", .plain "' is not a usable constant: ", .field "reason"],
    "Bounds and constant values must resolve to non-negative integers at compile time."⟩,
   ⟨"XE2006", .error, .union,
    [.plain "invalid case set in union '", .field "name", .plain "': ", .field "reason"],
    "Case labels must be unique values of the discriminant type."⟩,
   ⟨"XE3001", .error, .codegen,
    [.plain "'", .field "name", .plain "' collides with a ", .field "what",
     .plain " in the generated module"],
    "Rename the definition; the name is reserved by the generated support code."⟩,
   ⟨"XW2001", .warning, .union,
    [.plain "union '", .field "name", .plain "' has no default arm and does not cover ",
     .field "labels"],
    "Decoding any uncovered label fails with InvalidUnionDiscriminant."⟩,
   ⟨"XW2002", .warning, .general,
    [.plain "spec declares no types; the generated module only holds support code"],
    "Nothing to generate beyond constants and the prelude."⟩]

def entry? (code : String) : Option Entry := catalog.find? (·.code = code)

/-- The message of a code with the given values. -/
def wording (code : String) (values : List (String × String)) : String :=
  match entry? code with
  | some e => String.join (e.text.map (Piece.fill values))
  | none => ""

end XdrSchema.Diagnostic
