import XdrSchema.Concrete.Tree

/-! Reading tokens by recursive descent. A reader stops at the first token that cannot continue a
specification and says which terminals could have come instead. After a value, and after a
declaration, the terminals are those that can follow one anywhere; only a token among them is then
held against the construct at hand. -/
namespace XdrSchema.Concrete

/-- Where reading stopped: what could have come, and the tokens that were left. -/
structure Stop where
  expected : List Terminal
  rest : List Token

abbrev Reader := StateT (List Token) (Except Stop)

namespace Reader

variable {α : Type}

/-- The terminal of the next token. -/
def peek : Reader Terminal := do
  match ← get with
  | [] => return .endOfInput
  | t :: _ => return t.terminal

def stop (expected : List Terminal) : Reader α := fun rest => throw ⟨expected, rest⟩

/-- Takes the next token, which must be one of the expected. -/
def take (expected : List Terminal) : Reader Token := do
  match ← get with
  | [] => stop expected
  | t :: rest =>
    if t.terminal ∈ expected then
      set rest
      return t
    else stop expected

/-- The next token, which stays where it is, must be one of the expected. -/
def require (expected : List Terminal) : Reader Unit := do
  if (← peek) ∈ expected then return () else stop expected

def mark (m : Mark) : Reader Token := take [.mark m]

def keyword (k : Keyword) : Reader Token := take [.keyword k]

def word : Reader Word := do
  let t ← take [.name]
  return ⟨t.text, t.span⟩

/-- Reads items for as long as `continues` finds that another one follows. Each item takes a token,
so that one more than the number of tokens left is never used up. -/
def itemsUpTo (continues : Reader Bool) (item : Reader α) : Nat → Reader (List α)
  | 0 => return []
  | n + 1 => do
    if ← continues then
      let first ← item
      let others ← itemsUpTo continues item n
      return first :: others
    else return []

def items (continues : Reader Bool) (item : Reader α) : Reader (List α) := do
  itemsUpTo continues item ((← get).length + 1)

end Reader

open Reader

/-! ### Values and types -/

def valueStart : List Terminal := [.name, .number]

/-- What follows a value: the end of a constant, the next member or the end of an enumeration, the
end of an array length or of a bound, or the end of a case label. -/
def valueEnd : List Terminal :=
  [.mark .semicolon, .mark .comma, .mark .closeBrace, .mark .closeBracket, .mark .greater,
   .mark .colon]

def value : Reader Value := do
  let t ← take valueStart
  require valueEnd
  return if t.terminal = .number then .number ⟨t.text, t.span⟩ else .reference ⟨t.text, t.span⟩

/-- A length or bound up to its closing bracket, which is returned with it. -/
def valueAnd (close : Mark) : Reader (Value × Token) := do
  let v ← value
  return (v, ← mark close)

/-- The optional bound after an opening angle bracket. -/
def bound : Reader (Option Value × Token) := do
  require (.mark .greater :: valueStart)
  if (← peek) = .mark .greater then return (none, ← mark .greater)
  let (v, close) ← valueAnd .greater
  return (some v, close)

/-- The words that stand for a scalar type by themselves. -/
def primitive? : Keyword → Option Primitive
  | .int | .int32 => some .int
  | .unsigned | .uint32 => some .unsignedInt
  | .hyper | .int64 => some .hyper
  | .uint64 => some .unsignedHyper
  | .float => some .float
  | .double => some .double
  | .bool => some .bool
  | _ => none

/-- `unsigned` may be followed by the width it qualifies. -/
def unsignedWidth : Reader Primitive := do
  require [.keyword .int, .keyword .hyper, .name, .mark .star]
  match ← peek with
  | .keyword .int => do let _ ← keyword .int; return .unsignedInt
  | .keyword .hyper => do let _ ← keyword .hyper; return .unsignedHyper
  | _ => return .unsignedInt

/-- The type whose first token is `t`. -/
def baseFrom (t : Token) : Reader (Base String) :=
  match t.terminal with
  | .keyword .unsigned => return .primitive (← unsignedWidth)
  | .keyword k => return .primitive ((primitive? k).getD .int)
  | _ => return .named t.text

/-! ### Declarations -/

def typeStart : List Terminal :=
  [.name, .keyword .int, .keyword .int32, .keyword .unsigned, .keyword .uint32, .keyword .hyper,
   .keyword .int64, .keyword .uint64, .keyword .float, .keyword .double, .keyword .bool]

def declarationStart : List Terminal :=
  typeStart ++ [.keyword .opaqueData, .keyword .string, .keyword .void]

/-- What follows a declaration: its semicolon, or the end of a union switch. -/
def declarationEnd : List Terminal := [.mark .closeParen, .mark .semicolon]

/-- The declaration from the token `first` to the token `last`. -/
def declared (first last : Token) (name : Word) (type : TypeExpr Value String) :
    Reader Declaration := do
  require declarationEnd
  return .item name type (first.span.cover last.span)

/-- `opaque name[n]` and `opaque name<n>`, after the first word. -/
def bytesFrom (first : Token) : Reader Declaration := do
  let name ← word
  let bracket ← take [.mark .less, .mark .openBracket]
  if bracket.terminal = .mark .less then
    let (n, close) ← bound
    declared first close name (.bytes n)
  else
    let (n, close) ← valueAnd .closeBracket
    declared first close name (.fixedBytes n)

/-- `string name<n>`, after the first word. -/
def stringFrom (first : Token) : Reader Declaration := do
  let name ← word
  let _ ← mark .less
  let (n, close) ← bound
  declared first close name (.string n)

/-- `type name`, with a length or a bound, or `type *name`, after the first word. -/
def itemFrom (first : Token) : Reader Declaration := do
  let base ← baseFrom first
  let t ← take [.name, .mark .star]
  if t.terminal = .mark .star then
    let t ← take [.name]
    declared first t ⟨t.text, t.span⟩ (.optional base)
  else
    let name : Word := ⟨t.text, t.span⟩
    require (.mark .less :: .mark .openBracket :: declarationEnd)
    match ← peek with
    | .mark .openBracket => do
      let _ ← mark .openBracket
      let (n, close) ← valueAnd .closeBracket
      declared first close name (.array base n)
    | .mark .less => do
      let _ ← mark .less
      let (n, close) ← bound
      declared first close name (.vector base n)
    | _ => declared first t name (.plain base)

def declaration : Reader Declaration := do
  let first ← take declarationStart
  match first.terminal with
  | .keyword .void => do
    require declarationEnd
    return .void first.span
  | .keyword .opaqueData => bytesFrom first
  | .keyword .string => stringFrom first
  | _ => itemFrom first

/-! ### Definitions -/

/-- A list has at least one item; after each, another follows unless the closing brace does. -/
def continuesUnlessClosed (following : List Terminal) : Reader Bool := do
  require (.mark .closeBrace :: following)
  return (← peek) ≠ .mark .closeBrace

def field : Reader Declaration := do
  let d ← declaration
  let _ ← mark .semicolon
  return d

def fields : Reader (List Declaration) := do
  let first ← field
  return first :: (← items (continuesUnlessClosed declarationStart) field)

def member : Reader (Word × Value) := do
  let name ← word
  let _ ← mark .equals
  return (name, ← value)

def members : Reader (List (Word × Value)) := do
  let first ← member
  return first :: (← items (continuesUnlessClosed [.mark .comma]) do
    let _ ← mark .comma
    member)

/-- The value of a case label, after its keyword. -/
def labelValue : Reader Value := do
  let v ← value
  let _ ← mark .colon
  return v

/-- Further labels of the same arm. -/
def moreLabels : Reader (List Value) :=
  items (do
      require (.keyword .case :: declarationStart)
      return (← peek) = .keyword .case)
    (do
      let _ ← keyword .case
      labelValue)

def armStart : List Terminal := [.keyword .case, .keyword .default]

def arm : Reader Arm := do
  let first ← take armStart
  if first.terminal = .keyword .case then
    let label ← labelValue
    let labels ← moreLabels
    let d ← declaration
    let last ← mark .semicolon
    return .case (label :: labels) d (first.span.cover last.span)
  else
    let _ ← mark .colon
    let d ← declaration
    let last ← mark .semicolon
    return .default d (first.span.cover last.span)

def arms : Reader (List Arm) := do
  let first ← arm
  return first :: (← items (continuesUnlessClosed armStart) arm)

def definitionStart : List Terminal :=
  [.keyword .const, .keyword .typedef, .keyword .enum, .keyword .struct, .keyword .union]

/-- A definition after its keyword, without the semicolon that ends it. -/
def bodyOf (k : Terminal) : Reader Body := do
  match k with
  | .keyword .const => do
    let name ← word
    let _ ← mark .equals
    return .const name (← value)
  | .keyword .typedef => return .typedef (← declaration)
  | .keyword .enum => do
    let name ← word
    let _ ← mark .openBrace
    let members ← members
    let _ ← mark .closeBrace
    return .enum name members
  | .keyword .struct => do
    let name ← word
    let _ ← mark .openBrace
    let fields ← fields
    let _ ← mark .closeBrace
    return .struct name fields
  | _ => do
    let name ← word
    let _ ← keyword .switch
    let _ ← mark .openParen
    let switch ← declaration
    let _ ← mark .closeParen
    let _ ← mark .openBrace
    let arms ← arms
    let _ ← mark .closeBrace
    return .union name switch arms

def definition : Reader Definition := do
  let first ← take definitionStart
  let body ← bodyOf first.terminal
  let last ← mark .semicolon
  return ⟨body, first.span.cover last.span⟩

def specification : Reader (List Definition) :=
  items (do
      require (.endOfInput :: definitionStart)
      return (← peek) ≠ .endOfInput)
    definition

end XdrSchema.Concrete
