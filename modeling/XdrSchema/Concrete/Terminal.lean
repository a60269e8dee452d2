/-! The words and marks of the specification language. -/
namespace XdrSchema.Concrete

inductive Keyword
  | const | typedef | enum | struct | union | switch | case | default | void | opaqueData
  | string | int | int32 | unsigned | uint32 | hyper | int64 | uint64 | float | double | bool
deriving DecidableEq

namespace Keyword

def spelling : Keyword → String
  | const => "const"
  | typedef => "typedef"
  | enum => "enum"
  | struct => "struct"
  | union => "union"
  | switch => "switch"
  | case => "case"
  | default => "default"
  | void => "void"
  | opaqueData => "opaque"
  | string => "string"
  | int => "int"
  | int32 => "int32_t"
  | unsigned => "unsigned"
  | uint32 => "uint32_t"
  | hyper => "hyper"
  | int64 => "int64_t"
  | uint64 => "uint64_t"
  | float => "float"
  | double => "double"
  | bool => "bool"

def all : List Keyword :=
  [const, typedef, enum, struct, union, switch, case, default, void, opaqueData, string, int,
   int32, unsigned, uint32, hyper, int64, uint64, float, double, bool]

def ofSpelling? (s : String) : Option Keyword := all.find? (·.spelling = s)

end Keyword

inductive Mark
  | semicolon | comma | colon | equals | star | openBrace | closeBrace | openParen | closeParen
  | openBracket | closeBracket | less | greater
deriving DecidableEq

namespace Mark

def char : Mark → Char
  | semicolon => ';'
  | comma => ','
  | colon => ':'
  | equals => '='
  | star => '*'
  | openBrace => '\x7b'
  | closeBrace => '\x7d'
  | openParen => '('
  | closeParen => ')'
  | openBracket => '['
  | closeBracket => ']'
  | less => '<'
  | greater => '>'

def all : List Mark :=
  [semicolon, comma, colon, equals, star, openBrace, closeBrace, openParen, closeParen,
   openBracket, closeBracket, less, greater]

def ofChar? (c : Char) : Option Mark := all.find? (·.char = c)

end Mark

/-- What a grammar rule can ask for. -/
inductive Terminal
  | keyword (k : Keyword)
  | mark (m : Mark)
  | name
  | number
  | endOfInput
deriving DecidableEq

/-- How a message lists a terminal. -/
def Terminal.display : Terminal → String
  | keyword k => s!"'{k.spelling}'"
  | mark m => String.ofList ['\x27', m.char, '\x27']
  | name => "identifier"
  | number => "number"
  | endOfInput => "end of input"

end XdrSchema.Concrete
