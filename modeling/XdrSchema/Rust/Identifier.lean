import XdrSchema.Text.Lines
import XdrSchema.Text.Word

/-! Identifiers and paths of the generated language. -/
namespace XdrSchema.Rust

/-- Keywords, which as names have to be written raw. -/
def keywords : List String :=
  ["as", "async", "await", "break", "const", "continue", "dyn", "else", "enum", "extern", "false",
   "fn", "for", "gen", "if", "impl", "in", "let", "loop", "match", "mod", "move", "mut", "pub",
   "ref", "return", "static", "struct", "trait", "true", "type", "unsafe", "use", "where", "while",
   "abstract", "become", "box", "do", "final", "macro", "override", "priv", "try", "typeof",
   "unsized", "virtual", "yield"]

/-- Keywords that cannot be written raw either. -/
def hardKeywords : List String := ["self", "Self", "super", "crate", "_"]

def primitiveTypes : List String :=
  ["i8", "i16", "i32", "i64", "i128", "isize", "u8", "u16", "u32", "u64", "u128", "usize", "f32",
   "f64", "bool", "char", "str"]

/-- The names that the support code declares at module level. -/
def supportItems : List String :=
  ["XdrError", "XdrCursor", "XdrDecode", "XdrEncode", "XdrBuf", "XdrResult",
   "XDR_DEFAULT_MAX_DEPTH", "decode_fixed_array", "decode_var_array", "decode_optional",
   "encode_fixed_array", "encode_var_array", "encode_optional", "encode_opaque",
   "encode_fixed_opaque", "check_length"]

/-- A name as an identifier. -/
def identifier (name : String) : String := if name ∈ keywords then "r#" ++ name else name

/-- A word of letters, digits and underscores that starts with no digit. -/
def isWord : List Char → Bool
  | [] => false
  | c :: rest => Text.isWordChar c && !c.isDigit && rest.all Text.isWordChar

/-- The parts of a text between double colons, `current` being the one read so far, its last
character first. -/
def pathPartsFrom (current : List Char) : List Char → List (List Char)
  | [] => [current.reverse]
  | ':' :: ':' :: rest => current.reverse :: pathPartsFrom [] rest
  | c :: rest => pathPartsFrom (c :: current) rest

/-- Words with double colons between them. One line feed may follow. -/
def isPath (text : List Char) : Bool :=
  (pathPartsFrom [] (Text.dropFinalNewline text)).all isWord

end XdrSchema.Rust
