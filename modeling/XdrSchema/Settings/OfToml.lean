import XdrSchema.Rust.Identifier
import XdrSchema.Settings.Basic
import XdrSchema.Text.Blank
import XdrSchema.Toml.Reader

/-! Settings from a TOML document. The tables are looked at first, then the kind of each value in
turn, and last what the values say. What is not a setting is ignored. -/
namespace XdrSchema

namespace Settings

/-- The lists of annotations: the one for all types, and those of single types. -/
inductive AnnotationList
  | default
  | type (name : String)

def AnnotationList.text : AnnotationList → String
  | default => "[annotations] default"
  | type name => "[annotations.types] " ++ name

/-- Why a document holds no settings. -/
inductive Fault
  | notToml
  | notTable (path : String)
  | notStrings (list : AnnotationList)
  | supportKind
  | supportPathKind
  | supportPath (path : String)
  | notAttribute (list : AnnotationList) (text : String)

def Fault.message : Fault → String
  | notToml => "not a TOML document"
  | notTable path => "[" ++ path ++ "] must be a table"
  | notStrings list => list.text ++ " must be a list of strings"
  | supportKind => "[codegen] prelude must be true or false"
  | supportPathKind => "[codegen] prelude_path must be a string"
  | supportPath path => s!"Invalid [codegen] prelude_path '{path}'. Must be a Rust path."
  | notAttribute list text =>
    list.text ++ s!": '{text}' is not a Rust attribute (expected '#[...]')"

/-! ### What values may say -/

/-- An attribute in its brackets, between blanks. -/
def isAnnotation (text : String) : Bool :=
  let trimmed := Text.trim text.toList
  "#[".toList.isPrefixOf trimmed && trimmed.getLast? = some ']'

def checkAnnotations (list : AnnotationList) (annotations : List String) : Except Fault Unit :=
  annotations.forM fun a => if isAnnotation a then pure () else throw (.notAttribute list a)

def check (s : Settings) : Except Fault Unit := do
  if !Rust.isPath s.supportPath.toList then throw (.supportPath s.supportPath)
  checkAnnotations .default s.annotations
  s.typeAnnotations.forM fun (name, annotations) => checkAnnotations (.type name) annotations

/-! ### Reading -/

/-- The entries of a table, which may be missing. -/
def tableAt (entries : List (String × Toml)) (name path : String) :
    Except Fault (List (String × Toml)) :=
  match entries.lookup name with
  | none => return []
  | some (.table entries) => return entries
  | some _ => throw (.notTable path)

def annotationsOf (list : AnnotationList) (v : Toml) : Except Fault (List String) :=
  match v.strings? with
  | some annotations => return annotations
  | none => throw (.notStrings list)

def ofToml (document : List (String × Toml)) : Except Fault Settings := do
  let annotations ← tableAt document "annotations" "annotations"
  let generation ← tableAt document "codegen" "codegen"
  let types ← tableAt annotations "types" "annotations.types"
  let forAll ← match annotations.lookup "default" with
    | some v => annotationsOf .default v
    | none => pure default.annotations
  let forTypes ← types.mapM fun (name, v) => do return (name, ← annotationsOf (.type name) v)
  let support ← match generation.lookup "prelude" with
    | some (.boolean b) => pure b
    | some _ => throw .supportKind
    | none => pure default.support
  let supportPath ← match generation.lookup "prelude_path" with
    | some (.string s) => pure s
    | some _ => throw .supportPathKind
    | none => pure default.supportPath
  let settings : Settings := ⟨forAll, forTypes, support, supportPath⟩
  settings.check
  return settings

/-- Why a text gives no settings. -/
inductive Failure
  | fault (f : Fault)
  | overlong (n : Number.Overlong)

/-- The settings that a text spells. -/
def parse (text : String) : Except Failure Settings :=
  match Toml.parse text with
  | .ok document => (ofToml document).mapError .fault
  | .error .malformed => throw (.fault .notToml)
  | .error (.overlong n) => throw (.overlong n)

end Settings

end XdrSchema
