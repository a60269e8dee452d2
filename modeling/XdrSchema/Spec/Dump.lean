import XdrSchema.Spec.Basic
import XdrSchema.Text.Quoted
import XdrSchema.Text.Record

/-! A specification written out as nested records, places included. Its literals are written by their
values. -/
namespace XdrSchema.Spec.Dump

open Text (record bracketed quoted)

/-- How a part that is not there is written. -/
def missing : String := "None"

def orNone {α : Type} (f : α → String) : Option α → String
  | none => missing
  | some a => f a

def span (s : Span) : String :=
  record "Span" [("line", toString s.line), ("col", toString s.column),
    ("end_line", toString s.endLine), ("end_col", toString s.endColumn)]

def value : Value → String
  | .literal n text s =>
    record "IntLit" [("value", toString n), ("text", quoted text), ("loc", span s)]
  | .constant name s => record "ConstName" [("name", quoted name), ("loc", span s)]

/-! ### Types -/

def primitiveName : Primitive → String
  | .int => "INT"
  | .unsignedInt => "UNSIGNED_INT"
  | .hyper => "HYPER"
  | .unsignedHyper => "UNSIGNED_HYPER"
  | .float => "FLOAT"
  | .double => "DOUBLE"
  | .bool => "BOOL"

def base : Base String → String
  | .primitive p => "<BuiltinType." ++ primitiveName p ++ ": " ++ quoted p.text ++ ">"
  | .named n => record "NamedType" [("name", quoted n)]

/-- Byte strings of fixed and of variable length are one kind of record. -/
def byteString (length : Option Value) (fixed : Bool) : String :=
  record "OpaqueType"
    [("length", orNone value length), ("fixed", if fixed then "True" else "False")]

def type : Ty → String
  | .plain b => base b
  | .array b n => record "FixedArrayType" [("element", base b), ("length", value n)]
  | .vector b n => record "VariableArrayType" [("element", base b), ("max_length", orNone value n)]
  | .optional b => record "OptionalType" [("inner", base b)]
  | .fixedBytes n => byteString (some n) true
  | .bytes n => byteString n false
  | .string n => record "StringType" [("max_length", orNone value n)]

/-! ### Declarations and definitions -/

/-- A declaration; what it declares is missing for `void`. -/
def declaration (place : Span) (name type nameSpan : String) : String :=
  record "Declaration" [("loc", span place), ("name", name), ("ty", type), ("name_span", nameSpan)]

def field {τ : Type} (type : τ → String) (f : Field τ) : String :=
  declaration f.span (quoted f.name) (type f.type) (span f.nameSpan)

def payload : Payload → String
  | .void s => declaration s missing missing missing
  | .field f => field type f

def member (m : Member) : String :=
  record "EnumMember" [("name", quoted m.name), ("value", value m.value), ("loc", span m.span)]

def arm (a : Arm) : String :=
  record "UnionArm" [("labels", bracketed (a.labels.map value)), ("decl", payload a.payload),
    ("loc", span a.span)]

/-- The kind of a definition, and its parts besides name and places. -/
def body : Body → String × List (String × String)
  | .const v => ("ConstDef", [("value", value v)])
  | .typedef t => ("TypedefDef", [("ty", type t)])
  | .struct fields => ("StructDef", [("fields", bracketed (fields.map (field type)))])
  | .enum members => ("EnumDef", [("members", bracketed (members.map member))])
  | .union u => ("UnionDef", [("discriminant", field base u.discriminant),
      ("arms", bracketed (u.arms.map arm)), ("default", orNone payload u.default)])

def definition (d : Definition) : String :=
  let (kind, parts) := body d.body
  record kind ([("loc", span d.span), ("name", quoted d.name)] ++ parts
    ++ [("name_span", span d.nameSpan)])

/-! ### Numbers -/

def valueNumbers : Value → List Int
  | .literal n _ _ => [n]
  | .constant .. => []

def typeNumbers : Ty → List Int
  | .plain _ | .optional _ => []
  | .array _ n | .fixedBytes n => valueNumbers n
  | .vector _ n | .bytes n | .string n => n.toList.flatMap valueNumbers

def payloadNumbers (p : Payload) : List Int :=
  p.field?.toList.flatMap fun f => typeNumbers f.type

def bodyNumbers : Body → List Int
  | .const v => valueNumbers v
  | .typedef t => typeNumbers t
  | .struct fields => fields.flatMap fun f => typeNumbers f.type
  | .enum members => members.flatMap fun m => valueNumbers m.value
  | .union u =>
    (u.arms.flatMap fun a => a.labels.flatMap valueNumbers ++ payloadNumbers a.payload)
      ++ u.default.toList.flatMap payloadNumbers

end XdrSchema.Spec.Dump

namespace XdrSchema

/-- A whole specification. -/
def Spec.dump (s : Spec) : String :=
  Text.record "Program" [("loc", Spec.Dump.orNone Spec.Dump.span s.span?),
    ("definitions", Text.bracketed (s.definitions.map Spec.Dump.definition))]

/-- The values of the literals, which are written out. -/
def Spec.dumpNumbers (s : Spec) : List Int :=
  s.definitions.flatMap fun d => Spec.Dump.bodyNumbers d.body

end XdrSchema
