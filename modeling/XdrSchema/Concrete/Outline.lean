import XdrSchema.Concrete.Tree

/-! The outline of a concrete tree: each construct on a line of its own under the name of its
grammar rule, its parts indented below it. A rule with a single word has it on the same line. -/
namespace XdrSchema.Concrete

inductive Outline
  | word (text : String)
  | rule (name : String) (parts : List Outline)

namespace Outline

def indentation (depth : Nat) : String := String.ofList (List.replicate (2 * depth) ' ')

mutual

def text (depth : Nat) : Outline → String
  | word t => indentation depth ++ t ++ "\n"
  | rule name [word t] => indentation depth ++ name ++ "\t" ++ t ++ "\n"
  | rule name parts => indentation depth ++ name ++ "\n" ++ textAll (depth + 1) parts

def textAll (depth : Nat) : List Outline → String
  | [] => ""
  | part :: rest => part.text depth ++ textAll depth rest

end

end Outline

def Word.outline (w : Word) : Outline := .word w.text

def Value.outline : Value → Outline
  | number w => .rule "number" [w.outline]
  | reference w => .rule "const_ref" [w.outline]

/-- The rule of a primitive type. All its spellings share the rule. -/
def primitiveRule : Primitive → String
  | .int => "int_t"
  | .unsignedInt => "uint_t"
  | .hyper => "hyper_t"
  | .unsignedHyper => "uhyper_t"
  | .float => "float_t"
  | .double => "double_t"
  | .bool => "bool_t"

def baseOutline : Base String → Outline
  | .primitive p => .rule (primitiveRule p) []
  | .named n => .rule "name_t" [.word n]

/-- The rule of a declaration, what stands before its name, and its length or bound. -/
def typeParts : TypeExpr Value String → String × List Outline × Option Value
  | .plain b => ("plain_decl", [baseOutline b], none)
  | .array b n => ("fixed_array_decl", [baseOutline b], some n)
  | .vector b n => ("var_array_decl", [baseOutline b], n)
  | .optional b => ("optional_decl", [baseOutline b], none)
  | .fixedBytes n => ("fixed_opaque_decl", [], some n)
  | .bytes n => ("var_opaque_decl", [], n)
  | .string n => ("string_decl", [], n)

def Declaration.outline : Declaration → Outline
  | void _ => .rule "void_decl" []
  | item name type _ =>
    let (rule, before, size) := typeParts type
    .rule rule (before ++ name.outline :: (size.map Value.outline).toList)

def Arm.outline : Arm → Outline
  | case labels d _ =>
    .rule "case_arm" (labels.map (fun v => .rule "case_label" [v.outline]) ++ [d.outline])
  | default d _ => .rule "default_arm" [d.outline]

def Definition.outline (d : Definition) : Outline :=
  match d.body with
  | .const name v => .rule "const_def" [name.outline, v.outline]
  | .typedef d => .rule "typedef_def" [d.outline]
  | .struct name fields =>
    .rule "struct_def" [name.outline, .rule "struct_body" (fields.map Declaration.outline)]
  | .enum name members =>
    let member (m : Word × Value) : Outline :=
      .rule "enum_member" [m.1.outline, m.2.outline]
    .rule "enum_def" [name.outline, .rule "enum_body" (members.map member)]
  | .union name switch arms =>
    .rule "union_def"
      [name.outline, .rule "union_body" (switch.outline :: arms.map Arm.outline)]

/-- The outline of a whole text. -/
def outline (definitions : List Definition) : Outline :=
  .rule "start" (definitions.map Definition.outline)

end XdrSchema.Concrete
