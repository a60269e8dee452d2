import XdrSchema.Concrete.Outline
import XdrSchema.Proofs.Concrete.Reading
import XdrSchema.Proofs.Strict.Failure
import XdrSchema.Spec.OfTree

/-! Strict reading of a tree in which nothing but the name of a rule says which parts a node has. Every
part is looked for by its rule, and must be there. The trees of specifications have all parts, and a union
has an arm, so that strict reading agrees with the reading of the concrete tree. -/
namespace XdrSchema.Concrete

/-- A node under the name of its rule, or a token. The place is kept where something asks for it. -/
inductive Node
  | token (terminal : Terminal) (text : String) (span : Option Span)
  | rule (name : String) (span : Option Span) (parts : List Node)

/-! ### Trees of specifications -/

mutual

/-- The outline that is shown of a tree. -/
def Node.outline : Node → Outline
  | .token _ text _ => .word text
  | .rule name _ parts => .rule name (Node.outlines parts)

def Node.outlines : List Node → List Outline
  | [] => []
  | part :: rest => part.outline :: Node.outlines rest

end

def Word.node (w : Word) : Node := .token .name w.text (some w.span)

def Value.node : Value → Node
  | number w => .rule "number" none [.token .number w.text (some w.span)]
  | reference w => .rule "const_ref" none [w.node]

def baseNode : Base String → Node
  | .primitive p => .rule (primitiveRule p) none []
  | .named n => .rule "name_t" none [.token .name n none]

/-- What stands before the name in a declaration. -/
def typeNodes : TypeExpr Value String → List Node
  | .plain b | .array b _ | .vector b _ | .optional b => [baseNode b]
  | .fixedBytes _ | .bytes _ | .string _ => []

def Declaration.node : Declaration → Node
  | void span => .rule "void_decl" (some span) []
  | item name type span =>
    .rule (typeParts type).1 (some span)
      (typeNodes type ++ name.node :: ((typeParts type).2.2.map Value.node).toList)

def Arm.node : Arm → Node
  | case labels d span =>
    .rule "case_arm" (some span) (labels.map (fun v => .rule "case_label" none [v.node]) ++ [d.node])
  | default d span => .rule "default_arm" (some span) [d.node]

def memberNode (m : Word × Value) : Node := .rule "enum_member" none [m.1.node, m.2.node]

def Definition.node (d : Definition) : Node :=
  match d.body with
  | .const name v => .rule "const_def" (some d.span) [name.node, v.node]
  | .typedef declaration => .rule "typedef_def" (some d.span) [declaration.node]
  | .struct name fields =>
    .rule "struct_def" (some d.span) [name.node, .rule "struct_body" none (fields.map Declaration.node)]
  | .enum name members =>
    .rule "enum_def" (some d.span) [name.node, .rule "enum_body" none (members.map memberNode)]
  | .union name switch arms =>
    .rule "union_def" (some d.span)
      [name.node, .rule "union_body" none (switch.node :: arms.map Arm.node)]

/-- The tree of a whole text. -/
def tree (definitions : List Definition) : Node := .rule "start" none (definitions.map Definition.node)

theorem outlines_eq_map (parts : List Node) : Node.outlines parts = parts.map Node.outline := by
  induction parts with
  | nil => rfl
  | cons part rest ih => rw [Node.outlines, ih, List.map_cons]

@[simp] theorem outline_wordNode (w : Word) : w.node.outline = w.outline := rfl

@[simp] theorem outline_valueNode (v : Value) : v.node.outline = v.outline := by
  cases v <;> rfl

@[simp] theorem outline_baseNode (b : Base String) : (baseNode b).outline = baseOutline b := by
  cases b <;> rfl

@[simp] theorem outline_declarationNode (d : Declaration) : d.node.outline = d.outline := by
  cases d with
  | void span => rfl
  | item name type span =>
    have hsize (size : Option Value) :
        (size.map Value.node).toList.map Node.outline = (size.map Value.outline).toList := by
      cases size <;> simp
    cases type <;>
      simp only [Declaration.node, Declaration.outline, Node.outline, outlines_eq_map, typeNodes,
        typeParts, List.map_append, List.map_cons, List.map_nil, hsize, outline_baseNode,
        outline_wordNode]

@[simp] theorem outline_armNode (a : Arm) : a.node.outline = a.outline := by
  cases a <;> simp [Arm.node, Arm.outline, Node.outline, outlines_eq_map]

theorem outline_definitionNode (d : Definition) : d.node.outline = d.outline := by
  obtain ⟨body, span⟩ := d
  cases body <;>
    simp [Definition.node, Definition.outline, Node.outline, outlines_eq_map, memberNode]

/-- The tree is the one that is shown. -/
theorem outline_tree (definitions : List Definition) : (tree definitions).outline = outline definitions := by
  simp [tree, outline, Node.outline, outlines_eq_map, outline_definitionNode]

end XdrSchema.Concrete

namespace XdrSchema.Spec

open Concrete (Node Word)
open Outcome

/-! ### Looking for parts -/

def ruleOf? : Node → Option String
  | .rule name _ _ => some name
  | .token .. => none

/-- The parts that some rules made. -/
def partsBy (rules : List String) (parts : List Node) : List Node :=
  parts.filter fun n => (ruleOf? n).any (· ∈ rules)

/-- The place of a construct. -/
def placeOf : Option Span → Outcome Span
  | some span => return span
  | none => breach (.assertion "a construct has a place")

/-- The first name among some parts; that it is missing is the breach `b`. -/
def wordIn (b : Breach) : List Node → Outcome Word
  | [] => breach b
  | .token .name text span :: _ => return ⟨text, ← placeOf span⟩
  | _ :: rest => wordIn b rest

/-- The parts of the first node that a rule made. -/
def bodyIn (owner rule : String) (parts : List Node) : Outcome (List Node) :=
  match partsBy [rule] parts with
  | .rule _ _ body :: _ => return body
  | _ => breach (.missingPart owner "body")

/-! ### Values and types -/

def valueRules : List String := ["number", "const_ref"]

def strictValue : Node → Outcome Value
  | .rule rule _ (.token _ text span :: _) => do
    if rule = "number" then
      let span ← placeOf span
      match Number.literal? text.toList with
      | some n => return .literal n text span
      | none =>
        match Number.excess? text.toList with
        | some digits => raise ⟨.overlongLiteral text digits, some span⟩
        | none => raise ⟨.malformedLiteral text, some span⟩
    else if rule = "const_ref" then return .constant text (← placeOf span)
    else breach (.unknownNode rule)
  | _ => breach (.assertion "a value is a token")

/-- The first value among some parts, if there is one. -/
def valueIn? (parts : List Node) : Outcome (Option Value) :=
  match partsBy valueRules parts with
  | [] => return none
  | n :: _ => return some (← strictValue n)

/-- The first value among some parts. -/
def valueIn (rule : String) (parts : List Node) : Outcome Value :=
  match partsBy valueRules parts with
  | [] => breach (.missingPart rule "value")
  | n :: _ => strictValue n

def primitiveRules : List (String × Primitive) :=
  [("int_t", .int), ("uint_t", .unsignedInt), ("hyper_t", .hyper), ("uhyper_t", .unsignedHyper),
   ("float_t", .float), ("double_t", .double), ("bool_t", .bool)]

def baseRules : List String := primitiveRules.map (·.1) ++ ["name_t"]

/-- The type of the elements or of the data itself. -/
def baseIn (rule : String) (parts : List Node) : Outcome (Base String) :=
  match partsBy baseRules parts with
  | .rule "name_t" _ (.token .name text _ :: _) :: _ => return .named text
  | .rule base _ _ :: _ =>
    match primitiveRules.lookup base with
    | some p => return .primitive p
    | none => breach (.unknownType base)
  | _ => breach (.unknownNode (rule ++ " without type specifier"))

/-- The length of an array or of opaque data. -/
def lengthOf (rule : String) : Option Value → Outcome Value
  | some v => return v
  | none => breach (.missingPart rule "length")

def strictType (rule : String) (parts : List Node) (size : Option Value) : Outcome Ty :=
  match rule with
  | "plain_decl" => return .plain (← baseIn rule parts)
  | "fixed_array_decl" => return .array (← baseIn rule parts) (← lengthOf rule size)
  | "var_array_decl" => return .vector (← baseIn rule parts) size
  | "fixed_opaque_decl" => return .fixedBytes (← lengthOf rule size)
  | "var_opaque_decl" => return .bytes size
  | "string_decl" => return .string size
  | "optional_decl" => return .optional (← baseIn rule parts)
  | _ => breach (.unknownNode rule)

/-! ### Declarations -/

def declarationRules : List String :=
  ["plain_decl", "fixed_array_decl", "var_array_decl", "fixed_opaque_decl", "var_opaque_decl",
   "string_decl", "optional_decl", "void_decl"]

def strictDeclaration : Node → Outcome Payload
  | .rule rule span parts => do
    if rule ∉ declarationRules then breach (.unknownNode rule)
    else if rule = "void_decl" then return .void (← placeOf span)
    else
      let name ← wordIn (.unknownNode (rule ++ " without NAME")) parts
      let type ← strictType rule parts (← valueIn? parts)
      return .field ⟨name.text, type, ← placeOf span, name.span⟩
  | .token .. => breach (.unknownNode "token")

/-- The first declaration among some parts. -/
def declarationIn (rule : String) (parts : List Node) : Outcome Payload :=
  match partsBy declarationRules parts with
  | [] => breach (.missingPart rule "declaration")
  | n :: _ => strictDeclaration n

/-! ### Definitions -/

/-- The fields of a struct, given the names of those before. -/
def strictFields (owner : String) (seen : List String) : List Node → Outcome (List (Field Ty))
  | [] => return []
  | n :: rest => do
    match ← strictDeclaration n with
    | .void span => raise ⟨.misplacedVoid (.struct owner), some span⟩
    | .field f =>
      if f.name ∈ seen then raise ⟨.duplicateField f.name owner, some f.nameSpan⟩
      else return f :: (← strictFields owner (f.name :: seen) rest)

def strictMember : Node → Outcome Member
  | .rule rule _ parts => do
    let name ← wordIn (.missingPart rule "label NAME") parts
    return ⟨name.text, ← valueIn rule parts, name.span⟩
  | .token .. => breach (.assertion "a member is a rule")

/-- The discriminant is a name with a plain type. -/
def strictDiscriminant (union : String) (parts : List Node) : Outcome (Field (Base String)) :=
  match partsBy declarationRules parts with
  | .rule rule span inner :: _ => do
    if rule ≠ "plain_decl" then
      raise ⟨.discriminantForm union, some (← placeOf span)⟩
    else
      match ← strictDeclaration (.rule rule span inner) with
      | .field ⟨name, .plain b, span, nameSpan⟩ => return ⟨name, b, span, nameSpan⟩
      | _ => breach (.assertion "a plain declaration has a plain type")
  | _ => breach (.missingPart "union_def" "discriminant")

/-- The value of a case label. -/
def strictLabel : Node → Outcome Value
  | .rule rule _ parts => valueIn rule parts
  | .token .. => breach (.assertion "a label is a rule")

/-- The names of arms are distinct, the default arm's included. -/
def strictArmName (union : String) (seen : List String) : Payload → Outcome (List String)
  | .void _ => return seen
  | .field f =>
    if f.name ∈ seen then raise ⟨.duplicateField f.name union, some f.nameSpan⟩
    else return f.name :: seen

/-- The arms of a union, given the default arm and the names met so far. -/
def strictArms (union : String) (default : Option Payload) (seen : List String) :
    List Node → Outcome (List Arm × Option Payload)
  | [] => return ([], default)
  | .rule "case_arm" span parts :: rest => do
    let labels ← (partsBy ["case_label"] parts).mapM strictLabel
    let payload ← declarationIn "case_arm" parts
    let span ← placeOf span
    let seen ← strictArmName union seen payload
    let (arms, default) ← strictArms union default seen rest
    return (⟨labels, payload, span⟩ :: arms, default)
  | .rule rule span parts :: rest => do
    if default.isSome then raise ⟨.duplicateDefault union, some (← placeOf span)⟩
    else
      let payload ← declarationIn rule parts
      let seen ← strictArmName union seen payload
      strictArms union (some payload) seen rest
  | .token .. :: _ => breach (.assertion "an arm is a rule")

def strictUnion (name : String) (parts : List Node) (span : Span) : Outcome Union := do
  let discriminant ← strictDiscriminant name parts
  let (arms, default) ← strictArms name none [] (partsBy ["case_arm", "default_arm"] parts)
  if arms.isEmpty && default.isNone then raise ⟨.noArms name, some span⟩
  else return ⟨discriminant, arms, default⟩

/-- A definition that has its name among its own parts. -/
def namedDefinition (rule : String) (span : Span) (parts : List Node)
    (body : String → Outcome Body) : Outcome Definition := do
  let name ← wordIn (.missingPart rule "NAME") parts
  return ⟨name.text, ← body name.text, span, name.span⟩

def strictDefinition : Node → Outcome Definition
  | .rule rule span parts => do
    let span ← placeOf span
    match rule with
    | "const_def" => namedDefinition rule span parts fun _ => return .const (← valueIn rule parts)
    | "typedef_def" =>
      match ← declarationIn rule parts with
      | .void _ => raise ⟨.misplacedVoid .typedef, some span⟩
      | .field f => return ⟨f.name, .typedef f.type, span, f.nameSpan⟩
    | "struct_def" => namedDefinition rule span parts fun name => do
      let body ← bodyIn rule "struct_body" parts
      return .struct (← strictFields name [] (partsBy declarationRules body))
    | "enum_def" => namedDefinition rule span parts fun _ => do
      let body ← bodyIn rule "enum_body" parts
      return .enum (← (partsBy ["enum_member"] body).mapM strictMember)
    | "union_def" => namedDefinition rule span parts fun name => do
      let body ← bodyIn rule "union_body" parts
      return .union (← strictUnion name body span)
    | _ => breach (.unknownNode rule)
  | .token .. => breach (.assertion "a definition is a rule")

/-- The specification that a tree spells. Tokens between the definitions do not count. -/
def ofNode : Node → Outcome Spec
  | .rule "start" _ parts =>
    return ⟨← (parts.filter fun n => (ruleOf? n).isSome).mapM strictDefinition⟩
  | _ => breach (.assertion "the tree is that of a whole text")

/-! ### Trees of specifications -/

theorem partsBy_eq_self {rules : List String} {parts : List Node}
    (h : ∀ n ∈ parts, (ruleOf? n).any (· ∈ rules) = true) : partsBy rules parts = parts :=
  List.filter_eq_self.mpr h

theorem partsBy_append (rules : List String) (parts others : List Node) :
    partsBy rules (parts ++ others) = partsBy rules parts ++ partsBy rules others :=
  List.filter_append ..

theorem agrees_value (v : Concrete.Value) : Agrees (strictValue v.node) (valueOf v) := by
  cases v with
  | number w =>
    rw [valueOf, Concrete.Value.node, strictValue, if_pos rfl, placeOf, pure_bind]
    cases Number.literal? w.text.toList with
    | some n => exact .ok _
    | none => cases Number.excess? w.text.toList <;> exact agrees_raise trivial
  | reference w => exact .ok _

@[simp] theorem partsBy_valueNode (v : Concrete.Value) : partsBy valueRules [v.node] = [v.node] := by
  cases v <;> rfl

/-- The first value after some parts that are none. -/
theorem agrees_valueIn (rule : String) (before : List Node) (hbefore : partsBy valueRules before = [])
    (v : Concrete.Value) : Agrees (valueIn rule (before ++ [v.node])) (valueOf v) := by
  rw [valueIn, partsBy_append, hbefore, partsBy_valueNode]
  exact agrees_value v

theorem agrees_valueIn? {before : List Node} (hbefore : partsBy valueRules before = [])
    (v : Option Concrete.Value) :
    Agrees (valueIn? (before ++ (v.map Concrete.Value.node).toList)) (boundOf v) := by
  rw [valueIn?, partsBy_append, hbefore]
  cases v with
  | none => exact .ok none
  | some v =>
    rw [Option.map_some, Option.toList_some, partsBy_valueNode]
    exact (agrees_value v).bind fun v _ => .ok (some v)

theorem baseIn_eq (rule : String) (b : Base String) (rest : List Node) :
    baseIn rule (Concrete.baseNode b :: rest) = .ok b := by
  cases b with
  | primitive p => cases p <;> rfl
  | named n => rfl

/-- Before its length or bound, a declaration has no value. -/
theorem partsBy_before (type : TypeExpr Concrete.Value String) (name : Word) :
    partsBy valueRules (Concrete.typeNodes type ++ [name.node]) = [] := by
  have hbase (b : Base String) : partsBy valueRules [Concrete.baseNode b, name.node] = [] := by
    cases b with
    | primitive p => cases p <;> rfl
    | named n => rfl
  cases type with
  | plain b | array b _ | vector b _ | optional b => exact hbase b
  | fixedBytes _ | bytes _ | string _ => rfl

theorem wordIn_before (b : Breach) (type : TypeExpr Concrete.Value String) (name : Word) (rest : List Node) :
    wordIn b (Concrete.typeNodes type ++ name.node :: rest) = .ok name := by
  have hbase (e : Base String) : wordIn b (Concrete.baseNode e :: name.node :: rest) = .ok name := by
    cases e <;> rfl
  cases type with
  | plain e | array e _ | vector e _ | optional e => exact hbase e
  | fixedBytes _ | bytes _ | string _ => rfl

/-- A length is a bound that is there. -/
theorem agrees_length {α : Type} {n : Concrete.Value} {x' : Outcome (Option Value)}
    (h : Agrees x' (boundOf (some n))) {f' : Option Value → Outcome α} {f : Value → Checked α}
    (hf : ∀ v, Agrees (f' (some v)) (f v)) : Agrees (x' >>= f') (valueOf n >>= f) := by
  rw [boundOf] at h
  cases hn : valueOf n with
  | ok v =>
    rw [hn] at h
    rw [agrees_ok_iff.mp h]
    exact hf v
  | error e =>
    rw [hn] at h
    obtain ⟨hx, he⟩ := agrees_error_iff.mp h
    rw [hx]
    exact .error he

theorem agrees_type (type : TypeExpr Concrete.Value String) (rest : List Node)
    {size : Outcome (Option Value)} (hsize : Agrees size (boundOf (Concrete.typeParts type).2.2)) :
    Agrees (size >>= strictType (Concrete.typeParts type).1 (Concrete.typeNodes type ++ rest))
      (typeOf type) := by
  cases type with
  | plain b | optional b =>
    rw [agrees_ok_iff.mp hsize]
    change Agrees (baseIn _ (Concrete.baseNode b :: rest) >>= _) _
    rw [baseIn_eq]
    exact .ok _
  | array b n =>
    refine agrees_length hsize fun v => ?_
    change Agrees (baseIn _ (Concrete.baseNode b :: rest) >>= _) _
    rw [baseIn_eq]
    exact .ok _
  | vector b n =>
    refine hsize.bind fun v _ => ?_
    change Agrees (baseIn _ (Concrete.baseNode b :: rest) >>= _) _
    rw [baseIn_eq]
    exact .ok _
  | fixedBytes n => exact agrees_length hsize fun v => .ok _
  | bytes n => exact hsize.bind fun v _ => .ok _
  | string n => exact hsize.bind fun v _ => .ok _

theorem typeParts_mem (type : TypeExpr Concrete.Value String) :
    (Concrete.typeParts type).1 ∈ declarationRules ∧ (Concrete.typeParts type).1 ≠ "void_decl" := by
  cases type <;> simp [Concrete.typeParts, declarationRules]

theorem agrees_declaration (d : Concrete.Declaration) : Agrees (strictDeclaration d.node) (payloadOf d) := by
  cases d with
  | void span => exact .ok _
  | item name type span =>
    obtain ⟨hmem, hvoid⟩ := typeParts_mem type
    have hsize := agrees_valueIn? (partsBy_before type name) (Concrete.typeParts type).2.2
    rw [List.append_assoc, List.singleton_append] at hsize
    rw [Concrete.Declaration.node, strictDeclaration, if_neg (not_not_intro hmem), if_neg hvoid,
      wordIn_before, payloadOf]
    change Agrees (valueIn? _ >>= fun size => strictType _ _ size >>= _) _
    rw [← bind_assoc]
    exact (agrees_type type _ hsize).bind fun t _ => .ok _

theorem partsBy_declarations (ds : List Concrete.Declaration) :
    partsBy declarationRules (ds.map Concrete.Declaration.node) = ds.map Concrete.Declaration.node := by
  apply partsBy_eq_self
  rw [List.forall_mem_map]
  rintro (span | ⟨name, type, span⟩) -
  · rfl
  · simpa [Concrete.Declaration.node, ruleOf?] using (typeParts_mem type).1

/-- The declaration after some parts that are none. -/
theorem agrees_declarationIn (rule : String) (before : List Node)
    (hbefore : partsBy declarationRules before = []) (d : Concrete.Declaration) :
    Agrees (declarationIn rule (before ++ [d.node])) (payloadOf d) := by
  have hd := partsBy_declarations [d]
  rw [List.map_singleton] at hd
  rw [declarationIn, partsBy_append, hbefore, hd]
  exact agrees_declaration d

theorem agrees_fields (owner : String) (ds : List Concrete.Declaration) (seen : List String) :
    Agrees (strictFields owner seen (ds.map Concrete.Declaration.node)) (fieldsOf owner seen ds) := by
  induction ds generalizing seen with
  | nil => exact .ok []
  | cons d rest ih =>
    rw [List.map_cons, strictFields, fieldsOf]
    refine (agrees_declaration d).bind fun p _ => ?_
    cases p with
    | void span => exact agrees_raise trivial
    | field f =>
      dsimp only
      split
      · exact agrees_raise trivial
      · exact (ih (f.name :: seen)).bind fun fs _ => .ok (f :: fs)

theorem agrees_member (m : Word × Concrete.Value) :
    Agrees (strictMember (Concrete.memberNode m)) (memberOf m) :=
  (agrees_valueIn "enum_member" [m.1.node] rfl m.2).bind fun _ _ => agrees_ok_iff.mpr rfl

/-! ### Unions -/

theorem agrees_discriminant (union : String) (d : Concrete.Declaration) (rest : List Node) :
    Agrees (strictDiscriminant union (d.node :: rest)) (discriminantOf union d) := by
  have hd : partsBy declarationRules (d.node :: rest) = d.node :: partsBy declarationRules rest := by
    have h := partsBy_append declarationRules [d.node] rest
    rwa [← List.map_singleton (f := Concrete.Declaration.node), partsBy_declarations] at h
  have hform {span : Span} :
      Agrees (raise ⟨.discriminantForm union, some span⟩)
        (fail (α := Field (Base String)) (.discriminantForm union) span) := agrees_raise trivial
  rw [strictDiscriminant, hd]
  cases d with
  | void span => exact hform
  | item name type span =>
    cases type with
    | plain b =>
      have hplain := agrees_ok_iff.mp (agrees_declaration (.item name (.plain b) span))
      change Agrees (strictDeclaration (Concrete.Declaration.item name (.plain b) span).node >>= _) _
      rw [hplain]
      exact .ok _
    | _ => exact hform

theorem agrees_labels (labels : List Concrete.Value) (d : Concrete.Declaration) :
    Agrees ((partsBy ["case_label"]
      (labels.map (fun v => .rule "case_label" none [v.node]) ++ [d.node])).mapM strictLabel)
      (labels.mapM valueOf) := by
  have hlabels : partsBy ["case_label"] (labels.map fun v => Node.rule "case_label" none [v.node]) =
      labels.map fun v => .rule "case_label" none [v.node] :=
    partsBy_eq_self (by simp [ruleOf?])
  have hd : partsBy ["case_label"] [d.node] = [] := by
    cases d with
    | void span => rfl
    | item name type span => cases type <;> rfl
  rw [partsBy_append, hlabels, hd, List.append_nil]
  exact agrees_mapM fun v _ => agrees_valueIn "case_label" [] rfl v

theorem agrees_armName (union : String) (seen : List String) (p : Payload) :
    Agrees (strictArmName union seen p) (checkArmName union seen p) := by
  cases p with
  | void span => exact .ok seen
  | field f =>
    rw [strictArmName, checkArmName]
    split
    · exact agrees_raise trivial
    · exact .ok _

theorem agrees_arms (union : String) (arms : List Concrete.Arm) (default : Option Payload)
    (seen : List String) :
    Agrees (strictArms union default seen (arms.map Concrete.Arm.node)) (armsOf union default seen arms) := by
  induction arms generalizing default seen with
  | nil => exact .ok _
  | cons a rest ih =>
    rw [List.map_cons]
    cases a with
    | case labels d span =>
      have hbefore : partsBy declarationRules
          (labels.map fun v => Node.rule "case_label" none [v.node]) = [] := by
        simp [partsBy, ruleOf?, declarationRules]
      rw [Concrete.Arm.node, strictArms, armsOf]
      refine (agrees_labels labels d).bind fun labels _ => ?_
      refine (agrees_declarationIn "case_arm" _ hbefore d).bind fun payload _ => ?_
      refine (agrees_armName union seen payload).bind fun seen _ => ?_
      exact (ih default seen).bind fun _ _ => .ok _
    | default d span =>
      have hrule : "default_arm" ≠ "case_arm" := by decide
      rw [Concrete.Arm.node, strictArms.eq_3 _ _ _ _ _ _ _ hrule, armsOf]
      split
      · exact agrees_raise (e := ⟨.duplicateDefault union, some span⟩) trivial
      · refine (agrees_declarationIn "default_arm" [] rfl d).bind fun payload _ => ?_
        exact (agrees_armName union seen payload).bind fun seen _ => ih (some payload) seen

/-- A default arm that was met is kept. -/
theorem isSome_of_armsOf {union : String} {arms : List Concrete.Arm} {default : Option Payload}
    {seen : List String} {result : List Arm × Option Payload}
    (h : armsOf union default seen arms = .ok result) (hdefault : default.isSome) : result.2.isSome := by
  induction arms generalizing default seen result with
  | nil =>
    cases h
    exact hdefault
  | cons a rest ih =>
    cases a with
    | case labels d span =>
      obtain ⟨_, -, h⟩ := bind_eq_ok_iff.mp h
      obtain ⟨_, -, h⟩ := bind_eq_ok_iff.mp h
      obtain ⟨_, -, h⟩ := bind_eq_ok_iff.mp h
      obtain ⟨others, hrest, h⟩ := bind_eq_ok_iff.mp h
      cases h
      have hsome : others.2.isSome := ih hrest hdefault
      exact hsome
    | default d span =>
      dsimp only [armsOf] at h
      rw [if_pos hdefault] at h
      cases h

/-- What was written as an arm becomes one. -/
theorem exists_arm {union : String} {arms : List Concrete.Arm} (hne : arms ≠ [])
    {default : Option Payload} {seen : List String} {result : List Arm × Option Payload}
    (h : armsOf union default seen arms = .ok result) :
    (result.1.isEmpty && result.2.isNone) = false := by
  cases arms with
  | nil => exact absurd rfl hne
  | cons a rest =>
    cases a with
    | case labels d span =>
      obtain ⟨_, -, h⟩ := bind_eq_ok_iff.mp h
      obtain ⟨_, -, h⟩ := bind_eq_ok_iff.mp h
      obtain ⟨_, -, h⟩ := bind_eq_ok_iff.mp h
      obtain ⟨_, -, h⟩ := bind_eq_ok_iff.mp h
      cases h
      rfl
    | default d span =>
      dsimp only [armsOf] at h
      split at h
      · cases h
      · obtain ⟨_, -, h⟩ := bind_eq_ok_iff.mp h
        obtain ⟨_, -, h⟩ := bind_eq_ok_iff.mp h
        have hsome := isSome_of_armsOf h rfl
        rw [Option.isNone_eq_false_iff.mpr hsome, Bool.and_false]

theorem agrees_union (name : String) (switch : Concrete.Declaration) {arms : List Concrete.Arm}
    (hne : arms ≠ []) (span : Span) :
    Agrees (strictUnion name (switch.node :: arms.map Concrete.Arm.node) span)
      (unionOf name switch arms span) := by
  have harms : partsBy ["case_arm", "default_arm"] (arms.map Concrete.Arm.node) =
      arms.map Concrete.Arm.node := by
    apply partsBy_eq_self
    rw [List.forall_mem_map]
    rintro (_ | _) - <;> rfl
  have hswitch : partsBy ["case_arm", "default_arm"] [switch.node] = [] := by
    cases switch with
    | void span => rfl
    | item name type span => cases type <;> rfl
  have hparts := partsBy_append ["case_arm", "default_arm"] [switch.node] (arms.map Concrete.Arm.node)
  rw [hswitch, harms, List.nil_append, List.singleton_append] at hparts
  rw [strictUnion, unionOf, hparts]
  refine (agrees_discriminant name switch _).bind fun discriminant _ => ?_
  refine (agrees_arms name arms none []).bind fun result h => ?_
  dsimp only
  rw [exists_arm hne h]
  exact .ok _

/-! ### Definitions -/

theorem agrees_namedDefinition {α : Type} {x' : Outcome α} {x : Checked α} (h : Agrees x' x) (rule : String)
    (span : Span) (name : Word) (rest : List Node) (body : α → Body) :
    Agrees (namedDefinition rule span (name.node :: rest) fun _ => do return body (← x'))
      (do return ⟨name.text, body (← x), span, name.span⟩) := by
  cases h with
  | ok a => exact .ok _
  | error h => exact .error h

theorem agrees_definition {d : Concrete.Definition} (hd : d.Filled) :
    Agrees (strictDefinition d.node) (definitionOf d) := by
  obtain ⟨body, span⟩ := d
  cases body with
  | const name v =>
    exact agrees_namedDefinition (agrees_valueIn "const_def" [name.node] rfl v) "const_def"
      span name [v.node] .const
  | typedef declaration =>
    refine (agrees_declarationIn "typedef_def" [] rfl declaration).bind fun p _ => ?_
    cases p with
    | void s => exact agrees_raise (e := ⟨.misplacedVoid .typedef, some span⟩) trivial
    | field f => exact .ok _
  | struct name fields =>
    have hfields := agrees_fields name.text fields []
    rw [← partsBy_declarations] at hfields
    exact agrees_namedDefinition hfields "struct_def" span name
      [.rule "struct_body" none (fields.map Concrete.Declaration.node)] .struct
  | enum name members =>
    have hmembers : partsBy ["enum_member"] (members.map Concrete.memberNode) =
        members.map Concrete.memberNode :=
      partsBy_eq_self (List.forall_mem_map.mpr fun _ _ => rfl)
    have hall : Agrees ((members.map Concrete.memberNode).mapM strictMember) (members.mapM memberOf) :=
      agrees_mapM fun m _ => agrees_member m
    rw [← hmembers] at hall
    exact agrees_namedDefinition hall "enum_def" span name
      [.rule "enum_body" none (members.map Concrete.memberNode)] .enum
  | union name switch arms =>
    exact agrees_namedDefinition (agrees_union name.text switch hd.1 span) "union_def" span name
      [.rule "union_body" none (switch.node :: arms.map Concrete.Arm.node)] .union

/-- Strict reading of the tree of a text agrees with the reading of its concrete tree. -/
theorem agrees_ofNode {definitions : List Concrete.Definition} (h : ∀ d ∈ definitions, d.Filled) :
    Agrees (ofNode (Concrete.tree definitions)) (ofTree definitions) := by
  have hrules : ∀ n ∈ definitions.map Concrete.Definition.node, (ruleOf? n).isSome = true := by
    rw [List.forall_mem_map]
    rintro ⟨body, span⟩ -
    cases body <;> rfl
  rw [Concrete.tree, ofNode, List.filter_eq_self.mpr hrules]
  exact (agrees_mapM fun d hd => agrees_definition (h d hd)).bind fun _ _ => agrees_ok_iff.mpr rfl

/-- A tree that no text has. -/
example (span : Span) : ofNode (.rule "start" none [.rule "program_def" (some span) []]) =
    .error (.internal (.unknownNode "program_def")) := rfl

end XdrSchema.Spec
