import XdrSchema.Proofs.Rust.Lines
import XdrSchema.Proofs.Rust.Template

/-! The lines of a type in a generated module, as templates: its declaration, its size, its conversions, its
decoder and its encoder. A template says of each number what it is written for. -/
namespace XdrSchema.Rust

open Piece
open Schema (Ref Ty Field Arm Union Definition)

abbrev Template := List Piece

/-! ### Lists of arguments -/

def separated (separator : String) : List Template → Template
  | [] => []
  | [a] => a
  | a :: b :: rest => a ++ fixed separator :: separated separator (b :: rest)

theorem render_separated (separator : String) (ts : List Template) :
    render (separated separator ts) = separator.intercalate (ts.map render) := by
  induction ts with
  | nil => rfl
  | cons a rest ih =>
    cases rest with
    | nil => simp [separated]
    | cons b rest =>
      rw [separated, render_append, render_cons, ih, List.map_cons, List.map_cons, List.map_cons,
        String.intercalate_cons_cons, String.append_assoc]
      rfl

def appliedTemplate (head : Template) (args : List Template) : Template :=
  if args.isEmpty then head else head ++ fixed "(" :: separated ", " args ++ [fixed ")"]

theorem render_applied (head : Template) (args : List Template) :
    render (appliedTemplate head args) = applied (render head) (args.map render) := by
  unfold appliedTemplate applied
  rw [List.isEmpty_map]
  split
  · rfl
  · simp [render_separated, text, String.append_assoc]

/-- The lines of a block. -/
def blockTemplates (header : Template) (suffix : String) (body : List Template) : List Template :=
  (header ++ [fixed " \x7b"]) :: body ++ [[fixed ("\x7d" ++ suffix)]]

theorem texts_block {header : Template} {h suffix : String} {body : List Code} {ts : List Template}
    (hheader : h = render header) (hne : h ≠ "") (hbody : textsAll body = ts.map render) :
    (Code.block h suffix body).texts = (blockTemplates header suffix ts).map render := by
  rw [Code.texts, if_neg (by simpa using hne), hheader, hbody]
  simp [blockTemplates, text]

theorem textsAll_map {α : Type} {l : List α} {f : α → Code} {g : α → Template}
    (h : ∀ a, (f a).texts = [render (g a)]) : textsAll (l.map f) = (l.map g).map render := by
  induction l with
  | nil => rfl
  | cons a l ih => rw [List.map_cons, textsAll, h, ih, List.singleton_append, List.map_cons, List.map_cons]

theorem textsAll_blocks {α : Type} {l : List α} {f : α → Code} {g : α → List Template}
    (h : ∀ a ∈ l, (f a).texts = (g a).map render) : textsAll (l.map f) = (l.flatMap g).map render := by
  induction l with
  | nil => rfl
  | cons a l ih =>
    rw [List.forall_mem_cons] at h
    rw [List.map_cons, textsAll, h.1, ih h.2, List.flatMap_cons, List.map_append]

theorem textsAll_singleton (c : Code) : textsAll [c] = c.texts := by
  rw [textsAll, textsAll, List.append_nil]

/-! ### Types -/

section Syntax

variable (ident : String) (v : View) (t : Syntax) (n : Nat)

theorem text_named_none : (Syntax.named ident none).text = ident := rfl

theorem text_named_some : (Syntax.named ident (some v)).text = ident ++ "<" ++ v.text ++ ">" := rfl

theorem text_byteArray : (Syntax.byteArray n).text = "[u8; " ++ toString n ++ "]" := rfl

theorem text_array : (Syntax.array t n).text = "[" ++ t.text ++ ("; " ++ toString n ++ "]") := rfl

theorem text_vec : (Syntax.vec t).text = "::std::vec::Vec<" ++ t.text ++ ">" := rfl

theorem text_boxedOption :
    (Syntax.boxedOption t).text = "::core::option::Option<::std::boxed::Box<" ++ t.text ++ ">>" := rfl

end Syntax

section Types

variable (naming : Naming)

def viewTemplate : View → Template
  | .parameter p => [parameter p]
  | .borrowed => [fixed "&'a [u8]"]

theorem render_view (view : View) : render (viewTemplate view) = view.text := by
  cases view with
  | parameter p => exact String.append_empty
  | borrowed => rfl

/-- A named type, with the view that it is given if it takes one. -/
def namedTemplate (view : View) (n : String) : Template :=
  name n :: if naming.isGeneric n then fixed "<" :: viewTemplate view ++ [fixed ">"] else []

theorem render_named (view : View) (n : String) :
    render (namedTemplate naming view n) = (naming.named view n).text := by
  unfold namedTemplate Naming.named
  split
  · simp [text, render_view, text_named_some, String.append_assoc]
  · simp [text, text_named_none]

def declaredTemplate (n : String) : Template := namedTemplate naming (.parameter naming.parameter) n

theorem render_declared (n : String) : render (declaredTemplate naming n) = (naming.declared n).text :=
  render_named naming _ n

def baseTemplate : Base Ref → Template
  | .primitive p => [fixed (scalarName p)]
  | .named r => declaredTemplate naming r.name

theorem render_base (b : Base Ref) : render (baseTemplate naming b) = (naming.base b).text := by
  cases b with
  | primitive p => exact String.append_empty
  | named r => exact render_declared naming r.name

def typeTemplate : Ty → Template
  | .plain b => baseTemplate naming b
  | .array b n => fixed "[" :: baseTemplate naming b ++ [fixed "; ", number .length n "", fixed "]"]
  | .vector b _ => fixed "::std::vec::Vec<" :: baseTemplate naming b ++ [fixed ">"]
  | .optional b => fixed "::core::option::Option<::std::boxed::Box<" :: baseTemplate naming b ++ [fixed ">>"]
  | .fixedBytes n => [fixed "[u8; ", number .length n "", fixed "]"]
  | .bytes _ | .string _ => [parameter naming.parameter]

theorem toString_string (s : String) : toString s = s := rfl

theorem repr_natCast (n : Nat) : (n : Int).repr = n.repr := rfl

theorem render_type (t : Ty) : render (typeTemplate naming t) = (naming.type t).text := by
  cases t with
  | plain b => exact render_base naming b
  | array b n =>
    simp [typeTemplate, Naming.type, text_array, text, render_base, repr_natCast, String.append_assoc]
  | vector b n => simp [typeTemplate, Naming.type, text_vec, text, render_base, String.append_assoc]
  | optional b => simp [typeTemplate, Naming.type, text_boxedOption, text, render_base, String.append_assoc]
  | fixedBytes n => simp [typeTemplate, Naming.type, text_byteArray, text, repr_natCast, String.append_assoc]
  | bytes n | string n => exact String.append_empty

/-- A bound as an argument. -/
def boundTemplate : Option Nat → Template
  | none => [fixed "u32::MAX"]
  | some n => if n = 4294967295 then [fixed "u32::MAX"] else [number .u32 n ""]

theorem render_bound (n : Option Nat) : render (boundTemplate n) = boundText n := by
  cases n with
  | none => rfl
  | some n =>
    by_cases h : n = 4294967295 <;> simp [boundTemplate, boundText, h, text, repr_natCast]

end Types

/-! ### Reading -/

section Read

variable (ident : String) (v : View) (r : Read) (n : Nat) (k : Option Nat)

theorem text_readNamed_none : (Read.named (.named ident none)).text = ident ++ "::decode(_cur)" := rfl

theorem text_readNamed_some : (Read.named (.named ident (some v))).text =
    "<" ++ (Syntax.named ident (some v)).text ++ ">::decode(_cur)" := rfl

theorem text_fixedArray : (Read.fixedArray n r).text =
    "decode_fixed_array::<_, _, " ++ toString n ++ ">(_cur, |_cur| " ++ r.text ++ ")" := rfl

theorem text_varArray : (Read.varArray k r).text =
    "decode_var_array(_cur, " ++ boundText k ++ ", |_cur| " ++ r.text ++ ")" := rfl

theorem text_optional : (Read.optional r).text = "decode_optional(_cur, |_cur| " ++ r.text ++ ")" := rfl

theorem text_fixedOpaque : (Read.fixedOpaque n).text = "_cur.read_fixed_opaque::<" ++ toString n ++ ">()" := rfl

theorem text_varOpaque : (Read.varOpaque k).text = "_cur.read_opaque(" ++ boundText k ++ ")" := rfl

variable (naming : Naming)

def readBase : Base Ref → Template
  | .primitive p => [fixed (scalarName p), fixed "::decode(_cur)"]
  | .named r =>
    if naming.isGeneric r.name then [fixed "<", name r.name, fixed "<&'a [u8]>>::decode(_cur)"]
    else [name r.name, fixed "::decode(_cur)"]

theorem render_readBase (b : Base Ref) : render (readBase naming b) = (Read.ofBase naming b).text := by
  cases b with
  | primitive p => exact congrArg (scalarName p ++ ·) String.append_empty
  | named r =>
    unfold readBase Read.ofBase Naming.decoded Naming.named
    dsimp only
    split
    · simp [text, text_readNamed_some, text_named_some, View.text, String.append_assoc]
    · simp [text, text_readNamed_none]

def readTemplate : Ty → Template
  | .plain b => readBase naming b
  | .array b n =>
    [fixed "decode_fixed_array::<_, _, ", number .length n "", fixed ">(_cur, |_cur| "] ++ readBase naming b ++
      [fixed ")"]
  | .vector b n =>
    fixed "decode_var_array(_cur, " :: boundTemplate n ++ fixed ", |_cur| " :: readBase naming b ++ [fixed ")"]
  | .optional b => fixed "decode_optional(_cur, |_cur| " :: readBase naming b ++ [fixed ")"]
  | .fixedBytes n => [fixed "_cur.read_fixed_opaque::<", number .length n "", fixed ">()"]
  | .bytes n | .string n => fixed "_cur.read_opaque(" :: boundTemplate n ++ [fixed ")"]

theorem render_read (t : Ty) : render (readTemplate naming t) = (Read.ofType naming t).text := by
  cases t with
  | plain b => exact render_readBase naming b
  | array b n =>
    simp [readTemplate, Read.ofType, text_fixedArray, text, render_readBase, repr_natCast, String.append_assoc]
  | vector b n =>
    simp [readTemplate, Read.ofType, text_varArray, text, render_readBase, render_bound, String.append_assoc]
  | optional b => simp [readTemplate, Read.ofType, text_optional, text, render_readBase, String.append_assoc]
  | fixedBytes n => simp [readTemplate, Read.ofType, text_fixedOpaque, text, repr_natCast, String.append_assoc]
  | bytes n | string n => simp [readTemplate, Read.ofType, text_varOpaque, text, render_bound, String.append_assoc]

end Read

/-! ### Writing -/

section Write

variable (p : Place) (w : Write) (k : Option Nat)

theorem text_value : Write.value.text p = p.receiver ++ ".encode(_out)" := rfl

theorem text_writeFixedArray : (Write.fixedArray w).text p =
    "encode_fixed_array(" ++ p.reference ++ ", _out, |_item, _out| " ++ w.text (.behind "_item") ++ ")" := rfl

theorem text_writeVarArray : (Write.varArray k w).text p = "encode_var_array(" ++ p.reference ++ ", " ++
    boundText k ++ ", _out, |_item, _out| " ++ w.text (.behind "_item") ++ ")" := rfl

theorem text_writeOptional : (Write.optional w).text p =
    "encode_optional(" ++ p.reference ++ ", _out, |_item, _out| " ++ w.text (.behind "_item") ++ ")" := rfl

theorem text_writeFixedOpaque : Write.fixedOpaque.text p = "encode_fixed_opaque(" ++ p.reference ++ ", _out)" := rfl

theorem text_writeVarOpaque : (Write.varOpaque k).text p =
    "encode_opaque(::core::convert::AsRef::<[u8]>::as_ref(" ++ p.reference ++ "), " ++ boundText k ++ ", _out)" :=
  rfl

/-- A place, by the templates of its two uses. -/
structure PlaceTemplate where
  receiver : Template
  reference : Template

def PlaceTemplate.Renders (q : PlaceTemplate) (p : Place) : Prop :=
  render q.receiver = p.receiver ∧ render q.reference = p.reference

def newtypePlace : PlaceTemplate := ⟨[fixed "self.0"], [fixed "&self.0"]⟩

def memberPlace (n : String) : PlaceTemplate := ⟨[fixed "self.", name n], [fixed "&self.", name n]⟩

def payloadPlace : PlaceTemplate := ⟨[fixed "_v"], [fixed "_v"]⟩

theorem renders_newtype : newtypePlace.Renders (.direct "self.0") := ⟨rfl, rfl⟩

theorem renders_member (n : String) : (memberPlace n).Renders (.direct ("self." ++ identifier n)) := by
  have hreference : "&self." = "&" ++ "self." := rfl
  refine ⟨by simp [memberPlace, text, Place.receiver], ?_⟩
  rw [memberPlace, render_cons, render_cons, render_nil, String.append_empty, text, text, Place.reference, hreference,
    String.append_assoc]

theorem renders_payload : payloadPlace.Renders (.behind "_v") := ⟨rfl, rfl⟩

def writeTemplate (q : PlaceTemplate) : Ty → Template
  | .plain _ => q.receiver ++ [fixed ".encode(_out)"]
  | .array _ _ =>
    fixed "encode_fixed_array(" :: q.reference ++ [fixed ", _out, |_item, _out| _item.encode(_out))"]
  | .vector _ n => fixed "encode_var_array(" :: q.reference ++ fixed ", " :: boundTemplate n ++
      [fixed ", _out, |_item, _out| _item.encode(_out))"]
  | .optional _ => fixed "encode_optional(" :: q.reference ++ [fixed ", _out, |_item, _out| _item.encode(_out))"]
  | .fixedBytes _ => fixed "encode_fixed_opaque(" :: q.reference ++ [fixed ", _out)"]
  | .bytes n | .string n =>
    fixed "encode_opaque(::core::convert::AsRef::<[u8]>::as_ref(" :: q.reference ++ fixed "), " :: boundTemplate n ++
      [fixed ", _out)"]

variable {p} {q : PlaceTemplate}

theorem render_write (h : q.Renders p) (t : Ty) : render (writeTemplate q t) = (Write.ofType t).text p := by
  obtain ⟨hreceiver, hreference⟩ := h
  have hitem : "_item.encode(_out)" = Write.value.text (.behind "_item") := rfl
  cases t with
  | plain b => simp [writeTemplate, Write.ofType, text_value, text, hreceiver]
  | array b n =>
    simp [writeTemplate, Write.ofType, text_writeFixedArray, ← hitem, text, hreference, String.append_assoc]
  | vector b n =>
    simp [writeTemplate, Write.ofType, text_writeVarArray, ← hitem, text, hreference, render_bound, String.append_assoc]
  | optional b =>
    simp [writeTemplate, Write.ofType, text_writeOptional, ← hitem, text, hreference, String.append_assoc]
  | fixedBytes n => simp [writeTemplate, Write.ofType, text_writeFixedOpaque, text, hreference, String.append_assoc]
  | bytes n | string n =>
    simp [writeTemplate, Write.ofType, text_writeVarOpaque, text, hreference, render_bound, String.append_assoc]

end Write

/-! ### Declarations -/

section Definition

variable (naming : Naming) (n : String)

/-- What stands for the discriminant of a variant, unless its arm has just one label, and for its field. -/
def argumentTemplates (a : Arm) (discriminant : String) (field : Field → Template) : List Template :=
  (if a.labels.length = 1 then [] else [[fixed discriminant]]) ++ (a.field.map field).toList

theorem map_render_arguments {a : Arm} {discriminant : String} {field : Field → Template} {f : Field → String}
    (h : ∀ x, render (field x) = f x) :
    (argumentTemplates a discriminant field).map render = arguments a discriminant f := by
  unfold argumentTemplates arguments
  cases a.field <;> by_cases hlength : a.labels.length = 1 <;> simp [hlength, h, text]

/-- The lines of a declaration. -/
def declarationTemplates : Definition → List Template
  | .typedef t =>
    [fixed "pub struct " :: declaredTemplate naming n ++ fixed "(pub " :: typeTemplate naming t ++ [fixed ");"]]
  | .struct fields =>
    blockTemplates (fixed "pub struct " :: declaredTemplate naming n) "" (fields.map fun f =>
      [fixed "pub ", name f.name, fixed ": "] ++ typeTemplate naming f.type ++ [fixed ","])
  | .enum labels =>
    [fixed "#[repr(i32)]"] :: blockTemplates (fixed "pub enum " :: declaredTemplate naming n) ""
      (labels.map fun l => [name l.1, fixed " = ", number .i32 l.2 "", fixed ","])
  | .union u =>
    blockTemplates (fixed "pub enum " :: declaredTemplate naming n) "" (u.allArms.map fun a =>
      appliedTemplate [name a.variant] (argumentTemplates a (discriminantType u) fun f => typeTemplate naming f.type) ++
        [fixed ","])

theorem texts_declaration (d : Definition) :
    textsAll ((DeclBody.ofDefinition naming d).code (naming.declared n)) =
      (declarationTemplates naming n d).map render := by
  cases d with
  | typedef t =>
    simp [DeclBody.ofDefinition, DeclBody.code, declarationTemplates, textsAll, Code.texts, render_declared,
      render_type, text, String.append_assoc]
  | struct fields =>
    rw [DeclBody.ofDefinition, DeclBody.code, textsAll_singleton]
    refine texts_block (by simp [text, render_declared]) (by simp) ?_
    rw [List.map_map]
    refine textsAll_map fun f => ?_
    simp [Code.texts, text, render_type, String.append_assoc]
  | enum labels =>
    rw [DeclBody.ofDefinition, DeclBody.code, textsAll, textsAll_singleton]
    refine congrArg _ (texts_block (by simp [text, render_declared]) (by simp) ?_)
    refine textsAll_map fun l => ?_
    change [identifier l.1 ++ " = " ++ toString l.2 ++ ","] = _
    simp [text, String.append_assoc]
  | union u =>
    rw [DeclBody.ofDefinition, DeclBody.code, textsAll_singleton]
    refine texts_block (by simp [text, render_declared]) (by simp) ?_
    rw [List.map_map]
    refine textsAll_map fun a => ?_
    rw [Function.comp_apply, code_variant, Code.texts, render_append, render_applied,
      map_render_arguments fun f => render_type naming f.type]
    simp [text]

/-- A greatest size, where it can be stated. -/
def greatestTemplate : Option Int → Template
  | none => [fixed "::core::option::Option::None"]
  | some k =>
    if k ≤ maxSize then [fixed "::core::option::Option::Some(", number .u64 k "", fixed ")"]
    else [fixed "::core::option::Option::None"]

/-- The lines of the size of a type. -/
def sizeTemplates (size : Wire.Size) : List Template :=
  let header := (if naming.isGeneric n then [fixed "impl<", parameter naming.parameter, fixed "> "] else
    [fixed "impl "]) ++ declaredTemplate naming n
  let exact := if size.fixed && size.min ≤ maxSize then
      [[fixed "pub const XDR_FIXED_SIZE: u64 = ", number .u64 size.min "", fixed ";"]]
    else []
  blockTemplates header "" ([[fixed "pub const XDR_MIN_SIZE: u64 = ", number .u64 (min size.min maxSize) "", fixed ";"],
    fixed "pub const XDR_MAX_SIZE: ::core::option::Option<u64> = " :: greatestTemplate size.max ++ [fixed ";"]] ++
      exact)

theorem texts_size {d : Declaration} (htarget : d.target = naming.declared n)
    (hparameter : d.parameter = if naming.isGeneric n then some naming.parameter else none) :
    d.sizeCode.texts = (sizeTemplates naming n d.size).map render := by
  refine texts_block ?_ ?_ ?_
  · rw [htarget, hparameter]
    cases naming.isGeneric n <;> simp [text, render_declared, String.append_assoc]
  · rw [hparameter]
    cases naming.isGeneric n <;> simp
  · rw [textsAll_append, List.map_append, textsAll, textsAll_singleton, Code.texts, Code.texts,
      List.singleton_append, List.map_cons, List.map_singleton]
    refine congrArg₂ _ (congrArg₂ _ ?_ (congrArg₂ _ ?_ rfl)) ?_
    · simp [text, toString_string, String.append_assoc]
    · have htype : "pub const XDR_MAX_SIZE: ::core::option::Option<u64> = " =
          "pub const XDR_MAX_SIZE: " ++ (optionText ++ "<u64> = ") := rfl
      rw [List.cons_append, render_cons, text, htype]
      simp only [toString_string, render_append, render_cons, render_nil, String.append_assoc, text,
        String.append_empty]
      cases d.size.max with
      | none => rfl
      | some k =>
        have hsome : "::core::option::Option::Some(" = optionText ++ "::Some(" := rfl
        by_cases hk : k ≤ maxSize
        · simp only [greatestTemplate, if_pos hk, render_cons, render_nil, text, hsome, String.append_assoc,
            String.append_empty]
        · simp only [greatestTemplate, if_neg hk]
          rfl
    · by_cases h : d.size.fixed = true ∧ d.size.min ≤ maxSize
      · simp [h, textsAll, Code.texts, text, toString_string, String.append_assoc]
      · simp [h, textsAll]

/-- The lines of the conversions of an enumeration. -/
def conversionTemplates : Definition → List Template
  | .enum labels =>
    blockTemplates (fixed "impl " :: declaredTemplate naming n) ""
      (blockTemplates [fixed "pub fn from_xdr_value(_value: i32) -> ::core::option::Option<Self>"] ""
          (blockTemplates [fixed "match _value"] "" (labels.map (fun l =>
            [number .i32 l.2 "", fixed " => ::core::option::Option::Some(Self::", name l.1, fixed "),"]) ++
              [[fixed "_ => ::core::option::Option::None,"]])) ++
        blockTemplates [fixed "pub fn xdr_value(&self) -> i32"] ""
          (blockTemplates [fixed "match self"] "" (labels.map fun l =>
            [fixed "Self::", name l.1, fixed " => ", number .i32 l.2 "", fixed ","])))
  | _ => []

theorem texts_conversions (d : Definition) :
    textsAll ((DeclBody.ofDefinition naming d).conversions (naming.declared n)) =
      (conversionTemplates naming n d).map render := by
  cases d with
  | typedef t | struct fields | union u => rfl
  | enum labels =>
    rw [DeclBody.ofDefinition, DeclBody.conversions]
    dsimp only
    rw [textsAll, textsAll_singleton, Code.texts, List.nil_append]
    refine texts_block (by simp [text, render_declared]) (by simp) ?_
    rw [textsAll, textsAll, textsAll_singleton, Code.texts, List.nil_append, List.map_append]
    refine congrArg₂ _ (texts_block rfl (by decide) ?_) (texts_block rfl (by decide) ?_) <;>
      rw [textsAll_singleton]
    · refine texts_block rfl (by decide) ?_
      rw [textsAll_append, List.map_append]
      refine congrArg₂ _ (textsAll_map fun l => ?_) rfl
      have hsome : " => ::core::option::Option::Some(Self::" = " => " ++ (optionText ++ "::Some(Self::") := rfl
      change [toString l.2 ++ " => " ++ optionText ++ "::Some(Self::" ++ identifier l.1 ++ "),"] = _
      rw [hsome]
      simp only [render_cons, render_nil, text, String.append_assoc, String.append_empty]
    · refine texts_block rfl (by decide) (textsAll_map fun l => ?_)
      change ["Self::" ++ identifier l.1 ++ " => " ++ toString l.2 ++ ","] = _
      simp [text, String.append_assoc]

/-- A variant as it is built from what was read. -/
def constructTemplate (a : Arm) : Template :=
  appliedTemplate [fixed "Self::", name a.variant]
    (argumentTemplates a "_disc" fun f => readTemplate naming f.type ++ [fixed "?"])

theorem render_construct (a : Arm) : render (constructTemplate naming a) = (Construct.ofArm naming a).text := by
  have hfield (f : Field) : render (readTemplate naming f.type ++ [fixed "?"]) =
      (Read.ofType naming f.type).text ++ "?" := by
    simp [render_read, text]
  rw [text_construct, constructTemplate, render_applied, map_render_arguments hfield]
  simp [text]

/-- What a label of a union is written for. -/
def wordOf (u : Union) : Integer := if u.isUnsigned then .u32 else .i32

/-- Labels of a union as a pattern. -/
def patternTemplate (u : Union) (values : List Int) : Template :=
  separated " | " (values.map fun k => [number (wordOf u) k ""])

theorem render_pattern (u : Union) (values : List Int) : render (patternTemplate u values) = patternText values := by
  rw [patternTemplate, render_separated, List.map_map, patternText]
  refine congrArg _ (List.map_congr_left fun k _ => ?_)
  simp [text]

/-- The lines in which a decoder reads. -/
def decodingTemplates : Definition → List Template
  | .typedef t => [fixed "::core::result::Result::Ok(Self(" :: readTemplate naming t ++ [fixed "?))"]]
  | .struct [] => [[fixed "::core::result::Result::Ok(Self \x7b\x7d)"]]
  | .struct fields =>
    blockTemplates [fixed "::core::result::Result::Ok(Self"] ")" (fields.map fun f =>
      [name f.name, fixed ": "] ++ readTemplate naming f.type ++ [fixed "?,"])
  | .enum _ =>
    [[fixed "let _value = _cur.read_u32()? as i32;"],
      [fixed "Self::from_xdr_value(_value).ok_or(XdrError::InvalidEnumValue(_value as i64))"]]
  | .union u =>
    [fixed (if u.isUnsigned then "let _disc = _cur.read_u32()?;" else "let _disc = _cur.read_u32()? as i32;")] ::
      blockTemplates [fixed "match _disc"] ""
        (u.arms.map (fun a => patternTemplate u a.values ++ fixed " => ::core::result::Result::Ok(" ::
          constructTemplate naming a ++ [fixed "),"]) ++
          [match u.default with
            | some a => fixed "_ => ::core::result::Result::Ok(" :: constructTemplate naming a ++ [fixed "),"]
            | none => [fixed
              "_ => ::core::result::Result::Err(XdrError::InvalidUnionDiscriminant(_disc as i64)),"]])

theorem texts_decoding (d : Definition) :
    textsAll (DecodeBody.ofDefinition naming d).code = (decodingTemplates naming d).map render := by
  cases d with
  | typedef t =>
    have hok : "::core::result::Result::Ok(Self(" = okText ++ "(Self(" := rfl
    simp only [DecodeBody.ofDefinition, DecodeBody.code, textsAll_singleton, Code.texts, decodingTemplates, hok,
      List.map_singleton, List.cons_append, render_cons, render_append, render_nil, text, render_read,
      String.append_assoc, String.append_empty]
  | struct fields =>
    cases fields with
    | nil => rfl
    | cons f fields =>
      rw [DecodeBody.ofDefinition, List.map_cons, DecodeBody.code, textsAll_singleton]
      · refine texts_block rfl (by decide) ?_
        rw [← List.map_cons (f := fun f : Field => (f.name, Read.ofType naming f.type)), List.map_map]
        refine textsAll_map fun f => ?_
        simp [Code.texts, text, render_read, String.append_assoc]
      · simp
  | enum labels => rfl
  | union u =>
    have harm (a : Arm) : render (fixed " => ::core::result::Result::Ok(" :: constructTemplate naming a ++
        [fixed "),"]) = " => " ++ outcome naming (some a) := by
      have hok : " => ::core::result::Result::Ok(" = " => " ++ (okText ++ "(") := rfl
      simp only [List.cons_append, render_cons, render_append, render_nil, text, render_construct, outcome, hok,
        String.append_assoc, String.append_empty]
    have hlast : render (match u.default with
        | some a => fixed "_ => ::core::result::Result::Ok(" :: constructTemplate naming a ++ [fixed "),"]
        | none => [fixed "_ => ::core::result::Result::Err(XdrError::InvalidUnionDiscriminant(_disc as i64)),"]) =
        "_ => " ++ outcome naming u.default := by
      cases u.default with
      | none => rfl
      | some a =>
        have hok : "_ => ::core::result::Result::Ok(" = "_ => " ++ (okText ++ "(") := rfl
        simp only [List.cons_append, render_cons, render_append, render_nil, text, render_construct, outcome, hok,
          String.append_assoc, String.append_empty]
    rw [code_decode, textsAll, textsAll_singleton, Code.texts, List.singleton_append, decodingTemplates, List.map_cons]
    refine congrArg₂ _ String.append_empty.symm (texts_block rfl (by decide) ?_)
    rw [List.map_append, textsAll_append, List.map_append, List.map_map]
    refine congrArg₂ _ (textsAll_map fun a => ?_) ?_
    · rw [List.append_assoc, render_append, render_pattern, harm, ← String.append_assoc]
      rfl
    · rw [List.map_singleton, List.map_singleton, hlast]
      rfl

/-- The lines in which the encoder checks a discriminant. -/
def guardTemplates (u : Union) (opening : String) (values : List Int) : List Template :=
  blockTemplates (fixed opening :: patternTemplate u values ++ [fixed ")"]) ""
    [[fixed "return ::core::result::Result::Err(XdrError::InvalidUnionDiscriminant(*_disc as i64));"]]

def mustBe : String := "if !::core::matches!(*_disc, "

def mustNotBe : String := "if ::core::matches!(*_disc, "

theorem texts_guard (u : Union) {opening condition : String} (values : List Int)
    (h : "if " ++ condition ++ "::core::matches!(*_disc, " = opening) :
    (Tag.guardCode condition values).texts = (guardTemplates u opening values).map render := by
  refine texts_block ?_ (by simp) rfl
  rw [h]
  simp [text, render_pattern, String.append_assoc]

def carriedTemplate : Template := [fixed "_disc.encode(_out)?;"]

/-- The lines in which the discriminant of a case is written. -/
def caseTagTemplates (u : Union) (a : Arm) : List Template :=
  match a.values with
  | [k] => [[fixed "(", number (wordOf u) k (discriminantType u), fixed ").encode(_out)?;"]]
  | values => guardTemplates u mustBe values ++ [carriedTemplate]

theorem texts_caseTag (u : Union) (a : Arm) :
    textsAll (EncodeArm.ofCase (discriminantType u) a).tag.code = (caseTagTemplates u a).map render := by
  have hmany (values : List Int) : textsAll (Tag.oneOf values).code =
      (guardTemplates u mustBe values ++ [carriedTemplate]).map render := by
    rw [Tag.code, textsAll, textsAll_singleton, texts_guard u values rfl, List.map_append]
    rfl
  unfold EncodeArm.ofCase caseTagTemplates
  dsimp only
  generalize a.values = values
  rcases values with - | ⟨k, - | ⟨j, values⟩⟩
  · exact hmany []
  · rw [Tag.code, textsAll_singleton]
    change ["(" ++ toString k ++ discriminantType u ++ ").encode(_out)?;"] = _
    simp [text, String.append_assoc]
  · exact hmany (k :: j :: values)

/-- The lines in which the discriminant of the default arm is written. -/
def defaultTagTemplates (u : Union) : List Int → List Template
  | [] => [carriedTemplate]
  | values => guardTemplates u mustNotBe values ++ [carriedTemplate]

theorem texts_defaultTag (u : Union) (values : List Int) :
    textsAll (Tag.noneOf values).code = (defaultTagTemplates u values).map render := by
  cases values with
  | nil => rfl
  | cons k values =>
    rw [Tag.code, textsAll, textsAll_singleton, texts_guard u (k :: values) rfl, defaultTagTemplates, List.map_append]
    · rfl
    · simp
    · simp

/-- The lines of an arm of the encoder, after those for its discriminant. -/
def encodeArmTemplates (a : Arm) (tag : List Template) : List Template :=
  let bound := argumentTemplates a "_disc" fun _ => [fixed "_v"]
  blockTemplates (appliedTemplate [fixed "Self::", name a.variant] bound ++ [fixed " =>"]) "" (tag ++
    [match a.field with
      | some f => writeTemplate payloadPlace f.type
      | none => [fixed "::core::result::Result::Ok(())"]])

theorem texts_encodeArm {e : EncodeArm} {a : Arm} {tag : List Template} (hvariant : e.variant = a.variant)
    (hcarried : e.tag.isCarried = true ↔ a.labels.length ≠ 1)
    (hpayload : e.payload = a.field.map fun f => Write.ofType f.type) (htag : textsAll e.tag.code = tag.map render) :
    e.code.texts = (encodeArmTemplates a tag).map render := by
  have hbinds : (if e.tag.isCarried then ["_disc"] else []) ++ (if e.payload.isSome then ["_v"] else []) =
      arguments a "_disc" fun _ => "_v" := by
    rw [arguments, hpayload]
    cases a.field <;> by_cases hlength : a.labels.length = 1 <;> simp [hcarried, hlength]
  have hpattern : render (appliedTemplate [fixed "Self::", name a.variant]
      (argumentTemplates a "_disc" fun _ => [fixed "_v"])) = encodePattern a := by
    rw [render_applied, map_render_arguments fun _ => String.append_empty, encodePattern]
    simp [text]
  refine texts_block ?_ (by simp) ?_
  · rw [hbinds, hvariant, render_append, hpattern]
    rfl
  · rw [textsAll_append, htag, List.map_append, textsAll_singleton, hpayload]
    refine congrArg _ ?_
    cases a.field with
    | none => rfl
    | some f => exact congrArg (fun line => [line]) (render_write renders_payload f.type).symm

/-- The lines in which an encoder writes. -/
def encodingTemplates : Definition → List Template
  | .typedef t => [writeTemplate newtypePlace t]
  | .struct [] => [[fixed "let _ = _out;"], [fixed "::core::result::Result::Ok(())"]]
  | .struct fields => fields.map (fun f => writeTemplate (memberPlace f.name) f.type ++ [fixed "?;"]) ++
      [[fixed "::core::result::Result::Ok(())"]]
  | .enum _ => [[fixed "self.xdr_value().encode(_out)"]]
  | .union u => blockTemplates [fixed "match self"] ""
      (u.arms.flatMap (fun a => encodeArmTemplates a (caseTagTemplates u a)) ++
        u.default.toList.flatMap fun a => encodeArmTemplates a (defaultTagTemplates u u.caseValues))

theorem texts_encoding {d : Definition} (hd : d.Proper) :
    textsAll (EncodeBody.ofDefinition d).code = (encodingTemplates d).map render := by
  cases d with
  | typedef t =>
    rw [EncodeBody.ofDefinition, EncodeBody.code, textsAll_singleton, Code.texts, ← render_write renders_newtype]
    rfl
  | struct fields =>
    cases fields with
    | nil => rfl
    | cons f fields =>
      rw [EncodeBody.ofDefinition, List.map_cons, EncodeBody.code, textsAll_append]
      · rw [encodingTemplates, List.map_append]
        · rw [← List.map_cons (f := fun f : Field => (f.name, Write.ofType f.type)), List.map_map]
          refine congrArg₂ _ (textsAll_map fun f => ?_) rfl
          rw [render_append, render_write (renders_member f.name)]
          rfl
        · simp
      · simp
  | enum labels => rfl
  | union u =>
    have hcase (a : Arm) : (EncodeArm.ofCase (discriminantType u) a).code.texts =
        (encodeArmTemplates a (caseTagTemplates u a)).map render :=
      texts_encodeArm rfl (isCarried_ofCase _ a) rfl (texts_caseTag u a)
    have hdefault : ∀ a ∈ u.default.toList, (EncodeArm.ofDefault u.caseValues a).code.texts =
        (encodeArmTemplates a (defaultTagTemplates u u.caseValues)).map render := by
      intro a ha
      have hlabels : a.labels.length ≠ 1 := by rw [hd.unlabelled a (Option.mem_toList.mp ha)]; decide
      exact texts_encodeArm rfl (iff_of_true rfl hlabels) rfl (texts_defaultTag u u.caseValues)
    rw [EncodeBody.ofDefinition, EncodeBody.code, textsAll_singleton]
    refine texts_block rfl (by decide) ?_
    rw [List.map_append, textsAll_append, List.map_append, List.map_map, Option.toList_map, List.map_map]
    exact congrArg₂ _ (textsAll_blocks fun a _ => hcase a) (textsAll_blocks hdefault)

/-! ### A type -/

/-- The lines of a decoder. -/
def decoderTemplates (size : Wire.Size) (d : Definition) : List Template :=
  blockTemplates (fixed "impl<'a> XdrDecode<'a> for " :: namedTemplate naming .borrowed n) ""
    (blockTemplates [fixed "fn decode(_cur: &mut XdrCursor<'a>) -> XdrResult<Self>"] ""
      ((if 0 < size.min then [[fixed "_cur.ensure(Self::XDR_MIN_SIZE)?;"]] else []) ++
        blockTemplates [fixed "_cur.nested(|_cur|"] ")" (decodingTemplates naming d)))

theorem texts_decoder (settings : Settings) (sizes : Wire.SizeTable) (d : Definition) :
    (Item.ofDefinition naming settings sizes n d).decoder.code.texts =
      (decoderTemplates naming n (sizes.get n) d).map render := by
  refine texts_block ?_ (by simp) ?_
  · rw [render_cons, render_named]
    rfl
  · rw [textsAll_singleton]
    refine texts_block rfl (by decide) ?_
    rw [textsAll_append, List.map_append, textsAll_singleton]
    refine congrArg₂ _ ?_ (texts_block rfl (by decide) (texts_decoding naming d))
    by_cases h : 0 < (sizes.get n).min
    · simp [Item.ofDefinition, h, textsAll, Code.texts, text]
    · simp [Item.ofDefinition, h, textsAll]

/-- The lines of an encoder. -/
def encoderTemplates (d : Definition) : List Template :=
  let header := if naming.isGeneric n then
      [fixed "impl<", parameter naming.parameter, fixed ": ::core::convert::AsRef<[u8]>> XdrEncode for "]
    else [fixed "impl XdrEncode for "]
  blockTemplates (header ++ declaredTemplate naming n) ""
    (blockTemplates [fixed "fn encode(&self, _out: &mut ::std::vec::Vec<u8>) -> XdrResult<()>"] ""
      (encodingTemplates d))

theorem texts_encoder (settings : Settings) (sizes : Wire.SizeTable) {d : Definition} (hd : d.Proper) :
    (Item.ofDefinition naming settings sizes n d).encoder.code.texts = (encoderTemplates naming n d).map render := by
  refine texts_block ?_ ?_ ?_
  · cases hgeneric : naming.isGeneric n <;>
      simp [Item.ofDefinition, hgeneric, text, render_declared, String.append_assoc]
  · cases hgeneric : naming.isGeneric n <;> simp [Item.ofDefinition, hgeneric]
  · rw [textsAll_singleton]
    exact texts_block rfl (by decide) (texts_encoding hd)

/-- The lines of a type with its decoder and its encoder. -/
def itemTemplates (size : Wire.Size) (d : Definition) : List Template :=
  declarationTemplates naming n d ++ sizeTemplates naming n size ++ conversionTemplates naming n d ++
    decoderTemplates naming n size d ++ encoderTemplates naming n d

/-- The lines that stand before a declaration: a comment and what the settings ask for. -/
def notes (d : Declaration) : List String :=
  ("/// XDR " ++ d.kind.text ++ " `" ++ d.name ++ "`, encoded size " ++ d.size.text ++ ".") ::
    d.annotations.map fun a => String.ofList (Text.trim a.toList)

theorem texts_item (settings : Settings) (sizes : Wire.SizeTable) {d : Definition} (hd : d.Proper) :
    textsAll (Item.ofDefinition naming settings sizes n d).code =
      notes (Item.ofDefinition naming settings sizes n d).declaration ++
        (itemTemplates naming n (sizes.get n) d).map render := by
  have hsize : (Item.ofDefinition naming settings sizes n d).declaration.sizeCode.texts =
      (sizeTemplates naming n (sizes.get n)).map render := texts_size naming n rfl rfl
  have hbody := texts_declaration naming n d
  have hconversions := texts_conversions naming n d
  rw [Item.code, Declaration.code, notes, itemTemplates]
  simp only [textsAll_append, textsAll, Code.texts, textsAll_map_line, texts_decoder, texts_encoder naming n _ _ hd,
    hsize, List.map_append, List.append_assoc, List.nil_append, List.append_nil]
  simp only [Item.ofDefinition, hbody, hconversions, List.cons_append, List.nil_append]

end Definition

/-! ### A module -/

def constantTemplate (c : String × Int) : Template :=
  [fixed "pub const ", name c.1, fixed ": i64 = ", number .i64 c.2 "", fixed ";"]

/-- The lines that are written for the definitions of a schema. -/
def templates (s : Schema) : List Template :=
  (Symbol.constants s.symbols).map constantTemplate ++ s.types.flatMap fun x =>
    itemTemplates (Naming.ofSchema s) x.1 ((Wire.SizeTable.ofSchema s).get x.1) x.2

theorem texts_constant (c : String × Int) : (constantCode c.1 c.2).texts = [render (constantTemplate c)] := by
  simp [constantCode, Code.texts, constantTemplate, text, toString_string, String.append_assoc]

/-- The lines before the definitions. -/
def opening (m : Module) : List String :=
  ["// Code generated by xdrc " ++ version ++ " from " ++ m.sourceName ++ ". DO NOT EDIT.",
    "#![allow(" ++ ", ".intercalate lints ++ ")]"] ++
    if m.support then supportLines else ["use " ++ m.supportPath ++ "::*;"]

/-- The other lines of a module: comments, an attribute, the support code or its import, and what the settings ask
for. -/
def frame (m : Module) : List String := opening m ++ m.items.flatMap fun i => notes i.declaration

theorem texts_module (m : Module) : textsAll m.code = opening m ++
    ((m.constants.map constantTemplate).map render ++ m.items.flatMap fun i => textsAll i.code) := by
  have hsupport : textsAll (if m.support then supportLines.map Code.line else
      [.line ("use " ++ m.supportPath ++ "::*;")]) =
      if m.support then supportLines else ["use " ++ m.supportPath ++ "::*;"] := by
    split
    · exact (textsAll_map_line id supportLines).trans (List.map_id _)
    · rfl
  have hblank : textsAll (if m.constants.isEmpty then [] else [Code.blank]) = [] := by
    split <;> rfl
  have hconstants : textsAll (m.constants.map fun c => constantCode c.1 c.2) =
      (m.constants.map constantTemplate).map render := textsAll_map texts_constant
  rw [Module.code, opening]
  simp only [textsAll_append, textsAll_flatMap, hsupport, hconstants, hblank, textsAll, Code.texts]
  simp only [List.append_assoc, List.cons_append, List.nil_append]

theorem mem_texts_module {s : Schema} (hs : ∀ x ∈ s.types, x.2.Proper) (settings : Settings) (sourceName : String)
    {l : String} (hl : l ∈ textsAll (Module.ofSchema s settings sourceName).code) :
    l ∈ frame (Module.ofSchema s settings sourceName) ∨ ∃ t ∈ templates s, l = render t := by
  rw [texts_module, List.mem_append, List.mem_append, List.mem_flatMap] at hl
  rcases hl with hl | hl | ⟨i, hi, hl⟩
  · exact .inl (List.mem_append_left _ hl)
  · obtain ⟨t, ht, rfl⟩ := List.mem_map.mp hl
    exact .inr ⟨t, List.mem_append_left _ ht, rfl⟩
  · obtain ⟨x, hx, rfl⟩ := List.mem_map.mp hi
    rw [texts_item _ _ _ _ (hs x hx), List.mem_append, List.mem_map] at hl
    rcases hl with hl | ⟨t, ht, rfl⟩
    · exact .inl (List.mem_append_right _ (List.mem_flatMap.mpr ⟨_, hi, hl⟩))
    · exact .inr ⟨t, List.mem_append_right _ (List.mem_flatMap.mpr ⟨x, hx, ht⟩), rfl⟩

end XdrSchema.Rust
