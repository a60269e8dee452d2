import XdrSchema.Proofs.Rust.Layout
import XdrSchema.Proofs.Rust.Vocabulary

/-! The code of types is tidy: every part of a line that is built from a definition closes what it opens, since names
and numbers hold no brackets. Main statement: `tidy_item`. -/
namespace XdrSchema.Rust

open Text (isBracket isCloser)
open Schema (Ref Ty Field Arm Union Definition)

variable {v : Vocabulary} {naming : Naming}

/-! ### Names and numbers -/

theorem plain_of_isWordChar {c : Char} (h : Text.isWordChar c = true) : isBracket c = false ∧ c ≠ '\n' := by
  have hother {d : Char} (hd : Text.isWordChar d = false) : c ≠ d := fun heq => by
    rw [heq, hd] at h
    cases h
  refine ⟨?_, hother (by decide)⟩
  unfold isBracket isCloser Text.closer?
  split
  · exact absurd rfl (hother (by decide))
  · exact absurd rfl (hother (by decide))
  · exact absurd rfl (hother (by decide))
  · simp [hother (show Text.isWordChar '\x7d' = false by decide), hother (show Text.isWordChar ')' = false by decide),
      hother (show Text.isWordChar ']' = false by decide)]

theorem isWordChar_of_isWord {t : List Char} (h : isWord t = true) : ∀ c ∈ t, Text.isWordChar c = true := by
  cases t with
  | nil => cases h
  | cons c rest =>
    simp only [isWord, Bool.and_eq_true, List.all_eq_true] at h
    exact List.forall_mem_cons.mpr ⟨h.1.1, h.2⟩

theorem closed_word {t : String} (h : isWord t.toList = true) : Closed t :=
  closed_of_plain fun c hc => plain_of_isWordChar (isWordChar_of_isWord h c hc)

theorem begins_of_isWordChar {t : String} {c : Char} {rest : List Char} (h : Closed t) (ht : t.toList = c :: rest)
    (hc : Text.isWordChar c = true) : Begins t [] := by
  refine ⟨h, c, by rw [ht]; rfl, ?_, ?_⟩
  · rintro rfl
    cases hc
  · have hplain := (plain_of_isWordChar hc).1
    rw [isBracket, Bool.or_eq_false_iff] at hplain
    exact hplain.2

theorem begins_word {t : String} (h : isWord t.toList = true) : Begins t [] := by
  cases ht : t.toList with
  | nil =>
    rw [ht] at h
    cases h
  | cons c rest =>
    exact begins_of_isWordChar (closed_word h) ht (isWordChar_of_isWord h c (by rw [ht]; exact List.mem_cons_self))

theorem begins_identifier {n : String} (h : isWord n.toList = true) : Begins (identifier n) [] := by
  have hraw : Begins "r#" [] := begins_fixed rfl rfl rfl
  unfold identifier
  split
  · exact hraw.keep (closed_word h)
  · exact begins_word h

theorem closed_identifier {n : String} (h : isWord n.toList = true) : Closed (identifier n) :=
  (begins_identifier h).turns

theorem closed_nat (n : Nat) : Closed (toString n) :=
  closed_of_plain fun _ hc => plain_of_isWordChar (isWordChar_of_mem_repr hc)

theorem closed_int (n : Int) : Closed (toString n) := by
  have hsign : Closed "-" := turns_fixed rfl rfl
  rw [Int.toString_eq_repr, Int.repr_eq_if]
  split
  · exact closed_nat _
  · exact hsign.append (closed_nat _)

theorem begins_int (n : Int) : Begins (toString n) [] := by
  obtain ⟨sign, c, digits, htext, hsign, hc, -⟩ := toList_toString n
  rcases hsign with rfl | rfl
  · exact begins_of_isWordChar (closed_int n) htext (by simp [Text.isWordChar, Char.isAlphanum, hc])
  · exact ⟨closed_int n, '-', by rw [htext]; rfl, by decide⟩

theorem closed_intercalate {separator : String} {ts : List String} (hseparator : Closed separator)
    (h : ∀ t ∈ ts, Closed t) : Closed (separator.intercalate ts) := by
  induction ts with
  | nil => exact turns_fixed rfl rfl
  | cons t rest ih =>
    rw [List.forall_mem_cons] at h
    cases rest with
    | nil => simpa using h.1
    | cons u rest =>
      rw [String.intercalate_cons_cons]
      exact (h.1.append hseparator).append (ih h.2)

theorem begins_applied {n : String} {ts : List String} (hn : Begins n []) (h : ∀ t ∈ ts, Closed t) :
    Begins (applied n ts) [] := by
  unfold applied
  split
  · exact hn
  · exact Begins.around (hn.append (turns_fixed rfl rfl)) (closed_intercalate (turns_fixed rfl rfl) h)
      (turns_fixed rfl rfl)

theorem closed_pattern (values : List Int) : Closed (patternText values) :=
  closed_intercalate (turns_fixed rfl rfl) (List.forall_mem_map.mpr fun n _ => closed_int n)

theorem begins_pattern {values : List Int} (h : values ≠ []) : Begins (patternText values) [] := by
  refine ⟨closed_pattern values, ?_⟩
  obtain ⟨n, rest, rfl⟩ := List.exists_cons_of_ne_nil h
  obtain ⟨c, hc, hhead⟩ := (begins_int n).head
  obtain ⟨digits, hdigits⟩ := List.head?_eq_some_iff.mp hc
  refine ⟨c, ?_, hhead⟩
  cases rest with
  | nil => simpa [patternText] using hc
  | cons m rest =>
    rw [patternText, List.map_cons, List.map_cons, String.intercalate_cons_cons, String.toList_append,
      String.toList_append, hdigits]
    rfl

theorem closed_bound (n : Option Nat) : Closed (boundText n) := by
  have hmax : Closed "u32::MAX" := turns_fixed rfl rfl
  unfold boundText
  split
  · exact hmax
  · split
    · exact hmax
    · exact closed_nat _

/-! ### Types -/

section Named

variable {n : String} {view : View} (hn : isWord n.toList = true) (hview : Closed view.text)

include hn hview

theorem closed_named : Closed (naming.named view n).text := by
  unfold Naming.named
  split
  · rw [text_named_some]
    exact Turns.around ((closed_identifier hn).append (turns_fixed rfl rfl)) hview (turns_fixed rfl rfl)
  · exact closed_identifier hn

end Named

theorem closed_borrowed : Closed View.borrowed.text := turns_fixed rfl rfl

theorem closed_scalar (p : Primitive) : Closed (scalarName p) := by
  cases p <;> exact turns_fixed rfl rfl

section Types

variable (hv : v.Proper)

include hv

theorem closed_declared {n : String} (hparameter : naming.parameter = v.parameter) (hn : n ∈ v.names) :
    Closed (naming.declared n).text := by
  refine closed_named (hv.1 n hn) (closed_word ?_)
  rw [hparameter]
  exact hv.2

theorem closed_base {b : Base Ref} (hparameter : naming.parameter = v.parameter)
    (h : ∀ r, b = .named r → r.name ∈ v.names) : Closed (naming.base b).text := by
  cases b with
  | primitive p => exact closed_scalar p
  | named r => exact closed_declared hv hparameter (h r rfl)

theorem closed_readBase {b : Base Ref} (h : ∀ r, b = .named r → r.name ∈ v.names) :
    Closed (Read.ofBase naming b).text := by
  have hdecode : Closed "::decode(_cur)" := turns_fixed rfl rfl
  cases b with
  | primitive p => exact (closed_scalar p).append hdecode
  | named r =>
    have hname := hv.1 r.name (h r rfl)
    have htype : Closed (naming.decoded r.name).text := closed_named hname closed_borrowed
    rw [Naming.decoded, Naming.named] at htype
    rw [Read.ofBase, Naming.decoded, Naming.named]
    split
    · next hgeneric =>
      rw [if_pos hgeneric] at htype
      exact Turns.around (turns_fixed rfl rfl) htype (turns_fixed rfl rfl)
    · exact (closed_identifier hname).append hdecode

variable {t : Ty} (h : Covers v naming t)

include h

theorem closed_type : Closed (naming.type t).text := by
  obtain ⟨hparameter, -, htarget⟩ := h
  cases t with
  | plain b => exact closed_base hv hparameter (by simpa using htarget)
  | array b n =>
    have hbase := closed_base hv (b := b) hparameter (by simpa using htarget)
    have hlength : Turns ['['] ("; " ++ toString n ++ "]") [] :=
      Turns.around (turns_fixed rfl rfl) (closed_nat n) (turns_fixed rfl rfl)
    rw [Naming.type, text_array]
    exact Turns.around (turns_fixed rfl rfl) hbase hlength
  | vector b n =>
    have hbase := closed_base hv (b := b) hparameter (by simpa using htarget)
    rw [Naming.type, text_vec]
    exact Turns.around (turns_fixed rfl rfl) hbase (turns_fixed rfl rfl)
  | optional b =>
    have hbase := closed_base hv (b := b) hparameter (by simpa using htarget)
    rw [Naming.type, text_boxedOption]
    exact Turns.around (turns_fixed rfl rfl) hbase (turns_fixed rfl rfl)
  | fixedBytes n =>
    rw [Naming.type, text_byteArray]
    exact Turns.around (turns_fixed rfl rfl) (closed_nat n) (turns_fixed rfl rfl)
  | bytes n | string n =>
    refine closed_word ?_
    rw [Naming.type.eq_def]
    exact hparameter ▸ hv.2

theorem closed_read : Closed (Read.ofType naming t).text := by
  obtain ⟨-, -, htarget⟩ := h
  cases t with
  | plain b => exact closed_readBase hv (by simpa using htarget)
  | array b n =>
    have hbase : Closed (Read.ofBase naming b).text := closed_readBase hv (by simpa using htarget)
    rw [Read.ofType, text_fixedArray]
    exact Turns.around (Turns.around (turns_fixed rfl rfl) (closed_nat n) (turns_fixed rfl rfl)) hbase
      (turns_fixed rfl rfl)
  | vector b n =>
    have hbase : Closed (Read.ofBase naming b).text := closed_readBase hv (by simpa using htarget)
    rw [Read.ofType, text_varArray]
    exact Turns.around (Turns.around (turns_fixed rfl rfl) (closed_bound n) (turns_fixed rfl rfl)) hbase
      (turns_fixed rfl rfl)
  | optional b =>
    have hbase : Closed (Read.ofBase naming b).text := closed_readBase hv (by simpa using htarget)
    rw [Read.ofType, text_optional]
    exact Turns.around (turns_fixed rfl rfl) hbase (turns_fixed rfl rfl)
  | fixedBytes n =>
    rw [Read.ofType, text_fixedOpaque]
    exact Turns.around (turns_fixed rfl rfl) (closed_nat n) (turns_fixed rfl rfl)
  | bytes n | string n =>
    rw [Read.ofType, text_varOpaque]
    exact Turns.around (turns_fixed rfl rfl) (closed_bound n) (turns_fixed rfl rfl)

end Types

/-- An expression that writes, with closures in it as deep as its type is nested. -/
theorem begins_write (w : Write) {p : Place} (hreceiver : Begins p.receiver []) (hreference : Closed p.reference) :
    Begins (w.text p) [] := by
  have hitem : Begins (Place.behind "_item").receiver [] := begins_fixed rfl rfl rfl
  induction w generalizing p with
  | value => exact hreceiver.append (turns_fixed rfl rfl)
  | fixedArray w ih =>
    rw [text_writeFixedArray]
    exact Begins.around (Begins.around (begins_fixed rfl rfl rfl) hreference (turns_fixed rfl rfl))
      (ih hitem hitem.turns).turns (turns_fixed rfl rfl)
  | varArray n w ih =>
    rw [text_writeVarArray]
    exact Begins.around (Begins.around (Begins.around (begins_fixed rfl rfl rfl) hreference
      (turns_fixed rfl rfl)) (closed_bound n) (turns_fixed rfl rfl)) (ih hitem hitem.turns).turns (turns_fixed rfl rfl)
  | optional w ih =>
    rw [text_writeOptional]
    exact Begins.around (Begins.around (begins_fixed rfl rfl rfl) hreference (turns_fixed rfl rfl))
      (ih hitem hitem.turns).turns (turns_fixed rfl rfl)
  | fixedOpaque =>
    rw [text_writeFixedOpaque]
    exact Begins.around (begins_fixed rfl rfl rfl) hreference (turns_fixed rfl rfl)
  | varOpaque n =>
    rw [text_writeVarOpaque]
    exact Begins.around (Begins.around (begins_fixed rfl rfl rfl) hreference (turns_fixed rfl rfl))
      (closed_bound n) (turns_fixed rfl rfl)

/-! ### Definitions -/

theorem begins_ok : Begins okText [] := begins_fixed rfl rfl rfl

theorem begins_err : Begins errText [] := begins_fixed rfl rfl rfl

theorem closed_option : Closed optionText := turns_fixed rfl rfl

theorem closed_arguments {a : Arm} {discriminant : String} {field : Field → String} (h : Closed discriminant)
    (hfield : ∀ f ∈ a.field, Closed (field f)) : ∀ t ∈ arguments a discriminant field, Closed t := by
  rw [arguments, List.forall_mem_append]
  constructor
  · split
    · exact List.forall_mem_nil _
    · exact List.forall_mem_singleton.mpr h
  · cases hf : a.field with
    | none => exact List.forall_mem_nil _
    | some f => exact List.forall_mem_singleton.mpr (hfield f hf)

theorem closed_discriminantType (u : Union) : Closed (discriminantType u) := by
  unfold discriminantType
  split <;> exact turns_fixed rfl rfl

theorem tidy_guard {condition : String} (h : Closed condition) (values : List Int) :
    (Tag.guardCode condition values).Tidy := by
  refine tidy_block ?_ (tidyAll_line ?_)
  · exact Begins.around (Begins.around (begins_fixed rfl rfl rfl) h (turns_fixed rfl rfl))
      (closed_pattern values) (turns_fixed rfl rfl)
  · exact Begins.around (begins_fixed rfl rfl rfl) begins_err.turns (turns_fixed rfl rfl)

theorem tidy_tag {tag : Tag} (h : ∀ k word, tag = .literal k word → Closed word) : TidyAll tag.code := by
  have hcarried : (Code.line "_disc.encode(_out)?;").Tidy := tidy_line (begins_fixed rfl rfl rfl)
  cases tag with
  | literal k word =>
    exact tidyAll_line (Begins.around (Begins.keep (begins_fixed rfl rfl rfl)
      (closed_int k)) (h k word rfl) (turns_fixed rfl rfl))
  | oneOf values => exact ⟨tidy_guard (turns_fixed rfl rfl) values, tidyAll_singleton.mpr hcarried⟩
  | noneOf values =>
    cases values with
    | nil => exact tidyAll_singleton.mpr hcarried
    | cons k rest => exact ⟨tidy_guard (turns_fixed rfl rfl) (k :: rest), tidyAll_singleton.mpr hcarried⟩

theorem tidy_encodeArm {a : EncodeArm} (hvariant : isWord a.variant.toList = true)
    (htag : ∀ k word, a.tag = .literal k word → Closed word) : a.code.Tidy := by
  have hname : Begins ("Self::" ++ identifier a.variant) [] :=
    Begins.keep (begins_fixed rfl rfl rfl) (closed_identifier hvariant)
  refine tidy_block (Begins.append (begins_applied hname ?_) (turns_fixed rfl rfl))
    (tidyAll_append.mpr ⟨tidy_tag htag, tidyAll_line ?_⟩)
  · have hargument (b : Bool) {t : String} (ht : Closed t) : ∀ x ∈ (if b then [t] else []), Closed x := by
      cases b with
      | false => exact List.forall_mem_nil _
      | true => exact List.forall_mem_singleton.mpr ht
    exact List.forall_mem_append.mpr ⟨hargument _ (turns_fixed rfl rfl), hargument _ (turns_fixed rfl rfl)⟩
  · split
    · next w _ =>
      have hv : Begins (Place.behind "_v").receiver [] := begins_fixed rfl rfl rfl
      exact begins_write w hv hv.turns
    · exact begins_ok.append (turns_fixed rfl rfl)

section Definitions

variable (naming : Naming) (n : String) {d : Definition} (hv : (vocabulary naming n d).Proper)

include hv

theorem closed_target : Closed (naming.declared n).text := closed_declared hv rfl List.mem_cons_self

theorem isWord_name : isWord n.toList = true := hv.1 n List.mem_cons_self

theorem isWord_member {x : String} (hx : x ∈ innerNames d) : isWord x.toList = true :=
  hv.1 x (inner_mem_vocabulary naming n hx)

theorem tidy_conversions : TidyAll ((DeclBody.ofDefinition naming d).conversions (naming.declared n)) := by
  have htarget := closed_target naming n hv
  cases d with
  | typedef t | struct fields | union u => exact tidyAll_nil
  | enum labels =>
    have hlabel {l : String × Int} (hl : l ∈ labels) : Closed (identifier l.1) :=
      closed_identifier (isWord_member naming n hv (List.mem_map_of_mem hl))
    refine ⟨trivial, tidyAll_block (Begins.keep (begins_fixed rfl rfl rfl) htarget) ⟨?_, trivial,
      tidyAll_singleton.mpr ?_⟩⟩
    · refine tidy_block (Begins.around (begins_fixed rfl rfl rfl) closed_option (turns_fixed rfl rfl))
        (tidyAll_block (begins_fixed rfl rfl rfl)
          (tidyAll_append.mpr ⟨tidyAll_map fun l hl => tidy_line ?_, tidyAll_line ?_⟩))
      · exact Begins.around (Begins.around ((begins_int l.2).append (turns_fixed rfl rfl)) closed_option
          (turns_fixed rfl rfl)) (hlabel hl) (turns_fixed rfl rfl)
      · exact Begins.around (begins_fixed rfl rfl rfl) closed_option (turns_fixed rfl rfl)
    · refine tidy_block (begins_fixed rfl rfl rfl) (tidyAll_block (begins_fixed rfl rfl rfl)
        (tidyAll_map fun l hl => tidy_line ?_))
      exact Begins.around (Begins.around (begins_fixed rfl rfl rfl) (hlabel hl) (turns_fixed rfl rfl))
        (closed_int l.2) (turns_fixed rfl rfl)

theorem tidy_encodeBody : TidyAll (EncodeBody.ofDefinition d).code := by
  have hok : Begins (okText ++ "(())") [] := begins_ok.append (turns_fixed rfl rfl)
  have hname {x : String} (hx : x ∈ innerNames d) := isWord_member naming n hv hx
  cases d with
  | typedef t =>
    have hself : Begins (Place.direct "self.0").receiver [] := begins_fixed rfl rfl rfl
    exact tidyAll_line (begins_write _ hself (Turns.keep (turns_fixed rfl rfl) hself.turns))
  | struct fields =>
    cases fields with
    | nil => exact ⟨tidy_line (begins_fixed rfl rfl rfl), tidyAll_line hok⟩
    | cons first rest =>
      refine tidyAll_append.mpr ⟨tidyAll_map (List.forall_mem_map.mpr fun f hf => tidy_line ?_),
        tidyAll_line hok⟩
      have hself : Begins ("self." ++ identifier f.name) [] :=
        Begins.keep (begins_fixed rfl rfl rfl) (closed_identifier (hname (List.mem_map_of_mem hf)))
      exact Begins.append (begins_write _ hself (Turns.keep (turns_fixed rfl rfl) hself.turns)) (turns_fixed rfl rfl)
  | enum labels => exact tidyAll_line (begins_fixed rfl rfl rfl)
  | union u =>
    refine tidyAll_block (begins_fixed rfl rfl rfl) (tidyAll_map ?_)
    have hvariant {a : Arm} (ha : a ∈ u.allArms) : isWord a.variant.toList = true := hname (List.mem_map_of_mem ha)
    rw [List.forall_mem_append]
    constructor
    · refine List.forall_mem_map.mpr fun a ha => tidy_encodeArm (hvariant (List.mem_append_left _ ha)) ?_
      intro k word hword
      unfold EncodeArm.ofCase at hword
      dsimp only at hword
      split at hword <;> cases hword
      exact closed_discriminantType u
    · intro e he
      obtain ⟨a, ha, rfl⟩ := Option.map_eq_some_iff.mp (Option.mem_toList.mp he)
      exact tidy_encodeArm (hvariant (List.mem_append_right _ (Option.mem_toList.mpr ha))) nofun

variable (hd : InRange d)

include hd

theorem tidy_declBody : TidyAll ((DeclBody.ofDefinition naming d).code (naming.declared n)) := by
  have htarget := closed_target naming n hv
  have htype {t : Ty} (ht : t ∈ d.members) := closed_type hv (covers_member naming n hd ht)
  have hname {x : String} (hx : x ∈ innerNames d) := isWord_member naming n hv hx
  cases d with
  | typedef t =>
    exact tidyAll_line (Begins.around
      (Begins.around (begins_fixed rfl rfl rfl) htarget (turns_fixed rfl rfl)) (htype List.mem_cons_self)
      (turns_fixed rfl rfl))
  | struct fields =>
    refine tidyAll_block (Begins.keep (begins_fixed rfl rfl rfl) htarget)
      (tidyAll_map (List.forall_mem_map.mpr fun f hf => tidy_line ?_))
    have hfield := closed_identifier (hname (List.mem_map_of_mem hf))
    exact Begins.around (Begins.around (begins_fixed rfl rfl rfl) hfield (turns_fixed rfl rfl))
      (htype (List.mem_map_of_mem hf)) (turns_fixed rfl rfl)
  | enum labels =>
    refine ⟨tidy_line (begins_fixed rfl rfl rfl), tidyAll_singleton.mpr (tidy_block
      (Begins.keep (begins_fixed rfl rfl rfl) htarget) (tidyAll_map fun l hl => ?_))⟩
    have hlabel := begins_identifier (hname (List.mem_map_of_mem hl))
    exact tidy_line (Begins.around (hlabel.append (turns_fixed rfl rfl)) (closed_int l.2) (turns_fixed rfl rfl))
  | union u =>
    refine tidyAll_block (Begins.keep (begins_fixed rfl rfl rfl) htarget)
      (tidyAll_map (List.forall_mem_map.mpr fun a ha => ?_))
    rw [code_variant]
    refine tidy_line (Begins.append (begins_applied (begins_identifier (hname (List.mem_map_of_mem ha)))
      (closed_arguments (closed_discriminantType u) fun f hf => htype ?_)) (turns_fixed rfl rfl))
    exact Schema.Union.type_mem_members ha hf

theorem tidy_decodeBody (hproper : d.Proper) : TidyAll (DecodeBody.ofDefinition naming d).code := by
  have hread {t : Ty} (ht : t ∈ d.members) := closed_read hv (covers_member naming n hd ht)
  have hname {x : String} (hx : x ∈ innerNames d) := isWord_member naming n hv hx
  cases d with
  | typedef t =>
    exact tidyAll_line (Begins.around (begins_ok.append (turns_fixed rfl rfl))
      (hread List.mem_cons_self) (turns_fixed rfl rfl))
  | struct fields =>
    cases fields with
    | nil => exact tidyAll_line (begins_ok.append (turns_fixed rfl rfl))
    | cons first rest =>
      refine tidyAll_singleton.mpr (tidy_parenthesized (begins_ok.append (turns_fixed rfl rfl))
        (tidyAll_map (List.forall_mem_map.mpr fun f hf => tidy_line ?_)))
      have hfield := begins_identifier (hname (List.mem_map_of_mem hf))
      exact Begins.around (hfield.append (turns_fixed rfl rfl)) (hread (List.mem_map_of_mem hf)) (turns_fixed rfl rfl)
  | enum labels =>
    exact ⟨tidy_line (begins_fixed rfl rfl rfl), tidyAll_line (begins_fixed rfl rfl rfl)⟩
  | union u =>
    have hconstruct {a : Arm} (ha : a ∈ u.allArms) : Closed (outcome naming (some a)) := by
      have hvariant : Begins ("Self::" ++ identifier a.variant) [] :=
        Begins.keep (begins_fixed rfl rfl rfl) (closed_identifier (hname (List.mem_map_of_mem ha)))
      rw [outcome, text_construct]
      refine Turns.around (begins_ok.turns.append (turns_fixed rfl rfl)) (begins_applied hvariant
        (closed_arguments (turns_fixed rfl rfl) fun f hf => ?_)).turns (turns_fixed rfl rfl)
      exact Turns.append (hread (Schema.Union.type_mem_members ha hf))
        (turns_fixed rfl rfl)
    rw [code_decode]
    refine ⟨tidy_line ?_, tidyAll_block (begins_fixed rfl rfl rfl)
      (tidyAll_map (List.forall_mem_append.mpr ⟨List.forall_mem_map.mpr fun a ha => ?_, ?_⟩))⟩
    · split <;> exact begins_fixed rfl rfl rfl
    · have hvalues := values_ne_nil hproper ha
      exact Begins.keep (Begins.append (begins_pattern hvalues) (turns_fixed rfl rfl))
        (hconstruct (List.mem_append_left _ ha))
    · refine List.forall_mem_singleton.mpr (Begins.keep (begins_fixed rfl rfl rfl) ?_)
      cases hdefault : u.default with
      | none => exact begins_err.turns.append (turns_fixed rfl rfl)
      | some a => exact hconstruct (List.mem_append_right _ (by simp [hdefault]))

end Definitions

/-! ### A type -/

theorem closed_size (size : Wire.Size) : Closed size.text := by
  unfold Wire.Size.text
  split
  · exact Turns.around (turns_fixed rfl rfl) (closed_int _) (turns_fixed rfl rfl)
  · refine Turns.around (Turns.around (turns_fixed rfl rfl) (closed_int _) (turns_fixed rfl rfl)) ?_
      (turns_fixed rfl rfl)
    split
    · exact closed_int _
    · exact turns_fixed rfl rfl

section Item

variable (naming : Naming) (settings : Settings) (sizes : Wire.SizeTable) (n : String) {d : Definition}
  (hv : (vocabulary naming n d).Proper)

include hv

theorem closed_parameter {p : String} (h : (if naming.isGeneric n then some naming.parameter else none) = some p) :
    Closed p := by
  split at h
  · cases h
    exact closed_word hv.2
  · cases h

theorem tidy_sizeCode : (Item.ofDefinition naming settings sizes n d).declaration.sizeCode.Tidy := by
  have hnone : Closed (optionText ++ "::None") := closed_option.append (turns_fixed rfl rfl)
  refine tidy_block (Begins.keep ?_ (closed_target naming n hv)) (tidyAll_append.mpr ⟨⟨tidy_line ?_,
    tidyAll_line ?_⟩, ?_⟩)
  · split
    · next p hp =>
      exact Begins.around (begins_fixed rfl rfl rfl) (closed_parameter naming n hv hp) (turns_fixed rfl rfl)
    · exact begins_fixed rfl rfl rfl
  · exact Begins.around (begins_fixed rfl rfl rfl) (closed_int _) (turns_fixed rfl rfl)
  · refine Begins.around (Begins.around (begins_fixed rfl rfl rfl) closed_option (turns_fixed rfl rfl)) ?_
      (turns_fixed rfl rfl)
    split
    · split
      · exact Turns.around (closed_option.append (turns_fixed rfl rfl)) (closed_int _) (turns_fixed rfl rfl)
      · exact hnone
    · exact hnone
  · split
    · exact tidyAll_line (Begins.around (begins_fixed rfl rfl rfl) (closed_int _)
        (turns_fixed rfl rfl))
    · exact tidyAll_nil

theorem tidy_encoder : (Item.ofDefinition naming settings sizes n d).encoder.code.Tidy := by
  refine tidy_block (Begins.keep ?_ (closed_target naming n hv))
    (tidyAll_block (begins_fixed rfl rfl rfl) (tidy_encodeBody naming n hv))
  split
  · next p hp =>
    exact Begins.around (begins_fixed rfl rfl rfl) (closed_parameter naming n hv hp) (turns_fixed rfl rfl)
  · exact begins_fixed rfl rfl rfl

variable (hd : InRange d) (hproper : d.Proper)

include hd hproper

theorem tidy_decoder : (Item.ofDefinition naming settings sizes n d).decoder.code.Tidy := by
  have htarget : Closed (naming.decoded n).text := closed_named (isWord_name naming n hv) closed_borrowed
  refine tidy_block (Begins.keep (begins_fixed rfl rfl rfl) htarget) (tidyAll_singleton.mpr
    (tidy_block (begins_fixed rfl rfl rfl) (tidyAll_append.mpr ⟨?_, tidyAll_singleton.mpr (tidy_parenthesized
      (begins_fixed rfl rfl rfl) (tidy_decodeBody naming n hv hd hproper))⟩)))
  split
  · exact tidyAll_line (begins_fixed rfl rfl rfl)
  · exact tidyAll_nil

/-- The code of a type is tidy, if its annotations are. -/
theorem tidy_item (hannotations : ∀ a ∈ settings.annotationsFor n, Begins (String.ofList (Text.trim a.toList)) []) :
    TidyAll (Item.ofDefinition naming settings sizes n d).code := by
  have hkind (k : TypeKind) : Closed k.text := by cases k <;> exact turns_fixed rfl rfl
  have hopening : Begins ("/// XDR " ++ d.kind.text ++ " `" ++ n ++ "`, encoded size ") [] :=
    Begins.around (Begins.around (begins_fixed rfl rfl rfl) (hkind _) (turns_fixed rfl rfl))
      (closed_word (isWord_name naming n hv)) (turns_fixed rfl rfl)
  have hcomment := hopening.around (closed_size (sizes.get n)) (turns_fixed rfl rfl : Closed ".")
  have hdeclaration : TidyAll (Item.ofDefinition naming settings sizes n d).declaration.code := by
    simp only [Declaration.code, tidyAll_append]
    exact ⟨⟨⟨⟨tidyAll_line hcomment, tidyAll_map hannotations⟩, tidy_declBody naming n hv hd⟩,
      trivial, tidyAll_singleton.mpr (tidy_sizeCode naming settings sizes n hv)⟩, tidy_conversions naming n hv⟩
  rw [Item.code, tidyAll_append]
  exact ⟨hdeclaration, trivial, tidy_decoder naming settings sizes n hv hd hproper, trivial,
    tidy_encoder naming settings sizes n hv, trivial, trivial⟩

end Item

theorem tidy_constant {n : String} (h : isWord n.toList = true) (k : Int) : (constantCode n k).Tidy :=
  tidy_line (Begins.around (Begins.around (begins_fixed rfl rfl rfl) (closed_identifier h)
    (turns_fixed rfl rfl)) (closed_int k) (turns_fixed rfl rfl))

end XdrSchema.Rust
