import XdrSchema.Proofs.Rust.Written
import XdrSchema.Proofs.Wire.Size

/-! The lines of a type can be read word by word: no two words of one run together, and every number is in the
range of what it is written for. -/
namespace XdrSchema.Rust

open Piece
open Schema (Ref Ty Field Arm Union Definition)

variable {v : Vocabulary} {naming : Naming}

/-! ### Lists -/

/-- Every one of the lines can be read. -/
def Legible (v : Vocabulary) (ts : List Template) : Prop := ∀ t ∈ ts, Sound v t

section Lists

variable {ts ts' : List Template} {t : Template}

theorem legible_nil : Legible v [] := List.forall_mem_nil _

theorem legible_cons : Legible v (t :: ts) ↔ Sound v t ∧ Legible v ts := List.forall_mem_cons

theorem legible_singleton : Legible v [t] ↔ Sound v t := List.forall_mem_singleton

theorem legible_append : Legible v (ts ++ ts') ↔ Legible v ts ∧ Legible v ts' := List.forall_mem_append

theorem legible_map {α : Type} {l : List α} {f : α → Template} (h : ∀ a ∈ l, Sound v (f a)) :
    Legible v (l.map f) := List.forall_mem_map.mpr h

theorem legible_flatMap {α : Type} {l : List α} {f : α → List Template} (h : ∀ a ∈ l, Legible v (f a)) :
    Legible v (l.flatMap f) := by
  intro t ht
  obtain ⟨a, ha, ht⟩ := List.mem_flatMap.mp ht
  exact h a ha t ht

theorem sound_separated {separator : List Char} (hseparator : isJoint separator = true) (h : Legible v ts) :
    Sound v (separated (String.ofList separator) ts) := by
  induction ts with
  | nil => exact sound_nil
  | cons a rest ih =>
    rw [legible_cons] at h
    cases rest with
    | nil => exact h.1
    | cons b rest => exact h.1.append_fixed hseparator (ih h.2)

theorem sound_applied (ht : Sound v t) (h : Legible v ts) : Sound v (appliedTemplate t ts) := by
  unfold appliedTemplate
  split
  · exact ht
  · rw [List.append_assoc]
    exact ht.append_fixed (by rfl)
      ((sound_separated (by rfl) h).append_fixed (by rfl) sound_nil)

theorem legible_block {suffix : String} (ht : Sound v t) (hsuffix : suffix = "" ∨ suffix = ")")
    (h : Legible v ts) : Legible v (blockTemplates t suffix ts) := by
  rw [blockTemplates, List.cons_append, legible_cons, legible_append, legible_singleton]
  refine ⟨ht.append_fixed (by rfl) sound_nil, h, ?_⟩
  have hclose : "\x7d" ++ "" = "\x7d" := rfl
  have hclose' : "\x7d" ++ ")" = "\x7d)" := rfl
  rcases hsuffix with rfl | rfl
  · rw [hclose]
    exact sound_fixed (by rfl)
  · rw [hclose']
    exact sound_fixed (by rfl)

end Lists

/-! ### Types -/

/-- The names of a type are in the vocabulary, and its bound is in range. -/
structure Covers (v : Vocabulary) (naming : Naming) (t : Ty) : Prop where
  parameter : naming.parameter = v.parameter
  bound : ∀ n ∈ t.bound?, n ≤ Wire.maxLength
  target : ∀ r, t.target? = some r → r.name ∈ v.names

section Types

variable {t : Ty} {b : Base Ref}

theorem sound_view {view : View} (h : view = .borrowed ∨ view = .parameter v.parameter) :
    Sound v (viewTemplate view) := by
  rcases h with rfl | rfl
  · exact sound_fixed (by rfl)
  · exact sound_parameter

theorem sound_named {view : View} (hn : n ∈ v.names) (h : view = .borrowed ∨ view = .parameter v.parameter) :
    Sound v (namedTemplate naming view n) := by
  unfold namedTemplate
  split
  · exact (sound_name hn).append_fixed (by rfl)
      ((sound_view h).append_fixed (by rfl) sound_nil)
  · exact sound_name hn

theorem sound_declared (hparameter : naming.parameter = v.parameter) (hn : n ∈ v.names) :
    Sound v (declaredTemplate naming n) := sound_named hn (.inr (congrArg View.parameter hparameter))

theorem sound_scalar (p : Primitive) : Sound v [fixed (scalarName p)] := by
  cases p <;> exact sound_fixed (by rfl)

theorem sound_base (hparameter : naming.parameter = v.parameter) (h : ∀ r, b = .named r → r.name ∈ v.names) :
    Sound v (baseTemplate naming b) := by
  cases b with
  | primitive p => exact sound_scalar p
  | named r => exact sound_declared hparameter (h r rfl)

theorem sound_length {k : Nat} (h : k ≤ Wire.maxLength) : Sound v [number .length k ""] :=
  sound_number ⟨Int.natCast_nonneg k, Int.ofNat_le.mpr h⟩ (.inl rfl)

theorem sound_type (h : Covers v naming t) : Sound v (typeTemplate naming t) := by
  obtain ⟨hparameter, hbound, htarget⟩ := h
  cases t with
  | plain b => exact sound_base hparameter (by simpa using htarget)
  | array b k =>
    have hbase : Sound v (baseTemplate naming b) := sound_base hparameter (by simpa using htarget)
    have hlength : Sound v [number .length k "", fixed "]"] :=
      (sound_length (hbound k rfl)).append_fixed (by rfl) sound_nil
    exact (hbase.append_fixed (by rfl) hlength).fixed_cons (by rfl)
  | vector b k | optional b =>
    have hbase : Sound v (baseTemplate naming b) := sound_base hparameter (by simpa using htarget)
    exact (hbase.append_fixed (by rfl) sound_nil).fixed_cons (by rfl)
  | fixedBytes k =>
    exact ((sound_length (hbound k rfl)).append_fixed (by rfl) sound_nil).fixed_cons (by rfl)
  | bytes k | string k =>
    rw [typeTemplate, hparameter]
    exact sound_parameter

theorem sound_bound {k : Option Nat} (h : ∀ n ∈ k, n ≤ Wire.maxLength) : Sound v (boundTemplate k) := by
  cases k with
  | none => exact sound_fixed (by rfl)
  | some k =>
    rw [boundTemplate]
    split
    · exact sound_fixed (by rfl)
    · have hk := h k rfl
      rw [Wire.maxLength] at hk
      exact sound_number ⟨Int.natCast_nonneg k, by omega⟩ (.inl rfl)

theorem sound_readBase (h : ∀ r, b = .named r → r.name ∈ v.names) : Sound v (readBase naming b) := by
  cases b with
  | primitive p => exact (sound_scalar p).append_fixed (by rfl) sound_nil
  | named r =>
    have hname := sound_name (h r rfl)
    rw [readBase]
    split
    · exact (hname.append_fixed (by rfl) sound_nil).fixed_cons (by rfl)
    · exact hname.append_fixed (by rfl) sound_nil

theorem sound_read (h : Covers v naming t) : Sound v (readTemplate naming t) := by
  obtain ⟨-, hbound, htarget⟩ := h
  cases t with
  | plain b => exact sound_readBase (by simpa using htarget)
  | array b k =>
    have hbase : Sound v (readBase naming b) := sound_readBase (by simpa using htarget)
    have hitem : Sound v (readBase naming b ++ [fixed ")"]) := hbase.append_fixed (by rfl) sound_nil
    exact ((sound_length (hbound k rfl)).append_fixed (by rfl) hitem).fixed_cons (by rfl)
  | vector b k =>
    have hbase : Sound v (readBase naming b) := sound_readBase (by simpa using htarget)
    have hitem : Sound v (readBase naming b ++ [fixed ")"]) := hbase.append_fixed (by rfl) sound_nil
    rw [readTemplate, List.append_assoc]
    exact ((sound_bound hbound).append_fixed (by rfl) hitem).fixed_cons (by rfl)
  | optional b =>
    have hbase : Sound v (readBase naming b) := sound_readBase (by simpa using htarget)
    exact (hbase.append_fixed (by rfl) sound_nil).fixed_cons (by rfl)
  | fixedBytes k =>
    exact ((sound_length (hbound k rfl)).append_fixed (by rfl) sound_nil).fixed_cons (by rfl)
  | bytes k | string k =>
    exact ((sound_bound hbound).append_fixed (by rfl) sound_nil).fixed_cons (by rfl)

/-- A place that can be read. -/
structure PlaceTemplate.Sound (v : Vocabulary) (q : PlaceTemplate) : Prop where
  receiver : Rust.Sound v q.receiver
  reference : Rust.Sound v q.reference

theorem sound_newtype : newtypePlace.Sound v :=
  ⟨sound_fixed (by rfl), sound_fixed (by rfl)⟩

theorem sound_memberPlace (hn : n ∈ v.names) : (memberPlace n).Sound v :=
  ⟨sound_member hn (by rfl) (by rfl), sound_member hn (by rfl) (by rfl)⟩

theorem sound_payload : payloadPlace.Sound v :=
  ⟨sound_fixed (by rfl), sound_fixed (by rfl)⟩

theorem sound_write {q : PlaceTemplate} (hq : q.Sound v) (h : Covers v naming t) : Sound v (writeTemplate q t) := by
  obtain ⟨hreceiver, hreference⟩ := hq
  cases t with
  | plain b => exact hreceiver.append_fixed (by rfl) sound_nil
  | array b k | optional b | fixedBytes k =>
    exact (hreference.append_fixed (by rfl) sound_nil).fixed_cons (by rfl)
  | vector b k =>
    have hbound : Sound v (boundTemplate k ++ [fixed ", _out, |_item, _out| _item.encode(_out))"]) :=
      (sound_bound h.bound).append_fixed (by rfl) sound_nil
    rw [writeTemplate, List.append_assoc]
    exact (hreference.append_fixed (by rfl) hbound).fixed_cons (by rfl)
  | bytes k | string k =>
    have hbound : Sound v (boundTemplate k ++ [fixed ", _out)"]) :=
      (sound_bound h.bound).append_fixed (by rfl) sound_nil
    rw [writeTemplate, List.append_assoc]
    exact (hreference.append_fixed (by rfl) hbound).fixed_cons (by rfl)

end Types

/-! ### Definitions -/

/-- The names that a definition gives to its fields, labels or variants. -/
def innerNames : Definition → List String
  | .typedef _ => []
  | .struct fields => fields.map (·.name)
  | .enum labels => labels.map (·.1)
  | .union u => u.allArms.map (·.variant)

/-- The names that the lines of a definition may use: its own, those of the types of its members, and those of its
fields, labels or variants. -/
def vocabulary (naming : Naming) (n : String) (d : Definition) : Vocabulary :=
  ⟨n :: d.members.filterMap (fun t => t.target?.map Ref.name) ++ innerNames d, naming.parameter⟩

/-- The numbers of a definition are in range. -/
structure InRange (d : Definition) : Prop where
  bounds : ∀ t ∈ d.members, ∀ k ∈ t.bound?, k ≤ Wire.maxLength
  labels : ∀ labels, d = .enum labels → ∀ l ∈ labels, Integer.i32.Holds l.2
  cases : ∀ u, d = .union u → ∀ k ∈ u.caseValues, (wordOf u).Holds k

section Definitions

variable (naming : Naming) (n : String) {d : Definition} (hd : InRange d)

theorem inner_mem_vocabulary {x : String} (hx : x ∈ innerNames d) : x ∈ (vocabulary naming n d).names :=
  List.mem_append_right _ hx

theorem sound_target (d : Definition) : Sound (vocabulary naming n d) (declaredTemplate naming n) :=
  sound_declared rfl List.mem_cons_self

include hd

theorem covers_member {t : Ty} (ht : t ∈ d.members) : Covers (vocabulary naming n d) naming t where
  parameter := rfl
  bound := hd.bounds t ht
  target r hr := by
    have hmem : r.name ∈ d.members.filterMap (fun t => t.target?.map Ref.name) :=
      List.mem_filterMap.mpr ⟨t, ht, by rw [hr]; rfl⟩
    exact List.mem_cons_of_mem n (List.mem_append_left _ hmem)

end Definitions

section Struct

variable (naming : Naming) (n : String) {fields : List Field} {f : Field} (hf : f ∈ fields)

include hf

theorem sound_fieldName : Sound (vocabulary naming n (.struct fields)) [name f.name] :=
  sound_name (inner_mem_vocabulary naming n (List.mem_map_of_mem hf))

theorem covers_field (hd : InRange (.struct fields)) : Covers (vocabulary naming n (.struct fields)) naming f.type :=
  covers_member naming n hd (List.mem_map_of_mem hf)

end Struct

section Enum

variable (naming : Naming) (n : String) {labels : List (String × Int)} {l : String × Int} (hl : l ∈ labels)

include hl

theorem sound_labelName : Sound (vocabulary naming n (.enum labels)) [name l.1] :=
  sound_name (inner_mem_vocabulary naming n (List.mem_map_of_mem hl))

theorem sound_labelValue (hd : InRange (.enum labels)) : Sound v [number .i32 l.2 ""] :=
  sound_number (hd.labels labels rfl l hl) (.inl rfl)

end Enum

section Union

variable (naming : Naming) (n : String) {u : Union} {a : Arm} (ha : a ∈ u.allArms)

theorem legible_arguments {discriminant : String} {field : Field → Template}
    (hdiscriminant : Sound v [fixed discriminant]) (hfield : ∀ f ∈ a.field, Sound v (field f)) :
    Legible v (argumentTemplates a discriminant field) := by
  rw [argumentTemplates, legible_append]
  constructor
  · split
    · exact legible_nil
    · exact legible_singleton.mpr hdiscriminant
  · cases hf : a.field with
    | none => exact legible_nil
    | some f => exact legible_singleton.mpr (hfield f hf)

theorem sound_word (u : Union) : Sound v [fixed (discriminantType u)] := by
  unfold discriminantType
  split <;> exact sound_fixed (by rfl)

theorem sound_pattern (hd : InRange (.union u)) {values : List Int} (hvalues : ∀ k ∈ values, k ∈ u.caseValues) :
    Sound v (patternTemplate u values) :=
  sound_separated (by rfl) (legible_map fun k hk =>
    sound_number (hd.cases u rfl k (hvalues k hk)) (.inl rfl))

theorem legible_guard (hd : InRange (.union u)) {opening : List Char}
    (hopening : (isPlain opening && endsHard opening) = true) {values : List Int}
    (hvalues : ∀ k ∈ values, k ∈ u.caseValues) :
    Legible v (guardTemplates u (String.ofList opening) values ++ [carriedTemplate]) := by
  rw [legible_append, legible_singleton]
  refine ⟨legible_block ?_ (.inl rfl) (legible_singleton.mpr (sound_fixed (by rfl))),
    sound_fixed (by rfl)⟩
  exact ((sound_pattern hd hvalues).append_fixed (by rfl) sound_nil).fixed_cons hopening

theorem legible_caseTag (hd : InRange (.union u)) {a : Arm} (ha : a ∈ u.arms) : Legible v (caseTagTemplates u a) := by
  have hvalues : ∀ k ∈ a.values, k ∈ u.caseValues := fun k hk => List.mem_flatMap.mpr ⟨a, ha, hk⟩
  unfold caseTagTemplates
  split
  · next k hk =>
    have hword : Sound v [number (wordOf u) k (discriminantType u)] := by
      refine sound_number (hd.cases u rfl k (hvalues k (by simp [hk]))) (.inr ?_)
      unfold discriminantType wordOf
      split <;> rfl
    exact legible_singleton.mpr ((hword.append_fixed (by rfl) sound_nil).fixed_cons (by rfl))
  · exact legible_guard hd (by rfl) hvalues

theorem legible_defaultTag (hd : InRange (.union u)) : Legible v (defaultTagTemplates u u.caseValues) := by
  unfold defaultTagTemplates
  split
  · exact legible_singleton.mpr (sound_fixed (by rfl))
  · exact legible_guard hd (by rfl) fun k hk => hk

include ha

theorem sound_variantName : Sound (vocabulary naming n (.union u)) [name a.variant] :=
  sound_name (inner_mem_vocabulary naming n (List.mem_map_of_mem ha))

theorem covers_payload (hd : InRange (.union u)) {f : Field} (hf : f ∈ a.field) :
    Covers (vocabulary naming n (.union u)) naming f.type := by
  exact covers_member naming n hd (Schema.Union.type_mem_members ha hf)

theorem legible_encodeArm (hd : InRange (.union u)) {tag : List Template}
    (htag : Legible (vocabulary naming n (.union u)) tag) :
    Legible (vocabulary naming n (.union u)) (encodeArmTemplates a tag) := by
  have hvariant : Sound (vocabulary naming n (.union u)) [fixed "Self::", name a.variant] :=
    (sound_variantName naming n ha).fixed_cons (by rfl)
  have harguments : Legible (vocabulary naming n (.union u)) (argumentTemplates a "_disc" fun _ => [fixed "_v"]) :=
    legible_arguments (sound_fixed (by rfl)) fun _ _ => sound_fixed (by rfl)
  refine legible_block ((sound_applied hvariant harguments).append_fixed (by rfl) sound_nil) (.inl rfl)
    (legible_append.mpr ⟨htag, legible_singleton.mpr ?_⟩)
  cases hf : a.field with
  | none => exact sound_fixed (by rfl)
  | some f => exact sound_write sound_payload (covers_payload naming n ha hd hf)

end Union

/-! ### The lines of a definition -/

section Lines

variable (naming : Naming) (n : String) {d : Definition} (hd : InRange d)

include hd

theorem legible_declaration : Legible (vocabulary naming n d) (declarationTemplates naming n d) := by
  have htarget := sound_target naming n d
  cases d with
  | typedef t =>
    have htype := sound_type (covers_member naming n hd (t := t) List.mem_cons_self)
    rw [declarationTemplates, List.append_assoc, legible_singleton]
    exact (htarget.append_fixed (by rfl)
      (htype.append_fixed (by rfl) sound_nil)).fixed_cons (by rfl)
  | struct fields =>
    refine legible_block (htarget.fixed_cons (by rfl)) (.inl rfl) (legible_map fun f hf => ?_)
    exact ((sound_fieldName naming n hf).append_fixed (by rfl)
      ((sound_type (covers_field naming n hf hd)).append_fixed (by rfl) sound_nil)).fixed_cons
        (by rfl)
  | enum labels =>
    refine legible_cons.mpr ⟨sound_fixed (by rfl),
      legible_block (htarget.fixed_cons (by rfl)) (.inl rfl) (legible_map fun l hl => ?_)⟩
    exact (sound_labelName naming n hl).append_fixed (by rfl)
      ((sound_labelValue hl hd).append_fixed (by rfl) sound_nil)
  | union u =>
    refine legible_block (htarget.fixed_cons (by rfl)) (.inl rfl) (legible_map fun a ha => ?_)
    have harguments := legible_arguments (sound_word u) fun f hf => sound_type (covers_payload naming n ha hd hf)
    exact (sound_applied (sound_variantName naming n ha) harguments).append_fixed (by rfl) sound_nil

theorem legible_conversions : Legible (vocabulary naming n d) (conversionTemplates naming n d) := by
  have htarget := sound_target naming n d
  cases d with
  | typedef t | struct fields | union u => exact legible_nil
  | enum labels =>
    refine legible_block (htarget.fixed_cons (by rfl)) (.inl rfl) (legible_append.mpr ⟨?_, ?_⟩)
    · refine legible_block (sound_fixed (by rfl)) (.inl rfl) (legible_block (sound_fixed (by rfl))
        (.inl rfl) (legible_append.mpr ⟨legible_map fun l hl => ?_, ?_⟩))
      · exact (sound_labelValue hl hd).append_fixed (by rfl)
          ((sound_labelName naming n hl).append_fixed (by rfl) sound_nil)
      · exact legible_singleton.mpr (sound_fixed (by rfl))
    · refine legible_block (sound_fixed (by rfl)) (.inl rfl) (legible_block (sound_fixed (by rfl))
        (.inl rfl) (legible_map fun l hl => ?_))
      exact ((sound_labelName naming n hl).append_fixed (by rfl)
        ((sound_labelValue hl hd).append_fixed (by rfl) sound_nil)).fixed_cons (by rfl)

theorem legible_decoding : Legible (vocabulary naming n d) (decodingTemplates naming d) := by
  cases d with
  | typedef t =>
    have hread := sound_read (covers_member naming n hd (t := t) List.mem_cons_self)
    exact legible_singleton.mpr
      ((hread.append_fixed (by rfl) sound_nil).fixed_cons (by rfl))
  | struct fields =>
    cases fields with
    | nil => exact legible_singleton.mpr (sound_fixed (by rfl))
    | cons first rest =>
      refine legible_block (sound_fixed (by rfl)) (.inr rfl) (legible_map fun f hf => ?_)
      exact (sound_fieldName naming n hf).append_fixed (by rfl)
        ((sound_read (covers_field naming n hf hd)).append_fixed (by rfl) sound_nil)
  | enum labels =>
    exact legible_cons.mpr ⟨sound_fixed (by rfl), legible_singleton.mpr (sound_fixed (by rfl))⟩
  | union u =>
    have hconstruct {a : Arm} (ha : a ∈ u.allArms) :
        Sound (vocabulary naming n (.union u)) (constructTemplate naming a) := by
      refine sound_applied ((sound_variantName naming n ha).fixed_cons (by rfl))
        (legible_arguments (sound_fixed (by rfl)) fun f hf => ?_)
      exact (sound_read (covers_payload naming n ha hd hf)).append_fixed (by rfl) sound_nil
    refine legible_cons.mpr ⟨?_, legible_block (sound_fixed (by rfl)) (.inl rfl)
      (legible_append.mpr ⟨legible_map fun a ha => ?_, legible_singleton.mpr ?_⟩)⟩
    · split <;> exact sound_fixed (by rfl)
    · have hvalues : ∀ k ∈ a.values, k ∈ u.caseValues := fun k hk => List.mem_flatMap.mpr ⟨a, ha, hk⟩
      rw [List.append_assoc]
      exact (sound_pattern hd hvalues).append_fixed (by rfl)
        ((hconstruct (List.mem_append_left _ ha)).append_fixed (by rfl) sound_nil)
    · cases hdefault : u.default with
      | none => exact sound_fixed (by rfl)
      | some a =>
        have ha : a ∈ u.allArms := List.mem_append_right _ (by simp [hdefault])
        exact ((hconstruct ha).append_fixed (by rfl) sound_nil).fixed_cons (by rfl)

theorem legible_encoding : Legible (vocabulary naming n d) (encodingTemplates d) := by
  have hok : Sound (vocabulary naming n d) [fixed "::core::result::Result::Ok(())"] := sound_fixed (by rfl)
  cases d with
  | typedef t =>
    exact legible_singleton.mpr (sound_write sound_newtype (covers_member naming n hd (t := t) List.mem_cons_self))
  | struct fields =>
    cases fields with
    | nil => exact legible_cons.mpr ⟨sound_fixed (by rfl), legible_singleton.mpr hok⟩
    | cons first rest =>
      refine legible_append.mpr ⟨legible_map fun f hf => ?_, legible_singleton.mpr hok⟩
      have hplace := sound_memberPlace (inner_mem_vocabulary naming n (d := .struct (first :: rest))
        (List.mem_map_of_mem hf))
      exact (sound_write hplace (covers_field naming n hf hd)).append_fixed (by rfl) sound_nil
  | enum labels => exact legible_singleton.mpr (sound_fixed (by rfl))
  | union u =>
    refine legible_block (sound_fixed (by rfl)) (.inl rfl) (legible_append.mpr
      ⟨legible_flatMap fun a ha => ?_, legible_flatMap fun a ha => ?_⟩)
    · exact legible_encodeArm naming n (List.mem_append_left _ ha) hd (legible_caseTag hd ha)
    · exact legible_encodeArm naming n (List.mem_append_right _ ha) hd (legible_defaultTag hd)

theorem legible_decoder (size : Wire.Size) : Legible (vocabulary naming n d) (decoderTemplates naming n size d) := by
  have htarget : Sound (vocabulary naming n d) (namedTemplate naming .borrowed n) :=
    sound_named List.mem_cons_self (.inl rfl)
  refine legible_block (htarget.fixed_cons (by rfl)) (.inl rfl)
    (legible_block (sound_fixed (by rfl)) (.inl rfl) (legible_append.mpr ⟨?_, ?_⟩))
  · split
    · exact legible_singleton.mpr (sound_fixed (by rfl))
    · exact legible_nil
  · exact legible_block (sound_fixed (by rfl)) (.inr rfl) (legible_decoding naming n hd)

theorem legible_encoder : Legible (vocabulary naming n d) (encoderTemplates naming n d) := by
  have htarget := sound_target naming n d
  refine legible_block ?_ (.inl rfl) (legible_block (sound_fixed (by rfl)) (.inl rfl)
    (legible_encoding naming n hd))
  split
  · exact (sound_parameter.append_fixed (by rfl) htarget).fixed_cons (by rfl)
  · exact htarget.fixed_cons (by rfl)

omit hd in
theorem legible_size (d : Definition) {size : Wire.Size} (hsize : size.Proper) :
    Legible (vocabulary naming n d) (sizeTemplates naming n size) := by
  have htarget := sound_target naming n d
  have hmin := hsize.nonneg
  have hnumber {k : Int} (h : 0 ≤ k) (hle : k ≤ maxSize) : Sound (vocabulary naming n d) [number .u64 k ""] := by
    rw [maxSize] at hle
    exact sound_number ⟨h, by omega⟩ (.inl rfl)
  have hgreatest : Sound (vocabulary naming n d) (greatestTemplate size.max ++ [fixed ";"]) := by
    refine Sound.append_fixed ?_ (by rfl) sound_nil
    cases hmax : size.max with
    | none => exact sound_fixed (by rfl)
    | some k =>
      rw [greatestTemplate]
      split
      · next hle =>
        have hordered := hsize.ordered k hmax
        exact ((hnumber (by omega) hle).append_fixed (by rfl) sound_nil).fixed_cons (by rfl)
      · exact sound_fixed (by rfl)
  refine legible_block ?_ (.inl rfl) (legible_append.mpr ⟨legible_cons.mpr ⟨?_, legible_singleton.mpr ?_⟩, ?_⟩)
  · split
    · exact (sound_parameter.append_fixed (by rfl) htarget).fixed_cons (by rfl)
    · exact htarget.fixed_cons (by rfl)
  · have hleast : 0 ≤ min size.min maxSize := by rw [maxSize]; omega
    exact ((hnumber hleast (Int.min_le_right _ _)).append_fixed (by rfl) sound_nil).fixed_cons
      (by rfl)
  · exact hgreatest.fixed_cons (by rfl)
  · split
    · next hexact =>
      have hle : size.min ≤ maxSize := by simpa using (Bool.and_eq_true_iff.mp hexact).2
      exact legible_singleton.mpr (((hnumber hmin hle).append_fixed (by rfl) sound_nil).fixed_cons
        (by rfl))
    · exact legible_nil

/-- The lines of a type. -/
theorem legible_item {size : Wire.Size} (hsize : size.Proper) :
    Legible (vocabulary naming n d) (itemTemplates naming n size d) := by
  simp only [itemTemplates, legible_append]
  exact ⟨⟨⟨⟨legible_declaration naming n hd, legible_size naming n d hsize⟩, legible_conversions naming n hd⟩,
    legible_decoder naming n hd size⟩, legible_encoder naming n hd⟩

end Lines

end XdrSchema.Rust
