import XdrSchema.Proofs.Wire.Sound

/-! The pieces that encoded data consists of. The words of floating-point numbers are pieces of their own,
as they are compared as numbers; all else is compared byte by byte. Unlike a spelling, a row of pieces
makes a value whatever NaN is in it. -/
namespace XdrSchema.Wire

open Schema (Ref Ty Definition Union)
open Number (BinaryFormat Datum)

inductive Piece
  | plain (data : List UInt8)
  | single (word : Nat)
  | double (word : Nat)

namespace Piece

def bytes : Piece → List UInt8
  | plain data => data
  | single w => wordBytes 4 w
  | double w => wordBytes 8 w

def joined (ps : List Piece) : List UInt8 := ps.flatMap bytes

/-- The piece is the word of a NaN. -/
def IsNaN : Piece → Prop
  | plain _ => False
  | single w => (BinaryFormat.single.datum w).IsNaN
  | double w => (BinaryFormat.double.datum w).IsNaN

/-- The same bytes, but for the sign of a zero. -/
inductive Alike : Piece → Piece → Prop
  | refl (p : Piece) : Alike p p
  | singles {w w' : Nat} (h : (BinaryFormat.single.datum w).IsZero)
      (h' : (BinaryFormat.single.datum w').IsZero) : Alike (single w) (single w')
  | doubles {w w' : Nat} (h : (BinaryFormat.double.datum w).IsZero)
      (h' : (BinaryFormat.double.datum w').IsZero) : Alike (double w) (double w')

@[simp] theorem joined_nil : joined [] = [] := rfl

@[simp] theorem joined_cons (p : Piece) (ps : List Piece) : joined (p :: ps) = p.bytes ++ joined ps := rfl

@[simp] theorem joined_append (ps qs : List Piece) : joined (ps ++ qs) = joined ps ++ joined qs :=
  List.flatMap_append

end Piece

open Piece

/-! ### What pieces make -/

inductive MakesPrimitive : Primitive → Value → List Piece → Prop
  | int {w : Nat} (h : w < wordCount 4) :
    MakesPrimitive .int (.int (signed 4 w)) [plain (wordBytes 4 w)]
  | unsignedInt {w : Nat} (h : w < wordCount 4) :
    MakesPrimitive .unsignedInt (.int w) [plain (wordBytes 4 w)]
  | hyper {w : Nat} (h : w < wordCount 8) :
    MakesPrimitive .hyper (.int (signed 8 w)) [plain (wordBytes 8 w)]
  | unsignedHyper {w : Nat} (h : w < wordCount 8) :
    MakesPrimitive .unsignedHyper (.int w) [plain (wordBytes 8 w)]
  | float {w : Nat} (h : w < wordCount 4) : MakesPrimitive .float (.float (.ofSingle w)) [single w]
  | double {w : Nat} (h : w < wordCount 8) : MakesPrimitive .double (.float ⟨w⟩) [double w]
  | bool (b : Bool) : MakesPrimitive .bool (.bool b) [plain (wordBytes 4 b.toNat)]

/-- Items one after another. -/
inductive MakesItems (item : Value → List Piece → Prop) : List Value → List Piece → Prop
  | nil : MakesItems item [] []
  | cons {v : Value} {items : List Value} {ps rest : List Piece} (first : item v ps)
      (others : MakesItems item items rest) : MakesItems item (v :: items) (ps ++ rest)

variable (visit : String → Value → List Piece → Prop)

def MakesBase : Base Ref → Value → List Piece → Prop
  | .primitive p => MakesPrimitive p
  | .named r => visit r.name

/-- A length word and a flag are plain pieces; so is data with its padding. -/
inductive MakesType : Ty → Value → List Piece → Prop
  | plain {b : Base Ref} {v : Value} {ps : List Piece} (h : MakesBase visit b v ps) :
    MakesType (.plain b) v ps
  | array {b : Base Ref} {n : Nat} {items : List Value} {ps : List Piece} (hlen : items.length = n)
      (h : MakesItems (MakesBase visit b) items ps) : MakesType (.array b n) (.list items) ps
  | vector {b : Base Ref} {n : Option Nat} {items : List Value} {ps : List Piece}
      (hlen : Fits n items.length) (h : MakesItems (MakesBase visit b) items ps) :
    MakesType (.vector b n) (.list items) (.plain (wordBytes 4 items.length) :: ps)
  | absent {b : Base Ref} : MakesType (.optional b) .absent [.plain (wordBytes 4 0)]
  | present {b : Base Ref} {v : Value} {ps : List Piece} (h : MakesBase visit b v ps) :
    MakesType (.optional b) v (.plain (wordBytes 4 1) :: ps)
  | fixedBytes {n : Nat} {data : List UInt8} (hlen : data.length = n) :
    MakesType (.fixedBytes n) (.bytes data) [.plain (Encode.padded data)]
  | bytes {n : Option Nat} {data : List UInt8} (hlen : Fits n data.length) :
    MakesType (.bytes n) (.bytes data) [.plain (wordBytes 4 data.length), .plain (Encode.padded data)]
  | string {n : Option Nat} {data : List UInt8} (hlen : Fits n data.length) :
    MakesType (.string n) (.bytes data) [.plain (wordBytes 4 data.length), .plain (Encode.padded data)]

inductive MakesFields : List Schema.Field → List (String × Value) → List Piece → Prop
  | nil : MakesFields [] [] []
  | cons {f : Schema.Field} {fs : List Schema.Field} {v : Value} {fields : List (String × Value)}
      {ps rest : List Piece} (first : MakesType visit f.type v ps) (others : MakesFields fs fields rest) :
    MakesFields (f :: fs) ((f.name, v) :: fields) (ps ++ rest)

/-- What the payload of an arm is made of. -/
inductive MakesPayload : Option Schema.Field → Value → List Piece → Prop
  | void : MakesPayload none .absent []
  | field {f : Schema.Field} {v : Value} {ps : List Piece} (h : MakesType visit f.type v ps) :
    MakesPayload (some f) v ps

inductive MakesDefinition (name : String) : Definition → Value → List Piece → Prop
  | typedef {t : Ty} {v : Value} {ps : List Piece} (h : MakesType visit t v ps) :
    MakesDefinition name (.typedef t) (.typedef name v) ps
  | struct {fs : List Schema.Field} {fields : List (String × Value)} {ps : List Piece}
      (h : MakesFields visit fs fields ps) :
    MakesDefinition name (.struct fs) (.struct name fields) ps
  | enum {labels : List (String × Int)} {label : String} {w : Nat} (hw : w < wordCount 4)
      (h : Schema.labelOf? labels (signed 4 w) = some label) :
    MakesDefinition name (.enum labels) (.enum name label (.int (signed 4 w))) [.plain (wordBytes 4 w)]
  | union {u : Union} {a : Schema.Arm} {w : Nat} {v : Value} {ps : List Piece} (hw : w < wordCount 4)
      (harm : u.armFor? (discriminantOf u w) = some a) (h : MakesPayload visit a.field v ps) :
    MakesDefinition name (.union u) (.union name a.variant (.int (discriminantOf u w)) v)
      (.plain (wordBytes 4 w) :: ps)

/-- The pieces of a value of a named type that nests definitions up to some number of levels. -/
def Makes (s : Schema) : Nat → String → Value → List Piece → Prop
  | 0, _, _, _ => False
  | levels + 1, name, v, ps =>
    ∃ d, s.definition? name = some d ∧ MakesDefinition (Makes s levels) name d v ps

/-! ### What is read is made of pieces -/

/-- The bytes can be cut into pieces that make the value. -/
def Cut (makes : Value → List Piece → Prop) (v : Value) (bytes : List UInt8) : Prop :=
  ∃ ps, makes v ps ∧ joined ps = bytes

namespace Decoder

theorem sound_word_cut {n : Nat} {make : Nat → Value} {makes : Value → List Piece → Prop}
    (h : ∀ w, w < wordCount n → ∃ p : Piece, p.bytes = wordBytes n w ∧ makes (make w) [p]) :
    Sound (word n >>= fun w => pure (make w)) (Cut makes) := by
  refine sound_bind (sound_word n) fun w first hw => sound_pure ?_
  obtain ⟨hlt, rfl⟩ := hw
  obtain ⟨p, hp, hmakes⟩ := h w hlt
  exact ⟨[p], hmakes, by rw [joined_cons, joined_nil, hp]⟩

theorem sound_primitive_cut (p : Primitive) : Sound (primitive p) (Cut (MakesPrimitive p)) := by
  cases p with
  | int => exact sound_word_cut fun w hw => ⟨_, rfl, .int hw⟩
  | unsignedInt => exact sound_word_cut fun w hw => ⟨_, rfl, .unsignedInt hw⟩
  | hyper => exact sound_word_cut fun w hw => ⟨_, rfl, .hyper hw⟩
  | unsignedHyper => exact sound_word_cut fun w hw => ⟨_, rfl, .unsignedHyper hw⟩
  | float => exact sound_word_cut fun w hw => ⟨_, rfl, .float hw⟩
  | double => exact sound_word_cut fun w hw => ⟨_, rfl, .double hw⟩
  | bool =>
    refine sound_bind (sound_word 4) fun w first hw => ?_
    obtain ⟨-, rfl⟩ := hw
    split
    · next h => exact sound_pure ⟨_, .bool false, by rw [h]; rfl⟩
    · split
      · next h => exact sound_pure ⟨_, .bool true, by rw [h]; rfl⟩
      · exact sound_throw

theorem sound_times_cut {item : Decoder Value} {makes : Value → List Piece → Prop}
    (h : Sound item (Cut makes)) (n : Nat) :
    Sound (times item n) fun vs bytes =>
      vs.length = n ∧ ∃ ps, MakesItems makes vs ps ∧ joined ps = bytes := by
  induction n with
  | zero => exact sound_pure ⟨rfl, [], .nil, rfl⟩
  | succ n ih =>
    rw [times]
    refine sound_bind h fun v first hv => sound_bind ih fun vs more hvs => sound_pure ?_
    obtain ⟨ps, hps, rfl⟩ := hv
    obtain ⟨rfl, qs, hqs, rfl⟩ := hvs
    exact ⟨rfl, ps ++ qs, .cons hps hqs, by rw [joined_append, List.append_nil]⟩

section Types

variable {visit : String → Decoder Value} {makes : String → Value → List Piece → Prop}
  (h : ∀ name, Sound (visit name) (Cut (makes name)))

include h

theorem sound_base_cut (b : Base Ref) : Sound (base visit b) (Cut (MakesBase makes b)) := by
  cases b with
  | primitive p => exact sound_primitive_cut p
  | named r => exact h r.name

theorem sound_type_cut (t : Ty) : Sound (type visit t) (Cut (MakesType makes t)) := by
  cases t with
  | plain b => exact (sound_base_cut h b).mono fun v bytes ⟨ps, hps, hbytes⟩ => ⟨ps, .plain hps, hbytes⟩
  | array b n =>
    refine sound_bind (sound_times_cut (sound_base_cut h b) n) fun vs first hvs => sound_pure ?_
    obtain ⟨hlen, ps, hps, rfl⟩ := hvs
    exact ⟨ps, .array hlen hps, by rw [List.append_nil]⟩
  | vector b n =>
    refine sound_bind (sound_length n) fun count first hcount => ?_
    refine sound_bind (sound_times_cut (sound_base_cut h b) count) fun vs more hvs => sound_pure ?_
    obtain ⟨hfits, rfl⟩ := hcount
    obtain ⟨rfl, ps, hps, rfl⟩ := hvs
    exact ⟨_, .vector hfits hps, by rw [List.append_nil]; rfl⟩
  | optional b =>
    refine sound_bind (sound_word 4) fun flag first hflag => ?_
    obtain ⟨-, rfl⟩ := hflag
    split
    · next hzero => exact sound_pure ⟨_, .absent, by rw [hzero]; rfl⟩
    · split
      · next hone =>
        refine (sound_base_cut h b).mono fun v bytes ⟨ps, hps, hbytes⟩ => ⟨_, .present hps, ?_⟩
        rw [joined_cons, hbytes, hone]
        rfl
      · exact sound_throw
  | fixedBytes n =>
    apply (sound_data n).mono
    rintro _ _ ⟨content, hlen, rfl, rfl⟩
    exact ⟨_, .fixedBytes hlen, List.append_nil _⟩
  | bytes n =>
    refine sound_bind (sound_length n) fun count first hcount => (sound_data count).mono ?_
    rintro _ _ ⟨content, rfl, rfl, rfl⟩
    obtain ⟨hfits, rfl⟩ := hcount
    exact ⟨_, .bytes hfits, by simp [Piece.bytes]⟩
  | string n =>
    refine sound_bind (sound_length n) fun count first hcount => (sound_data count).mono ?_
    rintro _ _ ⟨content, rfl, rfl, rfl⟩
    obtain ⟨hfits, rfl⟩ := hcount
    exact ⟨_, .string hfits, by simp [Piece.bytes]⟩

theorem sound_fields_cut (fs : List Schema.Field) :
    Sound (fields visit fs) fun vs bytes => ∃ ps, MakesFields makes fs vs ps ∧ joined ps = bytes := by
  induction fs with
  | nil => exact sound_pure ⟨[], .nil, rfl⟩
  | cons f fs ih =>
    rw [fields]
    refine sound_bind (sound_type_cut h f.type) fun v first hv => ?_
    refine sound_bind ih fun vs more hvs => sound_pure ?_
    obtain ⟨ps, hps, rfl⟩ := hv
    obtain ⟨qs, hqs, rfl⟩ := hvs
    exact ⟨ps ++ qs, .cons hps hqs, by rw [joined_append, List.append_nil]⟩

theorem sound_payload_cut (a : Schema.Arm) :
    Sound (payload visit a) (Cut (MakesPayload makes a.field)) := by
  unfold payload
  cases a.field with
  | none => exact sound_pure ⟨[], .void, rfl⟩
  | some f =>
    exact (sound_type_cut h f.type).mono fun v bytes ⟨ps, hps, hbytes⟩ => ⟨ps, .field hps, hbytes⟩

theorem sound_definition_cut (name : String) (d : Definition) :
    Sound (definition visit name d) (Cut (MakesDefinition makes name d)) := by
  cases d with
  | typedef t =>
    refine sound_bind (sound_type_cut h t) fun v first hv => sound_pure ?_
    obtain ⟨ps, hps, rfl⟩ := hv
    exact ⟨ps, .typedef hps, by rw [List.append_nil]⟩
  | struct fs =>
    refine sound_bind (sound_fields_cut h fs) fun vs first hvs => sound_pure ?_
    obtain ⟨ps, hps, rfl⟩ := hvs
    exact ⟨ps, .struct hps, by rw [List.append_nil]⟩
  | enum labels =>
    refine sound_bind (sound_word 4) fun w first hw => ?_
    obtain ⟨hlt, rfl⟩ := hw
    dsimp only
    split
    · next label hlabel => exact sound_pure ⟨_, .enum hlt hlabel, rfl⟩
    · exact sound_throw
  | union u =>
    have hdiscriminant : Sound (discriminant u) fun n bytes =>
        ∃ w, w < wordCount 4 ∧ n = discriminantOf u w ∧ bytes = wordBytes 4 w := by
      refine sound_bind (sound_word 4) fun w first hw => sound_pure ⟨w, hw.1, rfl, ?_⟩
      rw [List.append_nil, hw.2]
    refine sound_bind hdiscriminant fun n first hn => ?_
    obtain ⟨w, hw, rfl, rfl⟩ := hn
    split
    · next a harm =>
      refine sound_bind (sound_payload_cut h a) fun v more hv => sound_pure ?_
      obtain ⟨ps, hps, rfl⟩ := hv
      exact ⟨_, .union hw harm hps, by rw [List.append_nil]; rfl⟩
    · exact sound_throw

end Types

end Decoder

namespace Codec

variable {s : Schema} {maxDepth : Int}

theorem sound_read_cut (levels : Nat) (name : String) :
    Decoder.Sound ((ofSchema s maxDepth).read levels name) (Cut (Makes s levels name)) := by
  induction levels generalizing name with
  | zero => exact Decoder.sound_bind (Decoder.sound_ensure _) fun _ _ _ => Decoder.sound_throw
  | succ levels ih =>
    refine Decoder.sound_bind (Decoder.sound_ensure _) fun _ first hfirst => ?_
    subst hfirst
    split
    · next d hd =>
      refine (Decoder.sound_definition_cut ih name d).mono fun v bytes hcut => ?_
      obtain ⟨ps, hps, hbytes⟩ := hcut
      exact ⟨ps, ⟨d, hd, hps⟩, hbytes⟩
    · exact Decoder.sound_throw

theorem cut_of_decode {name : String} {bytes : List UInt8} {v : Value}
    (h : (ofSchema s maxDepth).decode name bytes = .ok v) :
    Cut (Makes s maxDepth.toNat name) v bytes := by
  obtain ⟨-, hreads⟩ := decode_eq_ok_iff.mp h
  obtain ⟨read, rest, rfl, hlen, hcut⟩ := sound_read_cut maxDepth.toNat name [] bytes v bytes.length hreads
  have hrest : rest = [] := by
    rw [List.nil_append, List.length_append] at hlen
    exact List.eq_nil_of_length_eq_zero (by omega)
  rwa [hrest, List.append_nil]

end Codec

end XdrSchema.Wire
