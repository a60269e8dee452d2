import XdrSchema.Proofs.Number.Binary
import XdrSchema.Proofs.Wire.Reads

/-! What the reader accepts spells what it returns, unless a NaN is in it. -/
namespace XdrSchema.Wire

open Schema (Ref Ty Definition Arm Union)

namespace Decoder

variable {α β : Type}

/-- Within the input, what is read is a prefix of what is left. -/
def Sound (x : Decoder α) (P : α → List UInt8 → Prop) : Prop :=
  ∀ pre rest a p', Reads x (pre ++ rest) pre.length a p' →
    ∃ bytes rest', rest = bytes ++ rest' ∧ p' = (pre ++ bytes).length ∧ P a bytes

variable {P : α → List UInt8 → Prop} {Q : β → List UInt8 → Prop}

theorem sound_pure {a : α} (h : P a []) : Sound (pure a) P := by
  intro pre rest b p' hb
  obtain ⟨rfl, rfl⟩ := reads_pure.mp hb
  exact ⟨[], rest, rfl, by rw [List.append_nil], h⟩

theorem sound_throw {e : DecodeError} : Sound (throw e : Decoder α) P :=
  fun _ _ _ _ h => absurd h not_reads_throw

theorem sound_bind {x : Decoder α} {f : α → Decoder β} (hx : Sound x P)
    (hf : ∀ a first, P a first → Sound (f a) fun b more => Q b (first ++ more)) :
    Sound (x >>= f) Q := by
  intro pre rest b p'' h
  obtain ⟨a, p', ha, hb⟩ := reads_bind.mp h
  obtain ⟨first, rest', rfl, rfl, hfirst⟩ := hx pre rest a p' ha
  rw [← List.append_assoc] at hb
  obtain ⟨more, rest'', rfl, rfl, hmore⟩ := hf a first hfirst (pre ++ first) rest' b p'' hb
  exact ⟨first ++ more, rest'', (List.append_assoc ..).symm, by rw [List.append_assoc], hmore⟩

theorem Sound.mono {x : Decoder α} {P' : α → List UInt8 → Prop} (hx : Sound x P)
    (h : ∀ a bytes, P a bytes → P' a bytes) : Sound x P' := by
  intro pre rest a p' ha
  obtain ⟨bytes, rest', hrest, hp, hbytes⟩ := hx pre rest a p' ha
  exact ⟨bytes, rest', hrest, hp, h a bytes hbytes⟩

theorem sound_ensure (n : Int) : Sound (ensure n) fun _ bytes => bytes = [] := by
  intro pre rest u p' h
  obtain ⟨-, rfl⟩ := reads_ensure.mp h
  exact ⟨[], rest, rfl, by rw [List.append_nil], rfl⟩

theorem sound_take (n : Nat) :
    Sound (take n) fun data bytes => data.length = n ∧ bytes = data := by
  intro pre rest data p' h
  obtain ⟨hle, rfl, rfl⟩ := reads_take_append.mp h
  have hlen : (rest.take n).length = n := by rw [List.length_take, Nat.min_eq_left hle]
  refine ⟨rest.take n, rest.drop n, (List.take_append_drop n rest).symm, ?_, hlen, rfl⟩
  rw [List.length_append, hlen, Int.natCast_add]

theorem sound_word (n : Nat) : Sound (word n) fun w bytes => w < wordCount n ∧ bytes = wordBytes n w := by
  intro pre rest w p' h
  obtain ⟨hle, rfl, rfl⟩ := reads_word_append.mp h
  have hlen : (rest.take n).length = n := by rw [List.length_take, Nat.min_eq_left hle]
  refine ⟨rest.take n, rest.drop n, (List.take_append_drop n rest).symm, ?_, ?_, ?_⟩
  · rw [List.length_append, hlen, Int.natCast_add]
  · have hlt := wordOf_lt (rest.take n)
    rwa [hlen] at hlt
  · have hbytes := wordBytes_wordOf (rest.take n)
    rw [hlen] at hbytes
    exact hbytes.symm

theorem sound_length (bound : Option Nat) :
    Sound (length bound) fun n bytes => Fits bound n ∧ bytes = wordBytes 4 n := by
  unfold length
  refine sound_bind (sound_word 4) fun w first hw => ?_
  dsimp only
  split
  · exact sound_bind (P := fun _ _ => False) sound_throw fun _ _ h => h.elim
  · next hle =>
    refine sound_pure ⟨⟨by omega, lt_wordCount_iff.mp hw.1⟩, ?_⟩
    rw [List.append_nil, hw.2]

theorem sound_skipPadding (n : Nat) :
    Sound (skipPadding n) fun _ bytes => bytes = List.replicate (padding n) 0 := by
  unfold skipPadding
  refine sound_bind (P := fun _ bytes => bytes = []) ?_ fun _ first hfirst => ?_
  · intro pre rest offset p' h
    obtain ⟨-, rfl⟩ := reads_get.mp h
    exact ⟨[], rest, rfl, by rw [List.append_nil], rfl⟩
  · subst hfirst
    refine sound_bind (sound_take (padding n)) fun zeros first hzeros => ?_
    split
    · exact sound_throw
    · next hzero =>
      obtain ⟨hlen, rfl⟩ := hzeros
      apply sound_pure
      rw [List.nil_append, List.append_nil, ← hlen]
      apply List.eq_replicate_length.mpr
      intro b hb
      by_contra hne
      exact hzero (List.any_eq_true.mpr ⟨b, hb, by simpa using hne⟩)

theorem sound_data (n : Nat) :
    Sound (data n) fun v bytes => ∃ content, content.length = n ∧ v = .bytes content ∧
      bytes = Encode.padded content := by
  unfold data
  refine sound_bind (sound_take n) fun content first hcontent => ?_
  obtain ⟨hlen, rfl⟩ := hcontent
  refine sound_bind (sound_skipPadding n) fun _ more hmore => sound_pure ⟨first, hlen, rfl, ?_⟩
  rw [List.append_nil, hmore, Encode.padded, hlen]

theorem sound_times {item : Decoder Value} {P : Value → List UInt8 → Prop} (h : Sound item P) (n : Nat) :
    Sound (times item n) fun vs bytes => vs.length = n ∧ SpellsItems P vs bytes := by
  induction n with
  | zero => exact sound_pure ⟨rfl, .nil⟩
  | succ n ih =>
    rw [times]
    refine sound_bind h fun v first hv => sound_bind ih fun vs more hvs => sound_pure ⟨?_, ?_⟩
    · rw [List.length_cons, hvs.1]
    · rw [List.append_nil]
      exact .cons hv hvs.2

/-- A spelling, unless a NaN is in the value. -/
def Unless (P : Value → List UInt8 → Prop) (v : Value) (bytes : List UInt8) : Prop :=
  v.hasNaN = false → P v bytes

theorem spellsItems_of_unless {P : Value → List UInt8 → Prop} {vs : List Value} {bytes : List UInt8}
    (h : SpellsItems (Unless P) vs bytes) (hnan : Value.hasNaNAll vs = false) :
    SpellsItems P vs bytes := by
  induction h with
  | nil => exact .nil
  | cons first _ ih =>
    obtain ⟨hfirst, hrest⟩ := Bool.or_eq_false_iff.mp hnan
    exact .cons (first hfirst) (ih hrest)

theorem sound_primitive (p : Primitive) : Sound (primitive p) (Unless (SpellsPrimitive p)) := by
  cases p with
  | bool =>
    refine sound_bind (sound_word 4) fun w first hw => ?_
    obtain ⟨-, rfl⟩ := hw
    split
    · next h =>
      subst h
      apply sound_pure
      intro _
      rw [List.append_nil]
      exact .bool false
    · split
      · next h =>
        subst h
        apply sound_pure
        intro _
        rw [List.append_nil]
        exact .bool true
      · exact sound_throw
  | float =>
    refine sound_bind (sound_word 4) fun w first hw => sound_pure fun hnan => ?_
    rw [List.append_nil, hw.2]
    exact .float (Number.Double.toSingle?_ofSingle hw.1 hnan)
  | _ =>
    refine sound_bind (sound_word _) fun w first hw => sound_pure fun _ => ?_
    rw [List.append_nil, hw.2]
    constructor
    exact hw.1

section Types

variable {visit : String → Decoder Value} {spells : String → Value → List UInt8 → Prop}
  (h : ∀ name, Sound (visit name) (Unless (spells name)))

include h

theorem sound_base (b : Base Ref) : Sound (base visit b) (Unless (SpellsBase spells b)) := by
  cases b with
  | primitive p => exact sound_primitive p
  | named r => exact h r.name

theorem sound_type (t : Ty) : Sound (type visit t) (Unless (SpellsType spells t)) := by
  cases t with
  | plain b => exact (sound_base h b).mono fun v bytes hv hnan => .plain (hv hnan)
  | array b n =>
    refine sound_bind (sound_times (sound_base h b) n) fun vs first hvs => sound_pure fun hnan => ?_
    rw [List.append_nil]
    exact .array hvs.1 (spellsItems_of_unless hvs.2 hnan)
  | vector b n =>
    refine sound_bind (sound_length n) fun count first hcount => ?_
    refine sound_bind (sound_times (sound_base h b) count) fun vs more hvs => sound_pure fun hnan => ?_
    obtain ⟨hfits, rfl⟩ := hcount
    obtain ⟨rfl, hitems⟩ := hvs
    rw [List.append_nil]
    exact .vector hfits (spellsItems_of_unless hitems hnan)
  | optional b =>
    refine sound_bind (sound_word 4) fun flag first hflag => ?_
    obtain ⟨-, rfl⟩ := hflag
    split
    · next hzero =>
      subst hzero
      apply sound_pure
      intro _
      rw [List.append_nil]
      exact .absent
    · split
      · next hone =>
        subst hone
        exact (sound_base h b).mono fun v bytes hv hnan => .present (hv hnan)
      · exact sound_throw
  | fixedBytes n =>
    apply (sound_data n).mono
    rintro _ _ ⟨content, hlen, rfl, rfl⟩ -
    exact .fixedBytes hlen
  | bytes n =>
    refine sound_bind (sound_length n) fun count first hcount => (sound_data count).mono ?_
    rintro _ _ ⟨content, rfl, rfl, rfl⟩ -
    rw [hcount.2]
    exact .bytes hcount.1
  | string n =>
    refine sound_bind (sound_length n) fun count first hcount => (sound_data count).mono ?_
    rintro _ _ ⟨content, rfl, rfl, rfl⟩ -
    rw [hcount.2]
    exact .string hcount.1

theorem sound_fields (fs : List Schema.Field) :
    Sound (fields visit fs) fun vs bytes =>
      Value.hasNaNFields vs = false → SpellsFields spells fs vs bytes := by
  induction fs with
  | nil => exact sound_pure fun _ => .nil
  | cons f fs ih =>
    rw [fields]
    refine sound_bind (sound_type h f.type) fun v first hv => ?_
    refine sound_bind ih fun vs more hvs => sound_pure fun hnan => ?_
    obtain ⟨hfirst, hrest⟩ := Bool.or_eq_false_iff.mp hnan
    rw [List.append_nil]
    exact .cons (hv hfirst) (hvs hrest)

theorem sound_definition (name : String) (d : Definition) :
    Sound (definition visit name d) (Unless (SpellsDefinition spells name d)) := by
  cases d with
  | typedef t =>
    refine sound_bind (sound_type h t) fun v first hv => sound_pure fun hnan => ?_
    rw [List.append_nil]
    exact .typedef (hv hnan)
  | struct fs =>
    refine sound_bind (sound_fields h fs) fun vs first hvs => sound_pure fun hnan => ?_
    rw [List.append_nil]
    exact .struct (hvs hnan)
  | enum labels =>
    refine sound_bind (sound_word 4) fun w first hw => ?_
    obtain ⟨hlt, rfl⟩ := hw
    dsimp only
    split
    · next label hlabel =>
      apply sound_pure
      intro _
      rw [List.append_nil]
      exact .enum hlt hlabel
    · exact sound_throw
  | union u =>
    have hdiscriminant : Sound (discriminant u) fun n bytes =>
        ∃ w, w < wordCount 4 ∧ n = discriminantOf u w ∧ bytes = wordBytes 4 w := by
      refine sound_bind (sound_word 4) fun w first hw => sound_pure ⟨w, hw.1, rfl, ?_⟩
      rw [List.append_nil, hw.2]
    refine sound_bind hdiscriminant fun n first hn => ?_
    obtain ⟨w, hw, rfl, rfl⟩ := hn
    split
    · next a harm =>
      cases hfield : a.field with
      | none =>
        refine sound_bind (P := fun v bytes => v = .absent ∧ bytes = []) ?_ fun v first hv => ?_
        · rw [payload, hfield]
          exact sound_pure ⟨rfl, rfl⟩
        · obtain ⟨rfl, rfl⟩ := hv
          apply sound_pure
          intro _
          rw [List.append_nil, List.append_nil]
          exact .void hw harm hfield
      | some f =>
        refine sound_bind (P := Unless (SpellsType spells f.type)) ?_ fun v first hv => ?_
        · rw [payload, hfield]
          exact sound_type h f.type
        · apply sound_pure
          intro hnan
          rw [List.append_nil]
          exact .arm hw harm hfield (hv hnan)
    · exact sound_throw

end Types

end Decoder

namespace Codec

variable {s : Schema} {maxDepth : Int}

/-- What is read with some levels left nests no more definitions than these. -/
theorem sound_read (levels : Nat) (name : String) :
    Decoder.Sound ((ofSchema s maxDepth).read levels name) (Decoder.Unless (Spells s levels name)) := by
  induction levels generalizing name with
  | zero =>
    exact Decoder.sound_bind (Decoder.sound_ensure _) fun _ _ _ => Decoder.sound_throw
  | succ levels ih =>
    refine Decoder.sound_bind (Decoder.sound_ensure _) fun _ first hfirst => ?_
    subst hfirst
    split
    · next d hd =>
      exact (Decoder.sound_definition ih name d).mono fun v bytes hv hnan => ⟨d, hd, hv hnan⟩
    · exact Decoder.sound_throw

theorem spells_of_decode {name : String} {bytes : List UInt8} {v : Value}
    (h : (ofSchema s maxDepth).decode name bytes = .ok v) (hnan : v.hasNaN = false) :
    Spells s maxDepth.toNat name v bytes := by
  obtain ⟨-, hreads⟩ := decode_eq_ok_iff.mp h
  obtain ⟨read, rest, hbytes, hlen, hspells⟩ := sound_read maxDepth.toNat name [] bytes v bytes.length hreads
  have hrest : rest = [] := by
    rw [List.nil_append] at hlen
    rw [hbytes, List.length_append] at hlen
    exact List.eq_nil_of_length_eq_zero (by omega)
  rw [hbytes, hrest, List.append_nil]
  exact hspells hnan

end Codec

end XdrSchema.Wire
