import XdrSchema.Proofs.Schema.Resolve
import XdrSchema.Proofs.Wire.Refusal
import XdrSchema.Proofs.Wire.RoundTrip
import XdrSchema.Proofs.Wire.Simulation
import XdrSchema.Proofs.Wire.Sizing

/-! How reading and writing may fail. A reading of a type of a resolved schema fails for what it finds in
the data, wherever it begins; a value is refused for what it is. No name is met that the schema does not
define, and every size is known. The numbers in a message are those that were handed in, least sizes of types,
or small ones. Main statement: `fails_as_documented`. -/
namespace XdrSchema.Wire

open Schema (Ref Ty Definition Arm Union)

/-! ### Reading -/

/-- A fault that the data itself can have. Bytes after a whole value are no fault of the value. -/
def DecodeError.Documented (maxDepth : Int) : DecodeError → Prop
  | endOfInput needed available => available < needed
  | depth limit => limit = maxDepth
  | discriminant _ | enumValue _ | tooLong .. | padding _ => True
  | trailing _ | beforeInput .. | notType _ => False

/-- The least sizes of the types. -/
def leastSizes (s : Schema) : List Int := s.typeNames.map fun name => ((SizeTable.ofSchema s).get name).min

/-- A documented fault, whose numbers are at most so great or least sizes of types. -/
structure DecodeError.Bounded (s : Schema) (maxDepth : Int) (limit : Nat) (e : DecodeError) : Prop where
  documented : e.Documented maxDepth
  numbers : ∀ n ∈ e.numbers, n.natAbs ≤ limit ∨ n ∈ leastSizes s

namespace Decoder

/-- From a place up to the limit, in an input no longer than that, what is read has the property and is followed by
such a place, or the fault is bounded. -/
def Keeps {α : Type} (s : Schema) (maxDepth : Int) (limit : Nat) (x : Decoder α) (P : α → Prop) : Prop :=
  ∀ (input : List UInt8) (p : Int), input.length ≤ limit → 0 ≤ p → p ≤ limit →
    (∀ a q, Reads x input p a q → P a ∧ 0 ≤ q ∧ q ≤ limit) ∧
      FailsWith (DecodeError.Bounded s maxDepth limit) ((x.run input).run p)

section Keeps

variable {α β : Type} {s : Schema} {maxDepth : Int} {limit : Nat} {x : Decoder α} {P Q : α → Prop}

theorem keeps_pure {a : α} (h : P a) : Keeps s maxDepth limit (pure a) P := by
  intro input p _ hp hle
  refine ⟨fun b q hb => ?_, failsWith_ok _⟩
  obtain ⟨rfl, rfl⟩ := reads_pure.mp hb
  exact ⟨h, hp, hle⟩

theorem keeps_throw {e : DecodeError} (h : e.Bounded s maxDepth limit) :
    Keeps s maxDepth limit (throw e : Decoder α) P :=
  fun _ _ _ _ _ => ⟨fun _ _ ha => absurd ha not_reads_throw, failsWith_error h⟩

theorem Keeps.imp (h : Keeps s maxDepth limit x P) (himp : ∀ a, P a → Q a) : Keeps s maxDepth limit x Q := by
  intro input p hinput hp hle
  obtain ⟨hreads, hfails⟩ := h input p hinput hp hle
  exact ⟨fun a q ha => (hreads a q ha).imp_left (himp a), hfails⟩

theorem Keeps.bind {f : α → Decoder β} {R : β → Prop} (hx : Keeps s maxDepth limit x P)
    (hf : ∀ a, P a → Keeps s maxDepth limit (f a) R) : Keeps s maxDepth limit (x >>= f) R := by
  intro input p hinput hp hle
  obtain ⟨hreads, hfails⟩ := hx input p hinput hp hle
  constructor
  · intro b r hb
    obtain ⟨a, q, ha, hb⟩ := reads_bind.mp hb
    obtain ⟨hP, hq, hqle⟩ := hreads a q ha
    exact (hf a hP input q hinput hq hqle).1 b r hb
  · rw [run_bind]
    refine hfails.bind fun ⟨a, q⟩ ha => ?_
    obtain ⟨hP, hq, hqle⟩ := hreads a q ha
    exact (hf a hP input q hinput hq hqle).2

theorem keeps_ensure {n : Int} (hn : n.natAbs ≤ limit ∨ n ∈ leastSizes s) :
    Keeps s maxDepth limit (ensure n) fun _ => True := by
  intro input p hinput hp hle
  constructor
  · intro a q ha
    obtain ⟨-, rfl⟩ := reads_ensure.mp ha
    exact ⟨trivial, hp, hle⟩
  · rw [run_ensure]
    split
    · exact failsWith_ok _
    · next hshort =>
      refine failsWith_error ⟨not_le.mp hshort, ?_⟩
      rw [DecodeError.numbers, List.forall_mem_cons, List.forall_mem_singleton]
      exact ⟨hn, .inl (by omega)⟩

theorem keeps_of_peeks {n : Nat} {make : List UInt8 → Option α} (hx : Peeks x n make) (hn : n ≤ limit) :
    Keeps s maxDepth limit x fun a =>
      ∃ bytes : List UInt8, bytes.length = n ∧ make bytes = some a := by
  intro input p hinput hp hle
  constructor
  · intro a q ha
    obtain ⟨henough, rfl⟩ := hx.stop hp ha
    refine ⟨⟨slice input p (p + n), ?_, ?_⟩, by omega, by omega⟩
    · rw [slice_of_nonneg hp, List.length_take, List.length_drop]
      omega
    · rw [Reads, hx input p hp, if_pos henough] at ha
      split at ha <;> cases ha
      assumption
  · rw [hx input p hp]
    split
    · split
      · exact failsWith_ok _
      · refine failsWith_error ⟨trivial, ?_⟩
        rw [DecodeError.numbers, List.forall_mem_singleton]
        exact .inl (by omega)
    · next hshort =>
      refine failsWith_error ⟨not_le.mp hshort, ?_⟩
      rw [DecodeError.numbers, List.forall_mem_cons, List.forall_mem_singleton]
      exact ⟨.inl (by omega), .inl (by omega)⟩

theorem keeps_times (h : Keeps s maxDepth limit x fun _ => True) (n : Nat) :
    Keeps s maxDepth limit (times x n) fun _ => True := by
  induction n with
  | zero => exact keeps_pure trivial
  | succ n ih => exact h.bind fun _ _ => ih.bind fun _ _ => keeps_pure trivial

variable (hlimit : maxLength ≤ limit)

include hlimit

theorem keeps_word {n : Nat} (hn : n ≤ 8) :
    Keeps s maxDepth limit (word n) fun w => w < wordCount n := by
  have hfits : n ≤ limit := by
    unfold maxLength at hlimit
    omega
  refine (keeps_of_peeks (peeks_word n) hfits).imp ?_
  rintro _ ⟨bytes, rfl, ⟨⟩⟩
  exact wordOf_lt bytes

theorem keeps_data {n : Nat} (hn : n ≤ limit) :
    Keeps s maxDepth limit (data n) fun _ => True := by
  have hpadding : padding n ≤ limit := by
    unfold maxLength at hlimit
    unfold padding
    omega
  exact (keeps_of_peeks (peeks_take n) hn).bind fun _ _ =>
    (keeps_of_peeks (peeks_skipPadding n) hpadding).bind fun _ _ => keeps_pure trivial

theorem keeps_length {bound : Option Nat} (hbound : ∀ n ∈ bound, n ≤ maxLength) :
    Keeps s maxDepth limit (length bound) fun n => n ≤ limit := by
  refine (keeps_word hlimit (by decide)).bind fun n hn => ?_
  have hn : n ≤ maxLength := Nat.le_of_lt_succ hn
  have hn := hn.trans hlimit
  have hfault : (DecodeError.tooLong (bound.getD maxLength) n).Bounded s maxDepth limit := by
    refine ⟨trivial, ?_⟩
    rw [DecodeError.numbers, List.forall_mem_cons, List.forall_mem_singleton]
    exact ⟨.inl ((getD_maxLength_le hbound).trans hlimit), .inl hn⟩
  dsimp only
  split
  · exact (keeps_throw (P := fun _ => True) hfault).bind fun _ _ => keeps_pure hn
  · exact keeps_pure hn

/-- A word with a value that is not allowed. -/
theorem keeps_throw_word {e : DecodeError} {n : Int} (he : e.numbers = [n]) (hdocumented : e.Documented maxDepth)
    (hn : n.natAbs < wordCount 4) : Keeps s maxDepth limit (throw e : Decoder α) P := by
  refine keeps_throw ⟨hdocumented, ?_⟩
  have hn : n.natAbs ≤ maxLength := Nat.le_of_lt_succ hn
  rw [he, List.forall_mem_singleton]
  exact .inl (hn.trans hlimit)

theorem keeps_primitive (p : Primitive) :
    Keeps s maxDepth limit (primitive p) fun _ => True := by
  cases p with
  | bool =>
    refine (keeps_word hlimit (by decide)).bind fun n hn => ?_
    split
    · exact keeps_pure trivial
    · split
      · exact keeps_pure trivial
      · exact keeps_throw_word hlimit rfl trivial hn
  | _ => exact (keeps_word hlimit (by decide)).bind fun _ _ => keeps_pure trivial

variable {visit : String → Decoder Value}

theorem keeps_base {b : Base Ref}
    (hvisit : ∀ r, b = .named r → Keeps s maxDepth limit (visit r.name) fun _ => True) :
    Keeps s maxDepth limit (base visit b) fun _ => True := by
  cases b with
  | primitive p => exact keeps_primitive hlimit p
  | named r => exact hvisit r rfl

theorem keeps_type {t : Ty} (hbound : ∀ n ∈ t.bound?, n ≤ maxLength)
    (hvisit : ∀ r, t.target? = some r →
      Keeps s maxDepth limit (visit r.name) fun _ => True) :
    Keeps s maxDepth limit (type visit t) fun _ => True := by
  cases t with
  | plain b => exact keeps_base hlimit fun r hr => hvisit r (hr ▸ rfl)
  | array b n =>
    have hb := keeps_base hlimit (b := b) fun r hr => hvisit r (hr ▸ rfl)
    exact (keeps_times hb n).bind fun _ _ => keeps_pure trivial
  | vector b n =>
    have hb := keeps_base hlimit (b := b) fun r hr => hvisit r (hr ▸ rfl)
    exact (keeps_length hlimit hbound).bind fun count _ =>
      (keeps_times hb count).bind fun _ _ => keeps_pure trivial
  | optional b =>
    refine (keeps_word hlimit (by decide)).bind fun flag hflag => ?_
    split
    · exact keeps_pure trivial
    · split
      · exact keeps_base hlimit fun r hr => hvisit r (hr ▸ rfl)
      · exact keeps_throw_word hlimit rfl trivial hflag
  | fixedBytes n => exact keeps_data hlimit ((hbound n rfl).trans hlimit)
  | bytes n | string n => exact (keeps_length hlimit hbound).bind fun _ hcount => keeps_data hlimit hcount

theorem keeps_fields {fs : List Schema.Field}
    (hbound : ∀ f ∈ fs, ∀ n ∈ f.type.bound?, n ≤ maxLength)
    (hvisit : ∀ f ∈ fs, ∀ r, f.type.target? = some r →
      Keeps s maxDepth limit (visit r.name) fun _ => True) :
    Keeps s maxDepth limit (fields visit fs) fun _ => True := by
  induction fs with
  | nil => exact keeps_pure trivial
  | cons f fs ih =>
    rw [List.forall_mem_cons] at hbound hvisit
    exact (keeps_type hlimit hbound.1 hvisit.1).bind fun _ _ =>
      (ih hbound.2 hvisit.2).bind fun _ _ => keeps_pure trivial

theorem keeps_definition {d : Definition} (hbound : ∀ t ∈ d.members, ∀ n ∈ t.bound?, n ≤ maxLength)
    (hvisit : ∀ t ∈ d.members, ∀ r, t.target? = some r →
      Keeps s maxDepth limit (visit r.name) fun _ => True) (name : String) :
    Keeps s maxDepth limit (definition visit name d) fun _ => True := by
  have hsigned {w : Nat} (hw : w < wordCount 4) : (signed 4 w).natAbs < wordCount 4 := by
    have hrange := signed_range (by decide) hw
    have hhalf : wordCount 4 / 2 < wordCount 4 := by decide
    omega
  cases d with
  | typedef t =>
    exact (keeps_type hlimit (hbound t List.mem_cons_self) (hvisit t List.mem_cons_self)).bind
      fun _ _ => keeps_pure trivial
  | struct fs =>
    have hmember {f : Schema.Field} (hf : f ∈ fs) : f.type ∈ (Definition.struct fs).members := List.mem_map_of_mem hf
    exact (keeps_fields hlimit (fun f hf => hbound f.type (hmember hf)) fun f hf => hvisit f.type (hmember hf)).bind
      fun _ _ => keeps_pure trivial
  | enum labels =>
    refine (keeps_word hlimit (by decide)).bind fun w hw => ?_
    dsimp only
    split
    · exact keeps_pure trivial
    · exact keeps_throw_word hlimit rfl trivial (hsigned hw)
  | union u =>
    have hdiscriminant : Keeps s maxDepth limit (discriminant u)
        fun n => n.natAbs < wordCount 4 := by
      refine (keeps_word hlimit (by decide)).bind fun w hw => keeps_pure ?_
      split
      · exact hw
      · exact hsigned hw
    refine hdiscriminant.bind fun n hn => ?_
    split
    · next a harm =>
      have hpayload : Keeps s maxDepth limit (payload visit a) fun _ => True := by
        unfold payload
        cases hfield : a.field with
        | none => exact keeps_pure trivial
        | some f =>
          have hmember := Schema.Union.type_mem_members (mem_allArms_of_armFor? harm) hfield
          exact keeps_type hlimit (hbound f.type hmember) (hvisit f.type hmember)
      exact hpayload.bind fun _ _ => keeps_pure trivial
    · exact keeps_throw_word hlimit rfl trivial hn

end Keeps

end Decoder

namespace Codec

variable {s : Schema} (maxDepth : Int) {limit : Nat}

/-- What is mentioned is defined, so that no name is unknown at any depth. -/
theorem keeps_read (hs : s.WellFormed) (hlimit : maxLength ≤ limit) (hdepth : maxDepth.natAbs ≤ limit) (levels : Nat)
    {name : String} (hname : (s.definition? name).isSome) :
    Decoder.Keeps s maxDepth limit ((ofSchema s maxDepth).read levels name)
      fun _ => True := by
  have hleast {name : String} (hname : (s.definition? name).isSome) :
      ((SizeTable.ofSchema s).get name).min ∈ leastSizes s :=
    List.mem_map_of_mem (f := fun name => ((SizeTable.ofSchema s).get name).min) (lookup_isSome_iff_mem.mp hname)
  induction levels generalizing name with
  | zero =>
    refine (Decoder.keeps_ensure (.inr (hleast hname))).bind fun _ _ => Decoder.keeps_throw ⟨rfl, ?_⟩
    rw [DecodeError.numbers, List.forall_mem_singleton]
    exact .inl hdepth
  | succ levels ih =>
    refine (Decoder.keeps_ensure (.inr (hleast hname))).bind fun _ _ => ?_
    obtain ⟨d, hd⟩ := Option.isSome_iff_exists.mp hname
    have hresolved := hs.resolved name d hd
    rw [show (ofSchema s maxDepth).schema.definition? name = some d from hd]
    exact Decoder.keeps_definition hlimit (fun t ht => (hresolved t ht).bound)
      (fun t ht r hr => ih ((hresolved t ht).isSome_target hr)) name

variable {name : String}

/-- How great the numbers can get that a failure shows, but for the sizes of types. -/
def reach (offset : Int) (buffer : List UInt8) : Nat :=
  max maxLength (max maxDepth.natAbs (max offset.natAbs buffer.length))

theorem overlong?_of_bounded {offset : Int} {buffer : List UInt8} {e : DecodeError}
    (he : e.Bounded s maxDepth (reach maxDepth offset buffer))
    (h : Number.unwritable? ([maxDepth, offset, (buffer.length : Int)] ++ leastSizes s) = none) :
    e.overlong? = none := by
  have hlength : Number.isWritable maxLength = true := Number.isWritable_of_natAbs_lt (by decide)
  simp only [Number.unwritable?_eq_none_iff, List.cons_append, List.nil_append, List.forall_mem_cons] at h
  obtain ⟨hdepth, hoffset, hbuffer, hsizes⟩ := h
  have hreach : Number.isWritable (reach maxDepth offset buffer) = true := by
    simp only [Number.isWritable, decide_eq_true_eq, Int.natAbs_natCast] at *
    exact max_lt hlength (max_lt hdepth (max_lt hoffset hbuffer))
  refine Number.unwritable?_eq_none_iff.mpr fun n hn => ?_
  rcases he.numbers n hn with hle | hsize
  · exact Number.isWritable_of_natAbs_le hreach hle
  · exact hsizes n hsize

theorem bounded_decodeFrom (hs : s.WellFormed) (hname : (s.definition? name).isSome) (buffer : List UInt8)
    {offset : Int} (hoffset : 0 ≤ offset) :
    (∀ v stop, (ofSchema s maxDepth).decodeFrom name buffer offset = .ok (v, stop) → 0 ≤ stop) ∧
      FailsWith (DecodeError.Bounded s maxDepth (reach maxDepth offset buffer))
        ((ofSchema s maxDepth).decodeFrom name buffer offset) := by
  have hread : (ofSchema s maxDepth).decodeFrom name buffer offset = _ := if_pos hname
  rw [hread]
  have hlimit : maxLength ≤ reach maxDepth offset buffer := le_max_left _ _
  have hplaces : max maxDepth.natAbs (max offset.natAbs buffer.length) ≤ reach maxDepth offset buffer :=
    le_max_right _ _
  rw [max_le_iff, max_le_iff] at hplaces
  obtain ⟨hdepth, hstart, hbuffer⟩ := hplaces
  obtain ⟨hreads, hfails⟩ :=
    keeps_read maxDepth hs hlimit hdepth maxDepth.toNat hname buffer offset hbuffer hoffset (by omega)
  exact ⟨fun v stop hv => (hreads v stop hv).2.1, hfails⟩

theorem failsWith_decodeFrom (hs : s.WellFormed) (hname : (s.definition? name).isSome)
    (buffer : List UInt8) {offset : Int} (hoffset : 0 ≤ offset) :
    FailsWith (DecodeError.Documented maxDepth)
      ((ofSchema s maxDepth).decodeFrom name buffer offset) :=
  (bounded_decodeFrom maxDepth hs hname buffer hoffset).2.imp fun _ h => h.documented

/-- A whole buffer can also go on after the value. -/
theorem bounded_decode (hs : s.WellFormed) (hname : (s.definition? name).isSome) (buffer : List UInt8) :
    FailsWith (fun e => e.Bounded s maxDepth (reach maxDepth 0 buffer) ∨
        ∃ n : Int, 0 < n ∧ n ≤ buffer.length ∧ e = .trailing n)
      ((ofSchema s maxDepth).decode name buffer) := by
  obtain ⟨hstops, hfails⟩ := bounded_decodeFrom maxDepth hs hname buffer (Int.le_refl 0)
  refine FailsWith.bind (fun e he => .inl (hfails e he)) fun ⟨v, stop⟩ hstop => ?_
  dsimp only
  split
  · exact failsWith_ok v
  · next hshort =>
    have hinside := stop_le_of_decodeFrom (Int.le_refl 0) (Int.natCast_nonneg _) hstop
    have honward := hstops v stop hstop
    exact failsWith_error (.inr ⟨_, by omega, by omega, rfl⟩)

end Codec

/-! ### Both -/

namespace Codec

variable {s : Schema} {name : String}

/-- A reading or a writing comes to an end, and fails only for what is in the data or in the value. The failure is
raised with its message, unless a number that was handed in has too many digits, or the least size of a type;
behind both, every question for the size of a type is answered. -/
theorem fails_as_documented {source : String} (h : (Schema.analyzeText source).result = .ok s)
    (maxDepth : Int) (hname : (s.definition? name).isSome) :
    (∀ (buffer : List UInt8) (offset : Int), 0 ≤ offset →
        FailsWith (fun e => e.Documented maxDepth ∧
            (Number.unwritable? ([maxDepth, offset, buffer.length] ++ leastSizes s) = none → e.overlong? = none))
          ((ofSchema s maxDepth).decodeFrom name buffer offset)) ∧
      (∀ buffer : List UInt8,
        FailsWith (fun e => (e.Documented maxDepth ∨ ∃ n, 0 < n ∧ e = .trailing n) ∧
            (Number.unwritable? ([maxDepth, 0, buffer.length] ++ leastSizes s) = none → e.overlong? = none))
          ((ofSchema s maxDepth).decode name buffer)) ∧
      (∀ v, FailsWith (fun e => e.Documented s ∧ (Number.unwritable? v.measures = none → e.overlong? = none))
          ((ofSchema s maxDepth).encode name v)) ∧
      ∀ names : List String, (∀ n ∈ names, (s.definition? n).isSome) →
        ∀ answer ∈ Sizing.answers s names Sizing.empty, ∃ size, answer = .ok size := by
  have hs := Schema.wellFormed_of_analyzeText h
  refine ⟨fun buffer offset hoffset e he => ?_, fun buffer e he => ?_, fun v e he => ?_,
    fun names hnames answer hanswer => ?_⟩
  · have hfault := (bounded_decodeFrom maxDepth hs hname buffer hoffset).2 e he
    exact ⟨hfault.documented, overlong?_of_bounded maxDepth hfault⟩
  · rcases bounded_decode maxDepth hs hname buffer e he with hfault | ⟨n, hpos, hle, rfl⟩
    · exact ⟨.inl hfault.documented, overlong?_of_bounded maxDepth hfault⟩
    · refine ⟨.inr ⟨n, hpos, rfl⟩, fun hnumbers => Number.unwritable?_eq_none_iff.mpr ?_⟩
      rw [DecodeError.numbers, List.forall_mem_singleton]
      have hbuffer := Number.unwritable?_eq_none_iff.mp hnumbers buffer.length (by simp)
      exact Number.isWritable_of_natAbs_le hbuffer (by omega)
  · have hrefused := Encode.refusedValue_named hs (sizeOf v) (r := ⟨name, .typedef⟩) (Nat.le_refl _) hname e he
    exact ⟨hrefused.refused.documented, hrefused.shows.overlong?_eq_none⟩
  · rw [Sizing.answers_eq hs names (Sizing.exact_empty s)] at hanswer
    obtain ⟨n, hn, rfl⟩ := List.mem_map.mp hanswer
    obtain ⟨d, hd⟩ := Option.isSome_iff_exists.mp (hnames n hn)
    exact ⟨_, by rw [Sizing.declared, Sizing.definition_eq_ok hs hd]; rfl⟩

/-- Beyond its end nothing is read of the sample bytes, and a list is no value of the sample union. -/
theorem fails_as_documented_sample :
    (∀ e, (ofSchema Schema.sampleSchema 4).decodeFrom "U" sampleBytes 100 = .error e →
        e.Documented 4) ∧
      ((ofSchema Schema.sampleSchema 4).decodeFrom "U" sampleBytes 100).isOk = false ∧
      ∀ e, (ofSchema Schema.sampleSchema 4).encode "U" (.list []) = .error e →
        e.Documented Schema.sampleSchema ∧ e.overlong? = none := by
  have hname : (Schema.sampleSchema.definition? "U").isSome := by decide +kernel
  obtain ⟨hfrom, -, hencode, -⟩ := fails_as_documented Schema.analyzeText_sampleText 4 hname
  refine ⟨fun e he => (hfrom sampleBytes 100 (by decide) e he).1, by decide +kernel, fun e he => ?_⟩
  obtain ⟨hdocumented, hraised⟩ := hencode (.list []) e he
  exact ⟨hdocumented, hraised (by decide +kernel)⟩

/-! ### A number in a refusal -/

def intText : String := "typedef int T;"

def intSchema : Schema := Schema.withTypes intText [("T", .typedef (.plain (.primitive .int)))]

/-- An alias of a number. -/
def intValue (n : Int) : Value := Value.typedef "T" (.int n)

/-- A number that no word can hold is refused, but where it has too many digits no message can say so. -/
theorem encode_eq_overlong : (Schema.analyzeText intText).result = .ok intSchema ∧
    ∃ e, (ofSchema intSchema 128).encode "T" (intValue Number.writeLimit) = .error e ∧
      e.overlong? = some .writing := by
  have hschema : (Schema.analyzeText intText).result = .ok intSchema :=
    Schema.analyzeText_eq_ok (by decide +kernel)
  have hT : intSchema.definition? "T" = some (.typedef (.plain (.primitive .int))) := rfl
  have hlarge := Number.le_writeLimit
  have hnumber := Number.isWritable_writeLimit
  generalize Number.writeLimit = n at hlarge hnumber
  have hrefused : Encode.signedWord 4 (.int n) = .error (.doesNotFit (.int n)) := by
    have hhalf : wordCount 4 / 2 = 2 ^ 31 := by decide
    unfold Encode.signedWord Encode.integer
    dsimp only [Value.int?]
    rw [if_neg (by simp; omega)]
    rfl
  refine ⟨hschema, .doesNotFit (.int n), ?_, ?_⟩
  · have hencode : (ofSchema intSchema 128).encode "T" (intValue n) = Encode.signedWord 4 (.int n) := by
      unfold Codec.encode
      change Encode.named intSchema "T" (intValue n) = _
      rw [intValue, Encode.named, hT]
      dsimp only
      rw [if_pos rfl, Encode.type, Encode.base]
      rfl
    rw [hencode, hrefused]
  · simp [EncodeError.overlong?, EncodeError.numbers, Value.numbers, Number.unwritable?, hnumber]

end Codec

end XdrSchema.Wire
