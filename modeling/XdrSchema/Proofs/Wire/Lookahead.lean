import XdrSchema.Proofs.Wire.RoundTrip
import XdrSchema.Proofs.Wire.Simulation
import XdrSchema.Proofs.Wire.Span

/-! The length check before a definition only hastens the end. A reader that does not look ahead returns
the same, and fails where the check does, though maybe with another fault. -/
namespace XdrSchema.Wire

open Schema (Definition)

/-! ### Reading without looking ahead -/

namespace Codec

/-- Reads a value of a named type without asking for its least size. -/
def readUnguarded (c : Codec) : Nat → String → Decoder Value
  | 0, _ => throw (.depth c.maxDepth)
  | levels + 1, name =>
    match c.schema.definition? name with
    | some d => Decoder.definition (c.readUnguarded levels) name d
    | none => throw (.notType name)

/-- The value of a named type at an offset of a buffer, and the offset after it. -/
def decodeFromUnguarded (c : Codec) (name : String) (buffer : List UInt8) (offset : Int) :
    Except DecodeError (Value × Int) :=
  if (c.schema.definition? name).isSome then
    ((c.readUnguarded c.maxDepth.toNat name).run buffer).run offset
  else throw (.notType name)

end Codec

/-- A fault of the data; the others are of the caller: an offset before the input, a name that is no
type. -/
def DecodeError.OfData : DecodeError → Prop
  | .beforeInput .. | .notType _ => False
  | _ => True

/-- A reading that does not look ahead: where the other one misses bytes, it may have another fault. -/
def lookahead : Simulation where
  At input p input' p' := input' = input ∧ p' = p ∧ 0 ≤ p ∧ p ≤ input.length
  Answers e o := ∃ e', o = some e' ∧ e'.OfData ∧ (e' = e ∨ ∃ n left, e = .endOfInput n left)
  of_none _ _ h := nomatch h.choose_spec.1

namespace Decoder

variable {α : Type} {x y : Decoder α}

theorem lookahead_of_inside (h : (Simulation.inside DecodeError.OfData).Follows x y) :
    lookahead.Follows x y := by
  intro input p input' p' hat
  obtain ⟨hreads, hfault⟩ := h input p input' p' hat
  refine ⟨hreads, fun e he => ?_⟩
  obtain ⟨hsame, hdata⟩ := hfault e he
  exact ⟨e, hsame, hdata, .inl rfl⟩

theorem inside_lawful : (Simulation.inside DecodeError.OfData).Lawful :=
  .of_peeks (Simulation.inside_peeks (fun _ _ => trivial) fun _ => trivial) (fun _ => ⟨rfl, trivial⟩)
    (fun _ => ⟨rfl, trivial⟩) (fun _ _ => ⟨rfl, trivial⟩)

theorem lookahead_lawful : lookahead.Lawful where
  word n := lookahead_of_inside (inside_lawful.word n)
  take n := lookahead_of_inside (inside_lawful.take n)
  skipPadding n := lookahead_of_inside (inside_lawful.skipPadding n)
  discriminant _ := ⟨_, rfl, trivial, .inl rfl⟩
  enumValue _ := ⟨_, rfl, trivial, .inl rfl⟩
  tooLong _ _ := ⟨_, rfl, trivial, .inl rfl⟩

/-- Where fewer bytes are left than the reader would take, it fails. -/
theorem exists_fault (hy : (Simulation.inside DecodeError.OfData).Follows y y) {n : Int}
    (hleast : Spans y fun _ i => n ≤ i) {input : List UInt8} {p : Int} (hp : 0 ≤ p)
    (hle : p ≤ input.length) (hshort : input.length - p < n) :
    ∃ e, (y.run input).run p = .error e ∧ e.OfData := by
  obtain ⟨hreads, hfault⟩ := hy input p _ _ ⟨rfl, rfl, hp, hle⟩
  cases hrun : (y.run input).run p with
  | error e => exact ⟨e, rfl, (hfault e hrun).2⟩
  | ok r =>
    obtain ⟨q, -, -, rfl, -, hstop⟩ := hreads r.1 r.2 hrun
    have htaken := hleast input p r.1 r.2 hrun
    omega

/-- Looking ahead for no more than the reader takes changes only the fault. -/
theorem lookahead_ensure (hxy : lookahead.Follows x y)
    (hy : (Simulation.inside DecodeError.OfData).Follows y y) {n : Int}
    (hleast : Spans y fun _ i => n ≤ i) : lookahead.Follows (ensure n >>= fun _ => x) y := by
  rintro _ _ input p ⟨rfl, rfl, hp, hle⟩
  unfold Reads
  rw [run_ensure_bind]
  split
  · exact hxy input p _ _ ⟨rfl, rfl, hp, hle⟩
  · next hshort =>
    refine ⟨nofun, fun e he => ?_⟩
    obtain ⟨e', he', hdata⟩ := exists_fault hy hleast hp hle (by omega)
    cases he
    exact ⟨e', fault?_eq_some_iff.mpr he', hdata, .inr ⟨_, _, rfl⟩⟩

end Decoder

namespace Codec

open Decoder

variable {s : Schema} {maxDepth : Int}

/-- What is mentioned is defined, so that no name is unknown. -/
theorem inside_readUnguarded (hs : s.WellFormed) (levels : Nat) {name : String}
    (hname : (s.definition? name).isSome) :
    (Simulation.inside DecodeError.OfData).Follows ((ofSchema s maxDepth).readUnguarded levels name)
      ((ofSchema s maxDepth).readUnguarded levels name) := by
  induction levels generalizing name with
  | zero => exact Simulation.follows_throw ⟨rfl, trivial⟩
  | succ levels ih =>
    obtain ⟨d, hd⟩ := Option.isSome_iff_exists.mp hname
    rw [readUnguarded, show (ofSchema s maxDepth).schema.definition? name = some d from hd]
    exact inside_lawful.definition (fun t ht r hr => ih ((hs.resolved name d hd t ht).isSome_target hr)) name

theorem spans_readUnguarded (hs : s.WellFormed) (levels : Nat) (name : String) :
    Spans ((ofSchema s maxDepth).readUnguarded levels name) fun _ i =>
      ((SizeTable.ofSchema s).get name).Admits i := by
  induction levels generalizing name with
  | zero => exact spans_throw
  | succ levels ih =>
    rw [readUnguarded]
    split
    · next d hd =>
      rw [SizeTable.get_ofSchema hs hd]
      exact spans_definition (SizeTable.proper_ofSchema hs) ih name d
    · exact spans_throw

theorem least_readUnguarded (hs : s.WellFormed) (levels : Nat) (name : String) :
    Spans ((ofSchema s maxDepth).readUnguarded levels name) fun _ i =>
      ((SizeTable.ofSchema s).get name).min ≤ i :=
  fun input p v q hv => (spans_readUnguarded hs levels name input p v q hv).least

variable (maxDepth) in
theorem lookahead_read (hs : s.WellFormed) (levels : Nat) {name : String}
    (hname : (s.definition? name).isSome) :
    lookahead.Follows ((ofSchema s maxDepth).read levels name)
      ((ofSchema s maxDepth).readUnguarded levels name) := by
  induction levels generalizing name with
  | zero =>
    refine lookahead_ensure ?_ (inside_readUnguarded hs 0 hname) (least_readUnguarded hs 0 name)
    exact Simulation.follows_throw ⟨_, rfl, trivial, .inl rfl⟩
  | succ levels ih =>
    refine lookahead_ensure ?_ (inside_readUnguarded hs (levels + 1) hname)
      (least_readUnguarded hs (levels + 1) name)
    obtain ⟨d, hd⟩ := Option.isSome_iff_exists.mp hname
    rw [readUnguarded, show (ofSchema s maxDepth).schema.definition? name = some d from hd]
    exact lookahead_lawful.definition (fun t ht r hr => ih ((hs.resolved name d hd t ht).isSome_target hr)) name

variable {name : String} {buffer : List UInt8} {offset : Int}

variable (maxDepth) in
/-- Without the look ahead the same values come out, and a fault is a fault of the data. -/
theorem decodeFromUnguarded_follows (hs : s.WellFormed) (hname : (s.definition? name).isSome)
    (hoffset : 0 ≤ offset) (hle : offset ≤ buffer.length) :
    (∀ r, (ofSchema s maxDepth).decodeFrom name buffer offset = .ok r →
        (ofSchema s maxDepth).decodeFromUnguarded name buffer offset = .ok r) ∧
      ∀ e, (ofSchema s maxDepth).decodeFrom name buffer offset = .error e →
        ∃ e', (ofSchema s maxDepth).decodeFromUnguarded name buffer offset = .error e' ∧
          e'.OfData ∧ (e' = e ∨ ∃ n left, e = .endOfInput n left) := by
  have hguarded : (ofSchema s maxDepth).decodeFrom name buffer offset = _ := if_pos hname
  have hunguarded : (ofSchema s maxDepth).decodeFromUnguarded name buffer offset = _ := if_pos hname
  rw [hguarded, hunguarded]
  obtain ⟨hreads, hfault⟩ := lookahead_read maxDepth hs maxDepth.toNat hname buffer offset
    buffer offset ⟨rfl, rfl, hoffset, hle⟩
  constructor
  · rintro ⟨v, stop⟩ hv
    obtain ⟨q, hq, -, rfl, -⟩ := hreads v stop hv
    exact hq
  · intro e he
    obtain ⟨e', he', hrest⟩ := hfault e he
    exact ⟨e', fault?_eq_some_iff.mp he', hrest⟩

/-- To ask for the least size of a definition before reading it is only a short cut: the same is returned
without it, a fault stays a fault of the data, and where it would miss bytes the reading fails anyway. -/
theorem decodeFrom_eq_ok_iff_unguarded {source : String}
    (h : (Schema.analyzeText source).result = .ok s) (maxDepth : Int)
    (hname : (s.definition? name).isSome) (hoffset : 0 ≤ offset) (hle : offset ≤ buffer.length) :
    (∀ v stop, (ofSchema s maxDepth).decodeFrom name buffer offset = .ok (v, stop) ↔
        (ofSchema s maxDepth).decodeFromUnguarded name buffer offset = .ok (v, stop)) ∧
      (∀ e, (ofSchema s maxDepth).decodeFrom name buffer offset = .error e →
        ∃ e', (ofSchema s maxDepth).decodeFromUnguarded name buffer offset = .error e' ∧
          e'.OfData ∧ (e' = e ∨ ∃ n left, e = .endOfInput n left)) ∧
      ∀ levels inner (place : Int), (s.definition? inner).isSome → 0 ≤ place →
        place ≤ buffer.length → buffer.length - place < ((SizeTable.ofSchema s).get inner).min →
        ∃ e, (((ofSchema s maxDepth).readUnguarded levels inner).run buffer).run place = .error e ∧
          e.OfData := by
  have hs := Schema.wellFormed_of_analyzeText h
  obtain ⟨hvalue, hfault⟩ := decodeFromUnguarded_follows maxDepth hs hname hoffset hle
  refine ⟨fun v stop => ⟨hvalue _, fun hunguarded => ?_⟩, hfault,
    fun levels inner place hinner hplace hinside hshort => ?_⟩
  · cases hguarded : (ofSchema s maxDepth).decodeFrom name buffer offset with
    | ok r => exact (hvalue r hguarded).symm.trans hunguarded
    | error e =>
      obtain ⟨e', he', -⟩ := hfault e hguarded
      rw [hunguarded] at he'
      cases he'
  · exact exists_fault (inside_readUnguarded hs levels hinner) (least_readUnguarded hs levels inner)
      hplace hinside hshort

/-- The sample bytes are read as before. Half a union fails too, although a whole word is there. -/
theorem decodeFrom_eq_ok_iff_unguarded_sample :
    (ofSchema Schema.sampleSchema 4).decodeFromUnguarded "L" sampleBytes 0 =
        .ok (sampleValue, sampleBytes.length) ∧
      ∃ e, (((ofSchema Schema.sampleSchema 4).readUnguarded 4 "U").run sampleBytes).run
        (sampleBytes.length - 4) = .error e ∧ e.OfData := by
  have hname : (Schema.sampleSchema.definition? "L").isSome := by decide +kernel
  have hinside : (0 : Int) ≤ sampleBytes.length := Int.natCast_nonneg _
  obtain ⟨hvalue, -, hshort⟩ := decodeFrom_eq_ok_iff_unguarded Schema.analyzeText_sampleText 4 hname
    (Int.le_refl 0) hinside
  refine ⟨(hvalue _ _).mp (decodeFrom_of_decode decode_sampleBytes), ?_⟩
  exact hshort 4 "U" _ (by decide +kernel) (by decide +kernel) (by decide +kernel) (by decide +kernel)

end Codec

end XdrSchema.Wire
