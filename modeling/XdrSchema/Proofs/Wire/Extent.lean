import XdrSchema.Proofs.Wire.Complete
import XdrSchema.Proofs.Wire.Faults
import XdrSchema.Proofs.Wire.Pieces
import XdrSchema.Proofs.Wire.Span

/-! Where a value comes from. From an offset that is not before the input, it is made of the pieces up to
the offset after it; what the pieces make is read from them wherever they stand, and its data is cut out
of them. -/
namespace XdrSchema.Wire

open Schema (Ref Ty Definition Union)
open Piece

/-! ### Data in a value -/

namespace Value

mutual

/-- The data of opaque and string items of a value, in order. -/
def contents : Value → List (List UInt8)
  | bytes data => [data]
  | list items | tuple items => contentsAll items
  | enum _ _ v | typedef _ v => contents v
  | struct _ fields => contentsFields fields
  | union _ _ d v => contents d ++ contents v
  | absent | bool _ | int _ | float _ | text _ => []

def contentsAll : List Value → List (List UInt8)
  | [] => []
  | v :: rest => contents v ++ contentsAll rest

def contentsFields : List (String × Value) → List (List UInt8)
  | [] => []
  | (_, v) :: rest => contents v ++ contentsFields rest

end

end Value

/-- Stretches of the bytes, one after another with gaps between them. -/
inductive CutOut : List (List UInt8) → List UInt8 → Prop
  | rest (gap : List UInt8) : CutOut [] gap
  | next (gap : List UInt8) {data : List UInt8} {views : List (List UInt8)} {bytes : List UInt8}
      (h : CutOut views bytes) : CutOut (data :: views) (gap ++ (data ++ bytes))

namespace CutOut

variable {views more : List (List UInt8)} {bytes : List UInt8}

theorem after (gap : List UInt8) (h : CutOut views bytes) : CutOut views (gap ++ bytes) := by
  cases h with
  | rest => exact .rest _
  | next inner h =>
    rw [← List.append_assoc]
    exact .next (gap ++ inner) h

theorem append (h : CutOut views bytes) {bytes' : List UInt8} (h' : CutOut more bytes') :
    CutOut (views ++ more) (bytes ++ bytes') := by
  induction h with
  | rest gap => exact h'.after gap
  | next gap _ ih =>
    rw [List.append_assoc, List.append_assoc]
    exact .next gap ih

theorem single (gap data rest : List UInt8) : CutOut [data] (gap ++ (data ++ rest)) :=
  .next gap (.rest rest)

end CutOut

theorem cutOut_of_makesPrimitive {p : Primitive} {v : Value} {ps : List Piece}
    (h : MakesPrimitive p v ps) : CutOut v.contents (joined ps) := by
  cases h <;> exact .rest _

section Types

variable {visit : String → Value → List Piece → Prop}
  (hvisit : ∀ name v ps, visit name v ps → CutOut v.contents (joined ps))

include hvisit

theorem cutOut_of_makesBase {b : Base Ref} {v : Value} {ps : List Piece}
    (h : MakesBase visit b v ps) : CutOut v.contents (joined ps) := by
  cases b with
  | primitive p => exact cutOut_of_makesPrimitive h
  | named r => exact hvisit r.name v ps h

theorem cutOut_of_makesItems {b : Base Ref} {vs : List Value} {ps : List Piece}
    (h : MakesItems (MakesBase visit b) vs ps) : CutOut (Value.contentsAll vs) (joined ps) := by
  induction h with
  | nil => exact .rest _
  | cons first _ ih =>
    rw [joined_append]
    exact (cutOut_of_makesBase hvisit first).append ih

theorem cutOut_of_makesType {t : Ty} {v : Value} {ps : List Piece} (h : MakesType visit t v ps) :
    CutOut v.contents (joined ps) := by
  cases h with
  | plain h => exact cutOut_of_makesBase hvisit h
  | array _ h => exact cutOut_of_makesItems hvisit h
  | vector _ h => exact (cutOut_of_makesItems hvisit h).after _
  | absent => exact .rest _
  | present h => exact (cutOut_of_makesBase hvisit h).after _
  | fixedBytes =>
    rw [joined_cons, joined_nil, List.append_nil]
    exact .single [] _ _
  | bytes | string =>
    rw [joined_cons, joined_cons, joined_nil, List.append_nil]
    exact .single _ _ _

theorem cutOut_of_makesFields {fs : List Schema.Field} {vs : List (String × Value)} {ps : List Piece}
    (h : MakesFields visit fs vs ps) : CutOut (Value.contentsFields vs) (joined ps) := by
  induction h with
  | nil => exact .rest _
  | cons first _ ih =>
    rw [joined_append]
    exact (cutOut_of_makesType hvisit first).append ih

theorem cutOut_of_makesPayload {field : Option Schema.Field} {v : Value} {ps : List Piece}
    (h : MakesPayload visit field v ps) : CutOut v.contents (joined ps) := by
  cases h with
  | void => exact .rest _
  | field h => exact cutOut_of_makesType hvisit h

theorem cutOut_of_makesDefinition {name : String} {d : Definition} {v : Value} {ps : List Piece}
    (h : MakesDefinition visit name d v ps) : CutOut v.contents (joined ps) := by
  cases h with
  | typedef h =>
    rw [Value.contents]
    exact cutOut_of_makesType hvisit h
  | struct h => exact cutOut_of_makesFields hvisit h
  | enum => exact .rest _
  | union _ _ h => exact (cutOut_of_makesPayload hvisit h).after _

end Types

theorem cutOut_of_makes {s : Schema} {levels : Nat} {name : String} {v : Value} {ps : List Piece}
    (h : Makes s levels name v ps) : CutOut v.contents (joined ps) := by
  induction levels generalizing name v ps with
  | zero => cases h
  | succ levels ih =>
    obtain ⟨d, -, hd⟩ := h
    exact cutOut_of_makesDefinition (fun _ _ _ hv => ih hv) hd

/-! ### What pieces make is read from them -/

namespace Decoder

variable {limit : Int}

theorem complete_of_makesPrimitive {p : Primitive} {v : Value} {ps : List Piece}
    (h : MakesPrimitive p v ps) : Complete limit (primitive p) (joined ps) True v := by
  cases h with
  | bool b =>
    refine complete_after (complete_word (w := b.toNat) (by cases b <;> decide)) ?_
    cases b <;> exact complete_pure _
  | int h => exact complete_after (complete_word h) (complete_pure _)
  | unsignedInt h => exact complete_after (complete_word h) (complete_pure _)
  | hyper h => exact complete_after (complete_word h) (complete_pure _)
  | unsignedHyper h => exact complete_after (complete_word h) (complete_pure _)
  | float h => exact complete_after (complete_word h) (complete_pure _)
  | double h => exact complete_after (complete_word h) (complete_pure _)

section Types

variable {visit : String → Decoder Value} {makes : String → Value → List Piece → Prop}
  (hvisit : ∀ name v ps, makes name v ps → Complete limit (visit name) (joined ps) True v)

include hvisit

theorem complete_of_makesBase {b : Base Ref} {v : Value} {ps : List Piece}
    (h : MakesBase makes b v ps) : Complete limit (base visit b) (joined ps) True v := by
  cases b with
  | primitive p => exact complete_of_makesPrimitive h
  | named r => exact hvisit r.name v ps h

theorem complete_of_makesItems {b : Base Ref} {vs : List Value} {ps : List Piece}
    (h : MakesItems (MakesBase makes b) vs ps) :
    Complete limit (times (base visit b) vs.length) (joined ps) True vs := by
  induction h with
  | nil => exact complete_pure []
  | cons first _ ih =>
    rw [joined_append]
    exact complete_after (complete_of_makesBase hvisit first) (complete_return ih _)

theorem complete_of_makesType {t : Ty} {v : Value} {ps : List Piece} (h : MakesType makes t v ps) :
    Complete limit (type visit t) (joined ps) True v := by
  cases h with
  | plain h => exact complete_of_makesBase hvisit h
  | array hlen h =>
    subst hlen
    exact complete_return (complete_of_makesItems hvisit h) Value.list
  | vector hfits h =>
    exact complete_after (complete_length hfits)
      (complete_return (complete_of_makesItems hvisit h) Value.list)
  | absent => exact complete_after (complete_word (by decide)) (complete_pure Value.absent)
  | present h => exact complete_after (complete_word (by decide)) (complete_of_makesBase hvisit h)
  | fixedBytes hlen =>
    rw [joined_cons, joined_nil, List.append_nil]
    exact complete_data hlen
  | bytes hfits | string hfits =>
    rw [joined_cons, joined_cons, joined_nil, List.append_nil]
    exact complete_after (complete_length hfits) (complete_data rfl)

theorem complete_of_makesFields {fs : List Schema.Field} {vs : List (String × Value)} {ps : List Piece}
    (h : MakesFields makes fs vs ps) : Complete limit (fields visit fs) (joined ps) True vs := by
  induction h with
  | nil => exact complete_pure []
  | cons first _ ih =>
    rw [joined_append]
    exact complete_after (complete_of_makesType hvisit first) (complete_return ih _)

theorem complete_of_makesPayload {a : Schema.Arm} {v : Value} {ps : List Piece}
    (h : MakesPayload makes a.field v ps) : Complete limit (payload visit a) (joined ps) True v := by
  unfold payload
  generalize a.field = field at h
  cases h with
  | void => exact complete_pure Value.absent
  | field h => exact complete_of_makesType hvisit h

theorem complete_of_makesDefinition {name : String} {d : Definition} {v : Value} {ps : List Piece}
    (h : MakesDefinition makes name d v ps) :
    Complete limit (definition visit name d) (joined ps) True v := by
  cases h with
  | typedef h => exact complete_return (complete_of_makesType hvisit h) (Value.typedef name)
  | struct h => exact complete_return (complete_of_makesFields hvisit h) (Value.struct name)
  | enum hw hlabel =>
    refine complete_after (complete_word hw) ?_
    dsimp only
    rw [hlabel]
    exact complete_pure _
  | @union u a w _ _ hw harm h =>
    refine complete_after (complete_discriminant hw) ?_
    rw [harm]
    exact complete_return (complete_of_makesPayload hvisit h)
      fun v => Value.union name a.variant (.int (discriminantOf u w)) v

end Types

end Decoder

namespace Codec

variable {s : Schema}

variable (maxDepth : Int) in
/-- The least size of a definition is never more than what its pieces hold. -/
theorem complete_of_makes (hs : s.WellFormed) {levels : Nat} {name : String} {v : Value}
    {ps : List Piece} (h : Makes s levels name v ps) :
    Decoder.Complete maxDepth ((ofSchema s maxDepth).read levels name) (joined ps) True v := by
  induction levels generalizing name v ps with
  | zero => cases h
  | succ levels ih =>
    obtain ⟨d, hd, hmakes⟩ := h
    have hread : Decoder.Complete maxDepth
        (Decoder.definition ((ofSchema s maxDepth).read levels) name d) (joined ps) True v :=
      Decoder.complete_of_makesDefinition (fun _ _ _ hv => ih hv) hmakes
    have hleast : ((SizeTable.ofSchema s).get name).min ≤ (joined ps).length := by
      have hspan := Decoder.spans_definition (SizeTable.proper_ofSchema hs) (spans_read hs levels) name d
        _ _ _ _ ((hread [] []).1 trivial)
      rw [← SizeTable.get_ofSchema hs hd] at hspan
      simpa using hspan.least
    refine Decoder.complete_ensure hleast ?_
    rw [show (ofSchema s maxDepth).schema.definition? name = some d from hd]
    exact hread

variable {maxDepth : Int} {name : String} {buffer : List UInt8} {offset stop : Int} {v : Value}

/-- What is read from an offset within the input, and where its pieces stand. -/
theorem exists_makes_of_decodeFrom (hoffset : 0 ≤ offset) (hle : offset ≤ buffer.length)
    (h : (ofSchema s maxDepth).decodeFrom name buffer offset = .ok (v, stop)) :
    ∃ ps, Makes s maxDepth.toNat name v ps ∧ offset ≤ stop ∧ stop ≤ buffer.length ∧
      joined ps = slice buffer offset stop := by
  obtain ⟨n, rfl⟩ := Int.eq_ofNat_of_zero_le hoffset
  have hname : (s.definition? name).isSome := by
    unfold decodeFrom at h
    split at h
    · assumption
    · cases h
  have hreads : Decoder.Reads ((ofSchema s maxDepth).read maxDepth.toNat name)
      (buffer.take n ++ buffer.drop n) (buffer.take n).length v stop := by
    rw [List.take_append_drop, List.length_take, Nat.min_eq_left (by omega)]
    exact (if_pos hname).symm.trans h
  obtain ⟨bytes, rest, hrest, rfl, ps, hmakes, rfl⟩ := sound_read_cut _ _ _ _ _ _ hreads
  have hplace : ((buffer.take n ++ joined ps).length : Int) = n + (joined ps).length := by
    rw [List.length_append, List.length_take, Nat.min_eq_left (by omega), Int.natCast_add]
  have hlength : (joined ps).length ≤ buffer.length - n := by
    rw [← List.length_drop, hrest, List.length_append]
    omega
  refine ⟨ps, hmakes, by omega, by omega, ?_⟩
  rw [hplace, Decoder.slice_of_nonneg (Int.natCast_nonneg n), Int.toNat_natCast, hrest,
    List.take_left]

/-- From beyond the end of the input nothing is read, not even a value of no bytes. -/
theorem decodeFrom_of_length_lt (hs : s.WellFormed) (hname : (s.definition? name).isSome)
    (h : (buffer.length : Int) < offset) :
    ∃ n, (ofSchema s maxDepth).decodeFrom name buffer offset =
      .error (.endOfInput n (buffer.length - offset)) := by
  have hleast := (SizeTable.proper_ofSchema hs name).nonneg
  have hshort : ¬ ((SizeTable.ofSchema s).get name).min ≤ buffer.length - offset := by omega
  refine ⟨((SizeTable.ofSchema s).get name).min, (if_pos hname).trans ?_⟩
  change (((ofSchema s maxDepth).read maxDepth.toNat name).run buffer).run offset = _
  cases maxDepth.toNat <;> exact (Decoder.run_ensure_bind _ _).trans (if_neg hshort)

/-- From an offset that is not before the input, a reading fails as documented, or it goes on from there:
it ends within the input, the data of the value is cut out of the bytes in between, and these are read as
the same value wherever they stand. -/
theorem decodeFrom_reads_onward {source : String} (h : (Schema.analyzeText source).result = .ok s)
    (maxDepth : Int) (hname : (s.definition? name).isSome) (buffer : List UInt8) (hoffset : 0 ≤ offset) :
    FailsWith (DecodeError.Documented maxDepth)
        ((ofSchema s maxDepth).decodeFrom name buffer offset) ∧
      ∀ v stop, (ofSchema s maxDepth).decodeFrom name buffer offset = .ok (v, stop) →
        offset ≤ stop ∧ stop ≤ buffer.length ∧ CutOut v.contents (slice buffer offset stop) ∧
          ∀ pre rest, (ofSchema s maxDepth).decodeFrom name
              (pre ++ (slice buffer offset stop ++ rest)) pre.length =
            .ok (v, pre.length + (stop - offset)) := by
  have hs := Schema.wellFormed_of_analyzeText h
  refine ⟨failsWith_decodeFrom maxDepth hs hname buffer hoffset, fun v stop hread => ?_⟩
  have hle : offset ≤ buffer.length := by
    by_contra hbeyond
    have hfails : ∃ n, (ofSchema s maxDepth).decodeFrom name buffer offset =
        .error (.endOfInput n (buffer.length - offset)) :=
      decodeFrom_of_length_lt hs hname (not_le.mp hbeyond)
    obtain ⟨n, herror⟩ := hfails
    rw [hread] at herror
    cases herror
  obtain ⟨ps, hmakes, hstop, hend, hslice⟩ := exists_makes_of_decodeFrom hoffset hle hread
  refine ⟨hstop, hend, hslice ▸ cutOut_of_makes hmakes, fun pre rest => ?_⟩
  have hlength : ((slice buffer offset stop).length : Int) = stop - offset := by
    obtain ⟨n, rfl⟩ := Int.le.dest hstop
    rw [Decoder.slice_of_nonneg hoffset, List.length_take, List.length_drop]
    omega
  have hagain := (complete_of_makes maxDepth hs hmakes pre rest).1 trivial
  rw [hslice] at hagain
  rw [← hlength, ← Int.natCast_add, ← List.length_append]
  exact (if_pos hname).trans hagain

/-- Four bytes of data with their length word. -/
def blobBytes : List UInt8 := [0, 0, 0, 4, 1, 2, 3, 4]

/-- Behind four other bytes, the data is the last half of what is read. -/
theorem decodeFrom_reads_onward_sample :
    ∃ v, (ofSchema Schema.sampleSchema 4).decodeFrom "Blob" ([9, 9, 9, 9] ++ blobBytes) 4 = .ok (v, 12) ∧
      v.contents = [[1, 2, 3, 4]] ∧ CutOut v.contents blobBytes ∧
      (ofSchema Schema.sampleSchema 4).decodeFrom "Blob" (blobBytes ++ [7]) 0 = .ok (v, 8) := by
  have hname : (Schema.sampleSchema.definition? "Blob").isSome := by decide +kernel
  obtain ⟨-, hreads⟩ := decodeFrom_reads_onward Schema.analyzeText_sampleText 4 hname
    ([9, 9, 9, 9] ++ blobBytes) (by decide : (0 : Int) ≤ 4)
  have hread : ((ofSchema Schema.sampleSchema 4).decodeFrom "Blob" ([9, 9, 9, 9] ++ blobBytes)
      4).toOption.map (fun r => (r.1.contents, r.2)) = some ([[1, 2, 3, 4]], 12) := by
    decide +kernel
  cases hrun : (ofSchema Schema.sampleSchema 4).decodeFrom "Blob" ([9, 9, 9, 9] ++ blobBytes) 4 with
  | error e =>
    rw [hrun] at hread
    cases hread
  | ok r =>
    rw [hrun] at hread
    obtain ⟨hcontents, hstop⟩ := Prod.mk.inj (Option.some.inj hread)
    obtain ⟨v, stop⟩ := r
    cases hstop
    obtain ⟨-, -, hcut, hagain⟩ := hreads v 12 hrun
    exact ⟨v, rfl, hcontents, hcut, hagain [] [7]⟩

/-- The name and the data of an alias of opaque data that was read, and where it ended. -/
def aliasRead? : Except DecodeError (Value × Int) → Option (String × List UInt8 × Int)
  | .ok (.typedef name (.bytes data), stop) => some (name, data, stop)
  | _ => none

theorem eq_ok_of_aliasRead? {x : Except DecodeError (Value × Int)} {name : String} {data : List UInt8} {stop : Int}
    (h : aliasRead? x = some (name, data, stop)) : x = .ok (.typedef name (.bytes data), stop) := by
  unfold aliasRead? at h
  split at h
  · cases h
    rfl
  · cases h

/-- The offset and the size of a word that was missed before the input, and how long the input is. -/
def missed? : Except DecodeError (Value × Int) → Option (Int × Nat × Nat)
  | .error (.beforeInput offset size length) => some (offset, size, length)
  | _ => none

theorem eq_error_of_missed? {x : Except DecodeError (Value × Int)} {offset : Int} {size length : Nat}
    (h : missed? x = some (offset, size, length)) : x = .error (.beforeInput offset size length) := by
  unfold missed? at h
  split at h
  · cases h
    rfl
  · cases h

/-- An alias of no data. -/
def emptyBlob : Value := Value.typedef "Blob" (.bytes [])

/-- Before the input it is otherwise: a word is read from as far before the end, and of the data that
would reach the end nothing is. Nor is a missed word reported as such. -/
theorem decodeFrom_before_input :
    (ofSchema Schema.sampleSchema 4).decodeFrom "Blob" blobBytes (-8) =
        .ok (emptyBlob, 0) ∧
      (ofSchema Schema.sampleSchema 4).decodeFrom "Blob" blobBytes (-2) =
        .error (.beforeInput (-2) 4 8) :=
  ⟨eq_ok_of_aliasRead? (by decide +kernel), eq_error_of_missed? (by decide +kernel)⟩

end Codec

end XdrSchema.Wire
