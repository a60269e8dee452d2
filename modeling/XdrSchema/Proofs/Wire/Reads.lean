import XdrSchema.Proofs.Chain
import XdrSchema.Proofs.Wire.Spelling
import XdrSchema.Wire.Decode

/-! One step of the reader after another. What a step reads depends on what is left of the input, unless
the offset is negative; no step looks at what comes after its own bytes. -/
namespace XdrSchema.Wire

open Schema (Ref Ty Definition Arm Union)

namespace Decoder

variable {α β : Type} {input : List UInt8} {p p' : Int}

/-- From the offset `p` of the input a value is read, up to the offset `p'`. -/
def Reads (x : Decoder α) (input : List UInt8) (p : Int) (a : α) (p' : Int) : Prop :=
  (x.run input).run p = .ok (a, p')

@[simp] theorem reads_pure {a b : α} : Reads (pure a) input p b p' ↔ b = a ∧ p' = p := by
  change (Except.ok (a, p) : Except DecodeError (α × Int)) = _ ↔ _
  rw [Except.ok.injEq, Prod.mk.injEq, eq_comm, @eq_comm _ p]

theorem run_bind (x : Decoder α) (f : α → Decoder β) :
    ((x >>= f).run input).run p = ((x.run input).run p).bind fun r => ((f r.1).run input).run r.2 := by
  change ((x.run input).run p >>= fun r => ((f r.1).run input).run r.2) = _
  rfl

@[simp] theorem reads_bind {x : Decoder α} {f : α → Decoder β} {b : β} {p'' : Int} :
    Reads (x >>= f) input p b p'' ↔ ∃ a p', Reads x input p a p' ∧ Reads (f a) input p' b p'' := by
  unfold Reads
  rw [run_bind]
  rcases (x.run input).run p with e | ⟨a, p'⟩
  · exact ⟨nofun, fun ⟨_, _, h, _⟩ => nomatch h⟩
  · exact ⟨fun h => ⟨a, p', rfl, h⟩, fun ⟨_, _, rfl, h⟩ => h⟩

@[simp] theorem not_reads_throw {e : DecodeError} {a : α} : ¬ Reads (throw e : Decoder α) input p a p' := nofun

@[simp] theorem reads_get {n : Int} : Reads (get : Decoder Int) input p n p' ↔ n = p ∧ p' = p :=
  @reads_pure Int input p p' p n

@[simp] theorem reads_read {bytes : List UInt8} :
    Reads (read : Decoder (List UInt8)) input p bytes p' ↔ bytes = input ∧ p' = p :=
  @reads_pure (List UInt8) input p p' input bytes

@[simp] theorem reads_set {n : Int} {u : PUnit} :
    Reads (set n : Decoder PUnit) input p u p' ↔ p' = n := by
  change (Except.ok (PUnit.unit, n) : Except DecodeError (PUnit × Int)) = _ ↔ _
  rw [Except.ok.injEq, Prod.mk.injEq, @eq_comm _ n]
  simp

@[simp] theorem reads_remaining {n : Int} :
    Reads remaining input p n p' ↔ n = input.length - p ∧ p' = p :=
  @reads_pure Int input p p' _ n

theorem reads_ensure {n : Int} {u : Unit} :
    Reads (ensure n) input p u p' ↔ n ≤ input.length - p ∧ p' = p := by
  unfold ensure
  simp only [reads_bind, reads_remaining]
  constructor
  · rintro ⟨left, _, ⟨rfl, rfl⟩, h⟩
    split at h
    · exact absurd h not_reads_throw
    · next hle => exact ⟨by omega, (reads_pure.mp h).2⟩
  · rintro ⟨hle, rfl⟩
    refine ⟨_, _, ⟨rfl, rfl⟩, ?_⟩
    rw [if_neg (by omega)]
    exact reads_pure.mpr ⟨rfl, rfl⟩

theorem reads_take {n : Nat} {bytes : List UInt8} :
    Reads (take n) input p bytes p' ↔
      (n : Int) ≤ input.length - p ∧ p' = p + n ∧ bytes = slice input p (p + n) := by
  unfold take
  simp only [reads_bind, reads_ensure, reads_get, reads_set, reads_read, reads_pure]
  constructor
  · rintro ⟨_, _, ⟨hle, rfl⟩, _, _, ⟨rfl, rfl⟩, _, _, rfl, _, _, ⟨rfl, rfl⟩, rfl, rfl⟩
    exact ⟨hle, rfl, rfl⟩
  · rintro ⟨hle, rfl, rfl⟩
    exact ⟨(), p, ⟨hle, rfl⟩, p, p, ⟨rfl, rfl⟩, .unit, _, rfl, input, _, ⟨rfl, rfl⟩, rfl, rfl⟩

theorem reads_word {n w : Nat} :
    Reads (word n) input p w p' ↔ (n : Int) ≤ input.length - p ∧
      ¬ (p < 0 ∧ (0 < p + n ∨ p + input.length < 0)) ∧ p' = p + n ∧
      w = wordOf ((input.drop (if p < 0 then p + input.length else p).toNat).take n) := by
  unfold word
  simp only [reads_bind, reads_ensure, reads_get, reads_read]
  constructor
  · rintro ⟨_, _, ⟨hle, rfl⟩, _, _, ⟨rfl, rfl⟩, _, _, ⟨rfl, rfl⟩, h⟩
    split at h
    · obtain ⟨_, _, h, -⟩ := reads_bind.mp h
      exact absurd h not_reads_throw
    · next hplace =>
      simp only [reads_bind, reads_set, reads_pure] at h
      obtain ⟨_, _, rfl, rfl, rfl⟩ := h
      exact ⟨hle, by simpa using hplace, rfl, rfl⟩
  · rintro ⟨hle, hplace, rfl, rfl⟩
    refine ⟨(), p, ⟨hle, rfl⟩, input, p, ⟨rfl, rfl⟩, p, p, ⟨rfl, rfl⟩, ?_⟩
    rw [if_neg (by simpa using hplace)]
    exact reads_bind.mpr ⟨.unit, _, reads_set.mpr rfl, reads_pure.mpr ⟨rfl, rfl⟩⟩

/-- From an offset within the input. -/
theorem reads_word_append {n w : Nat} {pre rest : List UInt8} :
    Reads (word n) (pre ++ rest) pre.length w p' ↔
      n ≤ rest.length ∧ p' = pre.length + n ∧ w = wordOf (rest.take n) := by
  have hneg : ¬ (pre.length : Int) < 0 := by omega
  rw [reads_word, if_neg hneg, Int.toNat_natCast, List.drop_left, List.length_append]
  constructor
  · rintro ⟨hle, -, hp, hw⟩
    exact ⟨by omega, hp, hw⟩
  · rintro ⟨hle, hp, hw⟩
    exact ⟨by omega, fun h => hneg h.1, hp, hw⟩

theorem reads_take_append {n : Nat} {bytes pre rest : List UInt8} :
    Reads (take n) (pre ++ rest) pre.length bytes p' ↔
      n ≤ rest.length ∧ p' = pre.length + n ∧ bytes = rest.take n := by
  have hslice : slice (pre ++ rest) pre.length (pre.length + n) = rest.take n := by
    have hstart : ¬ (pre.length : Int) < 0 := by omega
    have hstop : ¬ (pre.length : Int) + n < 0 := by omega
    have hplace : ((pre.length : Int) + n).toNat = pre.length + n := by omega
    simp only [slice, if_neg hstart, if_neg hstop, hplace, Int.toNat_natCast, List.take_length_add_append,
      List.drop_left]
  rw [reads_take, hslice, List.length_append]
  constructor
  · rintro ⟨hle, hp, hb⟩
    exact ⟨by omega, hp, hb⟩
  · rintro ⟨hle, hp, hb⟩
    exact ⟨by omega, hp, hb⟩

theorem lt_wordCount_iff {n : Nat} : n < wordCount 4 ↔ n ≤ maxLength := by
  have hcount : wordCount 4 = maxLength + 1 := rfl
  omega

end Decoder

namespace Codec

theorem decode_eq_ok_iff {c : Codec} {name : String} {bytes : List UInt8} {v : Value} :
    c.decode name bytes = .ok v ↔ (c.schema.definition? name).isSome ∧
      Decoder.Reads (c.read c.maxDepth.toNat name) bytes 0 v bytes.length := by
  unfold decode decodeFrom
  rw [bind_eq_ok_iff]
  constructor
  · rintro ⟨⟨w, offset⟩, hfrom, hdone⟩
    split at hfrom
    · next hsome =>
      dsimp only at hdone
      split at hdone
      · next hend =>
        cases hdone
        subst hend
        exact ⟨hsome, hfrom⟩
      · cases hdone
    · cases hfrom
  · rintro ⟨hsome, hreads⟩
    exact ⟨(v, bytes.length), (if_pos hsome).trans hreads, if_pos rfl⟩

theorem decodeFrom_of_decode {c : Codec} {name : String} {bytes : List UInt8} {v : Value}
    (h : c.decode name bytes = .ok v) : c.decodeFrom name bytes 0 = .ok (v, bytes.length) := by
  obtain ⟨hname, hreads⟩ := decode_eq_ok_iff.mp h
  exact (if_pos hname).trans hreads

end Codec

end XdrSchema.Wire
