import XdrSchema.Proofs.Schema.Resolve
import XdrSchema.Proofs.Wire.Simulation

/-! What a reading depends on. It ends as it does because of the bytes it has read: bytes after these
change nothing unless they are missed, and bytes before only move the offsets. -/
namespace XdrSchema.Wire

open Decoder

/-- A fault at an offset is as far on as the input is moved. -/
def DecodeError.shift (k : Int) : DecodeError → DecodeError
  | .padding offset => .padding (offset + k)
  | e => e

namespace Decoder

variable {input : List UInt8} {p : Int}

theorem slice_append (more : List UInt8) (hp : 0 ≤ p) {n : Nat} (h : (n : Int) ≤ input.length - p) :
    slice (input ++ more) p (p + n) = slice input p (p + n) := by
  rw [slice_of_nonneg hp, slice_of_nonneg hp, List.drop_append_of_le_length (by omega),
    List.take_append_of_le_length (by rw [List.length_drop]; omega)]

theorem slice_shift (pre : List UInt8) (hp : 0 ≤ p) (n : Nat) :
    slice (pre ++ input) (p + pre.length) (p + pre.length + n) = slice input p (p + n) := by
  have hplace : (p + pre.length).toNat = pre.length + p.toNat := by omega
  rw [slice_of_nonneg (by omega), slice_of_nonneg hp, hplace, List.drop_length_add_append]

end Decoder

/-! ### More input after it -/

/-- The same reading with more input after it; where it came to the end it may go on. -/
def extension (more : List UInt8) : Simulation where
  At input p input' p' := input' = input ++ more ∧ p' = p ∧ 0 ≤ p
  Answers e o := (∃ n left, e = .endOfInput n left) ∨ o = some e
  of_none _ _ h := .inl (h.resolve_right nofun)

variable {α : Type} {x : Decoder α} {n : Nat} {make : List UInt8 → Option α}

theorem extension_peeks (more : List UInt8) (hx : Peeks x n make) :
    (extension more).Follows x x := by
  rintro input _ _ p ⟨rfl, rfl, hp⟩
  by_cases hle : (n : Int) ≤ input.length - p
  · have hsame : (x.run (input ++ more)).run p = (x.run input).run p := by
      have hle' : (n : Int) ≤ (input ++ more).length - p := by
        rw [List.length_append]
        omega
      rw [hx _ _ hp, hx _ _ hp, slice_append more hp hle, if_pos hle, if_pos hle']
    refine ⟨fun a q ha => ⟨q, hsame.trans ha, rfl, rfl, ?_⟩, fun e he => .inr ?_⟩
    · have := (hx.stop hp ha).2
      omega
    · rw [hsame, he]
      rfl
  · refine ⟨fun a q ha => absurd (hx.stop hp ha).1 hle, fun e he => .inl ?_⟩
    rw [hx _ _ hp, if_neg hle] at he
    cases he
    exact ⟨_, _, rfl⟩

theorem extension_lawful (more : List UInt8) : (extension more).Lawful :=
  .of_peeks (extension_peeks more) (fun _ => .inr rfl) (fun _ => .inr rfl) (fun _ _ => .inr rfl)

theorem extension_ensure (more : List UInt8) (n : Int) :
    (extension more).Follows (ensure n) (ensure n) := by
  rintro input _ _ p ⟨rfl, rfl, hp⟩
  constructor
  · rintro u q hq
    obtain ⟨hle, rfl⟩ := reads_ensure.mp hq
    refine ⟨q, reads_ensure.mpr ⟨?_, rfl⟩, rfl, rfl, hp⟩
    rw [List.length_append]
    omega
  · intro e he
    rw [run_ensure] at he
    split at he
    · cases he
    · cases he
      exact .inl ⟨_, _, rfl⟩

/-! ### Other input before it -/

/-- The same reading further on, behind other input. -/
def displacement (pre : List UInt8) : Simulation where
  At input p input' p' := input' = pre ++ input ∧ p' = p + pre.length ∧ 0 ≤ p
  Answers e o := o = some (e.shift pre.length)
  of_none _ _ h := nomatch h

/-- An outcome whose offsets are moved. -/
def moved (k : Int) : Except DecodeError (α × Int) → Except DecodeError (α × Int)
  | .ok (a, q) => .ok (a, q + k)
  | .error e => .error (e.shift k)

theorem displacement_of_moved {pre : List UInt8}
    (hmoved : ∀ input p, 0 ≤ p → (x.run (pre ++ input)).run (p + pre.length) =
      moved pre.length ((x.run input).run p))
    (hstop : ∀ input p a q, 0 ≤ p → Reads x input p a q → 0 ≤ q) :
    (displacement pre).Follows x x := by
  rintro input p _ _ ⟨rfl, rfl, hp⟩
  rw [hmoved input p hp]
  constructor
  · intro a q ha
    refine ⟨q + pre.length, ?_, rfl, rfl, hstop input p a q hp ha⟩
    unfold Reads at ha ⊢
    rw [hmoved input p hp, ha]
    rfl
  · intro e he
    rw [he]
    rfl

theorem moved_of_displacement {pre : List UInt8} (hx : (displacement pre).Follows x x)
    {input : List UInt8} {p : Int} (hp : 0 ≤ p) :
    (x.run (pre ++ input)).run (p + pre.length) = moved pre.length ((x.run input).run p) := by
  obtain ⟨hreads, hfault⟩ := hx input p _ _ ⟨rfl, rfl, hp⟩
  cases hrun : (x.run input).run p with
  | ok r =>
    obtain ⟨q', hq, -, rfl, -⟩ := hreads r.1 r.2 hrun
    exact hq
  | error e => exact fault?_eq_some_iff.mp (hfault e hrun)

theorem length_displaced (pre input : List UInt8) (p : Int) :
    ((pre ++ input).length : Int) - (p + pre.length) = input.length - p := by
  rw [List.length_append]
  omega

theorem displacement_peeks (pre : List UInt8) (hx : Peeks x n make) :
    (displacement pre).Follows x x := by
  refine displacement_of_moved (fun input p hp => ?_) fun input p a q hp ha => ?_
  · rw [hx _ _ hp, hx _ _ (by omega), slice_shift pre hp, length_displaced]
    split
    · split
      · exact congrArg (fun q => Except.ok (_, q)) (by omega)
      · rfl
    · rfl
  · have := (hx.stop hp ha).2
    omega

theorem displacement_lawful (pre : List UInt8) : (displacement pre).Lawful :=
  .of_peeks (displacement_peeks pre) (fun _ => rfl) (fun _ => rfl) (fun _ _ => rfl)

theorem displacement_ensure (pre : List UInt8) (n : Int) :
    (displacement pre).Follows (ensure n) (ensure n) := by
  refine displacement_of_moved (fun input p hp => ?_) fun input p a q hp ha => ?_
  · rw [run_ensure, run_ensure, length_displaced]
    split <;> rfl
  · obtain ⟨-, rfl⟩ := reads_ensure.mp ha
    exact hp

/-! ### The reader of a schema -/

namespace Codec

variable (c : Codec) (name : String) (buffer : List UInt8) {offset : Int}

/-- A reading that does not come to the end of the input does not see what is added to it. -/
theorem decodeFrom_append (more : List UInt8) (hoffset : 0 ≤ offset)
    (hend : ∀ n left, c.decodeFrom name buffer offset ≠ .error (.endOfInput n left)) :
    c.decodeFrom name (buffer ++ more) offset = c.decodeFrom name buffer offset := by
  unfold decodeFrom at hend ⊢
  split
  · next hname =>
    simp only [if_pos hname] at hend
    have hfollows := (extension_lawful more).read c (extension_ensure more) (.inr rfl)
      (fun _ => .inr rfl) c.maxDepth.toNat name
    obtain ⟨hreads, hfault⟩ := hfollows buffer offset _ _ ⟨rfl, rfl, hoffset⟩
    cases hrun : ((c.read c.maxDepth.toNat name).run buffer).run offset with
    | ok r =>
      obtain ⟨q, hq, -, rfl, -⟩ := hreads r.1 r.2 hrun
      exact hq
    | error e =>
      rcases hfault e hrun with ⟨n, left, rfl⟩ | hsame
      · exact absurd hrun (hend n left)
      · exact fault?_eq_some_iff.mp hsame
  · rfl

/-- Behind other input the same is read, and offsets are as far on as the input is long. -/
theorem decodeFrom_displaced (pre : List UInt8) (hoffset : 0 ≤ offset) :
    c.decodeFrom name (pre ++ buffer) (offset + pre.length) =
      moved pre.length (c.decodeFrom name buffer offset) := by
  unfold decodeFrom
  split
  · exact moved_of_displacement ((displacement_lawful pre).read c (displacement_ensure pre) rfl
      (fun _ => rfl) c.maxDepth.toNat name) hoffset
  · rfl

variable {c name buffer}

/-- What a whole buffer is read from cannot be read from less. -/
theorem decode_eq_endOfInput {v : Value} {more : List UInt8} (hmore : more ≠ [])
    (h : c.decode name (buffer ++ more) = .ok v) :
    ∃ n left, c.decode name buffer = .error (.endOfInput n left) := by
  have hwhole := decodeFrom_of_decode h
  by_contra hend
  push Not at hend
  have hfrom : ∀ n left, c.decodeFrom name buffer 0 ≠ .error (.endOfInput n left) := by
    intro n left hfrom
    apply hend n left
    rw [decode, hfrom]
    rfl
  rw [decodeFrom_append c name buffer more (Int.le_refl 0) hfrom] at hwhole
  have hstop := stop_le_of_decodeFrom (Int.le_refl 0) (Int.natCast_nonneg _) hwhole
  have hlength := List.length_pos_of_ne_nil hmore
  rw [List.length_append] at hstop
  omega

/-- A reading is local: what follows its bytes is not looked at, what stands before them only moves
offsets. So what is read from a whole buffer is read from no other that it begins or that begins it. -/
theorem decodeFrom_local (c : Codec) (name : String) (buffer : List UInt8) {offset : Int}
    (hoffset : 0 ≤ offset) :
    (∀ more, (∀ n left, c.decodeFrom name buffer offset ≠ .error (.endOfInput n left)) →
        c.decodeFrom name (buffer ++ more) offset = c.decodeFrom name buffer offset) ∧
      (∀ pre : List UInt8, c.decodeFrom name (pre ++ buffer) (offset + pre.length) =
        moved pre.length (c.decodeFrom name buffer offset)) ∧
      (∀ more v, more ≠ [] → c.decode name (buffer ++ more) = .ok v →
        ∃ n left, c.decode name buffer = .error (.endOfInput n left)) ∧
      ∀ more v w, c.decode name buffer = .ok v → c.decode name (buffer ++ more) = .ok w →
        more = [] := by
  refine ⟨fun more => decodeFrom_append c name buffer more hoffset,
    fun pre => decodeFrom_displaced c name buffer pre hoffset,
    fun more v => decode_eq_endOfInput, fun more v w hv hw => ?_⟩
  by_contra hmore
  obtain ⟨n, left, hend⟩ := decode_eq_endOfInput hmore hw
  rw [hv] at hend
  cases hend

/-- Five bytes of data with padding that is not zero, after four other bytes. -/
def flawedBytes : List UInt8 := [0, 0, 0, 9, 0, 0, 0, 5, 1, 2, 3, 4, 5, 0, 0, 7]

theorem decodeFrom_flawedBytes : (ofSchema Schema.sampleSchema 4).decodeFrom "Blob" flawedBytes 4 =
    .error (.padding 13) := by
  have hpadding : (match (ofSchema Schema.sampleSchema 4).decodeFrom "Blob" flawedBytes 4 with
      | .error (.padding offset) => offset = 13
      | _ => false) = true := by
    decide +kernel
  split at hpadding
  · next heq => rw [heq, of_decide_eq_true hpadding]
  · cases hpadding

/-- The flaw is found whatever follows, and further on behind other bytes; half of a union misses bytes. -/
theorem decodeFrom_local_sample :
    (ofSchema Schema.sampleSchema 4).decodeFrom "Blob" (flawedBytes ++ [1, 2]) 4 =
        .error (.padding 13) ∧
      (ofSchema Schema.sampleSchema 4).decodeFrom "Blob" ([7, 7, 7] ++ flawedBytes) 7 =
        .error (.padding 16) ∧
      ∃ n left, (ofSchema Schema.sampleSchema 4).decode "U" [0, 0, 0, 0] =
        .error (.endOfInput n left) := by
  obtain ⟨hmore, hpre, -⟩ :=
    decodeFrom_local (ofSchema Schema.sampleSchema 4) "Blob" flawedBytes (by decide : (0 : Int) ≤ 4)
  obtain ⟨-, -, hless, -⟩ :=
    decodeFrom_local (ofSchema Schema.sampleSchema 4) "U" [0, 0, 0, 0] (Int.le_refl 0)
  have hwhole : ((ofSchema Schema.sampleSchema 4).decode "U"
      ([0, 0, 0, 0] ++ [0, 0, 0, 1])).toOption.isSome = true := by
    decide +kernel
  rw [decodeFrom_flawedBytes] at hmore hpre
  refine ⟨hmore [1, 2] nofun, hpre [7, 7, 7], ?_⟩
  cases hrun : (ofSchema Schema.sampleSchema 4).decode "U" ([0, 0, 0, 0] ++ [0, 0, 0, 1]) with
  | ok v => exact hless [0, 0, 0, 1] v nofun hrun
  | error e =>
    rw [hrun] at hwhole
    cases hwhole

end Codec

end XdrSchema.Wire
