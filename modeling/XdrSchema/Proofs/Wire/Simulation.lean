import XdrSchema.Proofs.Wire.Reads

/-! Two readings side by side: of different inputs, from different places or by different readers. Once
the steps that touch the input correspond, the readings of every definition do. -/
namespace XdrSchema.Wire

open Schema (Ref Ty Definition Arm Union)

namespace Decoder

variable {α β : Type} {input : List UInt8} {p : Int}

/-! ### The outcome of a step -/

@[simp] theorem run_pure (a : α) : ((pure a : Decoder α).run input).run p = .ok (a, p) := rfl

@[simp] theorem run_throw (e : DecodeError) :
    ((throw e : Decoder α).run input).run p = .error e := rfl

@[simp] theorem run_read : ((read : Decoder (List UInt8)).run input).run p = .ok (input, p) := rfl

@[simp] theorem run_get : ((get : Decoder Int).run input).run p = .ok (p, p) := rfl

@[simp] theorem run_remaining :
    (remaining.run input).run p = .ok ((input.length : Int) - p, p) := rfl

theorem run_ensure (n : Int) : ((ensure n).run input).run p =
    if n ≤ input.length - p then .ok ((), p) else .error (.endOfInput n (input.length - p)) := by
  unfold ensure
  simp only [run_bind, run_remaining, Except.bind]
  by_cases hle : n ≤ (input.length : Int) - p
  · rw [if_pos hle, if_neg (by omega)]
    rfl
  · rw [if_neg hle, if_pos (by omega)]
    rfl

theorem run_ensure_bind (n : Int) (f : Unit → Decoder α) : ((ensure n >>= f).run input).run p =
    if n ≤ input.length - p then ((f ()).run input).run p
    else .error (.endOfInput n (input.length - p)) := by
  rw [run_bind, run_ensure]
  split <;> rfl

theorem slice_of_nonneg (hp : 0 ≤ p) (n : Nat) :
    slice input p (p + n) = (input.drop p.toNat).take n := by
  have hstart : ¬ p < 0 := by omega
  have hstop : ¬ p + n < 0 := by omega
  have hlen : (p + n).toNat - p.toNat = n := by omega
  simp only [slice, if_neg hstart, if_neg hstop, List.drop_take, hlen]

/-- A step that looks at the next `n` bytes, from an offset that is not before the input. If they make
nothing, they are at fault as padding. -/
def Peeks (x : Decoder α) (n : Nat) (make : List UInt8 → Option α) : Prop :=
  ∀ input p, 0 ≤ p → (x.run input).run p =
    if (n : Int) ≤ input.length - p then
      match make (slice input p (p + n)) with
      | some a => .ok (a, p + n)
      | none => .error (.padding p)
    else .error (.endOfInput n (input.length - p))

/-- How far such a step gets. -/
theorem Peeks.stop {x : Decoder α} {n : Nat} {make : List UInt8 → Option α} (hx : Peeks x n make)
    (hp : 0 ≤ p) {a : α} {q : Int} (ha : Reads x input p a q) :
    (n : Int) ≤ input.length - p ∧ q = p + n := by
  unfold Reads at ha
  rw [hx input p hp] at ha
  split at ha
  · next hle =>
    split at ha
    · cases ha
      exact ⟨hle, rfl⟩
    · cases ha
  · cases ha

theorem peeks_take (n : Nat) : Peeks (take n) n some := fun _ _ _ => run_ensure_bind _ _

theorem peeks_word (n : Nat) : Peeks (word n) n fun bytes => some (wordOf bytes) := by
  intro input p hp
  have hneg : ¬ p < 0 := by omega
  unfold word
  rw [run_ensure_bind]
  congr 1
  simp only [run_bind, run_read, run_get, Except.bind, hneg, slice_of_nonneg hp]
  rfl

theorem peeks_skipPadding (n : Nat) :
    Peeks (skipPadding n) (padding n) fun bytes => if bytes.any (· ≠ 0) then none else some () := by
  intro input p hp
  unfold skipPadding
  simp only [run_bind, run_get, Except.bind]
  rw [peeks_take (padding n) input p hp]
  by_cases hle : (padding n : Int) ≤ input.length - p
  · simp only [if_pos hle]
    by_cases hany : (slice input p (p + padding n)).any (· ≠ 0)
    · simp only [if_pos hany]
      rfl
    · simp only [if_neg hany]
      rfl
  · simp only [if_neg hle]

end Decoder

/-! ### Simulations -/

/-- The fault that a reading ends with, if it fails. -/
def fault? {α : Type} : Except DecodeError α → Option DecodeError
  | .ok _ => none
  | .error e => some e

theorem fault?_eq_some_iff {α : Type} {r : Except DecodeError α} {e : DecodeError} :
    fault? r = some e ↔ r = .error e := by
  cases r <;> simp [fault?]

/-- Which place of one input corresponds to which place of another, and what a reading of the other may
come to when that of the one fails. A fault that a success may answer, anything may. -/
structure Simulation where
  At : List UInt8 → Int → List UInt8 → Int → Prop
  Answers : DecodeError → Option DecodeError → Prop
  of_none : ∀ e o, Answers e none → Answers e o

namespace Simulation

open Decoder

variable {α β : Type} (S : Simulation)

/-- From corresponding places, what the first reader returns the second one returns, and corresponding
places are reached. -/
def Follows (x y : Decoder α) : Prop :=
  ∀ input p input' p', S.At input p input' p' →
    (∀ a q, Reads x input p a q → ∃ q', Reads y input' p' a q' ∧ S.At input q input' q') ∧
      ∀ e, (x.run input).run p = .error e → S.Answers e (fault? ((y.run input').run p'))

/-- The steps that touch the input correspond, and so do the faults in what was read. -/
structure Lawful : Prop where
  word : ∀ n, S.Follows (word n) (word n)
  take : ∀ n, S.Follows (take n) (take n)
  skipPadding : ∀ n, S.Follows (skipPadding n) (skipPadding n)
  discriminant : ∀ n, S.Answers (.discriminant n) (some (.discriminant n))
  enumValue : ∀ n, S.Answers (.enumValue n) (some (.enumValue n))
  tooLong : ∀ bound n, S.Answers (.tooLong bound n) (some (.tooLong bound n))

variable {S}

/-- One law for all steps that touch the input. -/
theorem Lawful.of_peeks
    (h : ∀ {α : Type} {x : Decoder α} {n make}, Peeks x n make → S.Follows x x)
    (discriminant : ∀ n, S.Answers (.discriminant n) (some (.discriminant n)))
    (enumValue : ∀ n, S.Answers (.enumValue n) (some (.enumValue n)))
    (tooLong : ∀ bound n, S.Answers (.tooLong bound n) (some (.tooLong bound n))) : S.Lawful where
  word n := h (peeks_word n)
  take n := h (peeks_take n)
  skipPadding n := h (peeks_skipPadding n)
  discriminant := discriminant
  enumValue := enumValue
  tooLong := tooLong

theorem follows_pure (a : α) : S.Follows (pure a) (pure a) := by
  intro input p input' p' hat
  refine ⟨fun b q hb => ?_, nofun⟩
  obtain ⟨rfl, rfl⟩ := reads_pure.mp hb
  exact ⟨p', reads_pure.mpr ⟨rfl, rfl⟩, hat⟩

theorem follows_throw {e : DecodeError} (h : S.Answers e (some e)) :
    S.Follows (throw e : Decoder α) (throw e) := by
  intro input p input' p' _
  refine ⟨fun a q ha => absurd ha not_reads_throw, fun e' he => ?_⟩
  cases he
  exact h

theorem Follows.bind {x y : Decoder α} {f g : α → Decoder β} (hx : S.Follows x y)
    (hf : ∀ a, S.Follows (f a) (g a)) : S.Follows (x >>= f) (y >>= g) := by
  intro input p input' p' hat
  obtain ⟨hreads, hfault⟩ := hx input p input' p' hat
  constructor
  · intro b r hb
    obtain ⟨a, q, ha, hb⟩ := reads_bind.mp hb
    obtain ⟨q', ha', hat'⟩ := hreads a q ha
    obtain ⟨r', hb', hat''⟩ := (hf a input q input' q' hat').1 b r hb
    exact ⟨r', reads_bind.mpr ⟨a, q', ha', hb'⟩, hat''⟩
  · intro e he
    rw [run_bind] at he ⊢
    cases hrun : (x.run input).run p with
    | ok r =>
      obtain ⟨q', ha', hat'⟩ := hreads r.1 r.2 hrun
      rw [hrun] at he
      rw [show (y.run input').run p' = .ok (r.1, q') from ha']
      exact (hf r.1 input r.2 input' q' hat').2 e he
    | error e' =>
      rw [hrun] at he
      cases he
      have hanswer := hfault e hrun
      cases hrun' : (y.run input').run p' with
      | ok r => exact S.of_none e _ (by rwa [hrun'] at hanswer)
      | error e' => rwa [hrun'] at hanswer

/-! ### The reader of a definition -/

theorem Lawful.length (h : S.Lawful) (bound : Option Nat) :
    S.Follows (Decoder.length bound) (Decoder.length bound) := by
  refine (h.word 4).bind fun n => ?_
  dsimp only
  split
  · exact (follows_throw (h.tooLong _ _)).bind fun _ => follows_pure _
  · exact follows_pure n

theorem Lawful.data (h : S.Lawful) (n : Nat) : S.Follows (Decoder.data n) (Decoder.data n) :=
  (h.take n).bind fun _ => (h.skipPadding n).bind fun _ => follows_pure _

theorem follows_times {x y : Decoder α} (h : S.Follows x y) (n : Nat) :
    S.Follows (times x n) (times y n) := by
  induction n with
  | zero => exact follows_pure []
  | succ n ih => exact h.bind fun _ => ih.bind fun _ => follows_pure _

theorem Lawful.primitive (h : S.Lawful) (p : Primitive) :
    S.Follows (Decoder.primitive p) (Decoder.primitive p) := by
  cases p with
  | bool =>
    refine (h.word 4).bind fun n => ?_
    split
    · exact follows_pure _
    · split
      · exact follows_pure _
      · exact follows_throw (h.enumValue _)
  | _ => exact (h.word _).bind fun _ => follows_pure _

theorem Lawful.unionDiscriminant (h : S.Lawful) (u : Union) :
    S.Follows (Decoder.discriminant u) (Decoder.discriminant u) :=
  (h.word 4).bind fun _ => follows_pure _

variable {visit visit' : String → Decoder Value}

theorem Lawful.base (h : S.Lawful) {b : Base Ref}
    (hvisit : ∀ r, b = .named r → S.Follows (visit r.name) (visit' r.name)) :
    S.Follows (Decoder.base visit b) (Decoder.base visit' b) := by
  cases b with
  | primitive p => exact h.primitive p
  | named r => exact hvisit r rfl

theorem Lawful.type (h : S.Lawful) {t : Ty}
    (hvisit : ∀ r, t.target? = some r → S.Follows (visit r.name) (visit' r.name)) :
    S.Follows (Decoder.type visit t) (Decoder.type visit' t) := by
  cases t with
  | plain b => exact h.base fun r hr => hvisit r (hr ▸ rfl)
  | array b n =>
    have hb := h.base (b := b) fun r hr => hvisit r (hr ▸ rfl)
    exact (follows_times hb n).bind fun _ => follows_pure _
  | vector b n =>
    have hb := h.base (b := b) fun r hr => hvisit r (hr ▸ rfl)
    exact (h.length n).bind fun count => (follows_times hb count).bind fun _ => follows_pure _
  | optional b =>
    refine (h.word 4).bind fun flag => ?_
    split
    · exact follows_pure _
    · split
      · exact h.base fun r hr => hvisit r (hr ▸ rfl)
      · exact follows_throw (h.discriminant _)
  | fixedBytes n => exact h.data n
  | bytes n | string n => exact (h.length n).bind fun count => h.data count

theorem Lawful.fields (h : S.Lawful) {fs : List Schema.Field}
    (hvisit : ∀ f ∈ fs, ∀ r, f.type.target? = some r → S.Follows (visit r.name) (visit' r.name)) :
    S.Follows (Decoder.fields visit fs) (Decoder.fields visit' fs) := by
  induction fs with
  | nil => exact follows_pure []
  | cons f fs ih =>
    rw [List.forall_mem_cons] at hvisit
    exact (h.type hvisit.1).bind fun _ => (ih hvisit.2).bind fun _ => follows_pure _

/-- Readers of one definition correspond if those of the definitions it mentions do. -/
theorem Lawful.definition (h : S.Lawful) {d : Definition}
    (hvisit : ∀ t ∈ d.members, ∀ r, t.target? = some r → S.Follows (visit r.name) (visit' r.name))
    (name : String) :
    S.Follows (Decoder.definition visit name d) (Decoder.definition visit' name d) := by
  cases d with
  | typedef t => exact (h.type (hvisit t List.mem_cons_self)).bind fun _ => follows_pure _
  | struct fs =>
    refine (h.fields fun f hf r hr => ?_).bind fun _ => follows_pure _
    exact hvisit f.type (List.mem_map_of_mem hf) r hr
  | enum labels =>
    refine (h.word 4).bind fun w => ?_
    dsimp only
    split
    · exact follows_pure _
    · exact follows_throw (h.enumValue _)
  | union u =>
    refine (h.unionDiscriminant u).bind fun n => ?_
    split
    · next a harm =>
      have hpayload : S.Follows (payload visit a) (payload visit' a) := by
        unfold payload
        cases hfield : a.field with
        | none => exact follows_pure _
        | some f =>
          have hmember := Schema.Union.type_mem_members (mem_allArms_of_armFor? harm) hfield
          exact h.type fun r hr => hvisit f.type hmember r hr
      exact hpayload.bind fun _ => follows_pure _
    · exact follows_throw (h.discriminant _)

/-- So do the readers of a schema, if the limit and unknown names do. -/
theorem Lawful.read (h : S.Lawful) (c : Codec) (hensure : ∀ n, S.Follows (ensure n) (ensure n))
    (hdepth : S.Answers (.depth c.maxDepth) (some (.depth c.maxDepth)))
    (hname : ∀ name, S.Answers (.notType name) (some (.notType name))) (levels : Nat)
    (name : String) : S.Follows (c.read levels name) (c.read levels name) := by
  induction levels generalizing name with
  | zero => exact (hensure _).bind fun _ => follows_throw hdepth
  | succ levels ih =>
    refine (hensure _).bind fun _ => ?_
    split
    · exact h.definition (fun _ _ r _ => ih r.name) name
    · exact follows_throw (hname name)

/-! ### A reading and itself -/

/-- A reading that begins within the input stays there, and fails only with some faults. -/
def inside (E : DecodeError → Prop) : Simulation where
  At input p input' p' := input' = input ∧ p' = p ∧ 0 ≤ p ∧ p ≤ input.length
  Answers e o := o = some e ∧ E e
  of_none _ _ h := nomatch h.1

variable {E : DecodeError → Prop} (hend : ∀ n left, E (.endOfInput n left))

/-- What holds of one reading makes it correspond to itself. -/
theorem follows_inside {x : Decoder α}
    (hreads : ∀ input p a q, 0 ≤ p → p ≤ input.length → Reads x input p a q →
      0 ≤ q ∧ q ≤ input.length)
    (hfault : ∀ input p e, 0 ≤ p → (x.run input).run p = .error e → E e) :
    (inside E).Follows x x := by
  rintro _ _ input p ⟨rfl, rfl, hp, hle⟩
  refine ⟨fun a q ha => ⟨q, ha, rfl, rfl, hreads input p a q hp hle ha⟩, fun e he => ⟨?_, ?_⟩⟩
  · rw [he]
    rfl
  · exact hfault input p e hp he

include hend

theorem inside_peeks (hpadding : ∀ offset, E (.padding offset)) {x : Decoder α} {n : Nat}
    {make : List UInt8 → Option α} (hx : Peeks x n make) : (inside E).Follows x x := by
  refine follows_inside (fun input p a q hp _ ha => ?_) fun input p e hp he => ?_
  · obtain ⟨hle, rfl⟩ := hx.stop hp ha
    omega
  · rw [hx input p hp] at he
    split at he
    · split at he
      · cases he
      · cases he
        exact hpadding p
    · cases he
      exact hend _ _

theorem inside_ensure (n : Int) : (inside E).Follows (ensure n) (ensure n) := by
  refine follows_inside (fun input p a q hp hle ha => ?_) fun input p e hp he => ?_
  · obtain ⟨-, rfl⟩ := reads_ensure.mp ha
    exact ⟨hp, hle⟩
  · rw [run_ensure] at he
    split at he
    · cases he
    · cases he
      exact hend _ _

end Simulation

namespace Codec

/-- The reader stays within the input. -/
theorem stop_le_of_decodeFrom {c : Codec} {name : String} {buffer : List UInt8} {offset stop : Int}
    {v : Value} (hoffset : 0 ≤ offset) (hle : offset ≤ buffer.length)
    (h : c.decodeFrom name buffer offset = .ok (v, stop)) : stop ≤ buffer.length := by
  unfold decodeFrom at h
  split at h
  · have hlawful : (Simulation.inside fun _ => True).Lawful :=
      .of_peeks (Simulation.inside_peeks (fun _ _ => trivial) fun _ => trivial)
        (fun _ => ⟨rfl, trivial⟩) (fun _ => ⟨rfl, trivial⟩) (fun _ _ => ⟨rfl, trivial⟩)
    have hfollows := hlawful.read c (Simulation.inside_ensure fun _ _ => trivial) ⟨rfl, trivial⟩
      (fun _ => ⟨rfl, trivial⟩) c.maxDepth.toNat name
    obtain ⟨q, hq, hat⟩ := (hfollows buffer offset _ _ ⟨rfl, rfl, hoffset, hle⟩).1 v stop h
    exact hat.2.2.2
  · cases h

end Codec

end XdrSchema.Wire
