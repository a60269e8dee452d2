import XdrSchema.Proofs.Wire.RoundTrip
import XdrSchema.Proofs.Wire.Simulation

/-! The budget for nested definitions. With a smaller budget the reader reads what nests no deeper, and
otherwise ends as it would with a larger one or reports the limit. -/
namespace XdrSchema.Wire

open Schema (Ref Ty Definition Arm Union)

namespace Decoder

variable {α β γ : Type}

/-- The first reader reads what fits of that which the second one reads. -/
def Narrows (fits : α → Prop) (x y : Decoder α) : Prop :=
  ∀ input p a q, Reads x input p a q ↔ Reads y input p a q ∧ fits a

variable {F : α → Prop} {G : β → Prop} {H : γ → Prop}

theorem narrows_refl {x : Decoder α} (h : ∀ input p a q, Reads x input p a q → F a) :
    Narrows F x x :=
  fun input p a q => ⟨fun ha => ⟨ha, h input p a q ha⟩, fun ha => ha.1⟩

theorem narrows_pure {a : α} (h : F a) : Narrows F (pure a) (pure a) := by
  apply narrows_refl
  intro input p b q hb
  obtain ⟨rfl, -⟩ := reads_pure.mp hb
  exact h

theorem narrows_throw {e : DecodeError} : Narrows F (throw e) (throw e) :=
  narrows_refl fun _ _ _ _ h => absurd h not_reads_throw

theorem narrows_after {z : Decoder α} {f g : α → Decoder β} (h : ∀ a, Narrows G (f a) (g a)) :
    Narrows G (z >>= f) (z >>= g) := by
  intro input p b q
  simp only [reads_bind, h _ _ _ _ _, ← and_assoc, exists_and_right]

theorem narrows_return {x y : Decoder α} (hx : Narrows F x y) (make : α → β)
    (h : ∀ a, G (make a) ↔ F a) :
    Narrows G (x >>= fun a => pure (make a)) (y >>= fun a => pure (make a)) := by
  intro input p b q
  simp only [reads_bind, reads_pure, hx _ _ _ _]
  constructor
  · rintro ⟨a, r, ⟨ha, hF⟩, rfl, rfl⟩
    exact ⟨⟨a, q, ha, rfl, rfl⟩, (h a).mpr hF⟩
  · rintro ⟨⟨a, r, ha, rfl, rfl⟩, hG⟩
    exact ⟨a, q, ⟨ha, (h a).mp hG⟩, rfl, rfl⟩

theorem narrows_pair {x y : Decoder α} {xs ys : Decoder β} (hx : Narrows F x y)
    (hxs : Narrows G xs ys) (make : α → β → γ) (h : ∀ a b, H (make a b) ↔ F a ∧ G b) :
    Narrows H (x >>= fun a => xs >>= fun b => pure (make a b))
      (y >>= fun a => ys >>= fun b => pure (make a b)) := by
  intro input p c q
  simp only [reads_bind, reads_pure, hx _ _ _ _, hxs _ _ _ _]
  constructor
  · rintro ⟨a, r, ⟨ha, hF⟩, b, _, ⟨hb, hG⟩, rfl, rfl⟩
    exact ⟨⟨a, r, ha, b, _, hb, rfl, rfl⟩, (h a b).mpr ⟨hF, hG⟩⟩
  · rintro ⟨⟨a, r, ha, b, _, hb, rfl, rfl⟩, hH⟩
    obtain ⟨hF, hG⟩ := (h a b).mp hH
    exact ⟨a, r, ⟨ha, hF⟩, b, _, ⟨hb, hG⟩, rfl, rfl⟩

/-! ### What nests nothing -/

variable {input : List UInt8} {p q : Int} {v : Value}

theorem nesting_of_primitive {k : Primitive} (h : Reads (primitive k) input p v q) :
    v.nesting = 0 := by
  cases k with
  | bool =>
    obtain ⟨n, r, -, h⟩ := reads_bind.mp h
    split at h
    · obtain ⟨rfl, -⟩ := reads_pure.mp h
      rfl
    · split at h
      · obtain ⟨rfl, -⟩ := reads_pure.mp h
        rfl
      · exact absurd h not_reads_throw
  | _ =>
    obtain ⟨n, r, -, h⟩ := reads_bind.mp h
    obtain ⟨rfl, -⟩ := reads_pure.mp h
    rfl

theorem nesting_of_data {n : Nat} (h : Reads (data n) input p v q) : v.nesting = 0 := by
  simp only [data, reads_bind, reads_pure] at h
  obtain ⟨bytes, _, _, _, _, _, rfl, _⟩ := h
  rfl

theorem nesting_pos_of_definition {visit : String → Decoder Value} {name : String} {d : Definition}
    (h : Reads (definition visit name d) input p v q) : 0 < v.nesting := by
  cases d with
  | typedef t | struct fs =>
    obtain ⟨a, r, -, h⟩ := reads_bind.mp h
    obtain ⟨rfl, -⟩ := reads_pure.mp h
    exact Nat.succ_pos _
  | enum labels =>
    obtain ⟨w, r, -, h⟩ := reads_bind.mp h
    dsimp only at h
    split at h
    · obtain ⟨rfl, -⟩ := reads_pure.mp h
      exact Nat.succ_pos _
    · exact absurd h not_reads_throw
  | union u =>
    obtain ⟨n, r, -, h⟩ := reads_bind.mp h
    split at h
    · obtain ⟨a, r, -, h⟩ := reads_bind.mp h
      obtain ⟨rfl, -⟩ := reads_pure.mp h
      exact Nat.succ_pos _
    · exact absurd h not_reads_throw

/-! ### The reader of a definition -/

variable {visit visit' : String → Decoder Value} {levels : Nat}
  (h : ∀ name, Narrows (fun v => v.nesting ≤ levels) (visit name) (visit' name))

theorem narrows_times {x y : Decoder Value} (hx : Narrows (fun v => v.nesting ≤ levels) x y)
    (n : Nat) : Narrows (fun vs => Value.nestingAll vs ≤ levels) (times x n) (times y n) := by
  induction n with
  | zero => exact narrows_pure (Nat.zero_le levels)
  | succ n ih => exact narrows_pair hx ih List.cons fun v vs => Nat.max_le

theorem narrows_leaf {x : Decoder Value} (hx : ∀ input p v q, Reads x input p v q → v.nesting = 0) :
    Narrows (fun v => v.nesting ≤ levels) x x :=
  narrows_refl fun input p v q hv => by rw [hx input p v q hv]; exact Nat.zero_le levels

include h

theorem narrows_base (b : Base Ref) :
    Narrows (fun v => v.nesting ≤ levels) (base visit b) (base visit' b) := by
  cases b with
  | primitive k => exact narrows_leaf fun _ _ _ _ => nesting_of_primitive
  | named r => exact h r.name

theorem narrows_type (t : Ty) :
    Narrows (fun v => v.nesting ≤ levels) (type visit t) (type visit' t) := by
  cases t with
  | plain b => exact narrows_base h b
  | array b n => exact narrows_return (narrows_times (narrows_base h b) n) Value.list fun _ => Iff.rfl
  | vector b n =>
    exact narrows_after fun count =>
      narrows_return (narrows_times (narrows_base h b) count) Value.list fun _ => Iff.rfl
  | optional b =>
    refine narrows_after fun flag => ?_
    split
    · exact narrows_pure (Nat.zero_le levels)
    · split
      · exact narrows_base h b
      · exact narrows_throw
  | fixedBytes n => exact narrows_leaf fun _ _ _ _ => nesting_of_data
  | bytes n | string n =>
    exact narrows_after fun count => narrows_leaf fun _ _ _ _ => nesting_of_data

theorem narrows_fields (fs : List Schema.Field) :
    Narrows (fun vs => Value.nestingFields vs ≤ levels) (fields visit fs) (fields visit' fs) := by
  induction fs with
  | nil => exact narrows_pure (Nat.zero_le levels)
  | cons f fs ih =>
    exact narrows_pair (narrows_type h f.type) ih (fun v vs => (f.name, v) :: vs) fun v vs => Nat.max_le

theorem narrows_definition (name : String) (d : Definition) :
    Narrows (fun v => v.nesting ≤ levels + 1) (definition visit name d) (definition visit' name d) := by
  cases d with
  | typedef t =>
    exact narrows_return (narrows_type h t) (Value.typedef name) fun _ => Nat.succ_le_succ_iff
  | struct fs =>
    exact narrows_return (narrows_fields h fs) (Value.struct name) fun _ => Nat.succ_le_succ_iff
  | enum labels =>
    refine narrows_after fun w => ?_
    dsimp only
    split
    · exact narrows_pure (Nat.le_add_left 1 levels)
    · exact narrows_throw
  | union u =>
    refine narrows_after fun n => ?_
    split
    · next a harm =>
      have hpayload : Narrows (fun v => v.nesting ≤ levels) (payload visit a) (payload visit' a) := by
        unfold payload
        cases a.field with
        | none => exact narrows_pure (Nat.zero_le levels)
        | some f => exact narrows_type h f.type
      exact narrows_return hpayload (fun v => Value.union name a.variant (.int n) v)
        fun _ => Nat.succ_le_succ_iff
    · exact narrows_throw

end Decoder

/-! ### The limit -/

/-- A reading of the same input that may end at the limit instead. -/
def limited (limit : Int) : Simulation where
  At input p input' p' := input = input' ∧ p = p'
  Answers e o := e = .depth limit ∨ o = some e
  of_none _ _ h := .inl (h.resolve_right nofun)

section Limited

open Decoder

variable {α : Type} {limit : Int}

theorem limited_refl (x : Decoder α) : (limited limit).Follows x x := by
  rintro input p _ _ ⟨rfl, rfl⟩
  refine ⟨fun a q ha => ⟨q, ha, rfl, rfl⟩, fun e he => .inr ?_⟩
  rw [he]
  rfl

theorem limited_throw (y : Decoder α) : (limited limit).Follows (throw (.depth limit)) y := by
  intro input p input' p' _
  refine ⟨fun a q ha => absurd ha not_reads_throw, fun e he => .inl ?_⟩
  cases he
  rfl

theorem limited_lawful : (limited limit).Lawful where
  word _ := limited_refl _
  take _ := limited_refl _
  skipPadding _ := limited_refl _
  discriminant _ := .inr rfl
  enumValue _ := .inr rfl
  tooLong _ _ := .inr rfl

end Limited

namespace Codec

/-- An outcome under a limit, beside that under a larger limit: they agree on a value that nests no
deeper, and on faults unless the limit is reported. -/
structure Capped {α : Type} (limit : Int) (value : α → Value) (small large : Except DecodeError α) :
    Prop where
  agree : small = large ∨ small = .error (.depth limit)
  within : ∀ a, large = .ok a → (value a).nesting ≤ limit → small = .ok a
  beyond : ∀ a, large = .ok a → limit < (value a).nesting → small = .error (.depth limit)

theorem capped_run {limit : Int} {x y : Decoder Value} (hxy : (limited limit).Follows x y)
    (hnarrows : Decoder.Narrows (fun v => v.nesting ≤ limit.toNat) x y)
    (hpos : ∀ input p v q, Decoder.Reads y input p v q → 0 < v.nesting) (input : List UInt8) (p : Int) :
    Capped limit (·.1) ((x.run input).run p) ((y.run input).run p) := by
  obtain ⟨hreads, hfault⟩ := hxy input p _ _ ⟨rfl, rfl⟩
  have hagree : (x.run input).run p = (y.run input).run p ∨
      (x.run input).run p = .error (.depth limit) := by
    cases hrun : (x.run input).run p with
    | ok r =>
      obtain ⟨q, hq, -, rfl⟩ := hreads r.1 r.2 hrun
      exact .inl hq.symm
    | error e =>
      rcases hfault e hrun with rfl | hsame
      · exact .inr rfl
      · exact .inl (fault?_eq_some_iff.mp hsame).symm
  constructor
  case agree => exact hagree
  case within =>
    rintro ⟨v, q⟩ hv hle
    have hpos := hpos input p v q hv
    dsimp only at hle
    exact (hnarrows input p v q).mpr ⟨hv, by omega⟩
  case beyond =>
    rintro ⟨v, q⟩ hv hlt
    refine hagree.resolve_left fun heq => ?_
    have hpos := hpos input p v q hv
    have hle := ((hnarrows input p v q).mp (heq.trans hv)).2
    dsimp only at hlt hle
    omega

theorem nesting_pos_of_read {c : Codec} {levels : Nat} {name : String} {input : List UInt8}
    {p q : Int} {v : Value} (h : Decoder.Reads (c.read levels name) input p v q) : 0 < v.nesting := by
  cases levels with
  | zero =>
    obtain ⟨_, r, -, h⟩ := Decoder.reads_bind.mp h
    exact absurd h Decoder.not_reads_throw
  | succ levels =>
    obtain ⟨_, r, -, h⟩ := Decoder.reads_bind.mp h
    split at h
    · exact Decoder.nesting_pos_of_definition h
    · exact absurd h Decoder.not_reads_throw

variable (s : Schema) (small large : Int)

theorem read_succ (limit : Int) (levels : Nat) (name : String) :
    (ofSchema s limit).read (levels + 1) name = (do
      Decoder.ensure ((SizeTable.ofSchema s).get name).min
      match s.definition? name with
      | some d => Decoder.definition ((ofSchema s limit).read levels) name d
      | none => throw (.notType name)) := rfl

/-- A step down takes a level from each budget; the smaller one is used up first. -/
theorem limited_read {levels levels' : Nat} (h : levels ≤ levels') (name : String) :
    (limited small).Follows ((ofSchema s small).read levels name)
      ((ofSchema s large).read levels' name) := by
  induction levels generalizing levels' name with
  | zero => cases levels' <;> exact (limited_refl _).bind fun _ => limited_throw _
  | succ levels ih =>
    cases levels' with
    | zero => cases h
    | succ levels' =>
      rw [read_succ, read_succ]
      refine (limited_refl _).bind fun _ => ?_
      cases s.definition? name with
      | none => exact limited_refl _
      | some d =>
        exact limited_lawful.definition (fun _ _ r _ => ih (Nat.le_of_succ_le_succ h) r.name) name

theorem narrows_read {levels levels' : Nat} (h : levels ≤ levels') (name : String) :
    Decoder.Narrows (fun v => v.nesting ≤ levels) ((ofSchema s small).read levels name)
      ((ofSchema s large).read levels' name) := by
  induction levels generalizing levels' name with
  | zero =>
    intro input p v q
    constructor
    · intro hv
      obtain ⟨_, r, -, hv⟩ := Decoder.reads_bind.mp hv
      exact absurd hv Decoder.not_reads_throw
    · rintro ⟨hv, hnesting⟩
      exact absurd hnesting (Nat.not_le.mpr (nesting_pos_of_read hv))
  | succ levels ih =>
    cases levels' with
    | zero => cases h
    | succ levels' =>
      rw [read_succ, read_succ]
      refine Decoder.narrows_after fun _ => ?_
      cases s.definition? name with
      | none => exact Decoder.narrows_throw
      | some d => exact Decoder.narrows_definition (ih (Nat.le_of_succ_le_succ h)) name d

variable {s small large}

theorem capped_decodeFrom (h : small ≤ large) (name : String) (buffer : List UInt8) (offset : Int) :
    Capped small (·.1) ((ofSchema s small).decodeFrom name buffer offset)
      ((ofSchema s large).decodeFrom name buffer offset) := by
  have hlevels : small.toNat ≤ large.toNat := Int.toNat_le_toNat h
  by_cases hname : (s.definition? name).isSome
  · have hsmall : (ofSchema s small).decodeFrom name buffer offset = _ := if_pos hname
    have hlarge : (ofSchema s large).decodeFrom name buffer offset = _ := if_pos hname
    rw [hsmall, hlarge]
    exact capped_run (limited_read s small large hlevels name) (narrows_read s small large hlevels name)
      (fun _ _ _ _ => nesting_pos_of_read) buffer offset
  · have hsmall : (ofSchema s small).decodeFrom name buffer offset = .error (.notType name) :=
      if_neg hname
    have hlarge : (ofSchema s large).decodeFrom name buffer offset = .error (.notType name) :=
      if_neg hname
    rw [hsmall, hlarge]
    exact ⟨.inl rfl, nofun, nofun⟩

theorem capped_decode (h : small ≤ large) (name : String) (buffer : List UInt8) :
    Capped small id ((ofSchema s small).decode name buffer) ((ofSchema s large).decode name buffer) := by
  have hfrom := capped_decodeFrom (s := s) h name buffer 0
  constructor
  · apply hfrom.agree.imp <;> intro heq <;> rw [decode, heq]
    · rfl
    · rfl
  · intro v hv hle
    rw [decode, hfrom.within _ (decodeFrom_of_decode hv) hle]
    exact if_pos rfl
  · intro v hv hlt
    rw [decode, hfrom.beyond _ (decodeFrom_of_decode hv) hlt]
    rfl

/-- The budget limits how deep definitions nest, and nothing else. -/
theorem decode_capped (s : Schema) {small large : Int} (h : small ≤ large) (name : String)
    (buffer : List UInt8) :
    Capped small id ((ofSchema s small).decode name buffer) ((ofSchema s large).decode name buffer) ∧
      ∀ offset, Capped small (·.1) ((ofSchema s small).decodeFrom name buffer offset)
        ((ofSchema s large).decodeFrom name buffer offset) :=
  ⟨capped_decode h name buffer, capped_decodeFrom h name buffer⟩

/-- The sample bytes nest four deep: three levels are too few for them. -/
theorem decode_capped_sample : sampleValue.nesting = 4 ∧
    (ofSchema Schema.sampleSchema 3).decode "L" sampleBytes = .error (.depth 3) := by
  have hnesting : sampleValue.nesting = 4 := by decide +kernel
  have hlimit : (3 : Int) ≤ 4 := by decide
  refine ⟨hnesting, (decode_capped Schema.sampleSchema hlimit "L" sampleBytes).1.beyond _
    decode_sampleBytes ?_⟩
  rw [id, hnesting]
  decide

end Codec

end XdrSchema.Wire
