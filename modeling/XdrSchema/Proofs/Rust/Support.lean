import Mathlib.Algebra.Group.Nat.Defs
import XdrSchema.Proofs.Rust.Machine
import XdrSchema.Proofs.Wire.Simulation
import XdrSchema.Proofs.Wire.Word

/-! The support functions of generated modules against the steps of the reader. Run from one place of one
buffer, a function and its step end at the same place with corresponding values, or fail in the same way;
nothing overflows. -/
namespace XdrSchema.Rust

open Wire (DecodeError Decoder)

/-! ### Agreement -/

/-- The same kind of error, with the same number where both have it. -/
inductive SameError : XdrError → DecodeError → Prop
  | endOfInput (needed available : Int) : SameError .unexpectedEof (.endOfInput needed available)
  | discriminant (n : Int64) : SameError (.invalidUnionDiscriminant n) (.discriminant n.toInt)
  | enumValue (n : Int64) : SameError (.invalidEnumValue n) (.enumValue n.toInt)
  | tooLong (max actual : UInt32) :
    SameError (.lengthExceedsBound max actual) (.tooLong max.toNat actual.toNat)
  | padding (offset : Int) : SameError .nonZeroPadding (.padding offset)
  | depth (limit : Int) : SameError .depthLimitExceeded (.depth limit)

section Agreement

variable {α β α' β' : Type}

/-- Corresponding values and the same place of the buffer, at the depth of the start; or the same error. -/
inductive Agrees (R : α → β → Prop) (buf : List UInt8) (depth : UInt32) :
    Except Halt (α × Cursor) → Except DecodeError (β × Int) → Prop
  | value {a : α} {b : β} {pos : UInt64} (h : R a b) (hpos : pos.toNat ≤ buf.length) :
    Agrees R buf depth (.ok (a, ⟨buf, pos, depth⟩)) (.ok (b, pos.toNat))
  | error {e : XdrError} {e' : DecodeError} (h : SameError e e') :
    Agrees R buf depth (.error (.error e)) (.error e')

theorem Agrees.exists_value {R : α → β → Prop} {buf : List UInt8} {depth : UInt32} {r : Except Halt (α × Cursor)}
    {b : β} {stop : Int} (h : Agrees R buf depth r (.ok (b, stop))) :
    ∃ a pos, r = .ok (a, ⟨buf, pos, depth⟩) ∧ R a b ∧ (pos.toNat : Int) = stop := by
  cases h with
  | value h _ => exact ⟨_, _, rfl, h, rfl⟩

/-- From every place of every buffer, both agree. -/
def Refines (R : α → β → Prop) (depth : UInt32) (x : Machine α) (y : Decoder β) : Prop :=
  ∀ (buf : List UInt8) (pos : UInt64), buf.length < 2 ^ 63 → pos.toNat ≤ buf.length →
    Agrees R buf depth (x.run ⟨buf, pos, depth⟩) ((y.run buf).run pos.toNat)

variable {R : α → β → Prop} {R' : α' → β' → Prop} {depth : UInt32} {x : Machine α} {y : Decoder β}

theorem refines_pure {a : α} {b : β} (h : R a b) : Refines R depth (pure a) (pure b) :=
  fun _ _ _ hpos => .value h hpos

theorem refines_fail {e : XdrError} {e' : DecodeError} (h : SameError e e') :
    Refines R depth (Machine.fail e) (throw e') := fun _ _ _ _ => .error h

theorem Refines.mono {S : α → β → Prop} (h : Refines R depth x y) (hR : ∀ a b, R a b → S a b) :
    Refines S depth x y := by
  intro buf pos hlen hpos
  have hagrees := h buf pos hlen hpos
  generalize x.run ⟨buf, pos, depth⟩ = r, (y.run buf).run (pos.toNat : Int) = r' at hagrees
  cases hagrees with
  | value hab hpos => exact .value (hR _ _ hab) hpos
  | error he => exact .error he

theorem Refines.bind {f : α → Machine α'} {g : β → Decoder β'} (hx : Refines R depth x y)
    (hf : ∀ a b, R a b → Refines R' depth (f a) (g b)) : Refines R' depth (x >>= f) (y >>= g) := by
  intro buf pos hlen hpos
  rw [Decoder.run_bind]
  change Agrees R' buf depth ((x.run ⟨buf, pos, depth⟩).bind fun r => (f r.1).run r.2) _
  have h := hx buf pos hlen hpos
  generalize x.run ⟨buf, pos, depth⟩ = r, (y.run buf).run (pos.toNat : Int) = r' at h
  cases h with
  | value hab hpos => exact hf _ _ hab buf _ hlen hpos
  | error he => exact .error he

end Agreement

/-! ### Words as numbers -/

theorem toInt_toInt64_toUInt64 (n : UInt32) : n.toUInt64.toInt64.toInt = n.toNat := by
  have hlt := n.toNat_lt
  have hword : n.toUInt64 = UInt64.ofNat n.toNat := by rw [← UInt32.toNat_toUInt64, UInt64.ofNat_toNat]
  rw [hword, UInt64.toInt64_ofNat', Int64.toInt_ofNat_of_lt (by omega)]

theorem toInt_toInt32 (n : UInt32) : n.toInt32.toInt = Wire.signed 4 n.toNat := by
  have hlt := n.toNat_lt
  have hword : n.toInt32 = Int32.ofNat n.toNat := by rw [← UInt32.toInt32_ofNat', UInt32.ofNat_toNat]
  rw [hword, Int32.toInt_ofNat', Int.bmod_def, Wire.signed]
  simp only [Int32.size, Wire.wordCount]
  omega

theorem toInt_toInt64 (n : UInt64) : n.toInt64.toInt = Wire.signed 8 n.toNat := by
  have hlt := n.toNat_lt
  have hword : n.toInt64 = Int64.ofNat n.toNat := by rw [← UInt64.toInt64_ofNat', UInt64.ofNat_toNat]
  rw [hword, Int64.toInt_ofNat', Int.bmod_def, Wire.signed]
  simp only [Int64.size, Wire.wordCount]
  omega

/-- One level fewer, where there is one. -/
theorem toNat_sub_one {depth : UInt32} (h : depth ≠ 0) : (depth - 1).toNat + 1 = depth.toNat := by
  have hpos : depth.toNat ≠ 0 := fun hzero => h (UInt32.toNat_inj.mp hzero)
  have hle : 1 ≤ depth := by
    rw [UInt32.le_iff_toNat_le, UInt32.toNat_one]
    omega
  rw [UInt32.toNat_sub_of_le _ _ hle, UInt32.toNat_one]
  omega

namespace Machine

variable {buf : List UInt8} {pos : UInt64} {depth : UInt32}

/-! ### Reading bytes -/

theorem run_remaining (hlen : buf.length < 2 ^ 63) (hpos : pos.toNat ≤ buf.length) :
    remaining.run ⟨buf, pos, depth⟩ = .ok (UInt64.ofNat (buf.length - pos.toNat), ⟨buf, pos, depth⟩) := by
  have hsize : (UInt64.ofNat buf.length).toNat = buf.length :=
    UInt64.toNat_ofNat_of_lt' (Nat.lt_trans hlen (by decide))
  have hle : ¬ UInt64.ofNat buf.length < pos := by rw [UInt64.lt_iff_toNat_lt]; omega
  have hleft : UInt64.ofNat buf.length - pos = UInt64.ofNat (buf.length - pos.toNat) := by
    rw [UInt64.ofNat_sub hpos, UInt64.ofNat_toNat]
  rw [← hleft]
  change (if UInt64.ofNat buf.length < pos then _ else _ : Machine UInt64).run _ = _
  rw [if_neg hle]
  rfl

theorem run_get_bind {α : Type} (f : Cursor → Machine α) (c : Cursor) : (get >>= f).run c = (f c).run c := rfl

theorem run_take (n : UInt64) (hlen : buf.length < 2 ^ 63) : (take n).run ⟨buf, pos, depth⟩ =
    if pos.toNat + n.toNat ≤ buf.length then
      .ok ((buf.drop pos.toNat).take n.toNat, ⟨buf, pos + n, depth⟩)
    else .error (.error .unexpectedEof) := by
  unfold take
  rw [run_get_bind]
  by_cases hfits : pos.toNat + n.toNat < UInt64.size
  · have hstop : (pos + n).toNat = pos.toNat + n.toNat := by
      rw [UInt64.toNat_add, Nat.mod_eq_of_lt hfits]
    have hle : pos ≤ pos + n := by rw [UInt64.le_iff_toNat_le]; omega
    simp only [checkedAdd?, if_pos hfits, range?, hle, true_and, hstop]
    by_cases hin : pos.toNat + n.toNat ≤ buf.length
    · simp only [if_pos hin, List.drop_take, Nat.add_sub_cancel_left]
      rfl
    · simp only [if_neg hin]
      rfl
  · simp only [checkedAdd?, if_neg hfits]
    rw [if_neg fun hin => hfits ?_]
    · rfl
    · exact Nat.lt_of_le_of_lt hin (Nat.lt_trans hlen (by decide))

variable {α β : Type} {R : α → β → Prop}

/-- A step that looks at some bytes, and what is made of these bytes once they are taken. -/
theorem refines_take_bind {y : Decoder β} {n : UInt64} {make : List UInt8 → Option β}
    (hy : Decoder.Peeks y n.toNat make) {f : List UInt8 → Machine α}
    (hf : ∀ bytes, bytes.length = n.toNat → match make bytes with
      | some b => ∃ a, f bytes = pure a ∧ R a b
      | none => f bytes = fail .nonZeroPadding) : Refines R depth (take n >>= f) y := by
  intro buf pos hlen hpos
  have hplace : (0 : Int) ≤ pos.toNat := Int.natCast_nonneg _
  rw [hy buf pos.toNat hplace, Decoder.slice_of_nonneg hplace, Int.toNat_natCast]
  change Agrees R buf depth (((take n).run ⟨buf, pos, depth⟩).bind fun r => (f r.1).run r.2) _
  rw [run_take n hlen]
  by_cases hin : pos.toNat + n.toNat ≤ buf.length
  · have hstop : (pos + n).toNat = pos.toNat + n.toNat := by
      rw [UInt64.toNat_add, Nat.mod_eq_of_lt (by omega)]
    have hbytes : ((buf.drop pos.toNat).take n.toNat).length = n.toNat := by
      rw [List.length_take, List.length_drop]
      omega
    have hmade := hf _ hbytes
    rw [if_pos hin, if_pos (by omega), show ((pos.toNat : Int) + n.toNat) = (pos + n).toNat by omega]
    dsimp only [Except.bind]
    revert hmade
    cases make ((buf.drop pos.toNat).take n.toNat) with
    | some b =>
      rintro ⟨a, ha, hab⟩
      rw [ha]
      exact .value hab (by omega)
    | none =>
      intro hmade
      rw [hmade]
      exact .error (.padding _)
  · rw [if_neg hin, if_neg (by omega)]
    exact .error (.endOfInput _ _)

theorem refines_take (n : UInt64) : Refines Eq depth (take n) (Decoder.take n.toNat) := by
  rw [← bind_pure (take n)]
  exact refines_take_bind (Decoder.peeks_take _) fun bytes _ => ⟨bytes, rfl, rfl⟩

theorem refines_readU32 : Refines (fun n w => n.toNat = w) depth readU32 (Decoder.word 4) := by
  refine refines_take_bind (Decoder.peeks_word 4) ?_
  intro bytes hbytes
  refine ⟨_, rfl, ?_⟩
  have hlt := Wire.wordOf_lt bytes
  rw [hbytes] at hlt
  exact UInt32.toNat_ofNat_of_lt' hlt

theorem refines_readU64 : Refines (fun n w => n.toNat = w) depth readU64 (Decoder.word 8) := by
  refine refines_take_bind (Decoder.peeks_word 8) ?_
  intro bytes hbytes
  refine ⟨_, rfl, ?_⟩
  have hlt := Wire.wordOf_lt bytes
  rw [hbytes] at hlt
  exact UInt64.toNat_ofNat_of_lt' hlt

theorem toNat_padding (len : UInt64) : ((4 - len % 4) % 4).toNat = Wire.padding len.toNat := by
  have hle : len % 4 ≤ 4 := by
    rw [UInt64.le_iff_toNat_le, UInt64.toNat_mod]
    exact Nat.le_of_lt (Nat.mod_lt _ (by decide))
  rw [UInt64.toNat_mod, UInt64.toNat_sub_of_le _ _ hle, UInt64.toNat_mod]
  rfl

theorem refines_readPadding (len : UInt64) :
    Refines (fun _ _ => True) depth (readPadding len) (Decoder.skipPadding len.toNat) := by
  refine refines_take_bind (toNat_padding len ▸ Decoder.peeks_skipPadding len.toNat) fun bytes _ => ?_
  by_cases hany : bytes.any (· ≠ 0)
  · simp only [if_pos hany]
  · rw [if_neg hany, if_neg hany]
    exact ⟨(), rfl, trivial⟩

/-! ### Lengths and opaque data -/

/-- An argument for a bound is the limit of the step. -/
theorem toNat_maxArgument {bound : Option Nat} (hbound : ∀ n ∈ bound, n ≤ Wire.maxLength) :
    (maxArgument bound).toNat = bound.getD Wire.maxLength := by
  cases bound with
  | none => rfl
  | some n =>
    have hn := hbound n rfl
    rw [Wire.maxLength] at hn
    exact UInt32.toNat_ofNat_of_lt' (Nat.lt_of_le_of_lt hn (by decide))

theorem refines_readLength {bound : Option Nat} (hbound : ∀ n ∈ bound, n ≤ Wire.maxLength) :
    Refines (fun n m => n.toNat = m) depth (readLength (maxArgument bound)) (Decoder.length bound) := by
  refine refines_readU32.bind ?_
  rintro n _ rfl
  simp only [UInt32.lt_iff_toNat_lt, toNat_maxArgument hbound]
  split
  · have htooLong := SameError.tooLong (maxArgument bound) n
    rw [toNat_maxArgument hbound] at htooLong
    exact fun _ _ _ _ => .error htooLong
  · exact refines_pure (UInt32.toNat_toUInt64 n)

theorem refines_readFixedOpaque (n : UInt64) :
    Refines (fun bytes v => v = .bytes bytes) depth (readFixedOpaque n) (Decoder.data n.toNat) := by
  refine (refines_take n).bind ?_
  rintro bytes _ rfl
  exact (refines_readPadding n).bind fun _ _ _ => refines_pure rfl

theorem refines_readOpaque {bound : Option Nat} (hbound : ∀ n ∈ bound, n ≤ Wire.maxLength) :
    Refines (fun bytes v => v = .bytes bytes) depth (readOpaque (maxArgument bound))
      (Decoder.length bound >>= Decoder.data) := by
  refine (refines_readLength hbound).bind ?_
  rintro len _ rfl
  exact refines_readFixedOpaque len

/-! ### Arrays and optional data -/

section Items

variable {x : Machine α} {y : Decoder β}

theorem refines_pushed (h : Refines R depth x y) (n : Nat) :
    Refines (fun as bs => List.Forall₂ R as bs ∧ as.length = n) depth (pushed x n) (Decoder.times y n) := by
  induction n with
  | zero => exact refines_pure ⟨.nil, rfl⟩
  | succ n ih =>
    refine h.bind fun a b hab => ih.bind fun as bs has => refines_pure ⟨.cons hab has.1, ?_⟩
    rw [List.length_cons, has.2]

/-- To ask how many bytes are left changes nothing. -/
theorem refines_remaining_bind (h : Refines R depth x y) : Refines R depth (remaining >>= fun _ => x) y := by
  intro buf pos hlen hpos
  change Agrees R buf depth ((remaining.run ⟨buf, pos, depth⟩).bind fun r => x.run r.2) _
  rw [run_remaining hlen hpos]
  exact h buf pos hlen hpos

theorem refines_decodeFixedArray (h : Refines R depth x y) (n : UInt64) :
    Refines (List.Forall₂ R) depth (decodeFixedArray n x) (Decoder.times y n.toNat) := by
  refine refines_remaining_bind ?_
  rw [← bind_pure (Decoder.times y n.toNat)]
  refine (refines_pushed h n.toNat).bind fun as bs has => ?_
  rw [if_pos has.2]
  exact refines_pure has.1

theorem refines_decodeVarArray (h : Refines R depth x y) {bound : Option Nat}
    (hbound : ∀ n ∈ bound, n ≤ Wire.maxLength) : Refines (List.Forall₂ R) depth
      (decodeVarArray (maxArgument bound) x) (do Decoder.times y (← Decoder.length bound)) := by
  refine (refines_readLength hbound).bind ?_
  rintro len _ rfl
  exact refines_remaining_bind ((refines_pushed h len.toNat).mono fun _ _ has => has.1)

theorem refines_decodeOptional (h : Refines R depth x y) (absent : β) :
    Refines (fun o b => o.elim (b = absent) (R · b)) depth (decodeOptional x) (do
      let flag ← Decoder.word 4
      if flag = 0 then return absent
      else if flag = 1 then y
      else throw (.discriminant flag)) := by
  refine refines_readU32.bind ?_
  rintro flag _ rfl
  have hflag (n : UInt32) : flag = n ↔ flag.toNat = n.toNat := UInt32.toNat_inj.symm
  simp only [hflag, UInt32.toNat_zero, UInt32.toNat_one]
  split
  · exact refines_pure rfl
  split
  · rw [← bind_pure y]
    exact h.bind fun a b hab => refines_pure hab
  · have hdiscriminant := SameError.discriminant flag.toUInt64.toInt64
    rw [toInt_toInt64_toUInt64] at hdiscriminant
    exact refines_fail hdiscriminant

end Items

/-! ### Checks before a definition -/

theorem refines_ensure {n : UInt64} {m : Int} (h : (n.toNat : Int) = min m maxSize) :
    Refines (fun _ _ => True) depth (ensure n) (Decoder.ensure m) := by
  intro buf pos hlen hpos
  have hleft : (UInt64.ofNat (buf.length - pos.toNat)).toNat = buf.length - pos.toNat :=
    UInt64.toNat_ofNat_of_lt' (Nat.lt_of_le_of_lt (Nat.sub_le _ _) (Nat.lt_trans hlen (by decide)))
  rw [Decoder.run_ensure]
  change Agrees _ buf depth ((remaining.run ⟨buf, pos, depth⟩).bind fun r =>
    (if r.1 < n then fail .unexpectedEof else pure () : Machine Unit).run r.2) _
  rw [run_remaining hlen hpos]
  dsimp only [Except.bind]
  simp only [UInt64.lt_iff_toNat_lt, hleft]
  rw [maxSize] at h
  by_cases hin : m ≤ buf.length - pos.toNat
  · rw [if_neg (by omega), if_pos hin]
    exact .value trivial hpos
  · rw [if_pos (by omega), if_neg hin]
    exact .error (.endOfInput _ _)

theorem refines_nested_zero {x : Machine α} {limit : Int} :
    Refines R 0 (nested x) (throw (.depth limit)) := fun _ _ _ _ => .error (.depth limit)

theorem refines_nested {x : Machine α} {y : Decoder β} (hdepth : depth ≠ 0) (h : Refines R (depth - 1) x y) :
    Refines R depth (nested x) y := by
  intro buf pos hlen hpos
  have hrun : (Machine.nested x).run ⟨buf, pos, depth⟩ = (x.run ⟨buf, pos, depth - 1⟩).bind fun r =>
      (do if r.2.depth = 0xffffffff then throw .overflow
          modify fun c => { c with depth := c.depth + 1 }
          return r.1 : Machine α).run r.2 := by
    unfold Machine.nested
    rw [run_get_bind, if_neg hdepth]
    rfl
  have hless : depth - 1 ≠ 0xffffffff := by
    rw [← UInt32.toNat_inj.ne]
    have hone := toNat_sub_one hdepth
    have hlt := depth.toNat_lt
    have hmax : (0xffffffff : UInt32).toNat = 2 ^ 32 - 1 := rfl
    omega
  have hagrees := h buf pos hlen hpos
  rw [hrun]
  generalize x.run ⟨buf, pos, depth - 1⟩ = r, (y.run buf).run (pos.toNat : Int) = r' at hagrees
  cases hagrees with
  | @value a b pos hab hpos =>
    dsimp only [Except.bind]
    rw [if_neg hless]
    change Agrees R buf depth (.ok (a, ⟨buf, pos, depth - 1 + 1⟩)) _
    rw [UInt32.sub_add_cancel]
    exact .value hab hpos
  | error he => exact .error he

end Machine

end XdrSchema.Rust
