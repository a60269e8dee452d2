import XdrSchema.Proofs.Wire.Reads

/-! How far the reader gets. From every offset, one before the start of the input included, what is read
has a length that the size table allows. -/
namespace XdrSchema.Wire

open Schema (Ref Ty Definition Arm Union)

namespace Decoder

variable {α β : Type}

/-- What is read, together with how far the offset moves on. -/
def Spans (x : Decoder α) (P : α → Int → Prop) : Prop :=
  ∀ input p a p', Reads x input p a p' → P a (p' - p)

variable {P : α → Int → Prop} {Q : β → Int → Prop}

theorem spans_pure {a : α} (h : P a 0) : Spans (pure a) P := by
  intro input p b p' hb
  obtain ⟨rfl, rfl⟩ := reads_pure.mp hb
  rwa [Int.sub_self]

theorem spans_throw {e : DecodeError} : Spans (throw e : Decoder α) P :=
  fun _ _ _ _ h => absurd h not_reads_throw

theorem spans_bind {x : Decoder α} {f : α → Decoder β} (hx : Spans x P)
    (hf : ∀ a i, P a i → Spans (f a) fun b j => Q b (i + j)) : Spans (x >>= f) Q := by
  intro input p b p'' h
  obtain ⟨a, p', ha, hb⟩ := reads_bind.mp h
  have hQ : Q b (p' - p + (p'' - p')) := hf a (p' - p) (hx input p a p' ha) input p' b p'' hb
  have hsum : p' - p + (p'' - p') = p'' - p := by omega
  rwa [hsum] at hQ

theorem spans_ensure (n : Int) : Spans (ensure n) fun _ i => i = 0 := by
  intro input p u p' h
  obtain ⟨-, rfl⟩ := reads_ensure.mp h
  exact Int.sub_self _

theorem spans_word (n : Nat) : Spans (word n) fun _ i => i = n := by
  intro input p w p' h
  obtain ⟨-, -, rfl, -⟩ := reads_word.mp h
  omega

theorem spans_take (n : Nat) : Spans (take n) fun _ i => i = n := by
  intro input p bytes p' h
  obtain ⟨-, rfl, -⟩ := reads_take.mp h
  omega

theorem spans_length (bound : Option Nat) :
    Spans (length bound) fun n i => n ≤ bound.getD maxLength ∧ i = 4 := by
  unfold length
  refine spans_bind (spans_word 4) fun w i hi => ?_
  dsimp only
  split
  · exact spans_bind (P := fun _ _ => False) spans_throw fun _ _ h => h.elim
  · next hle => exact spans_pure ⟨by omega, by omega⟩

theorem spans_skipPadding (n : Nat) : Spans (skipPadding n) fun _ i => i = padding n := by
  unfold skipPadding
  refine spans_bind (P := fun _ i => i = 0) ?_ fun _ i hi => ?_
  · intro input p offset p' h
    obtain ⟨-, rfl⟩ := reads_get.mp h
    exact Int.sub_self _
  · refine spans_bind (spans_take (padding n)) fun _ j hj => ?_
    split
    · exact spans_throw
    · exact spans_pure (by omega)

theorem spans_data (n : Nat) : Spans (data n) fun _ i => i = paddedSize n := by
  unfold data
  refine spans_bind (spans_take n) fun _ i hi => ?_
  refine spans_bind (spans_skipPadding n) fun _ j hj => spans_pure ?_
  rw [paddedSize]
  omega

theorem spans_primitive (p : Primitive) : Spans (primitive p) fun _ i => i = p.size := by
  cases p with
  | bool =>
    refine spans_bind (spans_word 4) fun w i hi => ?_
    have hi' : i + 0 = (Primitive.bool.size : Int) := (Int.add_zero i).trans hi
    split
    · exact spans_pure hi'
    · split
      · exact spans_pure hi'
      · exact spans_throw
  | _ => exact spans_bind (spans_word _) fun w i hi => spans_pure ((Int.add_zero i).trans hi)

theorem spans_times {item : Decoder Value} {z : Size} (h : Spans item fun _ i => z.Admits i) (n : Nat) :
    Spans (times item n) fun _ i => ∃ ns : List Int, ns.length = n ∧ (∀ k ∈ ns, z.Admits k) ∧
      i = ns.sum := by
  induction n with
  | zero => exact spans_pure ⟨[], rfl, nofun, rfl⟩
  | succ n ih =>
    rw [times]
    refine spans_bind h fun v i hi => spans_bind ih fun vs j hj => spans_pure ?_
    obtain ⟨ns, hlen, hadmits, rfl⟩ := hj
    refine ⟨i :: ns, by simp [hlen], List.forall_mem_cons.mpr ⟨hi, hadmits⟩, ?_⟩
    rw [List.sum_cons, Int.add_zero]

section Types

open SizeTable (ofBase ofType ofDefinition)

variable {visit : String → Decoder Value} {g : String → Size} (hg : ∀ name, (g name).Proper)
  (h : ∀ name, Spans (visit name) fun _ i => (g name).Admits i)

include h

theorem spans_base (b : Base Ref) : Spans (base visit b) fun _ i => (ofBase g b).Admits i := by
  cases b with
  | primitive p =>
    intro input q v q' hv
    rw [spans_primitive p input q v q' hv]
    exact admits_primitive p
  | named r => exact h r.name

include hg

theorem spans_type (t : Ty) : Spans (type visit t) fun _ i => (ofType g t).Admits i := by
  have hbase (b : Base Ref) : (ofBase g b).Proper := SizeTable.proper_ofType hg (.plain b)
  cases t with
  | plain b => exact spans_base h b
  | array b n =>
    refine spans_bind (spans_times (spans_base h b) n) fun vs i hi => spans_pure ?_
    obtain ⟨ns, hlen, hadmits, rfl⟩ := hi
    rw [Int.add_zero]
    exact Size.admits_times (hbase b) hlen hadmits
  | vector b n =>
    refine spans_bind (spans_length n) fun count i hi => ?_
    refine spans_bind (spans_times (spans_base h b) count) fun vs j hj => spans_pure ?_
    obtain ⟨hle, rfl⟩ := hi
    obtain ⟨ns, rfl, hadmits, rfl⟩ := hj
    rw [Int.add_zero]
    refine Size.admits_upTo (hbase b) (fun k hk => ?_) hadmits
    subst hk
    exact hle
  | optional b =>
    refine spans_bind (spans_word 4) fun flag i hi => ?_
    subst hi
    split
    · exact spans_pure (Size.admits_absent (hbase b))
    · split
      · intro input p v p' hv
        exact Size.admits_present (hbase b) (spans_base h b input p v p' hv)
      · exact spans_throw
  | fixedBytes n =>
    intro input p v p' hv
    rw [spans_data n input p v p' hv]
    exact Size.admits_exact (Size.dvd_paddedSize n)
  | bytes n | string n =>
    refine spans_bind (spans_length n) fun count i hi => ?_
    obtain ⟨hle, rfl⟩ := hi
    intro input p v p' hv
    rw [spans_data count input p v p' hv]
    apply Size.admits_data
    intro k hk
    subst hk
    exact hle

theorem spans_fields (fs : List Schema.Field) :
    Spans (fields visit fs) fun _ i => ∃ ns : List Int,
      List.Forall₂ Size.Admits (fs.map fun f => ofType g f.type) ns ∧ i = ns.sum := by
  induction fs with
  | nil => exact spans_pure ⟨[], .nil, rfl⟩
  | cons f fs ih =>
    rw [fields]
    refine spans_bind (spans_type hg h f.type) fun v i hi => spans_bind ih fun vs j hj => spans_pure ?_
    obtain ⟨ns, hadmits, rfl⟩ := hj
    refine ⟨i :: ns, .cons hi hadmits, ?_⟩
    rw [List.sum_cons, Int.add_zero]

theorem spans_definition (name : String) (d : Definition) :
    Spans (definition visit name d) fun _ i => (ofDefinition g d).Admits i := by
  cases d with
  | typedef t =>
    refine spans_bind (spans_type hg h t) fun v i hi => spans_pure ?_
    rw [Int.add_zero]
    exact hi
  | struct fs =>
    refine spans_bind (spans_fields hg h fs) fun vs i hi => spans_pure ?_
    obtain ⟨ns, hadmits, rfl⟩ := hi
    rw [Int.add_zero]
    exact SizeTable.admits_struct hg hadmits
  | enum labels =>
    refine spans_bind (spans_word 4) fun w i hi => ?_
    subst hi
    dsimp only
    split
    · exact spans_pure (Size.admits_exact (by decide))
    · exact spans_throw
  | union u =>
    have hdiscriminant : Spans (discriminant u) fun _ i => i = 4 :=
      spans_bind (spans_word 4) fun w i hi => spans_pure (by omega)
    refine spans_bind hdiscriminant fun n i hi => ?_
    subst hi
    split
    · next a harm =>
      have hpayload : Spans (payload visit a) fun _ i =>
          (SizeTable.ofPart g (a.field.map (·.type))).Admits i := by
        unfold payload
        cases a.field with
        | none => exact spans_pure (Size.admits_exact (Int.dvd_zero 4))
        | some f => exact spans_type hg h f.type
      refine spans_bind hpayload fun v i hi => spans_pure ?_
      rw [Int.add_zero]
      exact SizeTable.admits_union hg (mem_allArms_of_armFor? harm) hi
    · exact spans_throw

end Types

end Decoder

namespace Codec

variable {s : Schema} {maxDepth : Int}

theorem spans_read (hs : s.WellFormed) (levels : Nat) (name : String) :
    Decoder.Spans ((ofSchema s maxDepth).read levels name) fun _ i =>
      ((SizeTable.ofSchema s).get name).Admits i := by
  induction levels generalizing name with
  | zero => exact Decoder.spans_bind (Decoder.spans_ensure _) fun _ _ _ => Decoder.spans_throw
  | succ levels ih =>
    refine Decoder.spans_bind (Decoder.spans_ensure _) fun _ i hi => ?_
    subst hi
    split
    · next d hd =>
      intro input p v p' hv
      rw [SizeTable.get_ofSchema hs hd, Int.zero_add]
      exact Decoder.spans_definition (SizeTable.proper_ofSchema hs) ih name d input p v p' hv
    · exact Decoder.spans_throw

/-- Whatever the offset, the reader moves on by a length that the table allows. -/
theorem admits_of_decodeFrom (hs : s.WellFormed) {name : String} {buffer : List UInt8} {v : Value}
    {offset stop : Int} (h : (ofSchema s maxDepth).decodeFrom name buffer offset = .ok (v, stop)) :
    ((SizeTable.ofSchema s).get name).Admits (stop - offset) := by
  unfold decodeFrom at h
  split at h
  · exact spans_read hs maxDepth.toNat name buffer offset v stop h
  · cases h

end Codec

end XdrSchema.Wire
