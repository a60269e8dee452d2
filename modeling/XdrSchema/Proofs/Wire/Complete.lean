import XdrSchema.Proofs.Number.Binary
import XdrSchema.Proofs.Wire.Reads

/-! Every spelling is read as the value it spells, as deep as the budget goes. Below that the reader
reports the limit, and nothing else. -/
namespace XdrSchema.Wire

open Schema (Ref Ty Definition Arm Union)

namespace Decoder

variable {α β : Type}

/-- On its bytes a value is read if the budget allows; otherwise the limit is reported. -/
def Complete (limit : Int) (x : Decoder α) (bytes : List UInt8) (allowed : Prop) (a : α) : Prop :=
  ∀ pre rest, (allowed → Reads x (pre ++ (bytes ++ rest)) pre.length a (pre ++ bytes).length) ∧
    (¬ allowed → (x.run (pre ++ (bytes ++ rest))).run pre.length = .error (.depth limit))

variable {limit : Int} {a : α} {b : β} {first more bytes : List UInt8} {F G H : Prop}

theorem complete_pure (a : α) : Complete limit (pure a) [] True a := by
  refine fun pre rest => ⟨fun _ => reads_pure.mpr ⟨rfl, ?_⟩, fun h => absurd trivial h⟩
  rw [List.append_nil]

theorem Complete.congr {x : Decoder α} (hx : Complete limit x bytes F a) (h : F ↔ G) :
    Complete limit x bytes G a := by rwa [← propext h]

theorem complete_bind {x : Decoder α} {f : α → Decoder β} (hx : Complete limit x first F a)
    (hf : Complete limit (f a) more G b) (h : H ↔ F ∧ G) :
    Complete limit (x >>= f) (first ++ more) H b := by
  intro pre rest
  obtain ⟨hread, herror⟩ := hx pre (more ++ rest)
  obtain ⟨hread', herror'⟩ := hf (pre ++ first) rest
  rw [List.append_assoc pre first (more ++ rest)] at hread' herror'
  rw [List.append_assoc pre first more] at hread'
  rw [List.append_assoc first more rest]
  constructor
  · intro hallowed
    obtain ⟨hF, hG⟩ := h.mp hallowed
    exact reads_bind.mpr ⟨a, _, hread hF, hread' hG⟩
  · intro hnot
    rw [run_bind]
    by_cases hF : F
    · rw [show (x.run _).run _ = _ from hread hF]
      exact herror' fun hG => hnot (h.mpr ⟨hF, hG⟩)
    · rw [herror hF]
      rfl

theorem complete_after {x : Decoder α} {f : α → Decoder β} (hx : Complete limit x first True a)
    (hf : Complete limit (f a) more G b) : Complete limit (x >>= f) (first ++ more) G b :=
  complete_bind hx hf (iff_of_eq (true_and G).symm)

theorem complete_return {x : Decoder α} (hx : Complete limit x bytes F a) (g : α → β) :
    Complete limit (x >>= fun a => pure (g a)) bytes F (g a) := by
  have h := complete_bind (f := fun a => pure (g a)) hx (complete_pure (g a))
    (iff_of_eq (and_true F).symm)
  rwa [List.append_nil] at h

theorem complete_ensure {f : Unit → Decoder β} {n : Int} (hn : n ≤ bytes.length)
    (hf : Complete limit (f ()) bytes G b) : Complete limit (ensure n >>= f) bytes G b := by
  have hensure : ∀ pre rest, Reads (ensure n) (pre ++ (bytes ++ rest)) pre.length () pre.length := by
    intro pre rest
    refine reads_ensure.mpr ⟨?_, rfl⟩
    rw [List.length_append, List.length_append]
    omega
  intro pre rest
  obtain ⟨hread, herror⟩ := hf pre rest
  refine ⟨fun h => reads_bind.mpr ⟨(), _, hensure pre rest, hread h⟩, fun h => ?_⟩
  rw [run_bind, show ((ensure n).run _).run _ = _ from hensure pre rest]
  exact herror h

theorem complete_word {n w : Nat} (hw : w < wordCount n) :
    Complete limit (word n) (wordBytes n w) True w := by
  refine fun pre rest => ⟨fun _ => ?_, fun h => absurd trivial h⟩
  have hlen := length_wordBytes n w
  refine reads_word_append.mpr ⟨?_, ?_, ?_⟩
  · rw [List.length_append, hlen]
    omega
  · rw [List.length_append, hlen, Int.natCast_add]
  · rw [List.take_append_of_le_length (Nat.le_of_eq hlen.symm), List.take_of_length_le (Nat.le_of_eq hlen),
      wordOf_wordBytes_of_lt hw]

theorem complete_take {n : Nat} (hlen : bytes.length = n) :
    Complete limit (take n) bytes True bytes := by
  refine fun pre rest => ⟨fun _ => ?_, fun h => absurd trivial h⟩
  refine reads_take_append.mpr ⟨?_, ?_, ?_⟩
  · rw [List.length_append]
    omega
  · rw [List.length_append, hlen, Int.natCast_add]
  · rw [List.take_append_of_le_length (Nat.le_of_eq hlen.symm), List.take_of_length_le (Nat.le_of_eq hlen)]

theorem complete_length {bound : Option Nat} {n : Nat} (h : Fits bound n) :
    Complete limit (length bound) (wordBytes 4 n) True n := by
  have hlength : Complete limit (length bound) (wordBytes 4 n ++ []) True n := by
    unfold length
    refine complete_after (complete_word (lt_wordCount_iff.mpr h.2)) ?_
    dsimp only
    rw [if_neg (Nat.not_lt.mpr h.1)]
    exact complete_pure n
  rwa [List.append_nil] at hlength

theorem complete_skipPadding (n : Nat) :
    Complete limit (skipPadding n) (List.replicate (padding n) 0) True () := by
  have hget : ∀ input p, Reads (get : Decoder Int) input p p p := fun _ _ => reads_get.mpr ⟨rfl, rfl⟩
  have hzeros : (List.replicate (padding n) (0 : UInt8)).any (· ≠ 0) = false := by
    rw [List.any_eq_false]
    intro b hb
    simp [List.eq_of_mem_replicate hb]
  refine fun pre rest => ⟨fun _ => ?_, fun h => absurd trivial h⟩
  have hcomplete : Complete limit (take (padding n)) (List.replicate (padding n) (0 : UInt8)) True _ :=
    complete_take List.length_replicate
  have htake := (hcomplete pre rest).1 trivial
  unfold skipPadding
  refine reads_bind.mpr ⟨_, _, hget _ _, reads_bind.mpr ⟨_, _, htake, ?_⟩⟩
  rw [hzeros]
  exact reads_pure.mpr ⟨rfl, rfl⟩

theorem complete_data {n : Nat} {content : List UInt8} (hlen : content.length = n) :
    Complete limit (data n) (Encode.padded content) True (.bytes content) := by
  unfold data Encode.padded
  rw [hlen]
  exact complete_after (complete_take hlen)
    (complete_return (complete_skipPadding n) fun _ => Value.bytes content)

theorem complete_primitive {p : Primitive} {v : Value} (h : SpellsPrimitive p v bytes) :
    Complete limit (primitive p) bytes True v := by
  cases h with
  | bool b =>
    have hword : Complete limit (word 4) (wordBytes 4 b.toNat) True b.toNat :=
      complete_word (by cases b <;> decide)
    have hrest : Complete limit (primitive .bool) (wordBytes 4 b.toNat ++ []) True (.bool b) := by
      refine complete_after hword ?_
      cases b
      · exact complete_pure _
      · exact complete_pure _
    rwa [List.append_nil] at hrest
  | int h => exact complete_return (complete_word h) fun w => Value.int (signed 4 w)
  | unsignedInt h => exact complete_return (complete_word h) fun w => Value.int w
  | hyper h => exact complete_return (complete_word h) fun w => Value.int (signed 8 w)
  | unsignedHyper h => exact complete_return (complete_word h) fun w => Value.int w
  | float h =>
    exact complete_return (complete_word (Number.Double.toSingle?_lt h))
      fun w => Value.float (.ofSingle w)
  | double h => exact complete_return (complete_word h) fun w => Value.float ⟨w⟩

theorem complete_discriminant {u : Union} {w : Nat} (hw : w < wordCount 4) :
    Complete limit (discriminant u) (wordBytes 4 w) True (discriminantOf u w) :=
  complete_return (complete_word hw) (discriminantOf u)

theorem nesting_primitive {p : Primitive} {v : Value} (h : SpellsPrimitive p v bytes) :
    v.nesting = 0 := by cases h <;> rfl

theorem complete_times {item : Decoder Value} {spells : Value → List UInt8 → Prop} {budget : Nat}
    (h : ∀ v bytes, spells v bytes → Complete limit item bytes (v.nesting ≤ budget) v) {vs : List Value}
    (hvs : SpellsItems spells vs bytes) :
    Complete limit (times item vs.length) bytes (Value.nestingAll vs ≤ budget) vs := by
  induction hvs with
  | nil => exact (complete_pure []).congr (iff_of_true trivial (Nat.zero_le budget))
  | @cons v vs first rest hv _ ih =>
    refine complete_bind (h v first hv) (complete_return ih fun vs => v :: vs) ?_
    rw [Value.nestingAll, Nat.max_le]

section Budget

variable {visit : String → Decoder Value} {spells : String → Value → List UInt8 → Prop} {budget : Nat}
  (h : ∀ name v bytes, spells name v bytes → Complete limit (visit name) bytes (v.nesting ≤ budget) v)

include h

theorem complete_base {b : Base Ref} {v : Value} (hb : SpellsBase spells b v bytes) :
    Complete limit (base visit b) bytes (v.nesting ≤ budget) v := by
  cases b with
  | primitive p =>
    refine (complete_primitive hb).congr (iff_of_true trivial ?_)
    rw [nesting_primitive hb]
    exact Nat.zero_le budget
  | named r => exact h r.name v bytes hb

theorem complete_type {t : Ty} {v : Value} (ht : SpellsType spells t v bytes) :
    Complete limit (type visit t) bytes (v.nesting ≤ budget) v := by
  have hleaf {x : Decoder Value} {v : Value} {bytes : List UInt8} (hx : Complete limit x bytes True v)
      (hv : v.nesting = 0) : Complete limit x bytes (v.nesting ≤ budget) v := by
    refine hx.congr (iff_of_true trivial ?_)
    rw [hv]
    exact Nat.zero_le budget
  cases ht with
  | plain hb => exact complete_base h hb
  | array hlen hitems =>
    subst hlen
    exact complete_return (complete_times (fun _ _ => complete_base h) hitems) Value.list
  | vector hfits hitems =>
    exact complete_after (complete_length hfits)
      (complete_return (complete_times (fun _ _ => complete_base h) hitems) Value.list)
  | @absent b =>
    have hflag : Complete limit (type visit (.optional b)) (wordBytes 4 0 ++ []) True .absent :=
      complete_after (complete_word (by decide)) (complete_pure Value.absent)
    rw [List.append_nil] at hflag
    exact hleaf hflag rfl
  | present hb => exact complete_after (complete_word (by decide)) (complete_base h hb)
  | fixedBytes hlen => exact hleaf (complete_data hlen) rfl
  | bytes hfits => exact hleaf (complete_after (complete_length hfits) (complete_data rfl)) rfl
  | string hfits => exact hleaf (complete_after (complete_length hfits) (complete_data rfl)) rfl

theorem complete_fields {fs : List Schema.Field} {vs : List (String × Value)}
    (hfs : SpellsFields spells fs vs bytes) :
    Complete limit (fields visit fs) bytes (Value.nestingFields vs ≤ budget) vs := by
  induction hfs with
  | nil => exact (complete_pure []).congr (iff_of_true trivial (Nat.zero_le budget))
  | @cons f fs v vs first rest hv _ ih =>
    refine complete_bind (complete_type h hv) (complete_return ih fun vs => (f.name, v) :: vs) ?_
    rw [Value.nestingFields, Nat.max_le]

theorem complete_definition {name : String} {d : Definition} {v : Value}
    (hd : SpellsDefinition spells name d v bytes) :
    Complete limit (definition visit name d) bytes (v.nesting ≤ budget + 1) v := by
  cases hd with
  | typedef ht =>
    exact (complete_return (complete_type h ht) (Value.typedef name)).congr Nat.succ_le_succ_iff.symm
  | struct hfs =>
    exact (complete_return (complete_fields h hfs) (Value.struct name)).congr Nat.succ_le_succ_iff.symm
  | @enum labels label w hw hlabel =>
    have hread : Complete limit (definition visit name (.enum labels)) (wordBytes 4 w ++ []) True
        (.enum name label (.int (signed 4 w))) := by
      refine complete_after (complete_word hw) ?_
      dsimp only
      rw [hlabel]
      exact complete_pure _
    rw [List.append_nil] at hread
    exact hread.congr (iff_of_true trivial (Nat.le_add_left 1 budget))
  | @void u a w hw harm hvoid =>
    have hread : Complete limit (definition visit name (.union u)) (wordBytes 4 w ++ []) True
        (.union name a.variant (.int (discriminantOf u w)) .absent) := by
      refine complete_after (complete_discriminant hw) ?_
      rw [harm]
      refine complete_return (x := payload visit a) ?_
        fun v => Value.union name a.variant (.int (discriminantOf u w)) v
      rw [payload, hvoid]
      exact complete_pure Value.absent
    rw [List.append_nil] at hread
    exact hread.congr (iff_of_true trivial (Nat.le_add_left 1 budget))
  | @arm u a f w v more hw harm hfield ht =>
    refine complete_after (complete_discriminant hw) ?_
    rw [harm]
    refine (complete_return (x := payload visit a) ?_
      fun v => Value.union name a.variant (.int (discriminantOf u w)) v).congr Nat.succ_le_succ_iff.symm
    rw [payload, hfield]
    exact complete_type h ht

end Budget

end Decoder

namespace Codec

variable {s : Schema} (maxDepth : Int)

theorem nesting_pos {levels : Nat} {name : String} {v : Value} {bytes : List UInt8}
    (h : Spells s levels name v bytes) : 0 < v.nesting := by
  cases levels with
  | zero => cases h
  | succ levels =>
    obtain ⟨d, -, hd⟩ := h
    cases hd <;> exact Nat.succ_pos _

/-- With a budget of `budget` levels the reader reads what nests no deeper, and reports the limit on
everything else that is spelled. -/
theorem complete_read (hs : s.WellFormed) {levels : Nat} {name : String} {v : Value}
    {bytes : List UInt8} (h : Spells s levels name v bytes) (budget : Nat) :
    Decoder.Complete maxDepth ((ofSchema s maxDepth).read budget name) bytes (v.nesting ≤ budget) v := by
  induction levels generalizing name v bytes budget with
  | zero => cases h
  | succ levels ih =>
    have hleast : ((ofSchema s maxDepth).sizes.get name).min ≤ bytes.length :=
      (admits_of_spells hs h).least
    cases budget with
    | zero =>
      refine Decoder.complete_ensure hleast fun pre rest => ⟨fun hle => ?_, fun _ => rfl⟩
      have hpos := nesting_pos h
      omega
    | succ budget =>
      obtain ⟨d, hd, hspells⟩ := h
      refine Decoder.complete_ensure hleast ?_
      rw [show (ofSchema s maxDepth).schema.definition? name = some d from hd]
      have hvisit : ∀ name v bytes, Spells s levels name v bytes →
          Decoder.Complete maxDepth ((ofSchema s maxDepth).read budget name) bytes
            (v.nesting ≤ budget) v := fun _ _ _ hv => ih hv budget
      exact Decoder.complete_definition hvisit hspells

theorem decode_of_spells (hs : s.WellFormed) {levels : Nat} {name : String} {v : Value}
    {bytes : List UInt8} (h : Spells s levels name v bytes) :
    ((v.nesting : Int) ≤ maxDepth → (ofSchema s maxDepth).decode name bytes = .ok v) ∧
      (maxDepth < v.nesting → (ofSchema s maxDepth).decode name bytes = .error (.depth maxDepth)) := by
  obtain ⟨hread, herror⟩ := complete_read maxDepth hs h maxDepth.toNat [] []
  rw [List.append_nil, List.nil_append] at hread herror
  have hname : ((ofSchema s maxDepth).schema.definition? name).isSome := by
    cases levels with
    | zero => cases h
    | succ levels =>
      obtain ⟨d, hd, -⟩ := h
      exact Option.isSome_iff_exists.mpr ⟨d, hd⟩
  have hpos := nesting_pos h
  constructor
  · intro hle
    exact decode_eq_ok_iff.mpr ⟨hname, hread (by omega)⟩
  · intro hlt
    have hrun := herror (by omega)
    have hfrom : (ofSchema s maxDepth).decodeFrom name bytes 0 = .error (.depth maxDepth) :=
      (if_pos hname).trans hrun
    rw [decode, hfrom]
    rfl

end Codec

end XdrSchema.Wire
