import Mathlib.Algebra.Order.BigOperators.Group.List
import XdrSchema.Proofs.Wire.Coverage
import XdrSchema.Proofs.Wire.Extent
import XdrSchema.Proofs.Wire.Unbounded

/-! How long a list can be. Every part of a value that was read stands in a stretch of its own of the
bytes, so that the items of an array of variable length take as many bytes as they are worth at least;
only items of some types are worth nothing. -/
namespace XdrSchema.Wire

open Schema (Ref Ty Definition Union)
open Piece

/-! ### Parts -/

/-- A value of the first type has a value of the second type inside it, or is this value. -/
inductive Part (s : Schema) : Ty → Value → Ty → Value → Prop
  | whole {t : Ty} {v : Value} : Part s t v t v
  | arrayItem {b : Base Ref} {n : Nat} {items : List Value} {item w : Value} {t : Ty}
      (hitem : item ∈ items) (h : Part s (.plain b) item t w) : Part s (.array b n) (.list items) t w
  | vectorItem {b : Base Ref} {n : Option Nat} {items : List Value} {item w : Value} {t : Ty}
      (hitem : item ∈ items) (h : Part s (.plain b) item t w) : Part s (.vector b n) (.list items) t w
  | present {b : Base Ref} {v w : Value} {t : Ty} (hv : v ≠ .absent) (h : Part s (.plain b) v t w) :
    Part s (.optional b) v t w
  | target {r : Ref} {t' t : Ty} {v w : Value} (hd : s.definition? r.name = some (.typedef t'))
      (h : Part s t' v t w) : Part s (.plain (.named r)) (.typedef r.name v) t w
  | field {r : Ref} {fs : List Schema.Field} {f : Schema.Field} {fields : List (String × Value)}
      {v w : Value} {t : Ty} (hd : s.definition? r.name = some (.struct fs)) (hf : f ∈ fs)
      (hv : fields.lookup f.name = some v) (h : Part s f.type v t w) :
    Part s (.plain (.named r)) (.struct r.name fields) t w
  | payload {r : Ref} {u : Union} {n : Int} {a : Schema.Arm} {f : Schema.Field} {v w : Value} {t : Ty}
      (hd : s.definition? r.name = some (.union u)) (harm : u.armFor? n = some a)
      (hfield : a.field = some f) (h : Part s f.type v t w) :
    Part s (.plain (.named r)) (.union r.name a.variant (.int n) v) t w

section Makes

variable {visit : String → Value → List Piece → Prop}

theorem exists_makes_of_mem_items {b : Base Ref} {items : List Value} {item : Value} {ps : List Piece}
    (h : MakesItems (MakesBase visit b) items ps) (hitem : item ∈ items) :
    ∃ qs, MakesBase visit b item qs ∧ joined qs <:+: joined ps := by
  induction h with
  | nil => cases hitem
  | @cons v items ps rest first _ ih =>
    rw [joined_append]
    rcases List.mem_cons.mp hitem with rfl | hmem
    · exact ⟨ps, first, (List.prefix_append _ _).isInfix⟩
    · obtain ⟨qs, hqs, hinfix⟩ := ih hmem
      exact ⟨qs, hqs, hinfix.trans (List.suffix_append _ _).isInfix⟩

/-- The names of the fields differ, so that a field is found under its name. -/
theorem exists_makes_of_lookup {fs : List Schema.Field} {fields : List (String × Value)} {ps : List Piece}
    {f : Schema.Field} {v : Value} (h : MakesFields visit fs fields ps)
    (hnames : (fs.map (·.name)).Nodup) (hf : f ∈ fs) (hv : fields.lookup f.name = some v) :
    ∃ qs, MakesType visit f.type v qs ∧ joined qs <:+: joined ps := by
  induction h with
  | nil => cases hf
  | @cons g fs x fields ps rest first _ ih =>
    rw [List.map_cons, List.nodup_cons] at hnames
    rw [joined_append]
    rcases List.mem_cons.mp hf with rfl | hmem
    · rw [List.lookup_cons_self] at hv
      cases hv
      exact ⟨ps, first, (List.prefix_append _ _).isInfix⟩
    · have hother : (f.name == g.name) = false :=
        beq_eq_false_iff_ne.mpr fun heq => hnames.1 (heq ▸ List.mem_map_of_mem hmem)
      rw [List.lookup_cons, hother] at hv
      obtain ⟨qs, hqs, hinfix⟩ := ih hnames.2 hmem hv
      exact ⟨qs, hqs, hinfix.trans (List.suffix_append _ _).isInfix⟩

end Makes

variable {s : Schema}

theorem infix_append_right {pre ps qs : List UInt8} (h : qs <:+: ps) : qs <:+: pre ++ ps :=
  h.trans (List.suffix_append _ _).isInfix

theorem exists_makesDefinition {r : Ref} {d : Definition} (hd : s.definition? r.name = some d)
    {levels : Nat} {v : Value} {ps : List Piece} (h : MakesType (Makes s levels) (.plain (.named r)) v ps) :
    ∃ levels', MakesDefinition (Makes s levels') r.name d v ps := by
  cases h with
  | plain h =>
    cases levels with
    | zero => cases h
    | succ levels =>
      obtain ⟨d', hd', hmakes⟩ := h
      rw [hd] at hd'
      cases hd'
      exact ⟨levels, hmakes⟩

/-- What is part of a value is made of pieces inside those of the value. -/
theorem exists_makes_of_part (hs : s.WellFormed) {t t' : Ty} {v w : Value} (hpart : Part s t v t' w)
    {levels : Nat} {ps : List Piece} (h : MakesType (Makes s levels) t v ps) :
    ∃ levels' qs, MakesType (Makes s levels') t' w qs ∧ joined qs <:+: joined ps := by
  induction hpart generalizing levels ps with
  | whole => exact ⟨levels, ps, h, List.infix_rfl⟩
  | arrayItem hitem _ ih =>
    cases h with
    | array _ hitems =>
      obtain ⟨qs, hqs, hinfix⟩ := exists_makes_of_mem_items hitems hitem
      obtain ⟨levels', rs, hrs, hinner⟩ := ih (.plain hqs)
      exact ⟨levels', rs, hrs, hinner.trans hinfix⟩
  | vectorItem hitem _ ih =>
    cases h with
    | vector _ hitems =>
      obtain ⟨qs, hqs, hinfix⟩ := exists_makes_of_mem_items hitems hitem
      obtain ⟨levels', rs, hrs, hinner⟩ := ih (.plain hqs)
      exact ⟨levels', rs, hrs, infix_append_right (hinner.trans hinfix)⟩
  | present hv _ ih =>
    cases h with
    | absent => exact absurd rfl hv
    | present hb =>
      obtain ⟨levels', rs, hrs, hinner⟩ := ih (.plain hb)
      exact ⟨levels', rs, hrs, infix_append_right hinner⟩
  | target hd _ ih =>
    obtain ⟨_, hmakes⟩ := exists_makesDefinition hd h
    cases hmakes with
    | typedef ht => exact ih ht
  | field hd hf hv _ ih =>
    obtain ⟨_, hmakes⟩ := exists_makesDefinition hd h
    cases hmakes with
    | struct hfs =>
      obtain ⟨qs, hqs, hinfix⟩ := exists_makes_of_lookup hfs (hs.proper _ _ hd) hf hv
      obtain ⟨levels', rs, hrs, hinner⟩ := ih hqs
      exact ⟨levels', rs, hrs, hinner.trans hinfix⟩
  | @payload r u n a f v w t hd harm hfield _ ih =>
    obtain ⟨_, hmakes⟩ := exists_makesDefinition hd h
    generalize hvariant : a.variant = variant at hmakes
    cases hmakes with
    | union _ harm' hpayload =>
      rw [harm] at harm'
      cases harm'
      rw [hfield] at hpayload
      cases hpayload with
      | field ht =>
        obtain ⟨levels', rs, hrs, hinner⟩ := ih ht
        exact ⟨levels', rs, hrs, infix_append_right hinner⟩

/-- What a type mentions is defined. -/
def Mentioned (s : Schema) (t : Ty) : Prop := ∀ r, t.target? = some r → (s.definition? r.name).isSome

theorem mentioned_of_member (hs : s.WellFormed) {name : String} {d : Definition}
    (hd : s.definition? name = some d) {t : Ty} (ht : t ∈ d.members) : Mentioned s t :=
  fun _ hr => (hs.resolved name d hd t ht).isSome_target hr

theorem mentioned_of_part (hs : s.WellFormed) {t t' : Ty} {v w : Value} (hpart : Part s t v t' w)
    (h : Mentioned s t) : Mentioned s t' := by
  induction hpart with
  | whole => exact h
  | arrayItem _ _ ih | vectorItem _ _ ih | present _ _ ih =>
    exact ih fun r hr => h r (by simpa using hr)
  | target hd _ ih => exact ih (mentioned_of_member hs hd (List.mem_singleton_self _))
  | field hd hf _ _ ih => exact ih (mentioned_of_member hs hd (List.mem_map_of_mem hf))
  | payload hd harm hfield _ ih =>
    exact ih (mentioned_of_member hs hd (Schema.Union.type_mem_members (mem_allArms_of_armFor? harm) hfield))

/-! ### What items are worth -/

/-- A type whose values take no bytes: nothing is left of it but arrays and data of length 0. -/
inductive Weightless (s : Schema) : Ty → Prop
  | noBytes : Weightless s (.fixedBytes 0)
  | noItems {b : Base Ref} : Weightless s (.array b 0)
  | array {b : Base Ref} {n : Nat} (h : Weightless s (.plain b)) : Weightless s (.array b n)
  | typedef {r : Ref} {t : Ty} (hd : s.definition? r.name = some (.typedef t)) (h : Weightless s t) :
    Weightless s (.plain (.named r))
  | struct {r : Ref} {fs : List Schema.Field} (hd : s.definition? r.name = some (.struct fs))
      (h : ∀ f ∈ fs, Weightless s f.type) : Weightless s (.plain (.named r))

open SizeTable (ofBase ofType ofDefinition)

section Least

variable {g : String → Size} (hg : ∀ name, (g name).Proper)

include hg

theorem ofType_array_min (b : Base Ref) (n : Nat) :
    (ofType g (.array b n)).min = (ofBase g b).min * n := by
  have hb : (ofBase g b).Proper := SizeTable.proper_ofType hg (.plain b)
  rw [ofType, Size.times_eq hb]

theorem ofDefinition_struct_min (fs : List Schema.Field) :
    (ofDefinition g (.struct fs)).min = (fs.map fun f => (ofType g f.type).min).sum := by
  have hparts : (Definition.struct fs).parts.map (SizeTable.ofPart g) = fs.map fun f => ofType g f.type :=
    List.map_map
  rw [SizeTable.ofDefinition_eq_total, hparts]
  refine (Size.sequence_min fun z hz => ?_).trans (by rw [List.map_map]; rfl)
  obtain ⟨f, -, rfl⟩ := List.mem_map.mp hz
  exact SizeTable.proper_ofType hg f.type

end Least

theorem min_eq_zero_of_weightless (hs : s.WellFormed) {t : Ty} (h : Weightless s t) :
    (ofType (SizeTable.ofSchema s).get t).min = 0 := by
  have hproper := SizeTable.proper_ofSchema hs
  induction h with
  | noBytes => rfl
  | noItems =>
    rw [ofType_array_min hproper]
    exact Int.mul_zero _
  | array _ ih =>
    rw [ofType] at ih
    rw [ofType_array_min hproper, ih, Int.zero_mul]
  | typedef hd _ ih =>
    rw [ofType, ofBase, SizeTable.get_ofSchema hs hd, SizeTable.ofDefinition_eq_total]
    exact ih
  | struct hd _ ih =>
    rw [ofType, ofBase, SizeTable.get_ofSchema hs hd, ofDefinition_struct_min hproper]
    refine List.sum_eq_zero fun n hn => ?_
    obtain ⟨f, hf, rfl⟩ := List.mem_map.mp hn
    exact ih f hf

/-- A type takes no bytes or at least a word, if this is so of the definition it holds directly. -/
theorem weightless_or_four_le_of_direct (hs : s.WellFormed) {t : Ty}
    (h : ∀ r, t.direct? = some r →
      Weightless s (.plain (.named r)) ∨ 4 ≤ ((SizeTable.ofSchema s).get r.name).min) :
    Weightless s t ∨ 4 ≤ (ofType (SizeTable.ofSchema s).get t).min := by
  have hbase (b : Base Ref) (hb : ∀ r, b = .named r →
      Weightless s (.plain (.named r)) ∨ 4 ≤ ((SizeTable.ofSchema s).get r.name).min) :
      Weightless s (.plain b) ∨ 4 ≤ (ofBase (SizeTable.ofSchema s).get b).min := by
    cases b with
    | primitive p =>
      right
      change (4 : Int) ≤ p.size
      cases p <;> decide
    | named r => exact hb r rfl
  cases t with
  | plain b => exact hbase b fun r hr => h r (by simp [hr])
  | array b n =>
    rcases Nat.eq_zero_or_pos n with rfl | hn
    · exact .inl .noItems
    · rcases hbase b fun r hr => h r (by simp [hr]) with hweightless | hfour
      · exact .inl (.array hweightless)
      · right
        rw [ofType_array_min (SizeTable.proper_ofSchema hs)]
        calc 4 ≤ (ofBase (SizeTable.ofSchema s).get b).min * 1 := by omega
          _ ≤ (ofBase (SizeTable.ofSchema s).get b).min * n :=
            Int.mul_le_mul_of_nonneg_left (by omega) (by omega)
  | fixedBytes n =>
    rcases Nat.eq_zero_or_pos n with rfl | hn
    · exact .inl .noBytes
    · right
      show (4 : Int) ≤ paddedSize n
      unfold paddedSize padding
      omega
  | vector | optional | bytes | string => exact .inr (Int.le_refl 4)

/-- By induction on what a definition holds directly. -/
theorem weightless_or_four_le_named (hs : s.WellFormed) {r : Ref} (hr : (s.definition? r.name).isSome) :
    Weightless s (.plain (.named r)) ∨ 4 ≤ ((SizeTable.ofSchema s).get r.name).min := by
  obtain ⟨name, k⟩ := r
  induction name using (SizeTable.wellFounded_holds hs).induction generalizing k with
  | _ name ih =>
    obtain ⟨d, hd⟩ := Option.isSome_iff_exists.mp hr
    have hmember {t : Ty} (ht : t ∈ d.members) :
        Weightless s t ∨ 4 ≤ (ofType (SizeTable.ofSchema s).get t).min := by
      refine weightless_or_four_le_of_direct hs fun r' hr' => ?_
      exact ih r'.name ⟨d, hd, t, ht, r', hr', rfl⟩ r'.kind
        (mentioned_of_member hs hd ht r' (TypeExpr.target?_of_direct? hr'))
    cases d with
    | typedef t =>
      rcases hmember (List.mem_singleton_self t) with hweightless | hfour
      · exact .inl (.typedef hd hweightless)
      · right
        rw [SizeTable.get_ofSchema hs hd, SizeTable.ofDefinition_eq_total]
        exact hfour
    | struct fs =>
      by_cases hall : ∀ f ∈ fs, Weightless s f.type
      · exact .inl (.struct hd hall)
      · push Not at hall
        obtain ⟨f, hf, hnot⟩ := hall
        right
        have hfour := (hmember (List.mem_map_of_mem hf)).resolve_left hnot
        rw [SizeTable.get_ofSchema hs hd, ofDefinition_struct_min (SizeTable.proper_ofSchema hs)]
        refine hfour.trans (List.single_le_sum (fun n hn => ?_) _ (List.mem_map_of_mem hf))
        obtain ⟨f', -, rfl⟩ := List.mem_map.mp hn
        exact (SizeTable.proper_ofType (SizeTable.proper_ofSchema hs) f'.type).nonneg
    | enum labels =>
      right
      rw [SizeTable.get_ofSchema hs hd]
      exact Int.le_refl 4
    | union u => exact .inr (Codec.four_le_min hs hd)

theorem weightless_or_four_le (hs : s.WellFormed) {t : Ty} (ht : Mentioned s t) :
    Weightless s t ∨ 4 ≤ (ofType (SizeTable.ofSchema s).get t).min :=
  weightless_or_four_le_of_direct hs fun r hr =>
    weightless_or_four_le_named hs (ht r (TypeExpr.target?_of_direct? hr))

/-- Pieces are as long as the size of what they make allows. -/
theorem admits_of_makesType (hs : s.WellFormed) {levels : Nat} {t : Ty} {v : Value} {ps : List Piece}
    (h : MakesType (Makes s levels) t v ps) :
    (ofType (SizeTable.ofSchema s).get t).Admits (joined ps).length := by
  have hread : Decoder.Complete 0 _ (joined ps) True v :=
    Decoder.complete_of_makesType (fun _ _ _ hv => Codec.complete_of_makes 0 hs hv) h
  have hspan := Decoder.spans_type (SizeTable.proper_ofSchema hs) (Codec.spans_read hs levels) t
    _ _ _ _ ((hread [] []).1 trivial)
  simpa using hspan

theorem length_mul_le (hs : s.WellFormed) {levels : Nat} {b : Base Ref} {items : List Value}
    {ps : List Piece} (h : MakesItems (MakesBase (Makes s levels) b) items ps) :
    items.length * (ofBase (SizeTable.ofSchema s).get b).min ≤ (joined ps).length := by
  induction h with
  | nil => simp
  | cons first _ ih =>
    have hleast : (ofBase (SizeTable.ofSchema s).get b).min ≤ _ := (admits_of_makesType hs (.plain first)).least
    rw [joined_append, List.length_append, List.length_cons]
    rw [Int.natCast_succ, Int.natCast_add, Int.add_mul, Int.one_mul]
    omega

namespace Codec

variable {maxDepth : Int} {buffer : List UInt8}

/-- A list that was read for an array of variable length keeps to the bound of the array, and the least
size of its items keeps it to the input. This size is 0 for items that take no bytes, and for no others;
all others are fewer than the words of the input. -/
theorem length_vector_bounded {source : String} (h : (Schema.analyzeText source).result = .ok s) {r : Ref}
    {v : Value} (hdecode : (ofSchema s maxDepth).decode r.name buffer = .ok v) {b : Base Ref}
    {n : Option Nat} {items : List Value}
    (hpart : Part s (.plain (.named r)) v (.vector b n) (.list items)) :
    items.length ≤ n.getD maxLength ∧
      4 + items.length * (ofBase (SizeTable.ofSchema s).get b).min ≤ buffer.length ∧
      ((ofBase (SizeTable.ofSchema s).get b).min = 0 ↔ Weightless s (.plain b)) ∧
      (¬ Weightless s (.plain b) → items.length < buffer.length / 4) := by
  have hs := Schema.wellFormed_of_analyzeText h
  obtain ⟨hname, -⟩ := decode_eq_ok_iff.mp hdecode
  obtain ⟨ps, hmakes, rfl⟩ := cut_of_decode hdecode
  obtain ⟨levels, qs, hqs, hinfix⟩ := exists_makes_of_part hs hpart (.plain hmakes)
  have hlength := hinfix.length_le
  cases hqs with
  | @vector _ _ _ rs hfits hitems =>
    have hweight := length_mul_le hs hitems
    have hwhole : 4 + items.length * (ofBase (SizeTable.ofSchema s).get b).min ≤ (joined ps).length := by
      rw [joined_cons, List.length_append, Piece.bytes, length_wordBytes] at hlength
      omega
    have hvector : Mentioned s (.vector b n) := mentioned_of_part hs hpart fun r' hr' => by
      cases hr'
      exact hname
    have hleast : Weightless s (.plain b) ∨ 4 ≤ (ofBase (SizeTable.ofSchema s).get b).min :=
      weightless_or_four_le hs fun r' hr' => hvector r' (by simpa using hr')
    refine ⟨hfits.1, hwhole,
      ⟨fun hzero => hleast.resolve_right (by omega), min_eq_zero_of_weightless hs⟩, ?_⟩
    intro hnot
    have hfour : (items.length : Int) * 4 ≤ items.length * (ofBase (SizeTable.ofSchema s).get b).min :=
      Int.mul_le_mul_of_nonneg_left (hleast.resolve_left hnot) (Int.natCast_nonneg _)
    omega

/-- Lists of items that take no bytes and of items that take a word. -/
def crowdedText : String := "typedef opaque Z[0]; struct S \x7b Z zs<>; int ns<2>; \x7d;"

def crowdedTypes : List (String × Definition) :=
  [("Z", .typedef (.fixedBytes 0)),
    ("S", .struct [⟨"zs", .vector (.named ⟨"Z", .typedef⟩) none⟩,
      ⟨"ns", .vector (.primitive .int) (some 2)⟩])]

def crowdedSchema : Schema := Schema.withTypes crowdedText crowdedTypes

theorem analyzeText_crowdedText : (Schema.analyzeText crowdedText).result = .ok crowdedSchema :=
  Schema.analyzeText_eq_ok (by decide +kernel)

def crowdedBytes : List UInt8 := [0, 0, 0, 5, 0, 0, 0, 1, 0, 0, 0, 7]

/-- The name and the fields of a read structure of two lists. -/
def listsRead? : Except DecodeError Value → Option (String × (String × List Value) × (String × List Value))
  | .ok (.struct name [(zName, .list zs), (nName, .list ns)]) => some (name, (zName, zs), (nName, ns))
  | _ => none

theorem eq_ok_of_listsRead? {x : Except DecodeError Value} {name zName nName : String} {zs ns : List Value}
    (h : listsRead? x = some (name, (zName, zs), (nName, ns))) :
    x = .ok (.struct name [(zName, .list zs), (nName, .list ns)]) := by
  unfold listsRead? at h
  split at h
  · cases h
    rfl
  · cases h

theorem exists_decode_crowdedBytes : ∃ zs ns, zs.length = 5 ∧ ns.length = 1 ∧
    (ofSchema crowdedSchema 4).decode "S" crowdedBytes =
      .ok (.struct "S" [("zs", .list zs), ("ns", .list ns)]) := by
  have hread : (listsRead? ((ofSchema crowdedSchema 4).decode "S" crowdedBytes)).map
      (fun r => (r.1, (r.2.1.1, r.2.1.2.length), (r.2.2.1, r.2.2.2.length))) = some ("S", ("zs", 5), ("ns", 1)) := by
    decide +kernel
  obtain ⟨⟨name, ⟨zName, zs⟩, ⟨nName, ns⟩⟩, hlists, hlengths⟩ := Option.map_eq_some_iff.mp hread
  simp only [Prod.mk.injEq] at hlengths
  obtain ⟨rfl, ⟨rfl, hzs⟩, rfl, hns⟩ := hlengths
  exact ⟨zs, ns, hzs, hns, eq_ok_of_listsRead? hlists⟩

/-- Of the items that take a word, there is one in three words. -/
theorem length_vector_bounded_crowded : ∃ v ns, (ofSchema crowdedSchema 4).decode "S" crowdedBytes = .ok v ∧
    Part crowdedSchema (.plain (.named ⟨"S", .struct⟩)) v (.vector (.primitive .int) (some 2)) (.list ns) ∧
    ns.length = 1 ∧ ns.length < crowdedBytes.length / 4 := by
  obtain ⟨zs, ns, -, hns, hdecode⟩ := exists_decode_crowdedBytes
  have hpart : Part crowdedSchema (.plain (.named ⟨"S", .struct⟩)) (.struct "S" [("zs", .list zs), ("ns", .list ns)])
      (.vector (.primitive .int) (some 2)) (.list ns) :=
    .field (f := ⟨"ns", .vector (.primitive .int) (some 2)⟩) rfl (by decide) rfl .whole
  obtain ⟨-, -, -, hfew⟩ := length_vector_bounded analyzeText_crowdedText (r := ⟨"S", .struct⟩) hdecode hpart
  exact ⟨_, ns, hdecode, hpart, hns, hfew nofun⟩

/-- Of the items that take no bytes, there are five in three words. -/
theorem length_vector_unbounded : ∃ v zs, (ofSchema crowdedSchema 4).decode "S" crowdedBytes = .ok v ∧
    Part crowdedSchema (.plain (.named ⟨"S", .struct⟩)) v (.vector (.named ⟨"Z", .typedef⟩) none) (.list zs) ∧
    ¬ zs.length ≤ crowdedBytes.length / 4 := by
  obtain ⟨zs, ns, hzs, -, hdecode⟩ := exists_decode_crowdedBytes
  refine ⟨.struct "S" [("zs", .list zs), ("ns", .list ns)], zs, hdecode, ?_, by rw [hzs]; decide⟩
  exact .field (f := ⟨"zs", .vector (.named ⟨"Z", .typedef⟩) none⟩) rfl (by decide) rfl .whole

end Codec

end XdrSchema.Wire
