import XdrSchema.Proofs.Wire.Encode
import XdrSchema.Proofs.Wire.Sizing
import XdrSchema.Proofs.Wire.Span

/-! Sizes are bounds, and the best ones. A value of the least size takes the empty or missing item
wherever there is one and the smallest arm of each union, and is found by following the direct
references down; one of the greatest size takes all there is room for, and is found round by round. -/
namespace XdrSchema.Wire

open Schema (Ref Ty Definition Arm Union)
open SizeTable (ofBase ofType ofPart ofDefinition ofSchema rounds)

/-! ### Discriminants -/

theorem exists_discriminant {u : Union} {n : Int} (h : Schema.CaseSet.FitsWord u.selector n) :
    ∃ w, w < wordCount 4 ∧ discriminantOf u w = n := by
  have hcount : wordCount 4 = 2 ^ 32 := by decide
  unfold discriminantOf
  unfold Schema.CaseSet.FitsWord at h
  by_cases hu : u.selector = .unsigned
  · have hunsigned : u.isUnsigned = true := by simp [Union.isUnsigned, hu]
    rw [if_pos hu] at h
    rw [hunsigned]
    exact ⟨n.toNat, by omega, by rw [if_pos rfl]; omega⟩
  · have hsigned : u.isUnsigned = false := by simp [Union.isUnsigned, hu]
    rw [if_neg hu] at h
    rw [hsigned]
    refine ⟨unsigned 4 n, unsigned_lt 4 n, ?_⟩
    rw [if_neg (by decide)]
    exact signed_unsigned (by decide) (by omega) (by omega)

theorem armFor?_of_mem {u : Union} (hu : u.Proper) {a : Arm} (ha : a ∈ u.arms) {n : Int}
    (hn : n ∈ a.values) : u.armFor? n = some a := by
  have hfind : u.arms.find? (fun a => n ∈ a.values) = some a := by
    cases hfind : u.arms.find? (fun a => n ∈ a.values) with
    | none => exact absurd hn (by simpa using List.find?_eq_none.mp hfind a ha)
    | some b =>
      have hb : n ∈ b.values := by simpa using List.find?_some hfind
      by_contra hne
      have hne' : b ≠ a := fun heq => hne (by rw [heq])
      have hsymm : Std.Symm (Function.onFun List.Disjoint Arm.values) := ⟨fun _ _ h => h.symm⟩
      have hdisjoint := (List.nodup_flatMap.mp hu.distinct).2.forall
        (List.mem_of_find?_eq_some hfind) ha hne'
      exact hdisjoint hb hn
  rw [Union.armFor?, hfind]

theorem armFor?_of_not_mem {u : Union} {n : Int} (hn : n ∉ u.caseValues) : u.armFor? n = u.default := by
  have hfind : u.arms.find? (fun a => n ∈ a.values) = none := by
    apply List.find?_eq_none.mpr
    intro a ha
    have hnot : n ∉ a.values := fun h => hn (List.mem_flatMap.mpr ⟨a, ha, h⟩)
    simpa using hnot
  rw [Union.armFor?, hfind]

/-- Some value is left for the default arm. -/
def LeavesDefault (u : Union) : Prop :=
  u.default ≠ none → ∃ n, Schema.CaseSet.FitsWord u.selector n ∧ n ∉ u.caseValues

/-- Every arm is selected by some word. -/
theorem exists_word_of_arm {u : Union} (hu : u.Proper) (hfree : LeavesDefault u) {a : Arm}
    (ha : a ∈ u.allArms) : ∃ w, w < wordCount 4 ∧ u.armFor? (discriminantOf u w) = some a := by
  rcases List.mem_append.mp ha with ha | ha
  · obtain ⟨l, hl⟩ := List.exists_mem_of_ne_nil _ (hu.labelled a ha)
    have hvalue : l.value ∈ a.values := List.mem_map_of_mem hl
    have hcase : l.value ∈ u.caseValues := List.mem_flatMap.mpr ⟨a, ha, hvalue⟩
    obtain ⟨w, hw, hword⟩ := exists_discriminant (hu.fits _ hcase)
    refine ⟨w, hw, ?_⟩
    rw [hword]
    exact armFor?_of_mem hu ha hvalue
  · have hdefault : u.default = some a := Option.mem_toList.mp ha
    obtain ⟨n, hfits, hn⟩ := hfree (by rw [hdefault]; exact Option.some_ne_none a)
    obtain ⟨w, hw, hword⟩ := exists_discriminant hfits
    refine ⟨w, hw, ?_⟩
    rw [hword, armFor?_of_not_mem hn, hdefault]

/-! ### Values of a given length -/

/-- Some value is spelled with as many bytes. -/
def Attains (spells : Value → List UInt8 → Prop) (n : Int) : Prop :=
  ∃ v bytes, spells v bytes ∧ (bytes.length : Int) = n

theorem attains_primitive (p : Primitive) : Attains (SpellsPrimitive p) p.size := by
  have hsome : ∃ v bytes, SpellsPrimitive p v bytes := by
    cases p with
    | int => exact ⟨_, _, .int (w := 0) (by decide)⟩
    | unsignedInt => exact ⟨_, _, .unsignedInt (w := 0) (by decide)⟩
    | hyper => exact ⟨_, _, .hyper (w := 0) (by decide)⟩
    | unsignedHyper => exact ⟨_, _, .unsignedHyper (w := 0) (by decide)⟩
    | float => exact ⟨_, _, .float (w := 0) (by decide)⟩
    | double => exact ⟨_, _, .double (w := 0) (by decide)⟩
    | bool => exact ⟨_, _, .bool false⟩
  obtain ⟨v, bytes, h⟩ := hsome
  exact ⟨v, bytes, h, by rw [length_primitive h]⟩

theorem exists_items {item : Value → List UInt8 → Prop} {n : Int} (h : Attains item n) (k : Nat) :
    ∃ items bytes, items.length = k ∧ SpellsItems item items bytes ∧ (bytes.length : Int) = n * k := by
  obtain ⟨v, first, hv, hlen⟩ := h
  induction k with
  | zero => exact ⟨[], [], rfl, .nil, by simp⟩
  | succ k ih =>
    obtain ⟨items, bytes, hitems, hspells, hbytes⟩ := ih
    refine ⟨v :: items, first ++ bytes, by rw [List.length_cons, hitems], .cons hv hspells, ?_⟩
    rw [List.length_append, Int.natCast_add, hlen, hbytes, Int.natCast_add, Int.mul_add]
    omega

section Types

variable {visit : String → Value → List UInt8 → Prop} {g : String → Size}
  (hg : ∀ name, (g name).Proper)

include hg

/-- A value of the least size, from those of the types that are held directly. -/
theorem attains_type_min {t : Ty}
    (h : ∀ r, t.direct? = some r → Attains (visit r.name) (g r.name).min) :
    Attains (SpellsType visit t) (ofType g t).min := by
  have hempty (n : Option Nat) : Fits n ([] : List UInt8).length := ⟨Nat.zero_le _, Nat.zero_le _⟩
  have hbase (b : Base Ref) (hb : ∀ r, (TypeExpr.plain b : Ty).direct? = some r →
      Attains (visit r.name) (g r.name).min) : Attains (SpellsBase visit b) (ofBase g b).min := by
    cases b with
    | primitive p => exact attains_primitive p
    | named r => exact hb r rfl
  cases t with
  | plain b =>
    obtain ⟨v, bytes, hv, hlen⟩ := hbase b h
    exact ⟨v, bytes, .plain hv, hlen⟩
  | array b n =>
    have hdirect : ∀ r, (TypeExpr.plain b : Ty).direct? = some r → Attains (visit r.name) (g r.name).min := by
      cases b with
      | primitive p => nofun
      | named r => exact h
    obtain ⟨items, bytes, hlen, hitems, hbytes⟩ := exists_items (hbase b hdirect) n
    have hproper : (ofBase g b).Proper := SizeTable.proper_ofType hg (.plain b)
    refine ⟨.list items, bytes, .array hlen hitems, ?_⟩
    rw [hbytes, ofType, Size.times_eq hproper]
  | vector b n => exact ⟨.list [], _, .vector (hempty n) .nil, rfl⟩
  | optional b => exact ⟨.absent, _, .absent, rfl⟩
  | fixedBytes n =>
    refine ⟨.bytes (List.replicate n 0), _, .fixedBytes List.length_replicate, ?_⟩
    rw [length_padded, List.length_replicate]
    rfl
  | bytes n => exact ⟨.bytes [], _, .bytes (hempty n), rfl⟩
  | string n => exact ⟨.bytes [], _, .string (hempty n), rfl⟩

/-- A value of the greatest size, from those of the types that are referred to. -/
theorem attains_type_max {t : Ty} (hbound : ∀ k ∈ t.bound?, k ≤ maxLength) {m : Int}
    (hm : (ofType g t).max = some m)
    (h : ∀ name k, (g name).max = some k → Attains (visit name) k) :
    Attains (SpellsType visit t) m := by
  have hbase {b : Base Ref} {k : Int} (hk : (ofBase g b).max = some k) :
      Attains (SpellsBase visit b) k := by
    cases b with
    | primitive p =>
      cases hk
      exact attains_primitive p
    | named r => exact h r.name k hk
  have hproper (b : Base Ref) : (ofBase g b).Proper := SizeTable.proper_ofType hg (.plain b)
  have hcontent (n : Nat) (hn : n ≤ maxLength) : Fits (some n) (List.replicate n (0 : UInt8)).length := by
    rw [List.length_replicate]
    exact ⟨Nat.le_refl n, hn⟩
  cases t with
  | plain b =>
    obtain ⟨v, bytes, hv, hlen⟩ := hbase hm
    exact ⟨v, bytes, .plain hv, hlen⟩
  | array b n =>
    rw [ofType, Size.times_eq (hproper b)] at hm
    obtain ⟨k, hk, rfl⟩ := Option.map_eq_some_iff.mp hm
    obtain ⟨items, bytes, hlen, hitems, hbytes⟩ := exists_items (hbase hk) n
    exact ⟨.list items, bytes, .array hlen hitems, hbytes⟩
  | vector b n =>
    cases n with
    | none => cases hm
    | some n =>
      cases hk : (ofBase g b).max with
      | none =>
        rw [ofType, Size.upTo_max_eq_none_iff.mpr (.inr hk)] at hm
        cases hm
      | some k =>
        rw [ofType, Size.upTo_max hk] at hm
        cases hm
        obtain ⟨items, bytes, hlen, hitems, hbytes⟩ := exists_items (hbase hk) n
        have hfits : Fits (some n) items.length := by
          rw [hlen]
          exact ⟨Nat.le_refl n, hbound n rfl⟩
        refine ⟨.list items, _, .vector hfits hitems, ?_⟩
        rw [length_word_append, hbytes, Int.mul_comm]
  | optional b =>
    obtain ⟨i, j, hi, hj, rfl⟩ := Size.addMax_eq_some_iff.mp hm
    cases hi
    obtain ⟨v, bytes, hv, hlen⟩ := hbase hj
    refine ⟨v, _, .present hv, ?_⟩
    rw [length_word_append, hlen]
  | fixedBytes n =>
    cases hm
    refine ⟨.bytes (List.replicate n 0), _, .fixedBytes List.length_replicate, ?_⟩
    rw [length_padded, List.length_replicate]
  | bytes n =>
    obtain ⟨n, rfl, rfl⟩ := Option.map_eq_some_iff.mp hm
    refine ⟨_, _, .bytes (hcontent n (hbound n rfl)), ?_⟩
    rw [length_word_append, length_padded, List.length_replicate]
  | string n =>
    obtain ⟨n, rfl, rfl⟩ := Option.map_eq_some_iff.mp hm
    refine ⟨_, _, .string (hcontent n (hbound n rfl)), ?_⟩
    rw [length_word_append, length_padded, List.length_replicate]

omit hg

/-- The length of the data of an arm can be attained. -/
def AttainsPart (visit : String → Value → List UInt8 → Prop) (x : Option Ty) (n : Int) : Prop :=
  match x with
  | none => n = 0
  | some t => Attains (SpellsType visit t) n

theorem attains_fields {fs : List Schema.Field} {ns : List Int}
    (h : List.Forall₂ (fun f n => Attains (SpellsType visit f.type) n) fs ns) :
    ∃ vs bytes, SpellsFields visit fs vs bytes ∧ (bytes.length : Int) = ns.sum := by
  induction h with
  | nil => exact ⟨[], [], .nil, rfl⟩
  | cons hfirst _ ih =>
    obtain ⟨v, first, hv, hlen⟩ := hfirst
    obtain ⟨vs, rest, hvs, hrest⟩ := ih
    refine ⟨_, first ++ rest, .cons hv hvs, ?_⟩
    rw [List.length_append, Int.natCast_add, hlen, hrest, List.sum_cons]

theorem attains_arm {u : Union} (hu : u.Proper) (hfree : LeavesDefault u) (name : String) {a : Arm}
    (ha : a ∈ u.allArms) {n : Int} (h : AttainsPart visit (a.field.map (·.type)) n) :
    Attains (SpellsDefinition visit name (.union u)) (4 + n) := by
  obtain ⟨w, hw, harm⟩ := exists_word_of_arm hu hfree ha
  cases hfield : a.field with
  | none =>
    rw [hfield] at h
    obtain rfl : n = 0 := h
    exact ⟨_, _, .void hw harm hfield, by rw [length_wordBytes]; rfl⟩
  | some f =>
    rw [hfield] at h
    obtain ⟨v, bytes, hv, hlen⟩ := h
    refine ⟨_, _, .arm hw harm hfield hv, ?_⟩
    rw [length_word_append, hlen]

theorem attains_enum {labels : List (String × Int)} (h : (Definition.enum labels).Proper)
    (name : String) : Attains (SpellsDefinition visit name (.enum labels)) 4 := by
  obtain ⟨l, hl⟩ := List.exists_mem_of_ne_nil _ h.1
  obtain ⟨hlow, hhigh⟩ := Schema.CaseSet.isSigned32_iff.mp (h.2.fits l hl)
  have hcount : wordCount 4 = 2 ^ 32 := by decide
  have hvalue : signed 4 (unsigned 4 l.2) = l.2 := signed_unsigned (by decide) (by omega) (by omega)
  have hlabel : Schema.labelOf? labels (signed 4 (unsigned 4 l.2)) = some l.1 := by
    rw [hvalue]
    exact h.2.labelOf?_eq_some_iff.mpr hl
  exact ⟨_, _, .enum (unsigned_lt 4 l.2) hlabel, by rw [length_wordBytes]; rfl⟩

include hg

theorem attains_part_min {x : Option Ty}
    (h : ∀ t ∈ x, ∀ r, t.direct? = some r → Attains (visit r.name) (g r.name).min) :
    AttainsPart visit x (ofPart g x).min := by
  cases x with
  | none => rfl
  | some t => exact attains_type_min hg (h t rfl)

theorem attains_definition_min {d : Definition} (hd : d.Proper)
    (hfree : ∀ u, d = .union u → LeavesDefault u) (name : String)
    (h : ∀ t ∈ d.members, ∀ r, t.direct? = some r → Attains (visit r.name) (g r.name).min) :
    Attains (SpellsDefinition visit name d) (ofDefinition g d).min := by
  cases d with
  | typedef t =>
    obtain ⟨v, bytes, hv, hlen⟩ := attains_type_min hg (h t (List.mem_singleton_self t))
    exact ⟨_, bytes, .typedef hv, hlen⟩
  | struct fs =>
    have hfields : List.Forall₂ (fun f n => Attains (SpellsType visit f.type) n) fs
        (fs.map fun f => (ofType g f.type).min) := by
      rw [List.forall₂_map_right_iff, List.forall₂_same]
      exact fun f hf => attains_type_min hg (h f.type (List.mem_map_of_mem hf))
    obtain ⟨vs, bytes, hvs, hlen⟩ := attains_fields hfields
    refine ⟨_, bytes, .struct hvs, ?_⟩
    rw [hlen, SizeTable.ofDefinition_eq_total]
    show _ = (Size.sequence ((Definition.struct fs).parts.map (ofPart g))).min
    rw [Size.sequence_min (SizeTable.proper_parts hg), Definition.parts, List.map_map, List.map_map]
    rfl
  | enum labels => exact attains_enum hd name
  | union u =>
    have hne : (Definition.union u).parts.map (ofPart g) ≠ [] :=
      SizeTable.ne_nil_of_union hd (List.length_map ..)
    rw [SizeTable.ofDefinition_eq_total]
    obtain ⟨z, hz, hmin⟩ := Size.exists_choice_min hne (SizeTable.proper_parts hg)
    obtain ⟨x, hx, rfl⟩ := List.mem_map.mp hz
    obtain ⟨a, ha, rfl⟩ := List.mem_map.mp hx
    show Attains _ (Size.choice ((Definition.union u).parts.map (ofPart g))).min
    rw [hmin]
    refine attains_arm hd (hfree u rfl) name ha (attains_part_min hg fun t ht => h t ?_)
    exact Definition.mem_members_iff.mpr (ht ▸ hx)

theorem attains_part_max {x : Option Ty} (hbound : ∀ t ∈ x, ∀ k ∈ t.bound?, k ≤ maxLength) {m : Int}
    (hm : (ofPart g x).max = some m) (h : ∀ name k, (g name).max = some k → Attains (visit name) k) :
    AttainsPart visit x m := by
  cases x with
  | none =>
    cases hm
    rfl
  | some t => exact attains_type_max hg (hbound t rfl) hm h

theorem attains_definition_max {d : Definition} (hd : d.Proper)
    (hfree : ∀ u, d = .union u → LeavesDefault u) (name : String)
    (hbound : ∀ t ∈ d.members, ∀ k ∈ t.bound?, k ≤ maxLength) {m : Int}
    (hm : (ofDefinition g d).max = some m) (h : ∀ name k, (g name).max = some k → Attains (visit name) k) :
    Attains (SpellsDefinition visit name d) m := by
  rw [SizeTable.ofDefinition_eq_total] at hm
  cases d with
  | typedef t =>
    obtain ⟨v, bytes, hv, hlen⟩ := attains_type_max hg (hbound t (List.mem_singleton_self t)) hm h
    exact ⟨_, bytes, .typedef hv, hlen⟩
  | struct fs =>
    obtain ⟨ns, hns, rfl⟩ := Size.sequence_max_eq_some (SizeTable.proper_parts hg) hm
    rw [Definition.parts, List.map_map, List.forall₂_map_left_iff] at hns
    have hmembers : ∀ f ∈ fs, ∀ k ∈ f.type.bound?, k ≤ maxLength :=
      fun f hf => hbound f.type (List.mem_map_of_mem hf)
    have hfields : List.Forall₂ (fun f n => Attains (SpellsType visit f.type) n) fs ns :=
      ((List.forall₂_and_left fs ns).mpr ⟨hmembers, hns⟩).imp fun f n hf =>
        attains_type_max hg hf.1 hf.2 h
    obtain ⟨vs, bytes, hvs, hlen⟩ := attains_fields hfields
    exact ⟨_, bytes, .struct hvs, hlen⟩
  | enum labels =>
    cases hm
    exact attains_enum hd name
  | union u =>
    have hne : (Definition.union u).parts.map (ofPart g) ≠ [] :=
      SizeTable.ne_nil_of_union hd (List.length_map ..)
    obtain ⟨z, hz, k, hk, rfl⟩ := Size.exists_choice_max hne (SizeTable.proper_parts hg) hm
    obtain ⟨x, hx, rfl⟩ := List.mem_map.mp hz
    obtain ⟨a, ha, rfl⟩ := List.mem_map.mp hx
    refine attains_arm hd (hfree u rfl) name ha (attains_part_max hg (fun t ht => hbound t ?_) hk h)
    exact Definition.mem_members_iff.mpr (ht ▸ hx)

end Types

/-! ### Bounds -/

variable {s : Schema} {name : String}

/-- Values of the least size, by way of the direct references. -/
theorem attains_min (hs : s.WellFormed)
    (hfree : ∀ name u, s.definition? name = some (.union u) → LeavesDefault u) {rank : String → Nat}
    (hrank : ∀ outer inner, s.Holds outer inner → rank inner < rank outer) {levels : Nat}
    (hname : name ∈ s.typeNames) (hlevels : rank name < levels) :
    Attains (Spells s levels name) ((ofSchema s).get name).min := by
  induction levels generalizing name with
  | zero => omega
  | succ levels ih =>
    obtain ⟨d, hd⟩ := Schema.mem_typeNames_iff.mp hname
    have hdefinition : Attains (SpellsDefinition (Spells s levels) name d)
        (ofDefinition (ofSchema s).get d).min := by
      refine attains_definition_min (SizeTable.proper_ofSchema hs) (hs.proper name d hd)
        (fun u hu => hfree name u (hu ▸ hd)) name fun t ht r hr => ?_
      have hholds : s.Holds name r.name := ⟨d, hd, t, ht, r, hr, rfl⟩
      have hlower := hrank name r.name hholds
      exact ih (hs.mem_of_mentions hholds.mentions) (by omega)
    obtain ⟨v, bytes, hv, hlen⟩ := hdefinition
    exact ⟨v, bytes, ⟨d, hd, hv⟩, by rw [hlen, SizeTable.get_ofSchema hs hd]⟩

/-- Values of the greatest size that is known after some rounds. -/
theorem attains_max (hs : s.WellFormed)
    (hfree : ∀ name u, s.definition? name = some (.union u) → LeavesDefault u) {j : Nat} {m : Int}
    (hm : ((rounds s.types j).get name).max = some m) : Attains (Spells s j name) m := by
  induction j generalizing name m with
  | zero => cases hm
  | succ j ih =>
    cases hd : s.definition? name with
    | none =>
      rw [SizeTable.get_rounds_succ, hd] at hm
      cases hm
    | some d =>
      rw [SizeTable.get_rounds_of_definition j hd] at hm
      obtain ⟨v, bytes, hv, hlen⟩ := attains_definition_max (SizeTable.proper_rounds hs j)
        (hs.proper name d hd) (fun u hu => hfree name u (hu ▸ hd)) name
        (fun t ht => (hs.resolved name d hd t ht).bound) hm fun _ _ => ih
      exact ⟨v, bytes, ⟨d, hd, hv⟩, hlen⟩

theorem eq_of_size? (hs : s.WellFormed) {size : Size} (h : size? s name = .ok size) :
    name ∈ s.typeNames ∧ size = (ofSchema s).get name := by
  rw [Sizing.size?_eq hs, Sizing.declared] at h
  cases hd : Sizing.definition s name with
  | error e =>
    rw [hd] at h
    cases h
  | ok d =>
    rw [hd] at h
    cases h
    exact ⟨Sizing.mem_typeNames_of_definition hd, rfl⟩

namespace Codec

variable {source : String} (maxDepth : Int) {size : Size}

/-- Every encoding of a type and everything that is decoded as one has a length within its size. Both
bounds are attained, if every union with a default arm has a discriminant left for it. -/
theorem size_sound_and_tight (h : (Schema.analyzeText source).result = .ok s)
    (hsize : size? s name = .ok size) :
    (∀ v bytes, (ofSchema s maxDepth).encode name v = .ok bytes → size.Admits bytes.length) ∧
      (∀ buffer offset v stop, (ofSchema s maxDepth).decodeFrom name buffer offset = .ok (v, stop) →
        size.Admits (stop - offset)) ∧
      ((∀ name u, s.definition? name = some (.union u) → LeavesDefault u) →
        Attains (fun v bytes => (ofSchema s maxDepth).encode name v = .ok bytes) size.min ∧
          ∀ m, size.max = some m →
            Attains (fun v bytes => (ofSchema s maxDepth).encode name v = .ok bytes) m) := by
  have hs := Schema.wellFormed_of_analyzeText h
  obtain ⟨hname, rfl⟩ := eq_of_size? hs hsize
  have hencode {levels : Nat} {n : Int} (hn : Attains (Spells s levels name) n) :
      Attains (fun v bytes => (ofSchema s maxDepth).encode name v = .ok bytes) n := by
    obtain ⟨v, bytes, hv, hlen⟩ := hn
    exact ⟨v, bytes, (Encode.named_of_spells hs hv).2, hlen⟩
  refine ⟨fun v bytes hv => ?_, fun _ _ _ _ => admits_of_decodeFrom hs, fun hfree => ⟨?_, fun m hm => ?_⟩⟩
  · exact admits_of_spells hs (Encode.spells_named hs (Nat.le_refl _) hv)
  · obtain ⟨rank, -, hrank⟩ := hs.ranked
    exact hencode (attains_min hs hfree hrank hname (Nat.lt_succ_self _))
  · exact hencode (attains_max hs hfree hm)

theorem size?_sampleUnion : size? Schema.sampleSchema "U" = .ok ⟨8, some 16, false⟩ := by
  have hs := Schema.wellFormed_of_analyzeText Schema.analyzeText_sampleText
  have hU : Schema.sampleSchema.definition? "U" = some (.union Schema.sampleUnion) := rfl
  have hsize : (SizeTable.ofSchema Schema.sampleSchema).get "U" = ⟨8, some 16, false⟩ := by
    decide +kernel
  rw [Sizing.size?_eq hs, Sizing.declared, Sizing.definition_eq_ok hs hU, ← hsize]
  rfl

theorem leavesDefault_sample {name : String} {u : Union}
    (h : Schema.sampleSchema.definition? name = some (.union u)) : LeavesDefault u := by
  have hmem : .union u ∈ Schema.sampleTypes.map (·.2) := by
    obtain ⟨before, rest, htypes, -⟩ := List.lookup_eq_some_iff.mp h
    rw [show Schema.sampleTypes = before ++ (name, .union u) :: rest from htypes]
    simp
  have hu : u = Schema.sampleUnion := by simpa [Schema.sampleTypes] using hmem
  subst hu
  exact fun _ => ⟨1, by simp [Schema.sampleUnion, Schema.CaseSet.FitsWord], by decide⟩

/-- The union takes from 8 to 16 bytes. -/
theorem size_sound_and_tight_sample :
    (∀ v bytes, (ofSchema Schema.sampleSchema defaultMaxDepth).encode "U" v = .ok bytes →
        bytes.length ≤ (16 : Int)) ∧
      (∃ v bytes, (ofSchema Schema.sampleSchema defaultMaxDepth).encode "U" v = .ok bytes ∧
        (bytes.length : Int) = 8) ∧
      ∃ v bytes, (ofSchema Schema.sampleSchema defaultMaxDepth).encode "U" v = .ok bytes ∧
        (bytes.length : Int) = 16 := by
  obtain ⟨hencode, -, htight⟩ := size_sound_and_tight defaultMaxDepth Schema.analyzeText_sampleText
    size?_sampleUnion
  obtain ⟨hmin, hmax⟩ := htight fun _ _ => leavesDefault_sample
  exact ⟨fun v bytes hv => (hencode v bytes hv).greatest 16 rfl, hmin, hmax 16 rfl⟩

end Codec

end XdrSchema.Wire
