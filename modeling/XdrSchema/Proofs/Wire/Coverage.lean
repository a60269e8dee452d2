import XdrSchema.Proofs.Schema.Coverage
import XdrSchema.Proofs.Wire.Bounds
import XdrSchema.Proofs.Wire.Complete
import XdrSchema.Proofs.Wire.Simulation

/-! What is reported about a union foretells what the reader does: a label is left out if and only if
every buffer that begins with its value is refused for it. -/
namespace XdrSchema.Wire

open Schema (Ref Ty Definition Union)

/-! ### Every type has a value -/

section Types

variable {visit : String → Value → List UInt8 → Prop}

theorem exists_spelled_type {t : Ty}
    (h : ∀ r, t.direct? = some r → ∃ v bytes, visit r.name v bytes) :
    ∃ v bytes, SpellsType visit t v bytes := by
  have hempty (n : Option Nat) : Fits n ([] : List UInt8).length := ⟨Nat.zero_le _, Nat.zero_le _⟩
  have hbase {b : Base Ref} (hb : ∀ r, b = .named r → ∃ v bytes, visit r.name v bytes) :
      ∃ v bytes, SpellsBase visit b v bytes := by
    cases b with
    | primitive p =>
      obtain ⟨v, bytes, hv, -⟩ := attains_primitive p
      exact ⟨v, bytes, hv⟩
    | named r => exact hb r rfl
  cases t with
  | plain b =>
    obtain ⟨v, bytes, hv⟩ := hbase fun r hr => h r (TypeExpr.direct?_plain.mpr hr)
    exact ⟨v, bytes, .plain hv⟩
  | array b n =>
    obtain ⟨v, bytes, hv⟩ := hbase fun r hr => h r (TypeExpr.direct?_array.mpr hr)
    obtain ⟨items, data, hlen, hitems, -⟩ := exists_items ⟨v, bytes, hv, rfl⟩ n
    exact ⟨.list items, data, .array hlen hitems⟩
  | vector b n => exact ⟨.list [], _, .vector (hempty n) .nil⟩
  | optional b => exact ⟨.absent, _, .absent⟩
  | fixedBytes n => exact ⟨.bytes (List.replicate n 0), _, .fixedBytes List.length_replicate⟩
  | bytes n => exact ⟨.bytes [], _, .bytes (hempty n)⟩
  | string n => exact ⟨.bytes [], _, .string (hempty n)⟩

theorem exists_spelled_fields {fs : List Schema.Field}
    (h : ∀ f ∈ fs, ∃ v bytes, SpellsType visit f.type v bytes) :
    ∃ vs bytes, SpellsFields visit fs vs bytes := by
  induction fs with
  | nil => exact ⟨[], [], .nil⟩
  | cons f fs ih =>
    rw [List.forall_mem_cons] at h
    obtain ⟨v, first, hv⟩ := h.1
    obtain ⟨vs, rest, hvs⟩ := ih h.2
    exact ⟨_, first ++ rest, .cons hv hvs⟩

/-- A union has a value for each word that selects an arm. -/
theorem exists_spelled_union {u : Union} (name : String)
    (h : ∀ t ∈ (Definition.union u).members, ∃ v bytes, SpellsType visit t v bytes) {w : Nat}
    (hw : w < wordCount 4) {a : Schema.Arm} (harm : u.armFor? (discriminantOf u w) = some a) :
    ∃ v rest, SpellsDefinition visit name (.union u) v (wordBytes 4 w ++ rest) := by
  cases hfield : a.field with
  | none =>
    refine ⟨.union name a.variant (.int (discriminantOf u w)) .absent, [], ?_⟩
    rw [List.append_nil]
    exact .void hw harm hfield
  | some f =>
    have hmem := Schema.Union.type_mem_members (mem_allArms_of_armFor? harm) hfield
    obtain ⟨v, bytes, hv⟩ := h f.type hmem
    exact ⟨_, bytes, .arm hw harm hfield hv⟩

/-- Some word selects an arm: a case if there is one, and the default arm if there is none. -/
theorem exists_selecting_word {u : Union} (hu : u.Proper) :
    ∃ w a, w < wordCount 4 ∧ u.armFor? (discriminantOf u w) = some a := by
  cases harms : u.arms with
  | nil =>
    have hfree : LeavesDefault u := by
      refine fun _ => ⟨0, ?_, by simp [Union.caseValues, harms]⟩
      unfold Schema.CaseSet.FitsWord
      split <;> decide
    obtain ⟨a, ha⟩ := List.exists_mem_of_ne_nil _ hu.arms
    obtain ⟨w, hw, harm⟩ := exists_word_of_arm hu hfree ha
    exact ⟨w, a, hw, harm⟩
  | cons a rest =>
    have ha : a ∈ u.arms := by
      rw [harms]
      exact List.mem_cons_self
    obtain ⟨l, hl⟩ := List.exists_mem_of_ne_nil _ (hu.labelled a ha)
    have hvalue : l.value ∈ a.values := List.mem_map_of_mem hl
    obtain ⟨w, hw, hword⟩ := exists_discriminant (hu.fits _ (List.mem_flatMap.mpr ⟨a, ha, hvalue⟩))
    exact ⟨w, a, hw, by rw [hword]; exact armFor?_of_mem hu ha hvalue⟩

theorem exists_spelled_definition {d : Definition} (hd : d.Proper) (name : String)
    (h : ∀ t ∈ d.members, ∃ v bytes, SpellsType visit t v bytes) :
    ∃ v bytes, SpellsDefinition visit name d v bytes := by
  cases d with
  | typedef t =>
    obtain ⟨v, bytes, hv⟩ := h t (List.mem_singleton_self t)
    exact ⟨_, bytes, .typedef hv⟩
  | struct fs =>
    obtain ⟨vs, bytes, hvs⟩ := exists_spelled_fields fun f hf => h f.type (List.mem_map_of_mem hf)
    exact ⟨_, bytes, .struct hvs⟩
  | enum labels =>
    obtain ⟨v, bytes, hv, -⟩ : Attains (SpellsDefinition visit name (.enum labels)) 4 := attains_enum hd name
    exact ⟨v, bytes, hv⟩
  | union u =>
    obtain ⟨w, a, hw, harm⟩ := exists_selecting_word hd
    obtain ⟨v, rest, hv⟩ := exists_spelled_union name h hw harm
    exact ⟨v, _, hv⟩

end Types

variable {s : Schema} {name : String}

/-- Each type has a value, by way of the direct references. -/
theorem exists_spelled (hs : s.WellFormed) {rank : String → Nat}
    (hrank : ∀ outer inner, s.Holds outer inner → rank inner < rank outer) {levels : Nat}
    (hname : name ∈ s.typeNames) (hlevels : rank name < levels) :
    ∃ v bytes, Spells s levels name v bytes := by
  induction levels generalizing name with
  | zero => omega
  | succ levels ih =>
    obtain ⟨d, hd⟩ := Schema.mem_typeNames_iff.mp hname
    obtain ⟨v, bytes, hv⟩ := exists_spelled_definition (hs.proper name d hd) name fun t ht =>
      exists_spelled_type fun r hr => by
        have hholds : s.Holds name r.name := ⟨d, hd, t, ht, r, hr, rfl⟩
        have hlower := hrank name r.name hholds
        exact ih (hs.mem_of_mentions hholds.mentions) (by omega)
    exact ⟨v, bytes, d, hd, hv⟩

/-- A union has a value for each word that selects an arm. -/
theorem exists_spelled_of_armFor? (hs : s.WellFormed) {u : Union}
    (hu : s.definition? name = some (.union u)) {w : Nat} (hw : w < wordCount 4) {a : Schema.Arm}
    (harm : u.armFor? (discriminantOf u w) = some a) :
    ∃ levels v rest, Spells s levels name v (wordBytes 4 w ++ rest) := by
  obtain ⟨rank, hbound, hrank⟩ := hs.ranked
  have hmembers : ∀ t ∈ (Definition.union u).members,
      ∃ v bytes, SpellsType (Spells s s.types.length) t v bytes := fun t ht =>
    exists_spelled_type fun r hr => by
      have hholds : s.Holds name r.name := ⟨_, hu, t, ht, r, hr, rfl⟩
      have hmem := hs.mem_of_mentions hholds.mentions
      exact exists_spelled hs hrank hmem (hbound r.name hmem)
  obtain ⟨v, rest, hv⟩ := exists_spelled_union name hmembers hw harm
  exact ⟨s.types.length + 1, v, rest, _, hu, hv⟩

namespace Codec

/-! ### Words that select no arm -/

/-- The number that a buffer begins with. -/
def leadingInt (buffer : List UInt8) : Int := signed 4 (wordOf (buffer.take 4))

theorem leadingInt_append {w : Nat} (hw : w < wordCount 4) (rest : List UInt8) :
    leadingInt (wordBytes 4 w ++ rest) = signed 4 w := by
  have hlen : (wordBytes 4 w).length = 4 := length_wordBytes 4 w
  rw [leadingInt, List.take_append_of_le_length hlen.ge, List.take_of_length_le hlen.le,
    wordOf_wordBytes_of_lt hw]

/-- The size of a union has room for its discriminant. -/
theorem four_le_min (hs : s.WellFormed) {u : Union} (hu : s.definition? name = some (.union u)) :
    4 ≤ ((SizeTable.ofSchema s).get name).min := by
  have hproper := SizeTable.proper_parts (d := .union u) (SizeTable.proper_ofSchema hs)
  have hne : (Definition.union u).parts.map (SizeTable.ofPart (SizeTable.ofSchema s).get) ≠ [] :=
    SizeTable.ne_nil_of_union (hs.proper name _ hu) (List.length_map ..)
  obtain ⟨z, hz, hmin⟩ := Size.exists_choice_min hne hproper
  have hnonneg := (hproper z hz).nonneg
  rw [SizeTable.get_ofSchema hs hu, SizeTable.ofDefinition_eq_total]
  show 4 ≤ (Size.choice ((Definition.union u).parts.map _)).min
  omega

/-- A number that no arm is for is refused, however deep the data may nest. -/
theorem refused_of_no_arm (hs : s.WellFormed) {u : Union} (hu : s.definition? name = some (.union u))
    (hsigned : u.isUnsigned = false) {buffer : List UInt8}
    (hsize : ((SizeTable.ofSchema s).get name).min ≤ buffer.length)
    (harm : u.armFor? (leadingInt buffer) = none) {limit : Int} (hlimit : 1 ≤ limit) :
    (ofSchema s limit).decodeFrom name buffer 0 = .error (.discriminant (leadingInt buffer)) ∧
      (ofSchema s limit).decode name buffer = .error (.discriminant (leadingInt buffer)) := by
  have hd : (ofSchema s limit).schema.definition? name = some (.union u) := hu
  have hword : Decoder.Reads (Decoder.discriminant u) buffer 0 (leadingInt buffer) 4 := by
    have hroom := four_le_min hs hu
    unfold Decoder.discriminant
    rw [hsigned]
    refine Decoder.reads_bind.mpr ⟨_, 4, ?_, Decoder.reads_pure.mpr ⟨rfl, rfl⟩⟩
    exact (@Decoder.reads_word_append 4 4 _ [] buffer).mpr ⟨by omega, rfl, rfl⟩
  have hrun (levels : Nat) : (((ofSchema s limit).read (levels + 1) name).run buffer).run 0 =
      .error (.discriminant (leadingInt buffer)) := by
    rw [read, Decoder.run_ensure_bind, if_pos (by rw [Int.sub_zero]; exact hsize), hd]
    dsimp only [Decoder.definition]
    rw [Decoder.run_bind, show ((Decoder.discriminant u).run buffer).run 0 = _ from hword]
    dsimp only [Except.bind]
    rw [harm]
    rfl
  obtain ⟨levels, hlevels⟩ : ∃ levels, limit.toNat = levels + 1 := ⟨limit.toNat - 1, by omega⟩
  have hfrom : (ofSchema s limit).decodeFrom name buffer 0 =
      .error (.discriminant (leadingInt buffer)) := by
    unfold decodeFrom
    rw [hd, show (ofSchema s limit).maxDepth.toNat = levels + 1 from hlevels]
    exact hrun levels
  refine ⟨hfrom, ?_⟩
  rw [decode, hfrom]
  rfl

/-! ### Reports and readings -/

/-- Every buffer that has the size of the union and begins with the number is refused for it. -/
def Refuses (s : Schema) (name : String) (n : Int) : Prop :=
  ∀ limit : Int, 1 ≤ limit → ∀ buffer : List UInt8,
    ((SizeTable.ofSchema s).get name).min ≤ buffer.length → leadingInt buffer = n →
      (ofSchema s limit).decodeFrom name buffer 0 = .error (.discriminant n) ∧
        (ofSchema s limit).decode name buffer = .error (.discriminant n)

/-- Some buffer that begins with the number is read, if the data may nest deep enough. -/
def Reaches (s : Schema) (name : String) (n : Int) : Prop :=
  ∃ buffer v, ((SizeTable.ofSchema s).get name).min ≤ buffer.length ∧ leadingInt buffer = n ∧
    ∃ least : Int, ∀ limit, least ≤ limit → (ofSchema s limit).decode name buffer = .ok v

theorem Reaches.not_refuses {n : Int} (h : Reaches s name n) : ¬ Refuses s name n := by
  obtain ⟨buffer, v, hsize, hleading, least, hread⟩ := h
  intro hrefuses
  have hrefused := (hrefuses (max 1 least) (le_max_left _ _) buffer hsize hleading).2
  cases hrefused.symm.trans (hread _ (le_max_right _ _))

theorem reaches_of_armFor? (hs : s.WellFormed) {u : Union} (hu : s.definition? name = some (.union u))
    (hsigned : u.isUnsigned = false) {n : Int} (hn : Schema.CaseSet.FitsWord u.selector n)
    {a : Schema.Arm} (harm : u.armFor? n = some a) : Reaches s name n := by
  obtain ⟨w, hw, hword⟩ := exists_discriminant hn
  rw [← hword] at harm
  obtain ⟨levels, v, rest, hspells⟩ := exists_spelled_of_armFor? hs hu hw harm
  refine ⟨_, v, (admits_of_spells hs hspells).least, ?_, v.nesting, fun limit hlimit =>
    (decode_of_spells limit hs hspells).1 hlimit⟩
  rw [leadingInt_append hw, ← hword, discriminantOf, hsigned]
  rfl

/-- A label of the enumeration is read if an arm is for it, and otherwise refused. -/
theorem refuses_or_reaches (hs : s.WellFormed) {u : Union} (hu : s.definition? name = some (.union u))
    {enum : String} (hselector : u.selector = .enum enum) {n : Int}
    (hn : Schema.CaseSet.FitsWord u.selector n) :
    (u.default = none ∧ n ∉ u.caseValues ∧ Refuses s name n) ∨
      (¬ (u.default = none ∧ n ∉ u.caseValues) ∧ Reaches s name n) := by
  have hsigned : u.isUnsigned = false := by simp [Union.isUnsigned, hselector]
  cases harm : u.armFor? n with
  | some a =>
    refine .inr ⟨?_, reaches_of_armFor? hs hu hsigned hn harm⟩
    rintro ⟨hdefault, hcase⟩
    rw [armFor?_of_not_mem hcase, hdefault] at harm
    cases harm
  | none =>
    have hcase : n ∉ u.caseValues := by
      intro hmem
      obtain ⟨a, ha, hvalue⟩ := List.mem_flatMap.mp hmem
      cases harm.symm.trans (armFor?_of_mem (hs.proper name _ hu) ha hvalue)
    rw [armFor?_of_not_mem hcase] at harm
    refine .inl ⟨harm, hcase, fun limit hlimit buffer hsize hleading => ?_⟩
    subst hleading
    exact refused_of_no_arm hs hu hsigned hsize ((armFor?_of_not_mem hcase).trans harm) hlimit

/-- A union that an enumeration selects is reported if and only if it has no default arm and leaves out
labels, and no other definition is; it is reported once, with just the labels whose values the reader
refuses. -/
theorem reported_iff_refused {source : String} (h : (Schema.analyzeText source).result = .ok s) :
    ∃ gaps : List (String × List String),
      ((Schema.analyzeText source).warnings.filter (·.code = "XW2001")).Perm (gaps.map s.gapReport) ∧
      (gaps.map (·.1)).Nodup ∧
      (∀ name missing, (name, missing) ∈ gaps ↔ s.LeavesOut name missing) ∧
      ∀ name u enum labels, s.definition? name = some (.union u) → s.StandsFor u.discriminant enum →
        s.definition? enum = some (.enum labels) → ∀ label n, (label, n) ∈ labels →
          ((∃ missing, (name, missing) ∈ gaps ∧ label ∈ missing) ↔ Refuses s name n) ∧
          ((∃ missing, (name, missing) ∈ gaps ∧ label ∈ missing) ∨ Reaches s name n) := by
  obtain ⟨spec, hspec, hanalyze⟩ := Schema.analyzeText_eq_ok_iff.mp h
  have hproper := Spec.proper_of_parse hspec
  have hs := Schema.wellFormed_of_analyzeText h
  obtain ⟨gaps, hreports, hnames, hgaps⟩ := Schema.exists_gaps hproper hanalyze
  have hwarnings : (Schema.analyzeText source).warnings = (Schema.analyze spec).warnings := by
    rw [Schema.analyzeText, hspec]
  refine ⟨gaps, by rwa [hwarnings], hnames, hgaps, ?_⟩
  intro name u enum labels hu hstands hlabels label n hlabel
  have hselector := (Schema.standsFor_iff hproper hanalyze hu).mp hstands
  obtain ⟨-, hlabelled⟩ := hs.proper enum _ hlabels
  have hfits : Schema.CaseSet.FitsWord u.selector n := by
    have hsigned := Schema.CaseSet.isSigned32_iff.mp (hlabelled.fits _ hlabel)
    rwa [Schema.CaseSet.FitsWord, hselector, if_neg fun heq => by cases heq]
  have hlisted : (∃ missing, (name, missing) ∈ gaps ∧ label ∈ missing) ↔
      u.default = none ∧ n ∉ u.caseValues := by
    simp only [hgaps]
    exact Schema.mem_leavesOut_iff hproper hanalyze hu hstands hlabels hlabel
  rw [hlisted]
  rcases refuses_or_reaches hs hu hselector hfits with ⟨hdefault, hcase, hrefuses⟩ | ⟨hnot, hreaches⟩
  · exact ⟨iff_of_true ⟨hdefault, hcase⟩ hrefuses, .inl ⟨hdefault, hcase⟩⟩
  · exact ⟨iff_of_false hnot hreaches.not_refuses, .inr hreaches⟩

/-- A union over an enumeration behind a typedef, with a case for one of two labels. -/
def partialText : String :=
  "enum K \x7b A = 0, B = -1 \x7d; typedef K T; union U switch (T k) \x7b case A: int n; \x7d;"

def partialUnion : Union :=
  ⟨"k", .named ⟨"T", .typedef⟩, .enum "K", [⟨"A", [⟨0, some "A"⟩], some ⟨"n", .plain (.primitive .int)⟩⟩],
    none⟩

def partialTypes : List (String × Definition) :=
  [("K", .enum [("A", 0), ("B", -1)]), ("T", .typedef (.plain (.named ⟨"K", .enum⟩))),
    ("U", .union partialUnion)]

theorem reported_iff_refused_partial : ∃ s, (Schema.analyzeText partialText).result = .ok s ∧
    Refuses s "U" (-1) ∧ Reaches s "U" 0 := by
  have htypes : (Schema.analyzeText partialText).result.toOption.map (·.types) = some partialTypes := by
    decide +kernel
  cases h : (Schema.analyzeText partialText).result with
  | error e =>
    rw [h] at htypes
    cases htypes
  | ok s =>
    rw [h] at htypes
    obtain ⟨symbols, types⟩ := s
    cases htypes
    have hstands : Schema.StandsFor ⟨symbols, partialTypes⟩ partialUnion.discriminant "K" :=
      .typedef rfl (.enum (r := ⟨"K", .enum⟩) rfl)
    obtain ⟨gaps, -, -, hgaps, hlabels⟩ := reported_iff_refused h
    have hlabel := hlabels "U" partialUnion "K" _ rfl hstands rfl
    refine ⟨_, rfl, (hlabel "B" (-1) (by decide)).1.mp ⟨["B"], ?_, by decide⟩,
      (hlabel "A" 0 (by decide)).2.resolve_left ?_⟩
    · exact (hgaps _ _).mpr ⟨partialUnion, "K", _, rfl, hstands, rfl, rfl, by decide, by decide⟩
    · rintro ⟨missing, hmem, hmissing⟩
      obtain ⟨u, enum, labels, hu, hstands', hlabels', -, rfl, -⟩ := (hgaps _ _).mp hmem
      cases hu
      obtain rfl : enum = "K" := by
        cases hstands' with
        | enum hr => cases hr
        | typedef hr hb =>
          cases hr
          cases hb with
          | enum _ => rfl
          | typedef hr _ => cases hr
      cases hlabels'
      exact absurd hmissing (by decide)

end Codec

end XdrSchema.Wire
