import XdrSchema.Proofs.Schema.Accept

/-! What an accepted specification resolves to. Every type has its definition, every reference leads to
one of its kind, every constant has a value, and the labels of a union are distinct values of what
selects its arms. -/
namespace XdrSchema

namespace Spec

variable {spec : Spec}

theorem Leads.fits {chain : List String} {n : Int} (h : spec.Leads chain n) : -2 ^ 63 ≤ n ∧ n < 2 ^ 63 := by
  induction h with
  | true | false => decide
  | literal _ hn => exact hn
  | constant _ _ ih => exact ih

theorem Denotes.fits {name : String} {n : Int} (h : spec.Denotes name n) : -2 ^ 63 ≤ n ∧ n < 2 ^ 63 := by
  obtain ⟨chain, -, hleads⟩ := h
  exact hleads.fits

theorem BodyAs.kind {d : Definition} {r : Schema.Definition} (h : spec.BodyAs d.body r) :
    Schema.Scope.kindOf? d = some r.kind := by
  obtain ⟨name, body, span, nameSpan⟩ := d
  cases body <;> cases r <;> first | rfl | exact h.elim

end Spec

namespace Schema

open Resolve

variable {spec : Spec} {s : Schema}

/-! ### The schema of a specification -/

theorem eq_of_build {p p' : Progress} (h : Ends (build spec) p s p') :
    s = ⟨Symbol.ofSpec spec, inOrder (Symbol.types (Symbol.ofSpec spec)) p'.done⟩ := by
  unfold build at h
  obtain ⟨⟨⟩, _, -, h⟩ := ends_bind.mp h
  obtain ⟨⟨⟩, _, -, h⟩ := ends_bind.mp h
  obtain ⟨⟨⟩, _, -, h⟩ := ends_bind.mp h
  dsimp only at h
  split at h
  · obtain ⟨⟨⟩, _, -, h⟩ := ends_bind.mp h
    rw [ends_get_bind, ends_pure] at h
    rw [h.1, h.2]
  · rw [ends_get_bind, ends_pure] at h
    rw [h.1, h.2]

theorem symbols_of_analyze (h : (analyze spec).result = .ok s) : s.symbols = Symbol.ofSpec spec := by
  obtain ⟨p, hends⟩ := ends_build_iff.mp h
  rw [eq_of_build hends]

theorem specWellFormed_of_analyze (h : (analyze spec).result = .ok s) : spec.WellFormed := by
  obtain ⟨p, hends⟩ := ends_build_iff.mp h
  exact (decides_build spec [] ⟨[], []⟩ List.nil_suffix .nil).1.mp ⟨s, p, hends⟩

theorem wellFormed_of_analyze (hproper : ∀ d ∈ spec.definitions, d.Proper)
    (h : (analyze spec).result = .ok s) : s.WellFormed := by
  obtain ⟨p, hends⟩ := ends_build_iff.mp h
  exact wellFormed_of_build hproper hends

/-- The types are in the order of the specification. -/
theorem typeNames_of_analyze (hproper : ∀ d ∈ spec.definitions, d.Proper)
    (h : (analyze spec).result = .ok s) :
    s.typeNames = (Symbol.types (Symbol.ofSpec spec)).map (·.2.name) := by
  obtain ⟨p, hends⟩ := ends_build_iff.mp h
  obtain ⟨-, -, -, -, done, -, rfl, -, hall⟩ :=
    gives_build hproper _ _ _ List.nil_suffix .nil hends
  exact map_fst_inOrder hall

/-- Every type of the specification has its definition, which is as the specification says. -/
theorem exists_definition (hproper : ∀ d ∈ spec.definitions, d.Proper)
    (h : (analyze spec).result = .ok s) {d : Spec.Definition} (hd : d ∈ spec.definitions)
    (htype : d.body.IsType) : ∃ r, s.definition? d.name = some r ∧ spec.BodyAs d.body r := by
  have hdistinct := (specWellFormed_of_analyze h).distinct
  obtain ⟨k, hkind⟩ := Spec.isType_iff_kindOf?.mp htype
  obtain ⟨x, hx, hname, hmeaning⟩ := Symbol.type_iff.mpr ⟨hd, rfl, hkind⟩
  have hfind : Symbol.find? s.symbols d.name = some x := by
    rw [symbols_of_analyze h, Symbol.find?_ofSpec_eq_some_iff hdistinct]
    exact ⟨hx, hname⟩
  have hxkind : x.kind = .type k := by rw [Symbol.kind, hmeaning, Meaning.kind]
  have hmem := (wellFormed_of_analyze hproper h).defined d.name x k hfind hxkind
  obtain ⟨r, hr⟩ := mem_typeNames_iff.mp hmem
  obtain ⟨d', hd', hname', hbody⟩ := reflects_of_analyze h d.name r hr
  obtain rfl := Spec.eq_of_name hdistinct hd' hd hname'
  exact ⟨r, hr, hbody⟩

/-! ### Labels -/

/-- A value that a selector can have. -/
def Selector.Admits (s : Schema) : Selector → Int → Prop
  | .signed, n => -2 ^ 31 ≤ n ∧ n < 2 ^ 31
  | .unsigned, n => 0 ≤ n ∧ n < 2 ^ 32
  | .bool, n => n = 0 ∨ n = 1
  | .enum name, n => ∃ labels, s.definition? name = some (.enum labels) ∧ n ∈ labels.map (·.2)

theorem admits_of_belongs (hproper : ∀ d ∈ spec.definitions, d.Proper)
    (h : (analyze spec).result = .ok s) {selector : Selector} {n : Int}
    (hn : spec.Belongs selector n) : selector.Admits s n := by
  cases selector with
  | signed | unsigned | bool => exact hn
  | enum name =>
    obtain ⟨⟨name, body, span, nameSpan⟩, hd, rfl, m, hm, hdenotes⟩ := hn
    cases body with
    | enum members =>
      obtain ⟨r, hr, hbody⟩ := exists_definition hproper h hd trivial
      cases r with
      | enum labels =>
        have hdistinct := (specWellFormed_of_analyze h).distinct
        exact ⟨labels, hr, (mem_values_iff hdistinct hbody).mpr ⟨m, hm, hdenotes⟩⟩
      | _ => exact hbody.elim
    | _ => cases hm

/-- The labels of a resolved union are values of what selects its arms, as those of the specification
are. -/
theorem belongs_of_unionAs (hdistinct : spec.names.Nodup) {u : Spec.Union} {u' : Union}
    (hu : spec.UnionAs u u') (hswitches : spec.Switches u) {n : Int} (hn : n ∈ u'.caseValues) :
    spec.Belongs u'.selector n := by
  obtain ⟨selector, hselects, values, hvalues, hbelongs, -⟩ := hswitches
  rw [selects_unique hdistinct hu.selector hselects]
  obtain ⟨drafts, hdrafts, harms, -⟩ := hu.arms
  obtain rfl := List.right_unique_forall₂' (evaluates_unique hdistinct) hvalues
    (evaluates_of_drafts hdrafts)
  apply hbelongs
  obtain ⟨a, ha, hn⟩ := List.mem_flatMap.mp hn
  obtain ⟨l, hl, rfl⟩ := List.mem_map.mp hn
  obtain ⟨⟨name, d, made⟩, hx, harm⟩ := Scope.exists_left_of_forall₂ harms ha
  have hd : d ∈ drafts := (List.of_mem_zip (List.of_mem_zip hx).2).1
  rw [harm.labels] at hl
  exact List.mem_map_of_mem (List.mem_flatMap.mpr ⟨d, hd, hl⟩)

/-! ### References -/

/-- The references of a definition: those in its types and that of the discriminant of a union. -/
def Definition.references (r : Definition) : List Ref :=
  r.members.filterMap (·.target?) ++
    match r with
    | .union u => (TypeExpr.plain u.discriminant : Ty).target?.toList
    | _ => []

/-- A schema in which nothing is left to resolve. -/
structure Linked (spec : Spec) (s : Schema) : Prop where
  symbols : s.symbols = Symbol.ofSpec spec
  resolved : ∀ x ∈ s.symbols, ∀ k, x.kind = .type k → ∃ r, s.definition? x.name = some r ∧ r.kind = k
  reflects : ∀ name r, s.definition? name = some r →
    ∃ d ∈ spec.definitions, d.name = name ∧ spec.BodyAs d.body r
  references : ∀ name r, s.definition? name = some r → ∀ ref ∈ r.references,
    ∃ x, Symbol.find? s.symbols ref.name = some x ∧ x.kind = .type ref.kind
  constants : ∀ x ∈ s.symbols, (∀ k, x.kind ≠ .type k) →
    ∃ n, Constant.valueOf s.symbols x.name x.span = .ok n ∧ -2 ^ 63 ≤ n ∧ n < 2 ^ 63
  bounds : ∀ name r, s.definition? name = some r → ∀ t ∈ r.members, ∀ n ∈ t.bound?, n < 2 ^ 32
  structs : ∀ name fields, s.definition? name = some (.struct fields) → (fields.map (·.name)).Nodup
  enums : ∀ name labels, s.definition? name = some (.enum labels) → LabelsProper labels
  unions : ∀ name u, s.definition? name = some (.union u) → u.Proper
  cases : ∀ name u, s.definition? name = some (.union u) → ∀ n ∈ u.caseValues, u.selector.Admits s n

/-- A name that the specification declares is the symbol of a type of that kind. -/
theorem find?_of_declares (h : (analyze spec).result = .ok s) {name : String} {k : TypeKind}
    (hk : spec.Declares name k) : ∃ x, Symbol.find? s.symbols name = some x ∧ x.kind = .type k := by
  obtain ⟨d, hd⟩ := hk
  obtain ⟨x, hx, hname, hmeaning⟩ := Symbol.type_iff.mpr hd
  refine ⟨x, ?_, by rw [Symbol.kind, hmeaning, Meaning.kind]⟩
  rw [symbols_of_analyze h, Symbol.find?_ofSpec_eq_some_iff (specWellFormed_of_analyze h).distinct]
  exact ⟨hx, hname⟩

theorem find?_of_mem_references (hproper : ∀ d ∈ spec.definitions, d.Proper)
    (h : (analyze spec).result = .ok s) {name : String} {r : Definition}
    (hr : s.definition? name = some r) {ref : Ref} (href : ref ∈ r.references) :
    ∃ x, Symbol.find? s.symbols ref.name = some x ∧ x.kind = .type ref.kind := by
  have hs := wellFormed_of_analyze hproper h
  rcases List.mem_append.mp href with href | href
  · obtain ⟨t, ht, htarget⟩ := List.mem_filterMap.mp href
    obtain ⟨d, hd, hkind⟩ := (hs.resolved name r hr t ht).target ref htarget
    obtain ⟨x, hx, hxkind⟩ := hs.symbol ref.name d hd
    exact ⟨x, hx, hkind ▸ hxkind⟩
  · cases r with
    | union u =>
      obtain ⟨d, -, -, hbody⟩ := reflects_of_analyze h name _ hr
      obtain ⟨dname, body, span, nameSpan⟩ := d
      cases body with
      | union v =>
        have hbase := hbody.discriminant
        have hdiscriminant : u.discriminant = .named ref := by simpa using href
        rw [hdiscriminant] at hbase
        generalize v.discriminant.type = b at hbase
        cases hbase with
        | named hk => exact find?_of_declares h hk
      | _ => exact hbody.elim
    | _ => cases href

theorem valueOf_of_mem (h : (analyze spec).result = .ok s) {x : Symbol} (hx : x ∈ s.symbols)
    (hkind : ∀ k, x.kind ≠ .type k) :
    ∃ n, Constant.valueOf s.symbols x.name x.span = .ok n ∧ -2 ^ 63 ≤ n ∧ n < 2 ^ 63 := by
  have hspec := specWellFormed_of_analyze h
  rw [symbols_of_analyze h] at hx ⊢
  have hall := (Constant.checkAll_eq_ok_iff hspec.distinct).mpr hspec.constants
  have hchecked := forM_eq_ok_iff.mp hall x hx
  split at hchecked
  · next k hk => exact absurd hk (hkind k)
  · obtain ⟨n, hn, -⟩ := bind_eq_ok_iff.mp hchecked
    exact ⟨n, hn, ((Constant.valueOf_eq_ok_iff hspec.distinct).mp hn).fits⟩

/-- A specification that was read from a text, once it is accepted, leaves nothing to resolve. -/
theorem linked_of_analyze {source : String} (hspec : Spec.parse source = .ok spec)
    (h : (analyze spec).result = .ok s) : Linked spec s := by
  have hproper := Spec.proper_of_parse hspec
  have hs := wellFormed_of_analyze hproper h
  refine ⟨symbols_of_analyze h, ?_, reflects_of_analyze h,
    fun _ _ hr _ href => find?_of_mem_references hproper h hr href,
    fun _ hx hkind => valueOf_of_mem h hx hkind, ?_,
    fun name _ hr => hs.proper name _ hr, fun name _ hr => (hs.proper name _ hr).2,
    fun name _ hr => hs.proper name _ hr, ?_⟩
  · intro x hx k hkind
    obtain ⟨d, hd⟩ := type?_of_kind hkind
    rw [symbols_of_analyze h] at hx
    obtain ⟨hmem, hname, -, hdkind⟩ := of_mem_ofSpec hx hd
    obtain ⟨r, hr, hbody⟩ := exists_definition hproper h hmem (Spec.isType_iff_kindOf?.mpr ⟨k, hdkind⟩)
    exact ⟨r, hname ▸ hr, Option.some.inj (hbody.kind.symm.trans hdkind)⟩
  · intro name r hr t ht n hn
    have hbound := (hs.resolved name r hr t ht).bound n hn
    rw [Wire.maxLength] at hbound
    omega
  · intro name u hr n hn
    obtain ⟨⟨dname, body, span, nameSpan⟩, hd, -, hbody⟩ := reflects_of_analyze h name _ hr
    cases body with
    | union v =>
      have hspec := specWellFormed_of_analyze h
      have hswitches := (hspec.definitions _ hd).cases v rfl
      exact admits_of_belongs hproper h (belongs_of_unionAs hspec.distinct hbody hswitches hn)
    | _ => exact hbody.elim

theorem analyzeText_eq_ok_iff {source : String} : (analyzeText source).result = .ok s ↔
    ∃ spec, Spec.parse source = .ok spec ∧ (analyze spec).result = .ok s := by
  unfold analyzeText
  cases hspec : Spec.parse source with
  | error e => exact ⟨nofun, fun ⟨_, h, _⟩ => nomatch h⟩
  | ok spec => exact ⟨fun h => ⟨spec, rfl, h⟩, fun ⟨_, heq, h⟩ => by cases heq; exact h⟩

/-! ### The sample -/

def sampleSpec : Spec := (Spec.parse sampleText).toOption.getD ⟨[]⟩

theorem parse_sampleText : Spec.parse sampleText = .ok sampleSpec := by
  obtain ⟨spec, hspec, -⟩ := analyzeText_eq_ok_iff.mp analyzeText_sampleText
  rw [sampleSpec, hspec]
  rfl

theorem analyze_sampleSpec : (analyze sampleSpec).result = .ok sampleSchema := by
  obtain ⟨spec, hspec, h⟩ := analyzeText_eq_ok_iff.mp analyzeText_sampleText
  rw [sampleSpec, hspec]
  exact h

theorem linked_sample : Linked sampleSpec sampleSchema ∧ ∀ n ∈ sampleUnion.caseValues, n = 0 ∨ n = 1 := by
  have hlinked := linked_of_analyze parse_sampleText analyze_sampleSpec
  refine ⟨hlinked, fun n hn => ?_⟩
  obtain ⟨labels, hlabels, hmem⟩ := hlinked.cases "U" sampleUnion (by decide +kernel) n hn
  have hK : sampleSchema.definition? "K" = some (.enum [("A", 0), ("B", 1)]) := by decide +kernel
  cases hK.symm.trans hlabels
  simpa using hmem

end Schema

end XdrSchema
