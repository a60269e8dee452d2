import XdrSchema.Compile
import XdrSchema.Proofs.Concrete.Unplaced
import XdrSchema.Proofs.Rust.Reorder

/-! The order of the definitions does not matter. A text with the same definitions in another order is
accepted and compiled alike, its names mean the same, and its module differs in its order only. What is
said of one type depends on no more than the definitions it leads to. -/
namespace XdrSchema

/-! ### The same names -/

/-- Every name means the same in both schemas. -/
structure Schema.Same (s s' : Schema) : Prop where
  kind : ∀ name, (Symbol.find? s'.symbols name).map (·.kind) = (Symbol.find? s.symbols name).map (·.kind)
  owner : ∀ name,
    (Symbol.find? s'.symbols name).bind (·.owner?) = (Symbol.find? s.symbols name).bind (·.owner?)
  value : ∀ name span n,
    Constant.valueOf s'.symbols name span = .ok n ↔ Constant.valueOf s.symbols name span = .ok n
  record : ∀ name, s'.definition? name = s.definition? name
  size : ∀ name, Wire.size? s' name = Wire.size? s name

theorem Schema.same_of_reorders {spec spec' : Spec} {s s' : Schema} (hs : (analyze spec).result = .ok s)
    (hs' : (analyze spec').result = .ok s') (hproper : ∀ d ∈ spec.definitions, d.Proper)
    (hproper' : ∀ d ∈ spec'.definitions, d.Proper) (h : Spec.Reorders spec' spec) : s.Same s' where
  kind name := by
    have hkind (x : Option Symbol) : x.map (·.kind) = (x.map Symbol.unplaced).map (·.kind) := by
      cases x <;> simp
    rw [hkind, find?_of_reorders hs hs' h, ← hkind]
  owner name := by
    have howner (x : Option Symbol) : x.bind (·.owner?) = (x.map Symbol.unplaced).bind (·.owner?) := by
      cases x <;> simp
    rw [howner, find?_of_reorders hs hs' h, ← howner]
  value name span n := valueOf_of_reorders hs hs' h name span n
  record := definition?_of_reorders hs hs' hproper hproper' h
  size := size?_of_reorders hs hs' hproper hproper' h

/-! ### What a type leads to -/

/-- The definitions that a name leads to: what introduces it, and what introduces the names mentioned in
what it leads to. -/
inductive Spec.Reaches (spec : Spec) (name : String) : Spec.Definition → Prop
  | self {d : Spec.Definition} (hd : d ∈ spec.definitions) (hname : name ∈ d.introduces) : Reaches spec name d
  | step {d e : Spec.Definition} {inner : String} (hd : Reaches spec name d) (hinner : inner ∈ d.body.mentions)
      (he : e ∈ spec.definitions) (hintroduces : inner ∈ e.introduces) : Reaches spec name e

/-- The type is the same in both schemas, and so are its values and their bytes. -/
structure Wire.SameType (s s' : Schema) (name : String) : Prop where
  record : s'.definition? name = s.definition? name
  size : size? s' name = size? s name
  decodeFrom : ∀ maxDepth buffer offset, (Codec.ofSchema s' maxDepth).decodeFrom name buffer offset =
    (Codec.ofSchema s maxDepth).decodeFrom name buffer offset
  decode : ∀ maxDepth buffer,
    (Codec.ofSchema s' maxDepth).decode name buffer = (Codec.ofSchema s maxDepth).decode name buffer
  encode : ∀ maxDepth v,
    (Codec.ofSchema s' maxDepth).encode name v = (Codec.ofSchema s maxDepth).encode name v

theorem Wire.sameType_of_reaches {spec spec' : Spec} {s s' : Schema} (hs : (Schema.analyze spec).result = .ok s)
    (hs' : (Schema.analyze spec').result = .ok s') (hproper : ∀ d ∈ spec.definitions, d.Proper)
    (hproper' : ∀ d ∈ spec'.definitions, d.Proper) {name : String} (hname : name ∈ s.typeNames)
    (hreaches : ∀ d, spec.Reaches name d → ∃ d' ∈ spec'.definitions, d'.unplaced = d.unplaced) :
    SameType s s' name := by
  have hshares : Spec.Shares spec spec' (spec.Reaches name) :=
    ⟨fun d _ hd => hreaches d hd, fun _ _ hd _ hinner _ he hintroduces => .step hd hinner he hintroduces⟩
  have hwell := Schema.wellFormed_of_analyze hproper hs
  have hwell' := Schema.wellFormed_of_analyze hproper' hs'
  have hagrees := Schema.agreesOn_of_shares hs hs' hproper hproper' hshares
  obtain ⟨r, hr⟩ := Schema.mem_typeNames_iff.mp hname
  obtain ⟨d, hd, hdname, hbody⟩ := Schema.reflects_of_analyze hs name r hr
  have htype : spec.IsType name := ⟨d, hd, hdname, Spec.isType_iff_kindOf?.mpr ⟨_, hbody.kind⟩⟩
  have hshared : spec.IsType name ∧ Spec.Covers spec (spec.Reaches name) name :=
    ⟨htype, fun e he hintroduces => .self he hintroduces⟩
  exact ⟨hagrees.same name hshared,
    Sizing.size?_of_agreesOn hagrees hwell hwell' hshared (Option.isSome_iff_exists.mpr ⟨r, hr⟩),
    fun maxDepth => Codec.decodeFrom_of_agreesOn hagrees hwell hwell' maxDepth hshared,
    fun maxDepth => Codec.decode_of_agreesOn hagrees hwell hwell' maxDepth hshared,
    fun _ v => Encode.named_of_agreesOn hagrees (sizeOf v) (Nat.le_refl _) hshared⟩

/-! ### Texts -/

/-- A text compiles to the module of its schema. -/
theorem compile_eq_ok_iff {source filename text : String} {settings : Settings} :
    (compile source settings filename).result = .ok text ↔
      ∃ s, (Schema.analyzeText source).result = .ok s ∧ Rust.checkNames s = .ok () ∧
        text = (Rust.Module.ofSchema s settings (Text.Path.parse filename).name).text := by
  change (Schema.analyzeText source).result >>= _ = .ok text ↔ _
  rw [bind_eq_ok_iff]
  simp only [Rust.generate_eq_ok_iff]

theorem Spec.parse_of_tree {source : String} {tree : List Concrete.Definition}
    (htree : Concrete.parse source = .ok tree) : parse source = ofTree tree := by
  rw [parse, htree]
  rfl

/-- Texts that are accepted and compiled alike. Their names mean the same, they are warned about alike, and
their modules differ in their order only. -/
structure SameProgram (source source' : String) : Prop where
  accepted : (∃ s', (Schema.analyzeText source').result = .ok s') ↔
    ∃ s, (Schema.analyzeText source).result = .ok s
  compiled : ∀ settings filename, (∃ text', (compile source' settings filename).result = .ok text') ↔
    ∃ text, (compile source settings filename).result = .ok text
  names : ∀ s s', (Schema.analyzeText source).result = .ok s → (Schema.analyzeText source').result = .ok s' →
    s.Same s'
  warnings : ∀ s, (Schema.analyzeText source).result = .ok s →
    ((Schema.analyzeText source').warnings.map Diagnostic.unplaced).Perm
      ((Schema.analyzeText source).warnings.map Diagnostic.unplaced)
  modules : ∀ spec spec' settings filename text text', Spec.parse source = .ok spec →
    Spec.parse source' = .ok spec' → (compile source settings filename).result = .ok text →
    (compile source' settings filename).result = .ok text' →
    ∃ m m' : Rust.Module, text = m.text ∧ text' = m'.text ∧ m'.Rearranges m spec' spec

section Reorders

variable {source source' : String} {tree tree' : List Concrete.Definition}
  (htree : Concrete.parse source = .ok tree) (htree' : Concrete.parse source' = .ok tree')
  (h : Concrete.Reorders tree' tree)

include htree htree' h

theorem Spec.reorders_of_tree {spec spec' : Spec} (hspec : Spec.parse source = .ok spec)
    (hspec' : Spec.parse source' = .ok spec') : Spec.Reorders spec' spec := by
  rw [Spec.parse_of_tree htree] at hspec
  rw [Spec.parse_of_tree htree'] at hspec'
  exact Spec.reorders_of_ofTree h hspec hspec'

/-- What is accepted in one order is accepted in the other. -/
theorem Schema.exists_analyzeText_of_reorders {s : Schema} (hs : (analyzeText source).result = .ok s) :
    ∃ s', (analyzeText source').result = .ok s' := by
  obtain ⟨spec, hspec, hanalyze⟩ := analyzeText_eq_ok_iff.mp hs
  obtain ⟨spec', hspec'⟩ := (Spec.exists_ofTree_of_reorders h).mpr ⟨spec, Spec.parse_of_tree htree ▸ hspec⟩
  rw [← Spec.parse_of_tree htree'] at hspec'
  have hreorders := Spec.reorders_of_tree htree htree' h hspec hspec'
  have hwell := hreorders.wellFormed (specWellFormed_of_analyze hanalyze)
  obtain ⟨s', p, hends⟩ := (decides_build spec' [] ⟨[], []⟩ List.nil_suffix .nil).1.mpr hwell
  exact ⟨s', analyzeText_eq_ok_iff.mpr ⟨spec', hspec', ends_build_iff.mpr ⟨p, hends⟩⟩⟩

theorem exists_compile_of_reorders {settings : Settings} {filename text : String}
    (htext : (compile source settings filename).result = .ok text) :
    ∃ text', (compile source' settings filename).result = .ok text' := by
  obtain ⟨s, hs, hnames, -⟩ := compile_eq_ok_iff.mp htext
  obtain ⟨s', hs'⟩ := Schema.exists_analyzeText_of_reorders htree htree' h hs
  obtain ⟨spec, hspec, hanalyze⟩ := Schema.analyzeText_eq_ok_iff.mp hs
  obtain ⟨spec', hspec', hanalyze'⟩ := Schema.analyzeText_eq_ok_iff.mp hs'
  have hnames' := (Rust.checkNames_of_reorders hanalyze hanalyze' (Spec.proper_of_parse hspec)
    (Spec.proper_of_parse hspec') (Spec.reorders_of_tree htree htree' h hspec hspec')).mpr hnames
  exact ⟨_, compile_eq_ok_iff.mpr ⟨s', hs', hnames', rfl⟩⟩

theorem sameProgram_of_reorders : SameProgram source source' where
  accepted := ⟨fun ⟨_, hs'⟩ => Schema.exists_analyzeText_of_reorders htree' htree h.symm hs',
    fun ⟨_, hs⟩ => Schema.exists_analyzeText_of_reorders htree htree' h hs⟩
  compiled settings filename := ⟨fun ⟨_, htext'⟩ => exists_compile_of_reorders htree' htree h.symm htext',
    fun ⟨_, htext⟩ => exists_compile_of_reorders htree htree' h htext⟩
  names s s' hs hs' := by
    obtain ⟨spec, hspec, hanalyze⟩ := Schema.analyzeText_eq_ok_iff.mp hs
    obtain ⟨spec', hspec', hanalyze'⟩ := Schema.analyzeText_eq_ok_iff.mp hs'
    exact Schema.same_of_reorders hanalyze hanalyze' (Spec.proper_of_parse hspec)
      (Spec.proper_of_parse hspec') (Spec.reorders_of_tree htree htree' h hspec hspec')
  warnings s hs := by
    obtain ⟨s', hs'⟩ := Schema.exists_analyzeText_of_reorders htree htree' h hs
    obtain ⟨spec, hspec, hanalyze⟩ := Schema.analyzeText_eq_ok_iff.mp hs
    obtain ⟨spec', hspec', hanalyze'⟩ := Schema.analyzeText_eq_ok_iff.mp hs'
    rw [Schema.analyzeText, Schema.analyzeText, hspec, hspec']
    exact Schema.warnings_of_reorders hanalyze hanalyze' (Spec.proper_of_parse hspec)
      (Spec.proper_of_parse hspec') (Spec.reorders_of_tree htree htree' h hspec hspec')
  modules spec spec' settings filename text text' hspec hspec' htext htext' := by
    obtain ⟨s, hs, -, rfl⟩ := compile_eq_ok_iff.mp htext
    obtain ⟨s', hs', -, rfl⟩ := compile_eq_ok_iff.mp htext'
    rw [Schema.analyzeText, hspec] at hs
    rw [Schema.analyzeText, hspec'] at hs'
    exact ⟨_, _, rfl, rfl, Rust.rearranges_of_reorders hs hs' (Spec.proper_of_parse hspec)
      (Spec.proper_of_parse hspec') (Spec.reorders_of_tree htree htree' h hspec hspec') settings _⟩

end Reorders

/-- The order of the definitions does not matter, nor does a type depend on definitions that it does not
lead to. -/
theorem order_and_context_irrelevant (source source' : String) :
    (∀ tree tree', Concrete.parse source = .ok tree → Concrete.parse source' = .ok tree' →
      Concrete.Reorders tree' tree → SameProgram source source') ∧
    ∀ spec spec' s s' name, Spec.parse source = .ok spec → Spec.parse source' = .ok spec' →
      (Schema.analyze spec).result = .ok s → (Schema.analyze spec').result = .ok s' → name ∈ s.typeNames →
      (∀ d, spec.Reaches name d → ∃ d' ∈ spec'.definitions, d'.unplaced = d.unplaced) →
      Wire.SameType s s' name := by
  constructor
  · intro tree tree' htree htree' h
    exact sameProgram_of_reorders htree htree' h
  · intro spec spec' s s' name hspec hspec' hs hs' hname hreaches
    exact Wire.sameType_of_reaches hs hs' (Spec.proper_of_parse hspec) (Spec.proper_of_parse hspec') hname
      hreaches

/-! ### Two definitions in either order -/

def forwardText : String := "const N = 3; typedef opaque Blob<N>;"

def backwardText : String := "typedef opaque Blob<N>; const N = 3;"

deriving instance DecidableEq for Concrete.Word, Concrete.Value, Concrete.Declaration, Concrete.Arm,
  Concrete.Body, Concrete.Definition

theorem reorders_backwardText : ∃ tree tree', Concrete.parse forwardText = .ok tree ∧
    Concrete.parse backwardText = .ok tree' ∧ Concrete.Reorders tree' tree := by
  have hreverse : (Concrete.parse backwardText).toOption.map (List.map Concrete.Definition.unplaced) =
      (Concrete.parse forwardText).toOption.map fun tree =>
        (tree.map Concrete.Definition.unplaced).reverse := by
    decide +kernel
  have hsome : (Concrete.parse forwardText).toOption.isSome = true := by decide +kernel
  obtain ⟨tree, htree⟩ := Option.isSome_iff_exists.mp hsome
  rw [htree] at hreverse
  obtain ⟨tree', htree', heq⟩ := Option.map_eq_some_iff.mp hreverse
  refine ⟨tree, tree', toOption_eq_some_iff.mp htree, toOption_eq_some_iff.mp htree', ?_⟩
  rw [Concrete.Reorders, heq]
  exact List.reverse_perm _

theorem order_and_context_irrelevant_sample : SameProgram forwardText backwardText ∧
    ∃ s s', (Schema.analyzeText forwardText).result = .ok s ∧
      (Schema.analyzeText backwardText).result = .ok s' ∧ Wire.SameType s s' "Blob" := by
  obtain ⟨tree, tree', htree, htree', h⟩ := reorders_backwardText
  obtain ⟨horder, hcontext⟩ := order_and_context_irrelevant forwardText backwardText
  refine ⟨horder tree tree' htree htree' h, ?_⟩
  have hnames : (Schema.analyzeText forwardText).result.toOption.map (·.typeNames) = some ["Blob"] := by
    decide +kernel
  obtain ⟨s, hs, hname⟩ := Option.map_eq_some_iff.mp hnames
  rw [toOption_eq_some_iff] at hs
  obtain ⟨s', hs'⟩ := Schema.exists_analyzeText_of_reorders htree htree' h hs
  obtain ⟨spec, hspec, hanalyze⟩ := Schema.analyzeText_eq_ok_iff.mp hs
  obtain ⟨spec', hspec', hanalyze'⟩ := Schema.analyzeText_eq_ok_iff.mp hs'
  have hreorders := Spec.reorders_of_tree htree htree' h hspec hspec'
  have hmem : ∀ d, spec.Reaches "Blob" d → d ∈ spec.definitions := fun d hd => by
    cases hd with
    | self hd _ => exact hd
    | step _ _ hd _ => exact hd
  exact ⟨s, s', hs, hs', hcontext spec spec' s s' "Blob" hspec hspec' hanalyze hanalyze' (by simp [hname])
    fun d hd => hreorders.exists_definition (hmem d hd)⟩

end XdrSchema
