import XdrSchema.Proofs.Rust.View

/-! A generated module is closed. Each type is declared once; it takes a view as a parameter if and only if
its members mention one; whatever names a type passes it a view if and only if it takes one; and a value of a
type is never laid out within itself. Main statement: `closed_of_analyzeText`. -/
namespace XdrSchema.Rust

open Schema (Ref Ty Definition)

/-! ### What a module mentions -/

namespace Syntax

/-- The views in a type, as data of its own or as arguments. -/
def views : Syntax → List View
  | scalar _ | byteArray _ => []
  | named _ v => v.toList
  | view v => [v]
  | array e _ | vec e | boxedOption e => e.views

/-- The named types in a type, each with the view that is passed to it. -/
def references : Syntax → List (String × Option View)
  | scalar _ | byteArray _ | view _ => []
  | named ident v => [(ident, v)]
  | array e _ | vec e | boxedOption e => e.references

/-- The named types that are laid out within a type: neither in a vector nor in a box. -/
def embedded : Syntax → List String
  | named ident _ => [ident]
  | array e _ => e.embedded
  | scalar _ | byteArray _ | view _ | vec _ | boxedOption _ => []

end Syntax

/-- The types of the members. -/
def DeclBody.types : DeclBody → List Syntax
  | newtype t => [t]
  | record fields => fields.map (·.2)
  | enum _ => []
  | variants arms => arms.filterMap (·.payload)

def Read.references : Read → List (String × Option View)
  | named t => t.references
  | fixedArray _ item | varArray _ item | optional item => item.references
  | scalar _ | fixedOpaque _ | varOpaque _ => []

/-- How the members are read. -/
def DecodeBody.reads : DecodeBody → List Read
  | newtype r => [r]
  | record fields => fields.map (·.2)
  | enum => []
  | choice _ arms default => (arms.map (·.2) ++ default.toList).filterMap (·.payload)

def Declaration.ident (d : Declaration) : String := identifier d.name

namespace Module

/-- A value of the type `outer` has a value of the type `inner` laid out within it. -/
def Embeds (m : Module) (outer inner : String) : Prop :=
  ∃ i ∈ m.items, i.declaration.ident = outer ∧ ∃ t ∈ i.declaration.body.types, inner ∈ t.embedded

/-- In a declaration a type is passed the parameter, and in a decoder the borrowed slice, if it takes one. -/
structure Closed (m : Module) : Prop where
  distinct : (m.items.map (·.declaration.ident)).Nodup
  declared : ∀ i ∈ m.items, i.declaration.target =
    .named i.declaration.ident (i.declaration.parameter.map .parameter)
  decodes : ∀ i ∈ m.items, i.decoder.target =
    .named i.declaration.ident (i.declaration.parameter.map fun _ => .borrowed)
  encodes : ∀ i ∈ m.items, i.encoder.target = i.declaration.target ∧
    i.encoder.parameter = i.declaration.parameter
  parametric : ∀ i ∈ m.items, ∀ p, i.declaration.parameter = some p ↔
    ∃ t ∈ i.declaration.body.types, .parameter p ∈ t.views
  references : ∀ i ∈ m.items, ∀ t ∈ i.declaration.body.types, ∀ r ∈ t.references, ∃ j ∈ m.items,
    j.declaration.ident = r.1 ∧ r.2 = j.declaration.parameter.map .parameter
  reads : ∀ i ∈ m.items, ∀ t ∈ i.decoder.body.reads, ∀ r ∈ t.references, ∃ j ∈ m.items,
    j.declaration.ident = r.1 ∧ r.2 = j.declaration.parameter.map fun _ => .borrowed
  layout : ∀ ident, ¬ Relation.TransGen m.Embeds ident ident

end Module

/-! ### Spelling -/

section Naming

variable (naming : Naming)

/-- The parameter that a type takes, if it takes one. -/
def Naming.parameterOf (name : String) : Option String :=
  if naming.isGeneric name then some naming.parameter else none

theorem parameterOf_isSome_iff {name : String} :
    (naming.parameterOf name).isSome ↔ name ∈ naming.generic := by
  by_cases h : name ∈ naming.generic <;> simp [Naming.parameterOf, Naming.isGeneric, h]

theorem named_eq (v : View) (name : String) :
    naming.named v name = .named (identifier name) ((naming.parameterOf name).map fun _ => v) := by
  unfold Naming.named Naming.parameterOf
  split <;> rfl

theorem declared_eq (name : String) :
    naming.declared name = .named (identifier name) ((naming.parameterOf name).map .parameter) := by
  rw [Naming.declared, named_eq]
  unfold Naming.parameterOf
  split <;> rfl

theorem mem_views_base {p : String} {b : Base Ref} : .parameter p ∈ (naming.base b).views ↔
    p = naming.parameter ∧ ∃ r, b = .named r ∧ r.name ∈ naming.generic := by
  cases b with
  | primitive q => simp [Naming.base, Syntax.views]
  | named r =>
    by_cases hr : r.name ∈ naming.generic <;>
      simp [Naming.base, declared_eq, Syntax.views, Naming.parameterOf, Naming.isGeneric, hr]

/-- A type mentions the parameter if and only if it takes a view, and it mentions no other one. -/
theorem mem_views_type {p : String} {t : Ty} : .parameter p ∈ (naming.type t).views ↔
    p = naming.parameter ∧ needsView naming.generic t = true := by
  rw [needsView_iff]
  cases t with
  | plain b | array b n | vector b n | optional b =>
    simp [Naming.type, Syntax.views, mem_views_base, isByteData]
  | fixedBytes n => simp [Naming.type, Syntax.views, isByteData]
  | bytes n | string n => simp [Naming.type, Syntax.views, isByteData]

theorem exists_of_mem_references_base {b : Base Ref} {x : String × Option View}
    (h : x ∈ (naming.base b).references) : ∃ r, b = .named r ∧
      x = (identifier r.name, (naming.parameterOf r.name).map .parameter) := by
  cases b with
  | primitive q => cases h
  | named r =>
    rw [Naming.base, declared_eq] at h
    exact ⟨r, rfl, List.mem_singleton.mp h⟩

theorem exists_of_mem_references_type {t : Ty} {x : String × Option View}
    (h : x ∈ (naming.type t).references) : ∃ r, t.target? = some r ∧
      x = (identifier r.name, (naming.parameterOf r.name).map .parameter) := by
  cases t with
  | plain b | array b n | vector b n | optional b =>
    simpa using exists_of_mem_references_base naming h
  | fixedBytes n | bytes n | string n => cases h

theorem exists_of_mem_references_read {t : Ty} {x : String × Option View}
    (h : x ∈ (Read.ofType naming t).references) : ∃ r, t.target? = some r ∧
      x = (identifier r.name, (naming.parameterOf r.name).map fun _ => .borrowed) := by
  have hbase {b : Base Ref} (h : x ∈ (Read.ofBase naming b).references) : ∃ r, b = .named r ∧
      x = (identifier r.name, (naming.parameterOf r.name).map fun _ => .borrowed) := by
    cases b with
    | primitive q => cases h
    | named r =>
      rw [Read.ofBase, Naming.decoded, named_eq] at h
      exact ⟨r, rfl, List.mem_singleton.mp h⟩
  cases t with
  | plain b | array b n | vector b n | optional b => simpa using hbase h
  | fixedBytes n | bytes n | string n => cases h

theorem exists_of_mem_embedded {t : Ty} {ident : String} (h : ident ∈ (naming.type t).embedded) :
    ∃ r, t.direct? = some r ∧ ident = identifier r.name := by
  have hbase {b : Base Ref} (h : ident ∈ (naming.base b).embedded) :
      ∃ r, b = .named r ∧ ident = identifier r.name := by
    cases b with
    | primitive q => cases h
    | named r => exact ⟨r, rfl, List.mem_singleton.mp h⟩
  cases t with
  | plain b | array b n => simpa using hbase h
  | vector b n | optional b | fixedBytes n | bytes n | string n => cases h

theorem types_ofDefinition (d : Definition) :
    (DeclBody.ofDefinition naming d).types = d.members.map naming.type := by
  cases d with
  | typedef t => rfl
  | struct fields => simp [DeclBody.ofDefinition, DeclBody.types, Definition.members, Function.comp_def]
  | enum labels => rfl
  | union u =>
    simp [DeclBody.ofDefinition, DeclBody.types, Definition.members, Variant.ofArm, List.filterMap_map,
      List.map_filterMap, Function.comp_def]

theorem reads_ofDefinition (d : Definition) :
    (DecodeBody.ofDefinition naming d).reads = d.members.map (Read.ofType naming) := by
  cases d with
  | typedef t => rfl
  | struct fields => simp [DecodeBody.ofDefinition, DecodeBody.reads, Definition.members, Function.comp_def]
  | enum labels => rfl
  | union u =>
    have hmap : (u.arms.map fun a => (a.values, Construct.ofArm naming a)).map (·.2) ++
        (u.default.map (Construct.ofArm naming)).toList = u.allArms.map (Construct.ofArm naming) := by
      cases hu : u.default <;> simp [Schema.Union.allArms, hu, Function.comp_def]
    change List.filterMap _ (_ ++ _) = _
    rw [hmap]
    simp [Definition.members, Construct.ofArm, List.filterMap_map, List.map_filterMap, Function.comp_def]

end Naming

/-! ### The items of a module -/

section Module

variable {s : Schema} (hs : s.WellFormed) (settings : Settings) (sourceName : String)

include hs

theorem mem_items_iff {i : Item} : i ∈ (Module.ofSchema s settings sourceName).items ↔
    ∃ name d, s.definition? name = some d ∧
      i = Item.ofDefinition (Naming.ofSchema s) settings (Wire.SizeTable.ofSchema s) name d := by
  have hlookup {name : String} {d : Definition} : s.definition? name = some d ↔ (name, d) ∈ s.types :=
    lookup_eq_some_iff_of_nodup hs.distinct
  simp only [Module.ofSchema, List.mem_map, hlookup, Prod.exists, @eq_comm _ _ i]

/-- A type takes a parameter if and only if one of its members takes a view. -/
theorem isGeneric_iff {name : String} {d : Definition} (hd : s.definition? name = some d) :
    (Naming.ofSchema s).isGeneric name = true ↔
      ∃ t ∈ d.members, needsView (Naming.ofSchema s).generic t = true := by
  rw [Naming.isGeneric, decide_eq_true_iff, Naming.ofSchema, ← widen_generics, mem_widen_iff, widen_generics]
  constructor
  · rintro ⟨d', hd', h⟩
    cases hd.symm.trans ((lookup_eq_some_iff_of_nodup hs.distinct).mpr hd')
    exact h
  · exact fun h => ⟨d, (lookup_eq_some_iff_of_nodup hs.distinct).mp hd, h⟩

/-- The members of a declaration are those of its definition. -/
theorem exists_of_mem_types {i : Item} (hi : i ∈ (Module.ofSchema s settings sourceName).items) {t : Syntax}
    (ht : t ∈ i.declaration.body.types) : ∃ name d, s.definition? name = some d ∧
      i.declaration.ident = identifier name ∧ ∃ t' ∈ d.members, t = (Naming.ofSchema s).type t' := by
  obtain ⟨name, d, hd, rfl⟩ := (mem_items_iff hs settings sourceName).mp hi
  change t ∈ (DeclBody.ofDefinition _ d).types at ht
  rw [types_ofDefinition, List.mem_map] at ht
  obtain ⟨t', ht', rfl⟩ := ht
  exact ⟨name, d, hd, rfl, t', ht', rfl⟩

/-- What a member refers to is declared. -/
theorem exists_item_of_target {name : String} {d : Definition} (hd : s.definition? name = some d) {t : Ty}
    (ht : t ∈ d.members) {r : Ref} (hr : t.target? = some r) :
    ∃ j ∈ (Module.ofSchema s settings sourceName).items, j.declaration.ident = identifier r.name ∧
      j.declaration.parameter = (Naming.ofSchema s).parameterOf r.name := by
  obtain ⟨d', hd', -⟩ := (hs.resolved name d hd t ht).target r hr
  exact ⟨_, (mem_items_iff hs settings sourceName).mpr ⟨r.name, d', hd', rfl⟩, rfl, rfl⟩

variable (hnames : ∀ name ∈ s.typeNames, '#' ∉ name.toList)

include hnames

/-- What a type embeds stands further down in the order of the schema. -/
theorem rank_lt_of_embeds {rank : String → Nat} (hrank : ∀ outer inner, s.Holds outer inner → rank inner < rank outer)
    {outer inner : String}
    (h : Relation.TransGen (Module.ofSchema s settings sourceName).Embeds outer inner) :
    ∃ name ∈ s.typeNames, ∃ name' ∈ s.typeNames, identifier name = outer ∧ identifier name' = inner ∧
      rank name' < rank name := by
  have hstep {outer inner : String} (h : (Module.ofSchema s settings sourceName).Embeds outer inner) :
      ∃ name ∈ s.typeNames, ∃ name' ∈ s.typeNames, identifier name = outer ∧ identifier name' = inner ∧
        rank name' < rank name := by
    obtain ⟨i, hi, rfl, _, ht, hembedded⟩ := h
    obtain ⟨name, d, hd, hident, t', ht', rfl⟩ := exists_of_mem_types hs settings sourceName hi ht
    obtain ⟨r, hr, rfl⟩ := exists_of_mem_embedded _ hembedded
    obtain ⟨d', hd', -⟩ := (hs.resolved name d hd t' ht').target r (TypeExpr.target?_of_direct? hr)
    exact ⟨name, Schema.mem_typeNames_iff.mpr ⟨d, hd⟩, r.name, Schema.mem_typeNames_iff.mpr ⟨d', hd'⟩,
      hident.symm, rfl, hrank _ _ ⟨d, hd, t', ht', r, hr, rfl⟩⟩
  induction h with
  | single h => exact hstep h
  | tail _ h ih =>
    obtain ⟨name, hname, middle, hmiddle, rfl, rfl, hlt⟩ := ih
    obtain ⟨middle', hmiddle', name', hname', heq, rfl, hlt'⟩ := hstep h
    obtain rfl := (identifier_inj (hnames _ hmiddle') (hnames _ hmiddle)).mp heq
    exact ⟨name, hname, name', hname', rfl, rfl, hlt'.trans hlt⟩

theorem closed_ofSchema : (Module.ofSchema s settings sourceName).Closed where
  distinct := by
    have hidents : (Module.ofSchema s settings sourceName).items.map (·.declaration.ident) =
        s.typeNames.map identifier := by
      simp [Module.ofSchema, Schema.typeNames, Declaration.ident, Item.ofDefinition, Function.comp_def]
    rw [hidents]
    exact hs.distinct.map_on fun name hname name' hname' heq =>
      (identifier_inj (hnames name hname) (hnames name' hname')).mp heq
  declared i hi := by
    obtain ⟨name, d, -, rfl⟩ := (mem_items_iff hs settings sourceName).mp hi
    exact declared_eq _ name
  decodes i hi := by
    obtain ⟨name, d, -, rfl⟩ := (mem_items_iff hs settings sourceName).mp hi
    exact named_eq _ .borrowed name
  encodes i hi := by
    obtain ⟨name, d, -, rfl⟩ := (mem_items_iff hs settings sourceName).mp hi
    exact ⟨rfl, rfl⟩
  parametric i hi p := by
    obtain ⟨name, d, hd, rfl⟩ := (mem_items_iff hs settings sourceName).mp hi
    change (Naming.ofSchema s).parameterOf name = some p ↔ ∃ t ∈ (DeclBody.ofDefinition _ d).types, _
    have hviews : (∃ t ∈ (DeclBody.ofDefinition (Naming.ofSchema s) d).types, .parameter p ∈ t.views) ↔
        p = (Naming.ofSchema s).parameter ∧ (Naming.ofSchema s).isGeneric name = true := by
      rw [isGeneric_iff hs hd, types_ofDefinition]
      simp only [List.mem_map, exists_exists_and_eq_and, mem_views_type]
      tauto
    rw [hviews, Naming.parameterOf]
    split
    · next h => simp [h, eq_comm]
    · next h => simp [h]
  references i hi t ht r hr := by
    obtain ⟨name, d, hd, -, t', ht', rfl⟩ := exists_of_mem_types hs settings sourceName hi ht
    obtain ⟨x, hx, rfl⟩ := exists_of_mem_references_type _ hr
    obtain ⟨j, hj, hident, hparameter⟩ := exists_item_of_target hs settings sourceName hd ht' hx
    exact ⟨j, hj, hident, by rw [hparameter]⟩
  reads i hi t ht r hr := by
    obtain ⟨name, d, hd, rfl⟩ := (mem_items_iff hs settings sourceName).mp hi
    change t ∈ (DecodeBody.ofDefinition _ d).reads at ht
    rw [reads_ofDefinition, List.mem_map] at ht
    obtain ⟨t', ht', rfl⟩ := ht
    obtain ⟨x, hx, rfl⟩ := exists_of_mem_references_read _ hr
    obtain ⟨j, hj, hident, hparameter⟩ := exists_item_of_target hs settings sourceName hd ht' hx
    exact ⟨j, hj, hident, by rw [hparameter]⟩
  layout ident hcycle := by
    obtain ⟨rank, -, hrank⟩ := hs.ranked
    obtain ⟨name, hname, name', hname', rfl, heq, hlt⟩ :=
      rank_lt_of_embeds hs settings sourceName hnames hrank hcycle
    obtain rfl := (identifier_inj (hnames _ hname') (hnames _ hname)).mp heq
    exact Nat.lt_irrefl _ hlt

end Module

end XdrSchema.Rust
