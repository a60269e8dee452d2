import XdrSchema.Proofs.Rust.Names
import XdrSchema.Proofs.Schema.Shared

/-! The module of a specification with its definitions in another order. It has the same constants and
the same items, each list in the order of the definitions. -/
namespace XdrSchema.Rust

open Schema (Ref Ty Arm Union)

/-! ### Which types take a view -/

theorem mem_widen_iff {types : List (String × Schema.Definition)} {generic : List String} {name : String} :
    name ∈ widen types generic ↔ ∃ d, (name, d) ∈ types ∧ ∃ t ∈ d.members, needsView generic t = true := by
  simp [widen]

theorem needsView_congr {generic generic' : List String} (h : ∀ name, name ∈ generic' ↔ name ∈ generic)
    (t : Ty) : needsView generic' t = needsView generic t := by
  simp only [needsView, h]

/-- In every round the same names are found to take a view, in whatever order the types are listed. -/
theorem mem_generics_of_perm {types types' : List (String × Schema.Definition)} (h : types'.Perm types)
    (name : String) : name ∈ generics types' ↔ name ∈ generics types := by
  have hrounds (rounds : List Nat) (start start' : List String) (hstart : ∀ name, name ∈ start' ↔ name ∈ start) :
      ∀ name, name ∈ rounds.foldl (fun generic _ => widen types' generic) start' ↔
        name ∈ rounds.foldl (fun generic _ => widen types generic) start := by
    induction rounds generalizing start start' with
    | nil => exact hstart
    | cons _ rounds ih =>
      refine ih _ _ fun name => ?_
      simp only [mem_widen_iff, h.mem_iff, needsView_congr hstart]
  unfold generics
  rw [h.length_eq]
  exact hrounds _ _ _ (fun _ => Iff.rfl) name

/-! ### Spelling -/

/-- Two ways of spelling that make the same types generic. -/
structure Naming.Alike (naming naming' : Naming) : Prop where
  generic : naming'.isGeneric = naming.isGeneric
  parameter : naming'.parameter = naming.parameter

section Alike

variable {naming naming' : Naming} (h : naming.Alike naming')

include h

theorem Naming.Alike.named : naming'.named = naming.named := by
  unfold Naming.named
  rw [h.generic]

theorem Naming.Alike.declared : naming'.declared = naming.declared := by
  unfold Naming.declared
  rw [h.named, h.parameter]

theorem Naming.Alike.decoded : naming'.decoded = naming.decoded := by
  unfold Naming.decoded
  rw [h.named]

theorem Naming.Alike.base : naming'.base = naming.base := by
  unfold Naming.base
  rw [h.declared]

theorem Naming.Alike.type : naming'.type = naming.type := by
  unfold Naming.type
  rw [h.base, h.parameter]

theorem Naming.Alike.variant : Variant.ofArm naming' = Variant.ofArm naming := by
  unfold Variant.ofArm
  rw [h.type]

theorem Naming.Alike.declBody : DeclBody.ofDefinition naming' = DeclBody.ofDefinition naming := by
  unfold DeclBody.ofDefinition
  rw [h.type, h.variant]

theorem Naming.Alike.readBase : Read.ofBase naming' = Read.ofBase naming := by
  unfold Read.ofBase
  rw [h.decoded]

theorem Naming.Alike.readType : Read.ofType naming' = Read.ofType naming := by
  unfold Read.ofType
  rw [h.readBase]

theorem Naming.Alike.construct : Construct.ofArm naming' = Construct.ofArm naming := by
  unfold Construct.ofArm
  rw [h.readType]

theorem Naming.Alike.decodeBody : DecodeBody.ofDefinition naming' = DecodeBody.ofDefinition naming := by
  unfold DecodeBody.ofDefinition
  rw [h.readType, h.construct]

/-- With alike spellings and the same size an item is the same. -/
theorem Naming.Alike.item (settings : Settings) {sizes sizes' : Wire.SizeTable} {name : String}
    (hsize : sizes'.get name = sizes.get name) (d : Schema.Definition) :
    Item.ofDefinition naming' settings sizes' name d = Item.ofDefinition naming settings sizes name d := by
  unfold Item.ofDefinition
  rw [h.declared, h.decoded, h.declBody, h.decodeBody, h.generic, h.parameter, hsize]

end Alike

/-! ### Names that can be declared -/

theorem typeFree_unplaced {s : Schema} {name : String} {d : Spec.Definition} :
    TypeFree s name d.unplaced ↔ TypeFree s name d := by
  obtain ⟨dname, body, span, nameSpan⟩ := d
  rw [typeFree_iff, typeFree_iff]
  cases body with
  | struct fields =>
    simp only [Spec.Definition.unplaced, Spec.Body.unplaced, Spec.Body.struct.injEq, forall_eq',
      List.forall_mem_map, Spec.Field.unplaced]
  | _ => simp [Spec.Definition.unplaced, Spec.Body.unplaced]

theorem valueFree_unplaced {x : Symbol} : ValueFree x.unplaced ↔ ValueFree x := by
  obtain ⟨name, span, meaning⟩ := x
  cases meaning <;> rfl

/-- Whether names can be declared does not depend on places. -/
theorem checkNames_eq_ok_iff_unplaced {s : Schema} : checkNames s = .ok () ↔
    (∀ x ∈ s.symbols.map Symbol.unplaced, ∀ k d, x.type? = some (k, d) → TypeFree s x.name d) ∧
      ∀ x ∈ s.symbols.map Symbol.unplaced, ValueFree x := by
  rw [checkNames_eq_ok_iff, List.forall_mem_map, List.forall_mem_map]
  simp only [valueFree_unplaced, Symbol.type?_unplaced, Symbol.name_unplaced]
  refine and_congr_left fun _ => forall₂_congr fun x _ => ?_
  cases x.type? with
  | none => simp
  | some kd =>
    obtain ⟨k, d⟩ := kd
    constructor
    · rintro h _ _ ⟨⟩
      exact typeFree_unplaced.mpr (h k d rfl)
    · rintro h _ _ ⟨⟩
      exact typeFree_unplaced.mp (h k d.unplaced rfl)

variable {spec spec' : Spec} {s s' : Schema} (hs : (Schema.analyze spec).result = .ok s)
  (hs' : (Schema.analyze spec').result = .ok s') (hproper : ∀ d ∈ spec.definitions, d.Proper)
  (hproper' : ∀ d ∈ spec'.definitions, d.Proper) (h : Spec.Reorders spec' spec)

include hs hs' hproper hproper' h

theorem checkNames_of_reorders : checkNames s' = .ok () ↔ checkNames s = .ok () := by
  have hsame (name : String) (d : Spec.Definition) : TypeFree s' name d ↔ TypeFree s name d := by
    rw [typeFree_iff, typeFree_iff, Schema.definition?_of_reorders hs hs' hproper hproper' h]
  have hperm : (s'.symbols.map Symbol.unplaced).Perm (s.symbols.map Symbol.unplaced) := by
    rw [Schema.symbols_of_analyze hs, Schema.symbols_of_analyze hs']
    exact Symbol.map_unplaced_perm h
  rw [checkNames_eq_ok_iff_unplaced, checkNames_eq_ok_iff_unplaced]
  simp only [hperm.mem_iff, hsame]

/-! ### Items -/

theorem naming_of_reorders : (Naming.ofSchema s).Alike (Naming.ofSchema s') where
  generic := by
    funext name
    exact decide_eq_decide.mpr
      (mem_generics_of_perm (Schema.types_perm_of_reorders hs hs' hproper hproper' h) name)
  parameter := by
    have hB : (Symbol.find? s'.symbols "B").isSome = (Symbol.find? s.symbols "B").isSome := by
      rw [← Option.isSome_map (f := Symbol.unplaced), Schema.find?_of_reorders hs hs' h, Option.isSome_map]
    simp only [Naming.ofSchema, hB]

theorem items_perm_of_reorders (settings : Settings) (name : String) :
    (Module.ofSchema s' settings name).items.Perm (Module.ofSchema s settings name).items := by
  have hnaming := naming_of_reorders hs hs' hproper hproper' h
  have hagrees : s.AgreesOn s' fun _ => True :=
    ⟨fun name _ => Schema.definition?_of_reorders hs hs' hproper hproper' h name, fun _ _ _ _ => trivial⟩
  have hsize (name : String) :
      (Wire.SizeTable.ofSchema s').get name = (Wire.SizeTable.ofSchema s).get name :=
    Wire.SizeTable.get_of_agreesOn hagrees (Schema.wellFormed_of_analyze hproper hs)
      (Schema.wellFormed_of_analyze hproper' hs') trivial
  refine .trans (.of_eq ?_) ((Schema.types_perm_of_reorders hs hs' hproper hproper' h).map _)
  exact List.map_congr_left fun e _ => hnaming.item settings (hsize e.1) e.2

end XdrSchema.Rust

namespace XdrSchema

open Schema.Scope (kindOf?)

/-! ### Constants -/

namespace Symbol

/-- The constant that a symbol introduces. -/
def constant? (symbols : List Symbol) (x : Symbol) : Option (String × Int) :=
  match x.meaning with
  | .constant v => (Constant.evaluate symbols v).toOption.map fun n => (x.name, n)
  | _ => none

variable {spec spec' : Spec}

/-- In another order, and at other places, a symbol introduces the same constant. -/
theorem constant?_of_reorders (hdistinct : spec.names.Nodup) (h : Spec.Reorders spec' spec) (x : Symbol) :
    constant? (ofSpec spec') x = constant? (ofSpec spec) x.unplaced := by
  have hdistinct' : spec'.names.Nodup := h.names_perm.nodup_iff.mpr hdistinct
  obtain ⟨name, span, meaning⟩ := x
  cases meaning with
  | constant v =>
    have hvalue (n : Int) : Constant.evaluate (ofSpec spec') v = .ok n ↔
        Constant.evaluate (ofSpec spec) v.unplaced = .ok n := by
      rw [Constant.evaluate_eq_ok_iff hdistinct', Constant.evaluate_eq_ok_iff hdistinct,
        Spec.evaluates_unplaced]
      exact ⟨h.symm.shares.evaluates rfl fun _ _ _ _ _ => trivial,
        h.shares.evaluates rfl fun _ _ _ _ _ => trivial⟩
    refine congrArg (Option.map fun n => (name, n)) (Option.ext fun n => ?_)
    simp only [toOption_eq_some_iff, hvalue]
  | _ => rfl

theorem constants_perm_of_reorders (hdistinct : spec.names.Nodup) (h : Spec.Reorders spec' spec) :
    (constants (ofSpec spec')).Perm (constants (ofSpec spec)) := by
  have hunplaced {spec' : Spec} (h : Spec.Reorders spec' spec) : constants (ofSpec spec') =
      ((ofSpec spec').map unplaced).filterMap (constant? (ofSpec spec)) := by
    rw [List.filterMap_map]
    exact List.filterMap_congr fun x _ => constant?_of_reorders hdistinct h x
  rw [hunplaced h, hunplaced (.refl _)]
  exact (map_unplaced_perm h).filterMap _

/-- What every definition of some sort, and no truth value, introduces one of, is introduced in the order
of these. -/
theorem map_filterMap_ofSpec {β : Type} {f : Symbol → Option β} {g : β → String} {p : Spec.Definition → Bool}
    (hbuiltins : builtins.filterMap f = [])
    (hdefinition : ∀ d ∈ spec.definitions,
      ((ofDefinition d).filterMap f).map g = if p d then [d.name] else []) :
    ((ofSpec spec).filterMap f).map g = (spec.definitions.filter p).map (·.name) := by
  rw [ofSpec, List.filterMap_append, hbuiltins, List.nil_append]
  generalize spec.definitions = definitions at hdefinition ⊢
  induction definitions with
  | nil => rfl
  | cons d rest ih =>
    rw [List.forall_mem_cons] at hdefinition
    rw [List.flatMap_cons, List.filterMap_append, List.map_append, hdefinition.1, ih hdefinition.2,
      List.filter_cons]
    split <;> rfl

end Symbol

/-- The names of the constants of a specification in order. -/
def Spec.constantNames (spec : Spec) : List String :=
  (spec.definitions.filter fun d => (kindOf? d).isNone).map (·.name)

/-- The names of its types in order. -/
def Spec.typeNames (spec : Spec) : List String :=
  (spec.definitions.filter fun d => (kindOf? d).isSome).map (·.name)

variable {spec : Spec} {s : Schema}

/-- What a constant is defined as has a value, as the constant has one. -/
theorem Spec.WellFormed.exists_evaluates (hspec : spec.WellFormed) {name : String} {v : Spec.Value}
    (hv : spec.Assigns name v) : ∃ n, spec.Evaluates v n := by
  cases v with
  | literal n text span => exact ⟨n, rfl⟩
  | constant next span =>
    obtain ⟨n, chain, hnodup, hleads⟩ := hspec.constants name _ hv
    obtain ⟨x, hx, hname, hvalue⟩ := Symbol.assigns_iff.mp hv
    have hfind := (Symbol.find?_ofSpec_eq_some_iff hspec.distinct).mpr ⟨hx, hname⟩
    obtain ⟨rest, rfl, hnext⟩ := Symbol.leads_of_value? hspec.distinct hfind hvalue hleads
    exact ⟨n, rest, hnodup.of_cons, hnext⟩

/-- Constants are listed in the order of the specification. -/
theorem Symbol.map_fst_constants (h : (Schema.analyze spec).result = .ok s) :
    (constants s.symbols).map (·.1) = spec.constantNames := by
  have hspec := Schema.specWellFormed_of_analyze h
  rw [Schema.symbols_of_analyze h]
  refine map_filterMap_ofSpec rfl fun d hd => ?_
  obtain ⟨name, body, span, nameSpan⟩ := d
  cases body with
  | const v =>
    obtain ⟨n, hn⟩ := hspec.exists_evaluates ⟨_, hd, .inl ⟨rfl, rfl⟩⟩
    have hvalue := (Constant.evaluate_eq_ok_iff hspec.distinct).mpr hn
    simp [ofDefinition, kindOf?, hvalue, Except.toOption]
  | enum members => simp [ofDefinition, kindOf?]
  | typedef _ | struct _ | union _ => simp [ofDefinition, kindOf?]

theorem Schema.map_fst_types (hproper : ∀ d ∈ spec.definitions, d.Proper)
    (h : (Schema.analyze spec).result = .ok s) : s.types.map (·.1) = spec.typeNames := by
  refine (typeNames_of_analyze hproper h).trans (Symbol.map_filterMap_ofSpec rfl fun d _ => ?_)
  obtain ⟨name, body, span, nameSpan⟩ := d
  cases body with
  | enum members => simp [Symbol.ofDefinition, Symbol.type?, kindOf?]
  | const _ | typedef _ | struct _ | union _ => simp [Symbol.ofDefinition, Symbol.type?, kindOf?]

namespace Rust

/-! ### Modules -/

/-- The same module but for the order of its constants and items. Each module has them in the order of its
own specification. -/
structure Module.Rearranges (m' m : Module) (spec' spec : Spec) : Prop where
  rest : m' = { m with constants := m'.constants, items := m'.items }
  constants : m'.constants.Perm m.constants
  items : m'.items.Perm m.items
  constantNames : m.constants.map (·.1) = spec.constantNames
  typeNames : m.items.map (·.declaration.name) = spec.typeNames
  constantNames' : m'.constants.map (·.1) = spec'.constantNames
  typeNames' : m'.items.map (·.declaration.name) = spec'.typeNames

theorem map_name_items (hproper : ∀ d ∈ spec.definitions, d.Proper)
    (h : (Schema.analyze spec).result = .ok s) (settings : Settings) (name : String) :
    (Module.ofSchema s settings name).items.map (·.declaration.name) = spec.typeNames := by
  rw [← Schema.map_fst_types hproper h, Module.ofSchema, List.map_map]
  rfl

theorem rearranges_of_reorders {spec' : Spec} {s' : Schema} (hs : (Schema.analyze spec).result = .ok s)
    (hs' : (Schema.analyze spec').result = .ok s') (hproper : ∀ d ∈ spec.definitions, d.Proper)
    (hproper' : ∀ d ∈ spec'.definitions, d.Proper) (h : Spec.Reorders spec' spec) (settings : Settings)
    (name : String) :
    (Module.ofSchema s' settings name).Rearranges (Module.ofSchema s settings name) spec' spec where
  rest := rfl
  constants := by
    change (Symbol.constants s'.symbols).Perm (Symbol.constants s.symbols)
    rw [Schema.symbols_of_analyze hs, Schema.symbols_of_analyze hs']
    exact Symbol.constants_perm_of_reorders (Schema.specWellFormed_of_analyze hs).distinct h
  items := items_perm_of_reorders hs hs' hproper hproper' h settings name
  constantNames := Symbol.map_fst_constants hs
  typeNames := map_name_items hproper hs settings name
  constantNames' := Symbol.map_fst_constants hs'
  typeNames' := map_name_items hproper' hs' settings name

theorem generate_eq_ok_iff {settings : Settings} {name text : String} :
    generate s settings name = .ok text ↔
      checkNames s = .ok () ∧ text = (Module.ofSchema s settings name).text := by
  unfold generate
  rw [bind_unit_eq_ok_iff]
  exact and_congr_right fun _ => ⟨fun | rfl => rfl, fun | rfl => rfl⟩

end Rust

end XdrSchema
