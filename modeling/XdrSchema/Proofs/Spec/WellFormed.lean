import Mathlib.Data.Set.Finite.List
import XdrSchema.Proofs.Schema.WellFormed
import XdrSchema.Spec.Basic

/-! Which specifications make a schema. Names are distinct, a constant is the end of a chain of names,
every type mentioned is defined, the labels of a union belong to its discriminant, and no definition
holds itself. -/
namespace XdrSchema.Spec

open Schema (Selector)

/-! ### What a definition consists of -/

namespace Body

def members : Body → List Member
  | .enum members => members
  | _ => []

def IsType : Body → Prop
  | .const _ => False
  | _ => True

end Body

namespace Union

/-- The labels of all arms. -/
def labels (u : Union) : List Value := u.arms.flatMap (·.labels)

/-- What the arms carry, with the default arm last. -/
def payloads (u : Union) : List Payload := u.arms.map (·.payload) ++ u.default.toList

end Union

/-- The types of what a value of the definition holds, the discriminant of a union included. -/
def Body.types : Body → List Ty
  | .const _ | .enum _ => []
  | .typedef t => [t]
  | .struct fields => fields.map (·.type)
  | .union u => .plain u.discriminant.type :: u.payloads.filterMap fun p => p.field?.map (·.type)

variable (spec : Spec)

/-- The names that a specification defines, after those that are defined without it. -/
def names : List String :=
  "TRUE" :: "FALSE" :: spec.definitions.flatMap fun d => d.name :: d.body.members.map (·.name)

/-! ### Constants -/

/-- A constant or a label with what it is defined as. -/
def Assigns (name : String) (v : Value) : Prop :=
  ∃ d ∈ spec.definitions, d.name = name ∧ d.body = .const v ∨
    ∃ m ∈ d.body.members, m.name = name ∧ m.value = v

/-- A chain of names, each defined as the next and the last as a number of 64 bits. -/
inductive Leads : List String → Int → Prop
  | true : Leads ["TRUE"] 1
  | false : Leads ["FALSE"] 0
  | literal {name text : String} {n : Int} {span : Span} (h : spec.Assigns name (.literal n text span))
      (hn : -2 ^ 63 ≤ n ∧ n < 2 ^ 63) : Leads [name] n
  | constant {name next : String} {span : Span} {chain : List String} {n : Int}
      (h : spec.Assigns name (.constant next span)) (hnext : Leads (next :: chain) n) :
      Leads (name :: next :: chain) n

/-- The chain of a name ends in a number, without coming back to a name. -/
def Denotes (name : String) (n : Int) : Prop :=
  ∃ chain, (name :: chain).Nodup ∧ spec.Leads (name :: chain) n

def Evaluates : Value → Int → Prop
  | .literal k _ _, n => n = k
  | .constant name _, n => spec.Denotes name n

/-- A number that a length word can hold. -/
def Bounds (v : Value) (n : Nat) : Prop := spec.Evaluates v n ∧ n < 2 ^ 32

/-! ### Types -/

def IsType (name : String) : Prop := ∃ d ∈ spec.definitions, d.name = name ∧ d.body.IsType

/-- What the type mentions is defined. -/
@[mk_iff] structure Fits (t : Ty) : Prop where
  target : ∀ name, t.target? = some name → spec.IsType name
  bound : ∀ v ∈ t.bound?, ∃ n, spec.Bounds v n

/-- A value of the one definition has a value of the other in it, neither optional nor in an array of
variable length. -/
def Holds (outer inner : String) : Prop :=
  ∃ d ∈ spec.definitions, d.name = outer ∧ ∃ t ∈ d.body.types, t.direct? = some inner

/-- What selects the arms of a union, behind typedefs. -/
inductive Selects : Base String → Selector → Prop
  | int : Selects (.primitive .int) .signed
  | unsignedInt : Selects (.primitive .unsignedInt) .unsigned
  | bool : Selects (.primitive .bool) .bool
  | enum {d : Definition} {members : List Member} (hd : d ∈ spec.definitions)
      (hbody : d.body = .enum members) : Selects (.named d.name) (.enum d.name)
  | typedef {d : Definition} {b : Base String} {selector : Selector} (hd : d ∈ spec.definitions)
      (hbody : d.body = .typedef (.plain b)) (h : Selects b selector) : Selects (.named d.name) selector

/-- The values of a selector. -/
def Belongs : Selector → Int → Prop
  | .signed, n => -2 ^ 31 ≤ n ∧ n < 2 ^ 31
  | .unsigned, n => 0 ≤ n ∧ n < 2 ^ 32
  | .bool, n => n = 0 ∨ n = 1
  | .enum name, n => ∃ d ∈ spec.definitions, d.name = name ∧
      ∃ m ∈ d.body.members, spec.Denotes m.name n

/-- The labels of an enumeration denote distinct numbers of 32 bits. -/
def Enumerates (members : List Member) : Prop :=
  ∃ values, List.Forall₂ (fun m n => spec.Denotes m.name n) members values ∧
    (∀ n ∈ values, -2 ^ 31 ≤ n ∧ n < 2 ^ 31) ∧ values.Nodup

/-- The labels are distinct values of the selector. -/
def DistinctCases (selector : Selector) (labels : List Value) : Prop :=
  ∃ values, List.Forall₂ spec.Evaluates labels values ∧
    (∀ n ∈ values, spec.Belongs selector n) ∧ values.Nodup

/-- The labels of all arms of a union are distinct values of what selects them. -/
def Switches (u : Union) : Prop :=
  ∃ selector, spec.Selects u.discriminant.type selector ∧ spec.DistinctCases selector u.labels

/-- A definition that is sound but for what its types hold. -/
structure Admits (d : Definition) : Prop where
  types : ∀ t ∈ d.body.types, spec.Fits t
  members : spec.Enumerates d.body.members
  cases : ∀ u, d.body = .union u → spec.Switches u

structure WellFormed : Prop where
  distinct : spec.names.Nodup
  constants : ∀ name v, spec.Assigns name v → ∃ n, spec.Denotes name n
  definitions : ∀ d ∈ spec.definitions, spec.Admits d
  acyclic : ∀ name, ¬ Relation.TransGen spec.Holds name name

/-! ### Types that are founded -/

/-- A sound type that holds only such types. -/
inductive Founded : String → Prop
  | intro {d : Definition} (hd : d ∈ spec.definitions) (htype : d.body.IsType) (hadmits : spec.Admits d)
      (holds : ∀ t ∈ d.body.types, ∀ inner, t.direct? = some inner → Founded inner) : Founded d.name

variable {spec}

theorem DistinctCases.evaluates {selector : Selector} {labels : List Value}
    (h : spec.DistinctCases selector labels) {v : Value} (hv : v ∈ labels) : ∃ n, spec.Evaluates v n := by
  obtain ⟨values, hvalues, -⟩ := h
  induction hvalues with
  | nil => cases hv
  | cons hn _ ih =>
    rcases List.mem_cons.mp hv with rfl | hv
    · exact ⟨_, hn⟩
    · exact ih hv

theorem Founded.isType {name : String} (h : spec.Founded name) : spec.IsType name := by
  cases h with
  | intro hd htype _ _ => exact ⟨_, hd, rfl, htype⟩

theorem isType_of_holds {outer inner : String} (h : spec.Holds outer inner) : spec.IsType outer := by
  obtain ⟨d, hd, hname, t, ht, -⟩ := h
  refine ⟨d, hd, hname, ?_⟩
  obtain ⟨name, body, span, nameSpan⟩ := d
  cases body with
  | const v => cases ht
  | _ => trivial

/-- Distinct names belong to distinct definitions. -/
theorem eq_of_name (hdistinct : spec.names.Nodup) {d d' : Definition} (hd : d ∈ spec.definitions)
    (hd' : d' ∈ spec.definitions) (hname : d.name = d'.name) : d = d' := by
  have hall : (spec.definitions.flatMap fun d => d.name :: d.body.members.map (·.name)).Nodup :=
    hdistinct.of_cons.of_cons
  have hnodup : (spec.definitions.map (·.name)).Nodup := by
    refine hall.sublist ?_
    induction spec.definitions with
    | nil => exact List.Sublist.refl _
    | cons d rest ih =>
      rw [List.map_cons, List.flatMap_cons, List.cons_append]
      exact (ih.trans (List.sublist_append_right _ _)).cons_cons _
  exact List.inj_on_of_nodup_map hnodup hd hd' hname

/-- What is founded does not hold itself, as else what it holds would. -/
theorem Founded.not_cyclic (hdistinct : spec.names.Nodup) {name : String} (h : spec.Founded name) :
    ¬ Relation.TransGen spec.Holds name name := by
  induction h with
  | @intro d hd _ _ _ ih =>
    intro hcyclic
    obtain ⟨inner, hfirst, hrest⟩ := Relation.TransGen.head'_iff.mp hcyclic
    obtain ⟨d', hd', hname, t, ht, hinner⟩ := hfirst
    obtain rfl := eq_of_name hdistinct hd' hd hname
    exact ih t ht inner hinner (.tail' hrest ⟨d', hd', rfl, t, ht, hinner⟩)

theorem Founded.of_name (hdistinct : spec.names.Nodup) {d : Definition} (hd : d ∈ spec.definitions)
    (h : spec.Founded d.name) :
    spec.Admits d ∧ ∀ t ∈ d.body.types, ∀ inner, t.direct? = some inner → spec.Founded inner := by
  generalize hname : d.name = name at h
  cases h with
  | intro hd' _ hadmits holds =>
    obtain rfl := eq_of_name hdistinct hd hd' hname
    exact ⟨hadmits, holds⟩

theorem founded_of_acyclic (hadmits : ∀ d ∈ spec.definitions, spec.Admits d)
    (hacyclic : ∀ name, ¬ Relation.TransGen spec.Holds name name) {name : String}
    (hname : spec.IsType name) : spec.Founded name := by
  have hfinite : Finite {n | n ∈ spec.definitions.map (·.name)} := List.finite_toSet _
  have hmem {n : String} (hn : spec.IsType n) : n ∈ spec.definitions.map (·.name) := by
    obtain ⟨d, hd, rfl, -⟩ := hn
    exact List.mem_map_of_mem hd
  have hclaim : ∀ x : {n | n ∈ spec.definitions.map (·.name)}, spec.IsType x.1 → spec.Founded x.1 := by
    intro x
    induction x using (wellFounded_of_finite hfinite fun n _ => hacyclic n).induction with
    | _ x ih =>
      obtain ⟨name, hx⟩ := x
      rintro ⟨d, hd, rfl, htype⟩
      refine .intro hd htype (hadmits d hd) fun t ht inner hinner => ?_
      have hinnerType := ((hadmits d hd).types t ht).target inner (TypeExpr.target?_of_direct? hinner)
      exact ih ⟨inner, hmem hinnerType⟩ (.single ⟨d, hd, rfl, t, ht, hinner⟩) hinnerType
  exact hclaim ⟨name, hmem hname⟩ hname

/-- A constant is sound: it holds nothing. -/
theorem admits_of_not_isType {d : Definition} (h : ¬ d.body.IsType) : spec.Admits d := by
  obtain ⟨name, body, span, nameSpan⟩ := d
  cases body with
  | const v =>
    refine ⟨fun t ht => ?_, ⟨[], .nil, by simp, List.nodup_nil⟩, fun u hu => ?_⟩
    · cases ht
    · cases hu
  | _ => exact absurd trivial h

/-- All types are founded if and only if they are sound and none holds itself. -/
theorem founded_iff (hdistinct : spec.names.Nodup) : (∀ name, spec.IsType name → spec.Founded name) ↔
    (∀ d ∈ spec.definitions, spec.Admits d) ∧ ∀ name, ¬ Relation.TransGen spec.Holds name name := by
  constructor
  · intro h
    constructor
    · intro d hd
      by_cases htype : d.body.IsType
      · exact ((h d.name ⟨d, hd, rfl, htype⟩).of_name hdistinct hd).1
      · exact admits_of_not_isType htype
    · intro name hcyclic
      obtain ⟨inner, hfirst, -⟩ := Relation.TransGen.head'_iff.mp hcyclic
      exact (h name (isType_of_holds hfirst)).not_cyclic hdistinct hcyclic
  · rintro ⟨hadmits, hacyclic⟩ name hname
    exact founded_of_acyclic hadmits hacyclic hname

end XdrSchema.Spec
