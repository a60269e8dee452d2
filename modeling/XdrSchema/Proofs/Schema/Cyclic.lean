import XdrSchema.Proofs.Schema.Accept
import XdrSchema.Proofs.Schema.Cycle
import XdrSchema.Proofs.Strict.Resolve

/-! A cycle that resolving reports is a cycle of what types hold. The types that are being resolved are those
on the path, none of them done, and each of them holds the next. -/
namespace XdrSchema.Schema

namespace Resolve

variable {α β : Type} {I : List (String × Definition) → Prop} {E : SpecError → Progress → Prop}

/-- Started on definitions with the property `I`, a step that ends well keeps it, and one that fails does so
as `E` says. -/
def Upholds (I : List (String × Definition) → Prop) (E : SpecError → Progress → Prop) (x : Resolve α) : Prop :=
  ∀ p, I p.done → (∀ a p', Ends x p a p' → I p'.done) ∧ ∀ e p', Stops x p e p' → E e p'

theorem upholds_pure (a : α) : Upholds I E (pure a) := maintains_pure a

theorem upholds_throw {e : SpecError} (h : ∀ p, I p.done → E e p) : Upholds I E (throw e : Resolve α) :=
  maintains_throw h

/-- What follows a step may use that the step has ended well. -/
theorem Upholds.bind {x : Resolve α} {f : α → Resolve β} (hx : Upholds I E x)
    (hf : ∀ a, (∃ p p', Ends x p a p') → Upholds I E (f a)) : Upholds I E (x >>= f) :=
  Maintains.bind hx hf

theorem Upholds.then {x : Resolve α} {f : α → Resolve β} (hx : Upholds I E x)
    (hf : ∀ a, Upholds I E (f a)) : Upholds I E (x >>= f) :=
  hx.bind fun a _ => hf a

theorem upholds_get : Upholds I E get := maintains_get

theorem upholds_warn (c : Caution) (span : Option Span) : Upholds I E (warn c span) :=
  maintains_modify fun _ hp => hp

theorem upholds_mapM {f : α → Resolve β} {as : List α} (hf : ∀ a ∈ as, Upholds I E (f a)) :
    Upholds I E (as.mapM f) :=
  maintains_mapM hf

/-! Errors that are no cycles are of no account. -/

variable (hother : ∀ e p, e.NotCyclic → E e p)

include hother

theorem upholds_fail {f : Fault} {span : Span} (h : ∀ chain, f ≠ .cyclic chain) :
    Upholds I E (fail f span : Resolve α) :=
  upholds_throw fun p _ => hother _ p h

theorem upholds_lift {x : Except SpecError α} (h : FailsWith SpecError.NotCyclic x) :
    Upholds I E (lift x) := by
  cases x with
  | error e => exact upholds_throw fun p _ => hother e p (h e rfl)
  | ok a => exact upholds_pure a

end Resolve

open Resolve

variable {spec : Spec}

namespace Scope

/-- A scope in which the definition of `outer` is resolved, while `I` is kept. -/
structure Guards (spec : Spec) (I : List (String × Definition) → Prop) (E : SpecError → Progress → Prop)
    (outer : String) (scope : Scope) : Prop where
  symbols : scope.symbols = Symbol.ofSpec spec
  distinct : spec.names.Nodup
  constants : ∀ name v, spec.Assigns name v → ∃ n, spec.Denotes name n
  other : ∀ e p, e.NotCyclic → E e p
  visit : ∀ inner span, spec.Holds outer inner → spec.IsType inner → Upholds I E (scope.visit inner span)

variable {I : List (String × Definition) → Prop} {E : SpecError → Progress → Prop} {outer : String} {scope : Scope}
  (hg : Guards spec I E outer scope)

include hg

theorem upholds_kindOf (name : String) (span : Span) : Upholds I E (scope.kindOf name span) := by
  unfold kindOf
  split
  · exact upholds_pure _
  · exact upholds_fail hg.other nofun

/-- What has a kind is a type. -/
theorem isType_of_kindOf {name : String} {span : Span} {k : TypeKind}
    (h : ∃ p p', Ends (scope.kindOf name span) p k p') : spec.IsType name := by
  obtain ⟨p, p', hends⟩ := h
  unfold kindOf at hends
  rw [hg.symbols] at hends
  split at hends
  · next sname span k' d hfind =>
    obtain ⟨hmem, rfl⟩ := (Symbol.find?_ofSpec_eq_some_iff hg.distinct).mp hfind
    obtain ⟨hd, hname, hkind⟩ := Symbol.type_iff.mp ⟨_, hmem, rfl, rfl⟩
    exact ⟨d, hd, hname, Spec.isType_iff_kindOf?.mpr ⟨k', hkind⟩⟩
  · exact (not_ends_throw hends).elim

theorem upholds_bound (v : Spec.Value) : Upholds I E (scope.bound v) := by
  unfold bound
  rw [hg.symbols]
  exact upholds_lift hg.other (Constant.failsWith_bound hg.distinct hg.constants v)

theorem upholds_bound? (v : Option Spec.Value) : Upholds I E (scope.bound? v) := by
  cases v with
  | none => exact upholds_pure none
  | some v => exact (upholds_bound hg v).then fun n => upholds_pure (some n)

theorem upholds_direct (b : Base String) (span : Span)
    (hheld : ∀ name, b = .named name → spec.Holds outer name) : Upholds I E (scope.direct b span) := by
  cases b with
  | primitive p => exact upholds_pure _
  | named name =>
    exact (upholds_kindOf hg name span).bind fun k hk =>
      (hg.visit name span (hheld name rfl) (isType_of_kindOf hg hk)).then fun _ => upholds_pure _

theorem upholds_linked (b : Base String) (span : Span) : Upholds I E (scope.linked b span) := by
  cases b with
  | primitive p => exact upholds_pure _
  | named name => exact (upholds_kindOf hg name span).then fun k => upholds_pure _

theorem upholds_type (t : Spec.Ty) (span : Span)
    (hheld : ∀ inner, t.direct? = some inner → spec.Holds outer inner) :
    Upholds I E (scope.type t span) := by
  cases t with
  | plain b =>
    exact (upholds_direct hg b span fun name hb => hheld name (by simpa using hb)).then fun _ => upholds_pure _
  | array b n =>
    exact (upholds_direct hg b span fun name hb => hheld name (by simpa using hb)).then fun _ =>
      (upholds_bound hg n).then fun _ => upholds_pure _
  | vector b n =>
    exact (upholds_linked hg b span).then fun _ => (upholds_bound? hg n).then fun _ => upholds_pure _
  | optional b => exact (upholds_linked hg b span).then fun _ => upholds_pure _
  | fixedBytes n => exact (upholds_bound hg n).then fun _ => upholds_pure _
  | bytes n | string n => exact (upholds_bound? hg n).then fun _ => upholds_pure _

theorem upholds_field (f : Spec.Field Spec.Ty)
    (hheld : ∀ inner, f.type.direct? = some inner → spec.Holds outer inner) :
    Upholds I E (scope.field f) :=
  (upholds_type hg f.type f.nameSpan hheld).then fun _ => upholds_pure _

theorem upholds_labels (enum : String) (members : List Spec.Member) (seen : List (String × Int)) :
    Upholds I E (scope.labels enum seen members) := by
  induction members generalizing seen with
  | nil => exact upholds_pure seen
  | cons m rest ih =>
    unfold labels
    rw [hg.symbols]
    have hvalue := Constant.failsWith_valueOf hg.distinct hg.constants m.name (some m.span)
    refine (upholds_lift hg.other hvalue).then fun n => ?_
    dsimp only
    split
    · refine (upholds_fail hg.other (by simp)).bind ?_
      rintro a ⟨p, p', hends⟩
      exact (not_ends_throw hends).elim
    · split
      · exact upholds_fail hg.other (by simp)
      · exact ih _

theorem upholds_draft (a : Spec.Arm) : Upholds I E (scope.draft a) := by
  unfold draft
  rw [hg.symbols]
  refine (upholds_mapM fun v _ => ?_).then fun labels => upholds_pure _
  exact (upholds_lift hg.other (Constant.failsWith_evaluate hg.distinct hg.constants v)).then
    fun n => upholds_pure _

theorem upholds_payload (p : Spec.Payload)
    (hheld : ∀ f ∈ p.field?, ∀ inner, f.type.direct? = some inner → spec.Holds outer inner) :
    Upholds I E (scope.payload p) := by
  cases p with
  | void span => exact upholds_pure none
  | field f => exact (upholds_field hg f (hheld f rfl)).then fun _ => upholds_pure _

theorem upholds_arms (xs : List (String × Variant.Draft × Spec.Arm))
    (hheld : ∀ x ∈ xs, ∀ f ∈ x.2.2.payload.field?, ∀ inner, f.type.direct? = some inner →
      spec.Holds outer inner) : Upholds I E (scope.arms xs) := by
  induction xs with
  | nil => exact upholds_pure []
  | cons x rest ih =>
    rw [List.forall_mem_cons] at hheld
    exact (upholds_payload hg x.2.2.payload hheld.1).then fun _ =>
      (ih hheld.2).then fun _ => upholds_pure _

omit hg in
theorem upholds_enumLabels (selector : Selector) : Upholds I E (enumLabels selector) := by
  unfold enumLabels
  split
  · refine upholds_get.then fun p => ?_
    split <;> exact upholds_pure _
  · exact upholds_pure []

theorem upholds_union (name : String) (span : Span) (u : Spec.Union)
    (hheld : ∀ t ∈ (Spec.Body.union u).types, ∀ inner, t.direct? = some inner → spec.Holds outer inner) :
    Upholds I E (scope.union name span u) := by
  rw [forall_mem_types_union] at hheld
  obtain ⟨hheld, hheldArms, hheldDefault⟩ := hheld
  unfold union
  dsimp only
  refine (upholds_direct hg u.discriminant.type _ fun name hb => hheld name (by simpa using hb)).then
    fun discriminant => upholds_get.then fun p => ?_
  split
  · next selector _ =>
    refine (upholds_enumLabels selector).then fun labels => ?_
    refine (upholds_mapM fun a _ => upholds_draft hg a).then fun drafts => ?_
    refine (upholds_lift hg.other (CaseSet.failsWith_checkFrom (fun _ _ => nofun) drafts [])).then fun _ => ?_
    refine (upholds_arms hg _ ?_).then fun arms => ?_
    · intro x hx
      exact hheldArms x.2.2 (List.of_mem_zip (List.of_mem_zip hx).2).2
    split
    · next payload hpayload =>
      exact (upholds_payload hg payload (hheldDefault payload hpayload)).then fun _ => upholds_pure _
    · split
      · exact (upholds_warn _ _).then fun _ => upholds_pure _
      · exact upholds_pure _
  · exact upholds_fail hg.other nofun

theorem upholds_definition {d : Spec.Definition} (hd : d ∈ spec.definitions) (hname : d.name = outer) :
    Upholds I E (scope.definition d) := by
  have hheld : ∀ t ∈ d.body.types, ∀ inner, t.direct? = some inner → spec.Holds outer inner :=
    fun t ht inner hinner => ⟨d, hd, hname, t, ht, hinner⟩
  obtain ⟨name, body, span, nameSpan⟩ := d
  cases body with
  | const v => exact upholds_fail hg.other nofun
  | typedef t =>
    exact (upholds_type hg t nameSpan (hheld t (by simp [Spec.Body.types]))).then fun _ => upholds_pure _
  | struct fields =>
    exact (upholds_mapM fun f hf => upholds_field hg f (hheld _ (List.mem_map_of_mem hf))).then
      fun _ => upholds_pure _
  | enum members => exact (upholds_labels hg name members []).then fun _ => upholds_pure _
  | union u => exact (upholds_union hg name nameSpan u hheld).then fun _ => upholds_pure _

end Scope

open Scope

/-! ### Types on a path -/

/-- The definitions of `base` are done, and those of `path` are not. -/
def Apart (base path : List String) (done : List (String × Definition)) : Prop :=
  (∀ n ∈ base, n ∈ names done) ∧ ∀ n ∈ names done, n ∉ path

/-- An error that, if it is a cycle, can be walked from `root` over definitions that are not done. -/
def Looped (spec : Spec) (base : List String) (root : String) (e : SpecError) (p : Progress) : Prop :=
  ∀ chain, e.fault = .cyclic chain →
    ∃ before, Cycle spec.Holds root before chain ∧ Apart base (before ++ chain) p.done

section Visit

variable {fresh : List (TypeKind × Spec.Definition)} {path : List String} {name : String} {span : Span}

/-- A type is done after it was visited. -/
theorem mem_names_of_visit {symbols : List Symbol} {p p' : Progress} {u : Unit}
    (h : Ends (visit symbols fresh path name span) p u p') : name ∈ names p'.done := by
  cases hfind : fresh.find? (·.2.name = name) with
  | none =>
    rw [visit_of_not_fresh hfind, ends_get_bind] at h
    split at h
    · next hdone =>
      obtain ⟨-, rfl⟩ := ends_pure.mp h
      exact lookup_isSome_iff_mem.mp hdone
    · exact (not_ends_throw h).elim
  | some x =>
    rw [visit_of_fresh hfind, ends_get_bind] at h
    split at h
    · next hdone =>
      obtain ⟨-, rfl⟩ := ends_pure.mp h
      exact lookup_isSome_iff_mem.mp hdone
    · obtain ⟨d, p'', -, hfinish⟩ := ends_bind.mp h
      rw [finish, ends_modify] at hfinish
      rw [hfinish]
      exact List.mem_cons_self

/-- A fresh type goes on the path while its definition is resolved. -/
theorem upholds_visit_of_fresh {symbols : List Symbol} {base : List String} {E : SpecError → Progress → Prop}
    {k : TypeKind} {d : Spec.Definition} (hfind : fresh.find? (·.2.name = name) = some (k, d))
    (hnew : name ∉ path) (hdefinition : Upholds (Apart base (path ++ [name])) E (Scope.definition
      ⟨symbols, fun n s => visit symbols (fresh.eraseP (·.2.name = name)) (path ++ [name]) n s⟩ d)) :
    Upholds (Apart base path) E (visit symbols fresh path name span) := by
  intro p hp
  rw [visit_of_fresh hfind]
  simp only [ends_get_bind, stops_get_bind]
  split
  · exact upholds_pure () p hp
  · next hdone =>
    have hname : name ∉ names p.done := fun hmem => hdone (lookup_isSome_iff_mem.mpr hmem)
    -- nothing that is done is on the longer path: the type itself is not done yet
    have hp' : Apart base (path ++ [name]) p.done := by
      refine ⟨hp.1, fun n hn hmem => ?_⟩
      rcases List.mem_append.mp hmem with hmem | hmem
      · exact hp.2 n hn hmem
      · exact hname (List.mem_singleton.mp hmem ▸ hn)
    obtain ⟨hends, hstops⟩ := hdefinition p hp'
    constructor
    · intro u p'' hu
      obtain ⟨r, p', hr, hfinish⟩ := ends_bind.mp hu
      obtain ⟨hbase, hapart⟩ := hends r p' hr
      rw [finish, ends_modify] at hfinish
      rw [hfinish]
      refine ⟨fun n hn => List.mem_cons_of_mem _ (hbase n hn), List.forall_mem_cons.mpr ⟨hnew, ?_⟩⟩
      exact fun n hn hmem => hapart n hn (List.mem_append_left _ hmem)
    · intro e p'' he
      rcases stops_bind.mp he with he | ⟨r, p', -, he⟩
      · exact hstops e p'' he
      · cases he

end Visit

variable (hdistinct : spec.names.Nodup)
  (hconstants : ∀ name v, spec.Assigns name v → ∃ n, spec.Denotes name n)

include hdistinct hconstants

theorem upholds_visit {base : List String} {root : String} (fresh : List (TypeKind × Spec.Definition))
    (hfresh : ∀ x ∈ fresh, x.2 ∈ spec.definitions) (path : List String) (name : String) (span : Span)
    (htype : spec.IsType name) (htrail : Trail spec.Holds spec.IsType root (fresh.map (·.2.name)) path name) :
    Upholds (Apart base path) (Looped spec base root) (visit (Symbol.ofSpec spec) fresh path name span) := by
  intro p hp
  cases hfind : fresh.find? (·.2.name = name) with
  | none =>
    have hold : name ∉ fresh.map (·.2.name) := by
      intro hmem
      obtain ⟨x, hx, hname⟩ := List.mem_map.mp hmem
      exact List.find?_eq_none.mp hfind x hx (by simpa using hname)
    rw [visit_of_not_fresh hfind]
    refine upholds_get.then (fun q => ?_) p hp
    split
    · exact upholds_pure ()
    -- neither fresh nor done, the type is on the path, which it closes to a cycle
    · refine upholds_throw fun q hq => ?_
      rintro _ ⟨⟩
      obtain ⟨before, hcycle, hpath⟩ := htrail.exists_cycle htype hold
      exact ⟨before, hcycle, hq.1, fun n hn hmem => hq.2 n hn (hpath n hmem)⟩
  | some x =>
    obtain ⟨k, d⟩ := x
    have hx := List.mem_of_find?_eq_some hfind
    obtain rfl : d.name = name := by simpa using List.find?_some hfind
    have hmem : d.name ∈ fresh.map (·.2.name) := List.mem_map_of_mem hx
    have hrest : ∀ y ∈ fresh.eraseP (·.2.name = d.name), y.2 ∈ spec.definitions :=
      fun y hy => hfresh y (List.mem_of_mem_eraseP hy)
    have hguards : Guards spec (Apart base (path ++ [d.name])) (Looped spec base root) d.name
        ⟨Symbol.ofSpec spec, fun n s =>
          visit (Symbol.ofSpec spec) (fresh.eraseP (·.2.name = d.name)) (path ++ [d.name]) n s⟩ := by
      refine ⟨rfl, hdistinct, hconstants, fun e p h chain hchain => absurd hchain (h chain), ?_⟩
      intro inner span hholds hinner
      have hnext := htrail.step hmem hholds
      rw [← map_eraseP_key fun x : TypeKind × Spec.Definition => x.2.name] at hnext
      exact upholds_visit _ hrest _ inner span hinner hnext
    exact upholds_visit_of_fresh hfind (htrail.not_mem_path hmem)
      (upholds_definition hguards (hfresh _ hx) rfl) p hp
termination_by fresh.length
decreasing_by exact length_eraseP_key_lt hmem

/-- The cycle at which the types cannot be visited in order is walked to from the first that is not done. -/
theorem exists_cycle_of_forM {e : SpecError} {chain : List String} (hchain : e.fault = .cyclic chain)
    (pending : List (TypeKind × Spec.Definition)) (base : List String) {p p' : Progress}
    (hbase : ∀ n ∈ base, n ∈ names p.done) (hsub : ∀ x ∈ pending, x ∈ Symbol.types (Symbol.ofSpec spec))
    (h : Stops (pending.forM fun x =>
      visit (Symbol.ofSpec spec) (Symbol.types (Symbol.ofSpec spec)) [] x.2.name x.2.nameSpan) p e p') :
    ∃ first x rest before, pending = first ++ x :: rest ∧ Cycle spec.Holds x.2.name before chain ∧
      Apart (base ++ first.map (·.2.name)) (before ++ chain) p'.done := by
  set types := Symbol.types (Symbol.ofSpec spec) with htypes
  have hall : ∀ x ∈ types, x.2 ∈ spec.definitions ∧ spec.IsType x.2.name := by
    intro x hx
    obtain ⟨hd, hkind⟩ := Symbol.mem_types_iff.mp hx
    exact ⟨hd, x.2, hd, rfl, Spec.isType_iff_kindOf?.mpr ⟨x.1, hkind⟩⟩
  have hcover : ∀ n, spec.IsType n → n ∈ types.map (·.2.name) := by
    intro n hn
    obtain ⟨k, d, hd, rfl, hkind⟩ := Spec.isType_iff_declares.mp hn
    exact List.mem_map_of_mem (f := fun x : TypeKind × Spec.Definition => x.2.name)
      (Symbol.mem_types_iff.mpr ⟨hd, hkind⟩)
  have hnodup : (types.map (·.2.name)).Nodup := nodup_types (by rwa [Symbol.map_name_ofSpec])
  induction pending generalizing base p with
  | nil => cases h
  | cons x rest ih =>
    rw [List.forall_mem_cons] at hsub
    obtain ⟨hx, hsub⟩ := hsub
    have hstart : Upholds (Apart base []) (Looped spec base x.2.name)
        (visit (Symbol.ofSpec spec) types [] x.2.name x.2.nameSpan) :=
      upholds_visit hdistinct hconstants types (fun y hy => (hall y hy).1) [] x.2.name x.2.nameSpan (hall x hx).2
        (.start hnodup hcover x.2.name)
    have hvisit := hstart p ⟨hbase, by simp⟩
    change Stops (visit (Symbol.ofSpec spec) types [] x.2.name x.2.nameSpan >>= fun _ =>
      rest.forM fun x => visit (Symbol.ofSpec spec) types [] x.2.name x.2.nameSpan) p e p' at h
    rcases stops_bind.mp h with h | ⟨u, p'', hends, h⟩
    · obtain ⟨before, hcycle, hapart⟩ := hvisit.2 e p' h chain hchain
      exact ⟨[], x, rest, before, rfl, hcycle, by simpa using hapart⟩
    · have hbase' : ∀ n ∈ base ++ [x.2.name], n ∈ names p''.done := by
        rw [List.forall_mem_append]
        exact ⟨(hvisit.1 u p'' hends).1, by simpa using mem_names_of_visit hends⟩
      obtain ⟨first, y, rest, before, rfl, hcycle, hapart⟩ := ih _ hbase' hsub h
      exact ⟨x :: first, y, rest, before, rfl, hcycle, by simpa using hapart⟩

omit hdistinct hconstants

/-! ### The cycle that is reported -/

theorem stops_lift_bind {α β : Type} {x : Except SpecError α} {f : α → Resolve β} {p p' : Progress}
    {e : SpecError} : Stops (lift x >>= f) p e p' →
      (x = .error e ∧ p' = p) ∨ ∃ a, x = .ok a ∧ Stops (f a) p e p' := by
  intro h
  cases x with
  | error e' =>
    rcases stops_bind.mp h with h | ⟨a, p'', hends, -⟩
    · obtain ⟨rfl, rfl⟩ := stops_throw.mp h
      exact .inl ⟨rfl, rfl⟩
    · exact (not_ends_throw hends).elim
  | ok a =>
    rcases stops_bind.mp h with h | ⟨b, p'', hends, h⟩
    · exact (not_stops_pure h).elim
    · obtain ⟨rfl, rfl⟩ := ends_pure.mp hends
      exact .inr ⟨b, rfl, h⟩

/-- A cycle is reported of constants, or, when all of these have values, of types. Of the names that are
gone through in order, the first ones were sound, and the walk from the next one came to the cycle. No name
that was done by then is on the walk, and no name before the cycle is on the cycle. -/
theorem cycle_of_analyze_eq_cyclic {chain : List String} {span : Option Span}
    (h : (analyze spec).result = .error ⟨.cyclic chain, span⟩) :
    (Constant.checkAll (Symbol.ofSpec spec) = .error ⟨.cyclic chain, span⟩ ∧
      ∃ first x rest before, Symbol.ofSpec spec = first ++ x :: rest ∧
        Cycle spec.Cites x.name before chain ∧
        (∀ y ∈ first, ∀ v, spec.Assigns y.name v → ∃ n, spec.Denotes y.name n) ∧
        ∀ name n, spec.Denotes name n → name ∉ before ++ chain) ∨
    (Constant.checkAll (Symbol.ofSpec spec) = .ok () ∧
      ∃ p, Stops (visitAll (Symbol.ofSpec spec)) ⟨[], []⟩ ⟨.cyclic chain, span⟩ p ∧
        ∃ first x rest before, Symbol.types (Symbol.ofSpec spec) = first ++ x :: rest ∧
          Cycle spec.Holds x.2.name before chain ∧
          (∀ y ∈ first, y.2.name ∈ names p.done) ∧
          ∀ name ∈ names p.done, name ∉ before ++ chain) := by
  obtain ⟨p, hstops⟩ : ∃ p, Stops (build spec) ⟨[], []⟩ ⟨.cyclic chain, span⟩ p := ⟨_, Prod.ext h rfl⟩
  unfold build at hstops
  dsimp only at hstops
  rcases stops_lift_bind hstops with ⟨hdistinct, -⟩ | ⟨_, hchecked, hstops⟩
  · have hother : FailsWith SpecError.NotCyclic (Symbol.checkDistinct [] (Symbol.ofSpec spec)) :=
      failsWith_checkDistinct (fun _ _ _ => nofun) _ _
    exact absurd rfl (hother _ hdistinct chain)
  have hdistinct : spec.names.Nodup := by
    rw [← Symbol.map_name_ofSpec]
    exact (checkDistinct_eq_ok_iff.mp hchecked).1
  rcases stops_lift_bind hstops with ⟨hchecked, -⟩ | ⟨_, hchecked, hstops⟩
  · obtain ⟨first, x, rest, before, hsymbols, hcycle, hfirst⟩ :=
      Constant.exists_cycle_of_checkAll hdistinct rfl hchecked
    exact .inl ⟨hchecked, first, x, rest, before, hsymbols, hcycle, hfirst,
      fun name n hn hmem => hcycle.not_denotes hdistinct hmem n hn⟩
  · have hconstants := (Constant.checkAll_eq_ok_iff hdistinct).mp hchecked
    rcases stops_bind.mp hstops with hstops | ⟨_, p', -, hstops⟩
    · obtain ⟨first, x, rest, before, htypes, hcycle, hfirst, hapart⟩ :=
        exists_cycle_of_forM hdistinct hconstants rfl _ [] (by simp) (fun _ hx => hx) hstops
      refine .inr ⟨hchecked, p, hstops, first, x, rest, before, htypes, hcycle, fun y hy => ?_, hapart⟩
      exact hfirst _ (List.mem_map_of_mem (f := fun x : TypeKind × Spec.Definition => x.2.name) hy)
    · have hschema : Upholds (fun _ => True) (fun _ _ => False) (do
          return Schema.mk (Symbol.ofSpec spec) (inOrder (Symbol.types (Symbol.ofSpec spec)) (← get).done)) :=
        upholds_get.then fun _ => upholds_pure _
      refine absurd hstops fun hstops => ?_
      split at hstops
      · exact ((upholds_warn _ _).then (fun _ => hschema) p' trivial).2 _ _ hstops
      · exact (hschema p' trivial).2 _ _ hstops

/-- The first definition leads to a cycle of the two others, one through an array of fixed length. -/
def circularSpec : Spec :=
  let span : Span := ⟨1, 1, 1, 1⟩
  ⟨[⟨"R", .struct [⟨"a", .plain (.named "A"), span, span⟩], span, span⟩,
    ⟨"A", .struct [⟨"b", .array (.named "B") (.literal 2 "2" span), span, span⟩], span, span⟩,
    ⟨"B", .typedef (.plain (.named "A")), span, span⟩]⟩

theorem cycle_circularSpec :
    (analyze circularSpec).result = .error ⟨.cyclic ["A", "B", "A"], some ⟨1, 1, 1, 1⟩⟩ ∧
      ∃ root before, Cycle circularSpec.Holds root before ["A", "B", "A"] := by
  have hreported : (match (analyze circularSpec).result with
      | .error ⟨.cyclic chain, span⟩ => some (chain, span)
      | _ => none) = some (["A", "B", "A"], some ⟨1, 1, 1, 1⟩) := by decide +kernel
  have hresult : (analyze circularSpec).result = .error ⟨.cyclic ["A", "B", "A"], some ⟨1, 1, 1, 1⟩⟩ := by
    split at hreported
    · next h =>
      cases hreported
      exact h
    · cases hreported
  rcases cycle_of_analyze_eq_cyclic hresult with ⟨hconstants, -⟩ | ⟨-, p, -, _, x, _, before, -, hcycle, -⟩
  · have hok : (Constant.checkAll (Symbol.ofSpec circularSpec)).toOption = some () := by decide +kernel
    rw [hconstants] at hok
    cases hok
  · exact ⟨hresult, x.2.name, before, hcycle⟩

end XdrSchema.Schema
