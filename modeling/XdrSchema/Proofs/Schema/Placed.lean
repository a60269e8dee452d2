import XdrSchema.Proofs.Schema.Linked
import XdrSchema.Proofs.Spec.Placed
import XdrSchema.Proofs.Strict.Resolve

/-! Errors and warnings are at places of the specification that they are about. A property of those places is
carried through every step of the analysis and of generating a module. Main statements: `placed_analyze`,
`failsWith_generate`. -/
namespace XdrSchema

variable {P : Span → Prop}

/-! ### Symbols -/

namespace Symbol

/-- The places that faults of a symbol can be at. -/
structure Placed (P : Span → Prop) (s : Symbol) : Prop where
  span : ∀ x ∈ s.span, P x
  value : ∀ v ∈ s.meaning.value?, P v.span
  type : ∀ x ∈ s.type?, Spec.Node.Placed P (.definition x.2)

theorem placed_ofDefinition {d : Spec.Definition} (h : Spec.Node.Placed P (.definition d)) :
    ∀ s ∈ ofDefinition d, s.Placed P := by
  have hname : ∀ x ∈ some d.nameSpan, P x := by
    rintro _ ⟨⟩
    exact h.written (x := (d.name, d.nameSpan)) rfl
  have htype : ∀ k : TypeKind, ∀ x ∈ some (k, d), Spec.Node.Placed P (.definition x.2) := by
    rintro k _ ⟨⟩
    exact h
  obtain ⟨name, body, span, nameSpan⟩ := d
  cases body with
  | const v =>
    refine List.forall_mem_singleton.mpr ⟨hname, ?_, fun _ hx => by cases hx⟩
    rintro _ ⟨⟩
    exact (h.child (c := .value v) List.mem_cons_self).span
  | typedef t => exact List.forall_mem_singleton.mpr ⟨hname, (fun _ hv => by cases hv), htype .typedef⟩
  | struct fields => exact List.forall_mem_singleton.mpr ⟨hname, (fun _ hv => by cases hv), htype .struct⟩
  | union u => exact List.forall_mem_singleton.mpr ⟨hname, (fun _ hv => by cases hv), htype .union⟩
  | enum members =>
    refine List.forall_mem_cons.mpr ⟨⟨hname, (fun _ hv => by cases hv), htype .enum⟩, fun s hs => ?_⟩
    obtain ⟨m, hm, rfl⟩ := List.mem_map.mp hs
    have hplaced : Spec.Node.Placed P (.member m) := h.child (List.mem_map_of_mem hm)
    refine ⟨?_, ?_, fun _ hx => by cases hx⟩
    · rintro _ ⟨⟩
      exact hplaced.span
    · rintro _ ⟨⟩
      exact (hplaced.child (c := .value m.value) List.mem_cons_self).span

theorem placed_ofSpec {spec : Spec} (h : spec.Placed P) : ∀ s ∈ ofSpec spec, s.Placed P := by
  refine List.forall_mem_append.mpr ⟨fun s hs => ?_, fun s hs => ?_⟩
  · have hmeaning : s.span = none ∧ s.meaning.value? = none ∧ s.type? = none := by
      rcases List.mem_pair.mp hs with rfl | rfl <;> exact ⟨rfl, rfl, rfl⟩
    exact ⟨by simp [hmeaning.1], by simp [hmeaning.2.1], by simp [hmeaning.2.2]⟩
  · obtain ⟨d, hd, hs⟩ := List.mem_flatMap.mp hs
    exact placed_ofDefinition (h.definitions d hd) s hs

theorem failsAt_checkDistinct {symbols : List Symbol} (h : ∀ s ∈ symbols, s.Placed P) (seen : List Symbol) :
    FailsWith (SpecError.Placed P) (checkDistinct seen symbols) := by
  induction symbols generalizing seen with
  | nil => exact failsWith_ok ()
  | cons s rest ih =>
    rw [List.forall_mem_cons] at h
    unfold checkDistinct
    split
    · exact failsWith_error h.1.span
    · exact ih h.2 _

end Symbol

/-! ### Constants -/

namespace Constant

variable {symbols : List Symbol} (hsymbols : ∀ s ∈ symbols, s.Placed P)

include hsymbols

/-- A name is missed or refused where it is referred to, and a literal at what it defines. -/
theorem failsAt_follow (fresh : List Symbol) (path : List String) (name : String) {span : Option Span}
    (hspan : ∀ x ∈ span, P x) : FailsWith (SpecError.Placed P) (follow symbols fresh path name span) := by
  rw [follow]
  cases hfind : Symbol.find? symbols name with
  | none => exact failsWith_error hspan
  | some s =>
    have hs := hsymbols s (List.mem_of_find?_eq_some hfind)
    obtain ⟨sname, sspan, meaning⟩ := s
    cases meaning with
    | builtin n => exact failsWith_ok n
    | type k d => exact failsWith_error hspan
    | constant v | label owner v =>
      dsimp only
      split
      · exact failsWith_error hspan
      · next x hx =>
        cases v with
        | literal n text place =>
          dsimp only
          split
          · exact failsWith_ok n
          · exact failsWith_error hs.span
        | constant next place =>
          have hmem : name ∈ fresh.map (·.name) :=
            List.mem_map.mpr ⟨x, List.mem_of_find?_eq_some hx, by simpa using List.find?_some hx⟩
          exact failsAt_follow _ _ next fun _ hplace => Option.some.inj hplace ▸ hs.value _ rfl
termination_by fresh.length
decreasing_by all_goals exact length_eraseP_key_lt hmem

theorem failsAt_valueOf (name : String) {span : Option Span} (hspan : ∀ x ∈ span, P x) :
    FailsWith (SpecError.Placed P) (valueOf symbols name span) :=
  failsAt_follow hsymbols symbols [] name hspan

theorem failsAt_evaluate {v : Spec.Value} (hv : P v.span) :
    FailsWith (SpecError.Placed P) (evaluate symbols v) := by
  cases v with
  | literal n text span => exact failsWith_ok n
  | constant name span => exact failsAt_valueOf hsymbols name fun _ hs => Option.some.inj hs ▸ hv

theorem failsAt_bound {v : Spec.Value} (hv : P v.span) : FailsWith (SpecError.Placed P) (bound symbols v) := by
  refine (failsAt_evaluate hsymbols hv).bind fun n _ => ?_
  split
  · exact failsWith_ok _
  · exact failsWith_error fun _ hs => Option.some.inj hs ▸ hv

theorem failsAt_checkAll : FailsWith (SpecError.Placed P) (checkAll symbols) := by
  refine failsWith_forM fun s hs => ?_
  split
  · exact failsWith_ok ()
  · exact (failsAt_valueOf hsymbols s.name (hsymbols s hs).span).bind fun _ _ => failsWith_ok ()

end Constant

namespace Schema

theorem CaseSet.failsAt_check {union : String} {selector : Selector} {labels : List (String × Int)}
    {drafts : List Variant.Draft} (h : ∀ d ∈ drafts, P d.span) (seen : List Label) :
    FailsWith (SpecError.Placed P) (checkFrom union selector labels seen drafts) := by
  induction drafts generalizing seen with
  | nil => exact failsWith_ok ()
  | cons d rest ih =>
    rw [List.forall_mem_cons] at h
    unfold checkFrom
    split
    · exact failsWith_error fun _ hs => Option.some.inj hs ▸ h.1
    · exact ih h.2 _

/-! ### Steps of resolving -/

/-- The places of the warnings. -/
def Progress.Placed (P : Span → Prop) (p : Progress) : Prop := ∀ w ∈ p.warnings, ∀ s ∈ w.span, P s

namespace Resolve

variable {α β : Type}

/-- A step that warns only at places with the property `P`, and fails at such a place if it does. -/
def Tells (P : Span → Prop) (x : Resolve α) : Prop :=
  Maintains (Progress.Placed P) (fun e p => p.Placed P ∧ e.Placed P) x

theorem tells_pure (a : α) : Tells P (pure a) := maintains_pure a

theorem tells_throw {e : SpecError} (h : e.Placed P) : Tells P (throw e : Resolve α) :=
  maintains_throw fun _ hp => ⟨hp, h⟩

theorem tells_fail {f : Fault} {span : Span} (h : P span) : Tells P (fail f span : Resolve α) :=
  tells_throw fun _ hs => Option.some.inj hs ▸ h

theorem tells_lift {x : Except SpecError α} (h : FailsWith (SpecError.Placed P) x) : Tells P (lift x) := by
  cases x with
  | error e => exact tells_throw (h e rfl)
  | ok a => exact tells_pure a

/-- What follows a step may use that the step has ended well. -/
theorem Tells.bind {x : Resolve α} {f : α → Resolve β} (hx : Tells P x)
    (hf : ∀ a, (∃ p p', Ends x p a p') → Tells P (f a)) : Tells P (x >>= f) :=
  Maintains.bind hx hf

theorem Tells.then {x : Resolve α} {f : α → Resolve β} (hx : Tells P x) (hf : ∀ a, Tells P (f a)) :
    Tells P (x >>= f) :=
  hx.bind fun a _ => hf a

theorem Tells.return {x : Resolve α} {g : α → β} (hx : Tells P x) : Tells P (x >>= fun a => pure (g a)) :=
  hx.then fun a => tells_pure (g a)

theorem tells_get : Tells P get := maintains_get

theorem tells_warn (c : Caution) {span : Option Span} (h : ∀ s ∈ span, P s) : Tells P (warn c span) :=
  maintains_modify fun _ hp => List.forall_mem_append.mpr ⟨hp, List.forall_mem_singleton.mpr h⟩

theorem tells_finish (name : String) (d : Definition) : Tells P (finish name d) :=
  maintains_modify fun _ hp => hp

theorem tells_mapM {f : α → Resolve β} {as : List α} (hf : ∀ a ∈ as, Tells P (f a)) : Tells P (as.mapM f) :=
  maintains_mapM hf

theorem tells_forM {f : α → Resolve Unit} {as : List α} (hf : ∀ a ∈ as, Tells P (f a)) : Tells P (as.forM f) :=
  maintains_forM hf

end Resolve

open Resolve
open Spec (Node)

/-! ### Resolving a definition -/

namespace Scope

/-- What a definition is resolved with tells only of places with the property `P`. -/
structure Placed (P : Span → Prop) (scope : Scope) : Prop where
  symbols : ∀ s ∈ scope.symbols, s.Placed P
  visit : ∀ name span, P span → Tells P (scope.visit name span)

variable {scope : Scope} (hscope : scope.Placed P)

include hscope

omit hscope in
theorem tells_kindOf (name : String) {span : Span} (hspan : P span) : Tells P (scope.kindOf name span) := by
  unfold kindOf
  split
  · exact tells_pure _
  · exact tells_fail hspan

theorem tells_bound {v : Spec.Value} (hv : P v.span) : Tells P (scope.bound v) :=
  tells_lift (Constant.failsAt_bound hscope.symbols hv)

theorem tells_bound? {v : Option Spec.Value} (hv : ∀ x ∈ v, P x.span) : Tells P (scope.bound? v) := by
  cases v with
  | none => exact tells_pure none
  | some v => exact (tells_bound hscope (hv v rfl)).return

theorem tells_direct (b : Base String) {span : Span} (hspan : P span) : Tells P (scope.direct b span) := by
  cases b with
  | primitive p => exact tells_pure _
  | named name => exact (tells_kindOf name hspan).then fun _ => (hscope.visit name span hspan).return

omit hscope in
theorem tells_linked (b : Base String) {span : Span} (hspan : P span) : Tells P (scope.linked b span) := by
  cases b with
  | primitive p => exact tells_pure _
  | named name => exact (tells_kindOf name hspan).return

theorem tells_type {t : Spec.Ty} {span : Span} (hspan : P span) (ht : ∀ v ∈ t.bound?, P v.span) :
    Tells P (scope.type t span) := by
  cases t with
  | plain b => exact (tells_direct hscope b hspan).return
  | array b n => exact (tells_direct hscope b hspan).then fun _ => (tells_bound hscope (ht n rfl)).return
  | vector b n => exact (tells_linked b hspan).then fun _ => (tells_bound? hscope ht).return
  | optional b => exact (tells_linked b hspan).return
  | fixedBytes n => exact (tells_bound hscope (ht n rfl)).return
  | bytes n | string n => exact (tells_bound? hscope ht).return

omit hscope in
/-- The bound of a type is among the parts of what has the type. -/
theorem placed_bound {n : Node} {t : Spec.Ty} (h : n.Placed P)
    (hchildren : n.children = t.bound?.toList.map .value) : ∀ v ∈ t.bound?, P v.span := by
  intro v hv
  have hmem : Node.value v ∈ n.children := by
    rw [hchildren]
    exact List.mem_map_of_mem (Option.mem_toList.mpr hv)
  exact (h.child hmem).span

theorem tells_field {f : Spec.Field Spec.Ty} (hf : Node.Placed P (.field f)) : Tells P (scope.field f) :=
  (tells_type hscope (hf.written (x := (f.name, f.nameSpan)) rfl) (placed_bound hf rfl)).return

theorem tells_labels {members : List Spec.Member} (h : ∀ m ∈ members, P m.span) (enum : String)
    (seen : List (String × Int)) : Tells P (scope.labels enum seen members) := by
  induction members generalizing seen with
  | nil => exact tells_pure seen
  | cons m rest ih =>
    rw [List.forall_mem_cons] at h
    have hspan : ∀ s ∈ some m.span, P s := fun _ hs => Option.some.inj hs ▸ h.1
    have hvalue := Constant.failsAt_valueOf hscope.symbols m.name hspan
    refine (tells_lift hvalue).then fun n => ?_
    dsimp only
    split
    · exact (tells_fail h.1).then fun _ => by
        split
        · exact tells_fail h.1
        · exact ih h.2 _
    · split
      · exact tells_fail h.1
      · exact ih h.2 _

theorem tells_draft {a : Spec.Arm} (ha : Node.Placed P (.arm a)) : Tells P (scope.draft a) := by
  refine (tells_mapM fun v hv => ?_).return
  have hvalue : Node.Placed P (.value v) := ha.child (List.mem_append_left _ (List.mem_map_of_mem hv))
  exact (tells_lift (Constant.failsAt_evaluate hscope.symbols hvalue.span)).return

omit hscope in
theorem span_of_draft {a : Spec.Arm} {d : Variant.Draft} {p p' : Progress} (h : Ends (scope.draft a) p d p') :
    d.span = a.span := by
  obtain ⟨labels, q, -, h⟩ := ends_bind.mp h
  rw [(ends_pure.mp h).1]

theorem tells_payload {p : Spec.Payload} (hp : Node.Placed P (.ofPayload p)) : Tells P (scope.payload p) := by
  cases p with
  | void span => exact tells_pure none
  | field f => exact (tells_field hscope hp).return

theorem tells_arms {xs : List (String × Variant.Draft × Spec.Arm)} (h : ∀ x ∈ xs, Node.Placed P (.arm x.2.2)) :
    Tells P (scope.arms xs) := by
  induction xs with
  | nil => exact tells_pure []
  | cons x rest ih =>
    rw [List.forall_mem_cons] at h
    have hpayload : Node.Placed P (.ofPayload x.2.2.payload) :=
      h.1.child (List.mem_append_right _ List.mem_cons_self)
    exact (tells_payload hscope hpayload).then fun _ => (ih h.2).return

omit hscope in
theorem tells_enumLabels (selector : Selector) : Tells P (enumLabels selector) := by
  unfold enumLabels
  split
  · refine tells_get.then fun p => ?_
    split <;> exact tells_pure _
  · exact tells_pure []

theorem tells_union {name : String} {u : Spec.Union} {span nameSpan : Span}
    (h : Node.Placed P (.definition ⟨name, .union u, span, nameSpan⟩)) : Tells P (scope.union name nameSpan u) := by
  have hname : P nameSpan := h.written (x := (name, nameSpan)) rfl
  have hdiscriminant : P u.discriminant.nameSpan :=
    (h.child (c := .discriminant u.discriminant) List.mem_cons_self).written
      (x := (u.discriminant.name, u.discriminant.nameSpan)) rfl
  have harms : ∀ a ∈ u.arms, Node.Placed P (.arm a) := fun a ha =>
    h.child (List.mem_cons_of_mem _ (List.mem_append_left _ (List.mem_map_of_mem ha)))
  have hdefault : ∀ p ∈ u.default, Node.Placed P (.ofPayload p) := fun p hp =>
    h.child (List.mem_cons_of_mem _ (List.mem_append_right _ (List.mem_map_of_mem (Option.mem_toList.mpr hp))))
  unfold union
  dsimp only
  refine (tells_direct hscope u.discriminant.type hdiscriminant).then fun discriminant => tells_get.then fun p => ?_
  split
  · next selector _ =>
    refine (tells_enumLabels selector).then fun labels => ?_
    refine (tells_mapM fun a ha => tells_draft hscope (harms a ha)).bind fun drafts hdrafts => ?_
    obtain ⟨_, _, hdrafts⟩ := hdrafts
    have hspans : ∀ d ∈ drafts, P d.span := by
      intro d hd
      obtain ⟨a, ha, q, q', hends⟩ := exists_of_ends_mapM hdrafts d hd
      exact span_of_draft hends ▸ (harms a ha).span
    refine (tells_lift (CaseSet.failsAt_check hspans [])).then fun _ => ?_
    refine (tells_arms hscope fun x hx => harms _ (List.of_mem_zip (List.of_mem_zip hx).2).2).then fun arms => ?_
    split
    · next payload hpayload => exact (tells_payload hscope (hdefault payload hpayload)).return
    · split
      · exact (tells_warn _ fun _ hs => Option.some.inj hs ▸ hname).return
      · exact tells_pure _
  · exact tells_fail hdiscriminant

theorem tells_definition {d : Spec.Definition} (h : Node.Placed P (.definition d)) : Tells P (scope.definition d) := by
  have hname : P d.nameSpan := h.written (x := (d.name, d.nameSpan)) rfl
  obtain ⟨name, body, span, nameSpan⟩ := d
  cases body with
  | const v => exact tells_fail hname
  | typedef t => exact (tells_type hscope hname (placed_bound h rfl)).return
  | struct fields =>
    exact (tells_mapM fun f hf => tells_field hscope (h.child (List.mem_map_of_mem hf))).return
  | enum members =>
    have hmembers : ∀ m ∈ members, P m.span := fun m hm => (h.child (c := .member m) (List.mem_map_of_mem hm)).span
    exact (tells_labels hscope hmembers name []).return
  | union u => exact (tells_union hscope h).return

end Scope

/-! ### The analysis -/

section

variable {symbols : List Symbol} (hsymbols : ∀ s ∈ symbols, s.Placed P)

include hsymbols

theorem tells_visit (fresh : List (TypeKind × Spec.Definition)) (hfresh : ∀ x ∈ fresh, Node.Placed P (.definition x.2))
    (path : List String) (name : String) {span : Span} (hspan : P span) :
    Tells P (visit symbols fresh path name span) := by
  cases hfind : fresh.find? (·.2.name = name) with
  | none =>
    rw [visit_of_not_fresh hfind]
    refine tells_get.then fun p => ?_
    split
    · exact tells_pure ()
    · exact tells_fail hspan
  | some x =>
    obtain ⟨k, d⟩ := x
    have hx := List.mem_of_find?_eq_some hfind
    have hmem : name ∈ fresh.map (·.2.name) := List.mem_map.mpr ⟨(k, d), hx, by simpa using List.find?_some hfind⟩
    have hrest : ∀ y ∈ fresh.eraseP (·.2.name = name), Node.Placed P (.definition y.2) :=
      fun y hy => hfresh y (List.mem_of_mem_eraseP hy)
    rw [visit_of_fresh hfind]
    refine tells_get.then fun p => ?_
    split
    · exact tells_pure ()
    · refine (Scope.tells_definition ⟨hsymbols, fun n s hs => ?_⟩ (hfresh _ hx)).then fun _ => tells_finish _ _
      exact tells_visit _ hrest _ n hs
termination_by fresh.length
decreasing_by exact length_eraseP_key_lt hmem

theorem tells_visitAll : Tells P (visitAll symbols) := by
  have htypes : ∀ x ∈ Symbol.types symbols, Node.Placed P (.definition x.2) := by
    intro x hx
    obtain ⟨s, hs, hx⟩ := List.mem_filterMap.mp hx
    exact (hsymbols s hs).type x hx
  exact tells_forM fun x hx => tells_visit hsymbols _ htypes [] x.2.name
    ((htypes x hx).written (x := (x.2.name, x.2.nameSpan)) rfl)

end

variable {spec : Spec}

theorem tells_build (h : spec.Placed P) : Tells P (build spec) := by
  have hsymbols := Symbol.placed_ofSpec h
  refine (tells_lift (Symbol.failsAt_checkDistinct hsymbols [])).then fun _ => ?_
  refine (tells_lift (Constant.failsAt_checkAll hsymbols)).then fun _ => ?_
  refine (tells_visitAll hsymbols).then fun _ => ?_
  dsimp only
  split
  · exact (tells_warn _ h.span).then fun _ => tells_get.return
  · exact tells_get.return

/-- The analysis of a specification tells of places of the specification. -/
theorem placed_analyze (h : spec.Placed P) : (∀ w ∈ (analyze spec).warnings, ∀ s ∈ w.span, P s) ∧
    FailsWith (SpecError.Placed P) (analyze spec).result := by
  obtain ⟨hends, hstops⟩ := tells_build h ⟨[], []⟩ nofun
  have hwarnings : (analyze spec).warnings = ((build spec).run.run ⟨[], []⟩).2.warnings := rfl
  have hresult : (analyze spec).result = ((build spec).run.run ⟨[], []⟩).1 := rfl
  rw [hwarnings, hresult]
  cases hrun : ((build spec).run.run ⟨[], []⟩).1 with
  | ok s => exact ⟨hends s _ (Prod.ext hrun rfl), failsWith_ok s⟩
  | error e =>
    obtain ⟨hp, he⟩ := hstops e _ (Prod.ext hrun rfl)
    exact ⟨hp, failsWith_error he⟩

end Schema

end XdrSchema
