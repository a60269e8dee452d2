import XdrSchema.Proofs.Schema.Scope
import XdrSchema.Proofs.Strict.Constant
import XdrSchema.Proofs.Strict.Lookup

/-! Strict resolving of one definition. A definition that is looked up has been resolved: the typedefs
behind the discriminant of a union, and the enumeration that selects its arms. -/
namespace XdrSchema.Schema

open Work (raise breach lift report)
open Resolve (Gives Sound Refers)

/-- What strict resolving needs of its surroundings: the symbols, and how to resolve the definition of a
type that is held directly. -/
structure StrictScope where
  symbols : List Symbol
  visit : String → Span → Work Unit

namespace StrictScope

variable (scope : StrictScope)

def kindOf (name : String) (span : Span) : Work TypeKind :=
  match Symbol.find? scope.symbols name with
  | some ⟨_, _, .type k _⟩ => return k
  | _ => raise ⟨.undefined name, some span⟩

def bound (v : Spec.Value) : Work Nat := Constant.strictBound scope.symbols v

def bound? : Option Spec.Value → Work (Option Nat)
  | none => return none
  | some v => return some (← scope.bound v)

def direct (b : Base String) (span : Span) : Work (Base Ref) :=
  match b with
  | .primitive p => return .primitive p
  | .named name => do
    let kind ← scope.kindOf name span
    scope.visit name span
    return .named ⟨name, kind⟩

def linked (b : Base String) (span : Span) : Work (Base Ref) :=
  match b with
  | .primitive p => return .primitive p
  | .named name => return .named ⟨name, ← scope.kindOf name span⟩

def type (t : Spec.Ty) (span : Span) : Work Ty :=
  match t with
  | .plain b => return .plain (← scope.direct b span)
  | .array b n => return .array (← scope.direct b span) (← scope.bound n)
  | .vector b n => return .vector (← scope.linked b span) (← scope.bound? n)
  | .optional b => return .optional (← scope.linked b span)
  | .fixedBytes n => return .fixedBytes (← scope.bound n)
  | .bytes n => return .bytes (← scope.bound? n)
  | .string n => return .string (← scope.bound? n)

def field (f : Spec.Field Spec.Ty) : Work Field :=
  return ⟨f.name, ← scope.type f.type f.nameSpan⟩

/-- The labels of an enumeration, given those before. -/
def labels (enum : String) (seen : List (String × Int)) : List Spec.Member → Work (List (String × Int))
  | [] => return seen
  | m :: rest => do
    let n ← Constant.strictValueOf scope.symbols scope.symbols [] m.name (some m.span)
    if !Constant.isSigned32 n then raise ⟨.notConstant m.name .wideLabel, some m.span⟩
    match labelOf? seen n with
    | some first => raise ⟨.duplicateValue enum n first m.name, some m.span⟩
    | none => labels enum (seen ++ [(m.name, n)]) rest

def draft (a : Spec.Arm) : Work Variant.Draft := do
  let labels ← a.labels.mapM fun v => do
    return ⟨← Constant.strictEvaluate scope.symbols v, v.name?⟩
  return ⟨labels, a.payload.name?, a.span⟩

def payload (p : Spec.Payload) : Work (Option Field) :=
  match p with
  | .void _ => return none
  | .field f => return some (← scope.field f)

def arms : List (String × Variant.Draft × Spec.Arm) → Work (List Arm)
  | [] => return []
  | (variant, d, a) :: rest => do
    let field ← scope.payload a.payload
    return ⟨variant, d.labels, field⟩ :: (← arms rest)

/-- The labels of the enumeration that a selector names, which must be one. -/
def enumLabels : Selector → Work (List (String × Int))
  | .enum name => do
    match ← lift ((← get).definition scope.symbols name) with
    | .enum labels => return labels
    | _ => breach (.assertion "the definition of an enumeration is one")
  | _ => return []

def union (name : String) (nameSpan : Span) (u : Spec.Union) : Work Union := do
  let d := u.discriminant
  let discriminant ← scope.direct d.type d.nameSpan
  let base ← lift ((← get).underlying scope.symbols [] (.plain discriminant))
  let some selector := Selector.ofType? base
    | raise ⟨.caseSet name (.discriminant (d.type.text id)), some d.nameSpan⟩
  let enumLabels ← scope.enumLabels selector
  let drafts ← u.arms.mapM scope.draft
  report (CaseSet.check name selector enumLabels drafts)
  let names := Variant.assign u.default.isSome drafts
  let arms ← scope.arms (names.zip (drafts.zip u.arms))
  match u.default with
  | some p =>
    let default : Arm := ⟨Variant.defaultFor names, [], ← scope.payload p⟩
    return ⟨d.name, discriminant, selector, arms, some default⟩
  | none =>
    let missing := CaseSet.uncovered enumLabels (arms.flatMap Arm.values)
    if !missing.isEmpty then Work.warn (.uncovered name missing) (some nameSpan)
    return ⟨d.name, discriminant, selector, arms, none⟩

def definition (d : Spec.Definition) : Work Definition :=
  match d.body with
  | .const _ => breach (.unknownNode "const_def")
  | .typedef t => return .typedef (← scope.type t d.nameSpan)
  | .struct fields => return .struct (← fields.mapM scope.field)
  | .enum members => return .enum (← scope.labels d.name [] members)
  | .union u => return .union (← scope.union d.name d.nameSpan u)

end StrictScope

/-! ### Strict steps beside others -/

/-- Started on sound progress that extends `base`, with all values known, a strict step follows the
other. -/
def Tracks {α : Type} (symbols : List Symbol) (values : List (String × Int))
    (base : List (String × Definition)) (x' : Work α) (x : Resolve α) : Prop :=
  ∀ t : Table, t.values = values → base <:+ t.progress.done → Sound symbols t.progress.done →
    Follows t x' x fun _ t' => t'.values = values

section Tracks

variable {symbols : List Symbol} {values : List (String × Int)} {base : List (String × Definition)}
  {F : List String} {α β : Type}

theorem tracks_pure (a : α) : Tracks symbols values base (pure a) (pure a) :=
  fun _ ht _ _ => follows_pure ht

theorem tracks_raise {e : SpecError} (h : e.fault.OfText) :
    Tracks (α := α) symbols values base (raise e) (throw e) := fun _ _ _ _ => follows_raise h

theorem tracks_report {x : Except SpecError α} (h : FailsWith (·.fault.OfText) x) :
    Tracks symbols values base (report x) (Resolve.lift x) :=
  fun _ ht _ _ => follows_report h fun _ _ => ht

theorem Tracks.bind {x' : Work α} {x : Resolve α} {f' : α → Work β} {f : α → Resolve β}
    {Q : α → List (String × Definition) → Prop} (hx : Tracks symbols values base x' x)
    (hgives : Gives symbols F base x Q)
    (hf : ∀ a done, base <:+ done → Q a done → Tracks symbols values done (f' a) (f a)) :
    Tracks symbols values base (x' >>= f') (x >>= f) := by
  intro t ht hbase hsound
  refine (hx t ht hbase hsound).bind fun a t' ht' hends => ?_
  obtain ⟨hsuffix, hsound', -, ha⟩ := hgives _ a _ hbase hsound hends
  exact hf a _ (hbase.trans hsuffix) ha t' ht' List.suffix_rfl hsound'

/-- When nothing is left but to put the result together, there is no need to know what `x` gives. -/
theorem Tracks.map {x' : Work α} {x : Resolve α} (hx : Tracks symbols values base x' x) (g : α → β) :
    Tracks symbols values base (x' >>= fun a => pure (g a)) (x >>= fun a => pure (g a)) :=
  fun t ht hbase hsound => (hx t ht hbase hsound).bind fun _ _ ht' _ => follows_pure ht'

theorem tracks_warn {c : Caution} {span : Option Span} :
    Tracks symbols values base (Work.warn c span) (Resolve.warn c span) :=
  fun _ ht _ _ => follows_warn fun _ heq => heq.trans ht

/-- A strict step that leaves the table as it is. -/
theorem tracks_of_unchanged {x' : Work α} {x : Resolve α}
    (h : ∀ t : Table, t.values = values → Follows t x' x fun _ t' => t' = t) :
    Tracks symbols values base x' x :=
  fun t ht _ _ => (h t ht).mono fun _ _ heq => heq ▸ ht

theorem tracks_mapM {f' : α → Work β} {f : α → Resolve β} {as : List α}
    (hf : ∀ a ∈ as, ∀ base, Tracks symbols values base (f' a) (f a))
    (hgives : ∀ a ∈ as, ∀ base, Gives symbols F base (f a) fun _ _ => True) :
    Tracks symbols values base (as.mapM f') (as.mapM f) := by
  induction as generalizing base with
  | nil => exact tracks_pure []
  | cons a as ih =>
    rw [List.mapM_cons, List.mapM_cons]
    refine (hf a List.mem_cons_self base).bind (hgives a List.mem_cons_self base) fun b done _ _ => ?_
    have hrest : Gives symbols F done (as.mapM f) _ := Resolve.gives_mapM
      (Q := fun _ _ _ => True) (fun _ _ _ _ _ h => h) fun a' ha' done' _ =>
        hgives a' (List.mem_cons_of_mem _ ha') done'
    exact (ih (fun a' ha' => hf a' (List.mem_cons_of_mem _ ha'))
      fun a' ha' => hgives a' (List.mem_cons_of_mem _ ha')).bind hrest fun _ _ _ _ => tracks_pure _

end Tracks

theorem selector_eq_enum {ty : Ty} {name : String} (h : Selector.ofType? ty = some (.enum name)) :
    ty = .plain (.named ⟨name, .enum⟩) := by
  unfold Selector.ofType? at h
  split at h <;> cases h
  rfl

namespace StrictScope

/-- A strict scope beside another, with the same symbols, all of whose values are known. -/
structure Mirrors (values : List (String × Int)) (scope' : StrictScope) (scope : Scope)
    (fresh : List String) : Prop where
  symbols : scope'.symbols = scope.symbols
  complete : Constant.Complete scope.symbols values
  visits : scope.Visits fresh
  visit : ∀ name span base k, Refers scope.symbols ⟨name, k⟩ →
    Tracks scope.symbols values base (scope'.visit name span) (scope.visit name span)

variable {values : List (String × Int)} {scope' : StrictScope} {scope : Scope} {fresh : List String}
  (h : Mirrors values scope' scope fresh) {base : List (String × Definition)}

include h

theorem Mirrors.kindOf (name : String) (span : Span) :
    Tracks scope.symbols values base (scope'.kindOf name span) (scope.kindOf name span) := by
  unfold StrictScope.kindOf Scope.kindOf
  rw [h.symbols]
  cases Symbol.find? scope.symbols name with
  | none => exact tracks_raise trivial
  | some s =>
    obtain ⟨_, _, meaning⟩ := s
    cases meaning with
    | type k d => exact tracks_pure k
    | _ => exact tracks_raise trivial

theorem Mirrors.bound (v : Spec.Value) :
    Tracks scope.symbols values base (scope'.bound v) (scope.bound v) := by
  unfold StrictScope.bound
  rw [h.symbols]
  exact tracks_of_unchanged fun t ht => Constant.follows_bound (ht ▸ h.complete) v

theorem Mirrors.bound? (v : Option Spec.Value) :
    Tracks scope.symbols values base (scope'.bound? v) (scope.bound? v) := by
  cases v with
  | none => exact tracks_pure _
  | some v => exact (h.bound v).map _

theorem Mirrors.direct (b : Base String) (span : Span) :
    Tracks scope.symbols values base (scope'.direct b span) (scope.direct b span) := by
  cases b with
  | primitive p => exact tracks_pure _
  | named name =>
    refine (h.kindOf name span).bind (F := fresh) (Scope.gives_kindOf name span) fun k _ _ hk => ?_
    exact (h.visit name span _ k hk).map _

theorem Mirrors.linked (b : Base String) (span : Span) :
    Tracks scope.symbols values base (scope'.linked b span) (scope.linked b span) := by
  cases b with
  | primitive p => exact tracks_pure _
  | named name =>
    exact (h.kindOf name span).map _

theorem Mirrors.type (ty : Spec.Ty) (span : Span) :
    Tracks scope.symbols values base (scope'.type ty span) (scope.type ty span) := by
  cases ty with
  | plain b => exact (h.direct b span).map _
  | array b n =>
    exact (h.direct b span).bind (Scope.gives_direct h.visits b span) fun _ _ _ _ => (h.bound n).map _
  | vector b n =>
    exact (h.linked b span).bind (F := fresh) (Scope.gives_linked b span) fun _ _ _ _ =>
      (h.bound? n).map _
  | optional b => exact (h.linked b span).map _
  | fixedBytes n => exact (h.bound n).map _
  | bytes n | string n => exact (h.bound? n).map _

theorem Mirrors.field (f : Spec.Field Spec.Ty) :
    Tracks scope.symbols values base (scope'.field f) (scope.field f) :=
  (h.type f.type f.nameSpan).map _

theorem Mirrors.payload (p : Spec.Payload) :
    Tracks scope.symbols values base (scope'.payload p) (scope.payload p) := by
  cases p with
  | void span => exact tracks_pure _
  | field f => exact (h.field f).map _

theorem Mirrors.labels (enum : String) (members : List Spec.Member) (seen : List (String × Int)) :
    Tracks scope.symbols values base (scope'.labels enum seen members) (scope.labels enum seen members) := by
  induction members generalizing seen base with
  | nil => exact tracks_pure seen
  | cons m rest ih =>
    rw [StrictScope.labels, Scope.labels, h.symbols]
    refine Tracks.bind (F := fresh) (Q := fun _ _ => True) (tracks_of_unchanged fun t ht =>
      Constant.follows_valueOf_of_complete (ht ▸ h.complete) m.name (some m.span))
      (Resolve.gives_lift fun _ _ _ _ => trivial) fun n _ _ _ => ?_
    by_cases hwide : Constant.isSigned32 n
    · simp only [hwide, Bool.not_true, Bool.false_eq_true, if_false]
      cases labelOf? seen n with
      | some first => exact tracks_raise trivial
      | none => exact ih _
    · simp only [hwide, Bool.not_false, if_true]
      exact (tracks_raise (e := ⟨.notConstant m.name .wideLabel, some m.span⟩) trivial).bind
        (F := fresh) (Q := fun _ _ => False) Resolve.gives_fail
        fun _ _ _ hno => hno.elim

theorem Mirrors.draft (a : Spec.Arm) :
    Tracks scope.symbols values base (scope'.draft a) (scope.draft a) := by
  unfold StrictScope.draft Scope.draft
  rw [h.symbols]
  refine (tracks_mapM (F := fresh) (fun v _ base => ?_) fun v _ base => ?_).map _
  · exact (tracks_of_unchanged fun t ht => Constant.follows_evaluate (ht ▸ h.complete) v).map _
  · exact (Resolve.gives_lift (Q := fun _ _ => True) fun _ _ _ _ => trivial).bind fun _ _ _ _ =>
      Resolve.gives_pure fun _ _ => trivial

theorem Mirrors.arms (xs : List (String × Variant.Draft × Spec.Arm)) :
    Tracks scope.symbols values base (scope'.arms xs) (scope.arms xs) := by
  induction xs generalizing base with
  | nil => exact tracks_pure []
  | cons x rest ih =>
    obtain ⟨variant, d, a⟩ := x
    refine (h.payload a.payload).bind (Scope.gives_payload h.visits a.payload) fun _ _ _ _ => ?_
    exact ih.map _

/-- The enumeration that selects arms is done when the discriminant is. -/
theorem Mirrors.enumLabels {selector : Selector} (hselector : ∀ name, selector = .enum name →
      Refers scope.symbols ⟨name, .enum⟩ ∧ name ∈ Resolve.names base) :
    Tracks scope.symbols values base (scope'.enumLabels selector) (Scope.enumLabels selector) := by
  cases selector with
  | enum name =>
    obtain ⟨hrefers, hname⟩ := hselector name rfl
    intro t ht hbase hsound
    have hdone : name ∈ Resolve.names t.progress.done := (hbase.map (·.1)).subset hname
    obtain ⟨d, hd⟩ := Option.isSome_iff_exists.mp (lookup_isSome_iff_mem.mpr hdone)
    obtain ⟨_, -, hfinished⟩ := hsound.finished hd
    have henum : d.kind = .enum := hfinished.symbol.kind_eq hrefers
    rw [StrictScope.enumLabels, Scope.enumLabels, h.symbols]
    apply follows_get_bind
    rw [hd]
    refine follows_lift_bind (Table.definition_eq_ok hrefers hd) ?_
    cases d with
    | enum labels => exact follows_pure ht
    | _ => cases henum
  | _ => exact tracks_pure []

theorem Mirrors.union (name : String) (span : Span) (u : Spec.Union) :
    Tracks scope.symbols values base (scope'.union name span u) (scope.union name span u) := by
  unfold StrictScope.union Scope.union
  refine (h.direct _ _).bind (Scope.gives_direct h.visits _ _) fun discriminant done _ hdone => ?_
  intro t ht hbase hsound
  apply follows_get_bind
  have hdiscriminant : Table.Anchored scope.symbols t.progress.done (.plain discriminant) := by
    rintro r ⟨⟩
    exact (hdone r rfl).imp_right fun hr => (hbase.map (·.1)).subset hr
  obtain ⟨hunderlying, hbelow⟩ :=
    Table.underlying_eq_ok hsound List.suffix_rfl (fun _ _ => List.not_mem_nil) hdiscriminant
  rw [h.symbols]
  refine follows_lift_bind hunderlying ?_
  dsimp only
  cases hselector : Selector.ofType? (underlying t.progress.done (.plain discriminant)) with
  | none => exact follows_raise trivial
  | some selector =>
    have henum : ∀ enum, selector = .enum enum →
        Refers scope.symbols ⟨enum, .enum⟩ ∧ enum ∈ Resolve.names t.progress.done := by
      rintro enum rfl
      exact hbelow _ (selector_eq_enum hselector)
    refine Tracks.bind (F := fresh) (h.enumLabels henum) (Scope.gives_enumLabels selector)
      (fun enumLabels _ _ _ => ?_) t ht List.suffix_rfl hsound
    have hdraft (a : Spec.Arm) (base : List (String × Definition)) :
        Gives scope.symbols fresh base (scope.draft a) fun _ _ => True :=
      (Scope.gives_draft a).mono fun _ _ _ _ => trivial
    refine (tracks_mapM (fun a _ _ => h.draft a) fun a _ base => hdraft a base).bind
      (Resolve.gives_mapM (Q := fun _ _ _ => True) (fun _ _ _ _ _ h => h) fun a _ base _ => hdraft a base)
      fun drafts _ _ _ => ?_
    refine (tracks_report (CaseSet.failsWith_checkFrom (fun _ _ => trivial) drafts [])).bind (F := fresh)
      (Q := fun _ _ => True) (Resolve.gives_lift fun _ _ _ _ => trivial) fun _ _ _ _ => ?_
    refine (h.arms _).bind (Scope.gives_arms h.visits _) fun arms _ _ _ => ?_
    cases u.default with
    | some p => exact (h.payload p).map _
    | none =>
      dsimp only
      split
      · exact tracks_warn.map _
      · exact tracks_pure _

/-- A definition of a type. Constants are none. -/
theorem Mirrors.definition (d : Spec.Definition) {k : TypeKind} (hd : Scope.kindOf? d = some k) :
    Tracks scope.symbols values base (scope'.definition d) (scope.definition d) := by
  obtain ⟨name, body, span, nameSpan⟩ := d
  cases body with
  | const v => cases hd
  | typedef ty =>
    exact (h.type ty nameSpan).map _
  | struct fields =>
    exact (tracks_mapM (fun f _ _ => h.field f) fun f _ _ =>
      (Scope.gives_field h.visits f).mono fun _ _ _ _ => trivial).map _
  | enum members => exact (h.labels name members []).map _
  | union u => exact (h.union name nameSpan u).map _

end StrictScope

end XdrSchema.Schema
