import XdrSchema.Proofs.Schema.Linked

/-! Which warnings the analysis of a specification gives. A union is warned about at the end of its own
resolution, when nothing but itself is left to be done, so that the warnings are those of the
definitions that are done. -/
namespace XdrSchema.Schema

/-- The labels that the cases of a union have to name: those of the enumeration that selects. -/
def labelsOf (definitions : List (String × Definition)) : Selector → List (String × Int)
  | .enum name =>
    match definitions.lookup name with
    | some (.enum labels) => labels
    | _ => []
  | _ => []

/-- What there is to warn about a definition. -/
def cautions (definitions : List (String × Definition)) (name : String) (span : Option Span) :
    Definition → List Diagnostic
  | .union u =>
    let missing := CaseSet.uncovered (labelsOf definitions u.selector) u.caseValues
    if u.default.isSome || missing.isEmpty then [] else [(Caution.uncovered name missing).diagnostic span]
  | _ => []

namespace Resolve

variable {spec : Spec}

/-- What was warned about a definition when it was done. The labels were looked up before that, once
the discriminant was done. -/
def Cautioned (done : List (String × Definition)) (d : Spec.Definition) (r : Definition)
    (ds : List Diagnostic) : Prop :=
  ∃ before, before <:+ done ∧ ds = cautions before d.name (some d.nameSpan) r ∧
    ∀ u, r = .union u → ∀ x, u.discriminant = .named x → x.name ∈ names before

def Noted (spec : Spec) (done : List (String × Definition)) (e : String × Definition)
    (ds : List Diagnostic) : Prop :=
  ∃ d ∈ spec.definitions, d.name = e.1 ∧ Cautioned done d e.2 ds

/-- The warnings are those of the definitions that are done, and `last`. -/
def Accounts (spec : Spec) (p : Progress) (last : List Diagnostic) : Prop :=
  ∃ noted, List.Forall₂ (Noted spec p.done) p.done noted ∧ p.warnings.Perm (noted.flatten ++ last)

theorem Cautioned.mono {done done' : List (String × Definition)} (h : done <:+ done') {d : Spec.Definition}
    {r : Definition} {ds : List Diagnostic} (hc : Cautioned done d r ds) : Cautioned done' d r ds := by
  obtain ⟨before, hbefore, hds⟩ := hc
  exact ⟨before, hbefore.trans h, hds⟩

/-- Once a definition is done, its warnings are accounted for. -/
theorem Accounts.finish {p : Progress} {ds : List Diagnostic} (h : Accounts spec p ds)
    {d : Spec.Definition} (hd : d ∈ spec.definitions) {r : Definition}
    (hc : Cautioned p.done d r ds) : Accounts spec { p with done := (d.name, r) :: p.done } [] := by
  obtain ⟨noted, hnoted, hwarnings⟩ := h
  have hgrows : p.done <:+ (d.name, r) :: p.done := List.suffix_cons _ _
  refine ⟨ds :: noted, .cons ⟨d, hd, rfl, hc.mono hgrows⟩ (hnoted.imp fun e es he => ?_), ?_⟩
  · obtain ⟨d', hd', hname, hc'⟩ := he
    exact ⟨d', hd', hname, hc'.mono hgrows⟩
  · rw [List.flatten_cons, List.append_nil]
    exact hwarnings.trans List.perm_append_comm

/-! ### Steps that finish other definitions only -/

variable {α β : Type}

/-- A step after which all warnings are accounted for, if they were before. -/
def Keeps (spec : Spec) (x : Resolve α) : Prop :=
  ∀ p a p', Accounts spec p [] → Ends x p a p' → p.done <:+ p'.done ∧ Accounts spec p' []

theorem keeps_pure {a : α} : Keeps spec (pure a) := by
  intro p b p' h hends
  obtain ⟨-, rfl⟩ := ends_pure.mp hends
  exact ⟨List.suffix_rfl, h⟩

theorem keeps_fail {f : Fault} {span : Span} : Keeps spec (fail f span : Resolve α) :=
  fun _ _ _ _ hends => (not_ends_throw hends).elim

theorem keeps_lift {x : Except SpecError α} : Keeps spec (lift x) := by
  cases x with
  | error e => exact fun _ _ _ _ hends => (not_ends_throw hends).elim
  | ok a => exact keeps_pure

theorem Keeps.bind {x : Resolve α} {f : α → Resolve β} (hx : Keeps spec x) (hf : ∀ a, Keeps spec (f a)) :
    Keeps spec (x >>= f) := by
  intro p b p'' h hends
  obtain ⟨a, p', ha, hb⟩ := ends_bind.mp hends
  obtain ⟨hsuffix, h'⟩ := hx p a p' h ha
  obtain ⟨hsuffix', h''⟩ := hf a p' b p'' h' hb
  exact ⟨hsuffix.trans hsuffix', h''⟩

theorem Keeps.return {x : Resolve α} {g : α → β} (hx : Keeps spec x) :
    Keeps spec (x >>= fun a => pure (g a)) :=
  hx.bind fun _ => keeps_pure

theorem keeps_mapM {f : α → Resolve β} (hf : ∀ a, Keeps spec (f a)) (as : List α) :
    Keeps spec (as.mapM f) := by
  induction as with
  | nil =>
    rw [List.mapM_nil]
    exact keeps_pure
  | cons a as ih =>
    rw [List.mapM_cons]
    exact (hf a).bind fun _ => ih.return

theorem keeps_forM {f : α → Resolve Unit} {as : List α} (hf : ∀ a ∈ as, Keeps spec (f a)) :
    Keeps spec (as.forM f) := by
  induction as with
  | nil => exact keeps_pure
  | cons a as ih =>
    rw [List.forall_mem_cons] at hf
    exact hf.1.bind fun _ => ih hf.2

end Resolve

open Resolve

namespace Scope

variable {spec : Spec} {scope : Scope}

theorem keeps_kindOf (name : String) (span : Span) : Keeps spec (scope.kindOf name span) := by
  unfold kindOf
  split
  · exact keeps_pure
  · exact keeps_fail

theorem keeps_bound? (v : Option Spec.Value) : Keeps spec (scope.bound? v) := by
  cases v with
  | none => exact keeps_pure
  | some v => exact keeps_lift.return

theorem keeps_linked (b : Base String) (span : Span) : Keeps spec (scope.linked b span) := by
  cases b with
  | primitive p => exact keeps_pure
  | named name => exact (keeps_kindOf name span).return

theorem keeps_draft (a : Spec.Arm) : Keeps spec (scope.draft a) :=
  (keeps_mapM (fun _ => keeps_lift.return) a.labels).return

theorem keeps_labels (enum : String) (members : List Spec.Member) (seen : List (String × Int)) :
    Keeps spec (scope.labels enum seen members) := by
  induction members generalizing seen with
  | nil => exact keeps_pure
  | cons m rest ih =>
    refine keeps_lift.bind fun n => ?_
    dsimp only
    split
    · exact keeps_fail.bind fun _ => by split <;> [exact keeps_fail; exact ih _]
    · split <;> [exact keeps_fail; exact ih _]

theorem ends_enumLabels_bind {α : Type} {selector : Selector} {f : List (String × Int) → Resolve α}
    {p p' : Progress} {a : α} :
    Ends (enumLabels selector >>= f) p a p' ↔ Ends (f (labelsOf p.done selector)) p a p' := by
  cases selector with
  | enum name =>
    rw [enumLabels, bind_assoc, ends_get_bind, labelsOf]
    cases hlookup : p.done.lookup name with
    | none => rw [pure_bind]
    | some r => cases r <;> rw [pure_bind]
  | signed | unsigned | bool => exact Iff.rfl

variable (hvisit : ∀ name span, Keeps spec (scope.visit name span))

include hvisit

theorem keeps_direct (b : Base String) (span : Span) : Keeps spec (scope.direct b span) := by
  cases b with
  | primitive p => exact keeps_pure
  | named name => exact (keeps_kindOf name span).bind fun _ => (hvisit name span).return

theorem keeps_type (t : Spec.Ty) (span : Span) : Keeps spec (scope.type t span) := by
  cases t with
  | plain b => exact (keeps_direct hvisit b span).return
  | array b n => exact (keeps_direct hvisit b span).bind fun _ => keeps_lift.return
  | vector b n => exact (keeps_linked b span).bind fun _ => (keeps_bound? n).return
  | optional b => exact (keeps_linked b span).return
  | fixedBytes n => exact keeps_lift.return
  | bytes n => exact (keeps_bound? n).return
  | string n => exact (keeps_bound? n).return

theorem keeps_field (f : Spec.Field Spec.Ty) : Keeps spec (scope.field f) :=
  (keeps_type hvisit f.type f.nameSpan).return

theorem keeps_payload (p : Spec.Payload) : Keeps spec (scope.payload p) := by
  cases p with
  | void span => exact keeps_pure
  | field f => exact (keeps_field hvisit f).return

theorem keeps_arms (xs : List (String × Variant.Draft × Spec.Arm)) : Keeps spec (scope.arms xs) := by
  induction xs with
  | nil => exact keeps_pure
  | cons x rest ih => exact (keeps_payload hvisit x.2.2.payload).bind fun _ => ih.return

/-! ### Unions -/

variable (hnames : ∀ name span p u p', Ends (scope.visit name span) p u p' → name ∈ names p'.done)

include hnames

omit hvisit in
theorem names_of_direct {b : Base String} {span : Span} {p p' : Progress} {b' : Base Ref}
    (h : Ends (scope.direct b span) p b' p') {x : Ref} (hx : b' = .named x) : x.name ∈ names p'.done := by
  subst hx
  cases b with
  | primitive q => cases (ends_pure.mp h).1
  | named name =>
    obtain ⟨k, p₁, -, h⟩ := ends_bind.mp h
    obtain ⟨u, p₂, hvisited, h⟩ := ends_bind.mp h
    obtain ⟨hx, rfl⟩ := ends_pure.mp h
    cases hx
    exact hnames name span p₁ u p' hvisited

/-- A union without default arm is warned about when cases are missing, after all that it holds. -/
theorem cautioned_union {d : Spec.Definition} {u : Spec.Union} {p p' : Progress} {u' : Union}
    (h : Accounts spec p []) (hends : Ends (scope.union d.name d.nameSpan u) p u' p') :
    p.done <:+ p'.done ∧ ∃ ds, Cautioned p'.done d (.union u') ds ∧ Accounts spec p' ds := by
  unfold union at hends
  obtain ⟨discriminant, p₁, hdirect, hends⟩ := ends_bind.mp hends
  obtain ⟨hsuffix₁, h₁⟩ := keeps_direct hvisit _ _ _ _ _ h hdirect
  rw [ends_get_bind] at hends
  split at hends
  · next selector _ =>
    rw [ends_enumLabels_bind] at hends
    obtain ⟨drafts, p₂, hdrafts, hends⟩ := ends_bind.mp hends
    obtain ⟨hsuffix₂, h₂⟩ := keeps_mapM keeps_draft _ _ _ _ h₁ hdrafts
    obtain ⟨_, p₃, hcheck, hends⟩ := ends_bind.mp hends
    obtain ⟨hsuffix₃, h₃⟩ := keeps_lift _ _ _ h₂ hcheck
    dsimp only at hends
    obtain ⟨arms, p₄, harms, hends⟩ := ends_bind.mp hends
    obtain ⟨hsuffix₄, h₄⟩ := keeps_arms hvisit _ _ _ _ h₃ harms
    have hsuffix : p₁.done <:+ p₄.done := hsuffix₂.trans (hsuffix₃.trans hsuffix₄)
    split at hends
    · next payload _ =>
      obtain ⟨field, p₅, hpayload, hends⟩ := ends_bind.mp hends
      obtain ⟨hsuffix₅, h₅⟩ := keeps_payload hvisit _ _ _ _ h₄ hpayload
      obtain ⟨rfl, rfl⟩ := ends_pure.mp hends
      refine ⟨hsuffix₁.trans (hsuffix.trans hsuffix₅), [], ⟨p₁.done, hsuffix.trans hsuffix₅, rfl, ?_⟩, h₅⟩
      rintro _ ⟨⟩ x hx
      exact names_of_direct hnames hdirect hx
    · have hcautioned {ds : List Diagnostic} (hds : ds = cautions p₁.done d.name (some d.nameSpan)
          (.union ⟨u.discriminant.name, discriminant, selector, arms, none⟩)) :
          Cautioned p₄.done d (.union ⟨u.discriminant.name, discriminant, selector, arms, none⟩) ds := by
        refine ⟨p₁.done, hsuffix, hds, ?_⟩
        rintro _ ⟨⟩ x hx
        exact names_of_direct hnames hdirect hx
      split at hends
      · next hmissing =>
        obtain ⟨_, p₅, hwarn, hends⟩ := ends_bind.mp hends
        obtain ⟨rfl, rfl⟩ := ends_pure.mp hends
        rw [warn, ends_modify] at hwarn
        subst hwarn
        obtain ⟨noted, hnoted, hwarnings⟩ := h₄
        refine ⟨hsuffix₁.trans hsuffix, _, hcautioned rfl, noted, hnoted, ?_⟩
        simp only [cautions]
        rw [if_neg (by simpa [Union.caseValues] using hmissing)]
        rw [List.append_nil] at hwarnings
        exact hwarnings.append_right _
      · next hmissing =>
        obtain ⟨rfl, rfl⟩ := ends_pure.mp hends
        refine ⟨hsuffix₁.trans hsuffix, [], hcautioned ?_, h₄⟩
        simp only [cautions]
        rw [if_pos (by simpa [Union.caseValues] using hmissing)]
  · exact (not_ends_throw hends).elim

theorem cautioned_definition {d : Spec.Definition} {r : Definition} {p p' : Progress}
    (h : Accounts spec p []) (hends : Ends (scope.definition d) p r p') :
    p.done <:+ p'.done ∧ ∃ ds, Cautioned p'.done d r ds ∧ Accounts spec p' ds := by
  have hother {x : Resolve Definition} (hx : Keeps spec x) (hends : Ends x p r p')
      (hr : ∀ u, r ≠ .union u) :
      p.done <:+ p'.done ∧ ∃ ds, Cautioned p'.done d r ds ∧ Accounts spec p' ds := by
    obtain ⟨hsuffix, h'⟩ := hx p r p' h hends
    refine ⟨hsuffix, [], ⟨[], List.nil_suffix, ?_, fun u hu => absurd hu (hr u)⟩, h'⟩
    cases r with
    | union u => exact absurd rfl (hr u)
    | _ => rfl
  obtain ⟨name, body, span, nameSpan⟩ := d
  cases body with
  | const v => exact (not_ends_throw hends).elim
  | typedef t =>
    refine hother (keeps_type hvisit t nameSpan).return hends fun u hu => ?_
    obtain ⟨t', _, -, hends⟩ := ends_bind.mp hends
    cases (ends_pure.mp hends).1.symm.trans hu
  | struct fields =>
    refine hother (keeps_mapM (keeps_field hvisit) fields).return hends fun u hu => ?_
    obtain ⟨fields', _, -, hends⟩ := ends_bind.mp hends
    cases (ends_pure.mp hends).1.symm.trans hu
  | enum members =>
    refine hother (keeps_labels name members []).return hends fun u hu => ?_
    obtain ⟨labels, _, -, hends⟩ := ends_bind.mp hends
    cases (ends_pure.mp hends).1.symm.trans hu
  | union u =>
    obtain ⟨u', _, hunion, hends⟩ := ends_bind.mp hends
    obtain ⟨rfl, rfl⟩ := ends_pure.mp hends
    exact cautioned_union hvisit hnames (d := ⟨name, .union u, span, nameSpan⟩) h hunion

end Scope

open Scope

variable {spec : Spec}

theorem name_mem_of_visit {symbols : List Symbol} {fresh : List (TypeKind × Spec.Definition)}
    {path : List String} {name : String} {span : Span} {p p' : Progress} {u : Unit}
    (h : Ends (visit symbols fresh path name span) p u p') : name ∈ names p'.done := by
  rw [visit, ends_get_bind] at h
  split at h
  · next hdone =>
    obtain ⟨-, rfl⟩ := ends_pure.mp h
    exact lookup_isSome_iff_mem.mp hdone
  · split at h
    · exact (not_ends_throw h).elim
    · obtain ⟨r, p₁, -, h⟩ := ends_bind.mp h
      rw [finish, ends_modify] at h
      rw [h]
      exact List.mem_cons_self

theorem keeps_visit {symbols : List Symbol} (fresh : List (TypeKind × Spec.Definition))
    (hfresh : ∀ x ∈ fresh, x.2 ∈ spec.definitions) (path : List String) (name : String) (span : Span) :
    Keeps spec (visit symbols fresh path name span) := by
  rw [visit]
  intro p u p' h hends
  rw [ends_get_bind] at hends
  split at hends
  · obtain ⟨-, rfl⟩ := ends_pure.mp hends
    exact ⟨List.suffix_rfl, h⟩
  · split at hends
    · exact (not_ends_throw hends).elim
    · next k d hfind =>
      have hmem := List.mem_of_find?_eq_some hfind
      obtain rfl : d.name = name := by simpa using List.find?_some hfind
      obtain ⟨r, p₁, hdefinition, hfinish⟩ := ends_bind.mp hends
      rw [finish, ends_modify] at hfinish
      subst hfinish
      have hrest : ∀ x ∈ fresh.eraseP (·.2.name = d.name), x.2 ∈ spec.definitions :=
        fun x hx => hfresh x (List.mem_of_mem_eraseP hx)
      obtain ⟨hsuffix, ds, hcautioned, h₁⟩ := cautioned_definition
        (fun n s => keeps_visit _ hrest (path ++ [d.name]) n s)
        (fun n s q v q' hvisited => name_mem_of_visit hvisited) h hdefinition
      exact ⟨hsuffix.trans (List.suffix_cons _ _), h₁.finish (hfresh _ hmem) hcautioned⟩
termination_by fresh.length
decreasing_by
  exact length_eraseP_key_lt (List.mem_map_of_mem hmem)

/-! ### The warnings of an analysis -/

/-- Apart from the warnings of its definitions, a specification is warned about if it has no types. -/
theorem accounts_of_build {s : Schema} {p : Progress} (h : Ends (build spec) ⟨[], []⟩ s p) :
    Accounts spec p (if (Symbol.types (Symbol.ofSpec spec)).isEmpty then [Caution.noTypes.diagnostic spec.span?]
      else []) := by
  have hempty : Accounts spec ⟨[], []⟩ [] := ⟨[], .nil, .refl _⟩
  unfold build at h
  obtain ⟨_, p₁, hdistinct, h⟩ := ends_bind.mp h
  have h₁ := (keeps_lift _ _ _ hempty hdistinct).2
  obtain ⟨_, p₂, hconstants, h⟩ := ends_bind.mp h
  have h₂ := (keeps_lift _ _ _ h₁ hconstants).2
  obtain ⟨_, p₃, hvisits, h⟩ := ends_bind.mp h
  have htypes : ∀ x ∈ Symbol.types (Symbol.ofSpec spec), x.2 ∈ spec.definitions :=
    fun x hx => (Symbol.mem_types_iff.mp hx).1
  obtain ⟨noted, hnoted, hwarnings⟩ :=
    (keeps_forM (fun x _ => keeps_visit _ htypes [] x.2.name x.2.nameSpan) _ _ _ h₂ hvisits).2
  rw [List.append_nil] at hwarnings
  dsimp only at h
  split at h
  · next hnone =>
    obtain ⟨_, p₄, hwarn, h⟩ := ends_bind.mp h
    rw [warn, ends_modify] at hwarn
    rw [ends_get_bind, ends_pure] at h
    rw [h.2, hwarn, if_pos hnone]
    exact ⟨noted, hnoted, hwarnings.append_right _⟩
  · next hsome =>
    rw [ends_get_bind, ends_pure] at h
    rw [h.2, if_neg hsome]
    exact ⟨noted, hnoted, by rwa [List.append_nil]⟩

/-- What there is to warn about a definition of a schema, at the place of its name. -/
def cautionsOf (s : Schema) (e : String × Definition) : List Diagnostic :=
  cautions s.types e.1 ((Symbol.find? s.symbols e.1).bind (·.span)) e.2

theorem find?_of_kindOf? (hdistinct : spec.names.Nodup) {d : Spec.Definition} (hd : d ∈ spec.definitions)
    {k : TypeKind} (hk : kindOf? d = some k) :
    Symbol.find? (Symbol.ofSpec spec) d.name = some ⟨d.name, some d.nameSpan, .type k d⟩ := by
  rw [Symbol.find?_ofSpec_eq_some_iff hdistinct]
  refine ⟨List.mem_append_right _ (List.mem_flatMap.mpr ⟨d, hd, ?_⟩), rfl⟩
  obtain ⟨name, body, span, nameSpan⟩ := d
  cases body with
  | const v => cases hk
  | enum members =>
    cases hk
    exact List.mem_cons_self
  | typedef _ | struct _ | union _ =>
    cases hk
    exact List.mem_singleton_self _

theorem Resolve.Known.of_suffix {before done : List (String × Definition)} (h : before <:+ done)
    (hdone : Known spec done) : Known spec before := by
  induction hdone with
  | nil =>
    rw [List.suffix_nil.mp h]
    exact .nil
  | @cons d r done hd hr direct founded hrest ih =>
    rcases List.suffix_cons_iff.mp h with rfl | h
    · exact .cons hd hr direct founded hrest
    · exact ih h

/-- The labels of the enumeration that selects a union can be looked up once its discriminant is done. -/
theorem labelsOf_eq (hdistinct : spec.names.Nodup) {before done : List (String × Definition)}
    (hbefore : before <:+ done) (hdone : Known spec done) (hnodup : (names done).Nodup) {v : Spec.Union}
    {u : Union} (hu : spec.UnionAs v u) (hdirect : ∀ x, u.discriminant = .named x → x.name ∈ names before) :
    labelsOf before u.selector = labelsOf done u.selector := by
  have hselects := hu.selector
  generalize u.selector = selector at hselects
  cases selector with
  | enum name =>
    obtain ⟨labels, hlookup, -⟩ :=
      (hdone.of_suffix hbefore).enum_labels hdistinct hu.discriminant hdirect hselects
    rw [labelsOf, labelsOf, lookup_of_suffix hbefore hnodup hlookup, hlookup]
  | _ => rfl

/-- What was warned about a definition is what there is to warn about it. -/
theorem eq_cautions_of_cautioned (hdistinct : spec.names.Nodup) {done : List (String × Definition)}
    (hdone : Known spec done) (hnodup : (names done).Nodup) {d : Spec.Definition} {r : Definition}
    (hr : spec.BodyAs d.body r) {ds : List Diagnostic} (h : Cautioned done d r ds) :
    ds = cautions done d.name (some d.nameSpan) r := by
  obtain ⟨before, hbefore, rfl, hdirect⟩ := h
  obtain ⟨name, body, span, nameSpan⟩ := d
  cases r with
  | union u =>
    cases body with
    | union v =>
      simp only [cautions]
      rw [labelsOf_eq hdistinct hbefore hdone hnodup hr (hdirect u rfl)]
    | _ => exact hr.elim
  | _ => rfl

/-- What is done is what the specification says, under the names of its types. -/
theorem Resolve.Known.exists_of_mem {done : List (String × Definition)} (hdone : Known spec done)
    (hnodup : (names done).Nodup) {e : String × Definition} (he : e ∈ done) :
    ∃ d ∈ spec.definitions, d.name = e.1 ∧ spec.BodyAs d.body e.2 := by
  obtain ⟨d, r, before, hname, entry⟩ := hdone.exists_entry (List.mem_map_of_mem he)
  have hlookup : done.lookup d.name = some e.2 :=
    (lookup_eq_some_iff_of_nodup hnodup).mpr (by rwa [hname])
  cases entry.lookup.symm.trans hlookup
  exact ⟨d, entry.mem, hname, entry.body⟩

/-- What is warned depends on what is found under a name only. -/
theorem cautions_congr {definitions definitions' : List (String × Definition)}
    (h : ∀ name, definitions'.lookup name = definitions.lookup name) (name : String) (span : Option Span)
    (r : Definition) : cautions definitions' name span r = cautions definitions name span r := by
  have hlabels (selector : Selector) : labelsOf definitions' selector = labelsOf definitions selector := by
    cases selector with
    | enum enum => rw [labelsOf, labelsOf, h]
    | _ => rfl
  cases r with
  | union u => simp only [cautions, hlabels]
  | _ => rfl

/-- The warnings that were noted are those that there are to give. -/
theorem noted_eq (hdistinct : spec.names.Nodup) {done : List (String × Definition)}
    (hdone : Known spec done) (hnodup : (names done).Nodup) {s : Schema}
    (hsymbols : s.symbols = Symbol.ofSpec spec) (htypes : ∀ name, s.types.lookup name = done.lookup name)
    {noted : List (List Diagnostic)} (h : List.Forall₂ (Noted spec done) done noted) :
    noted = done.map s.cautionsOf := by
  have hmem := (List.forall₂_and_left done noted).mpr ⟨fun _ he => he, h⟩
  rw [eq_comm, ← List.forall₂_eq_eq_eq, List.forall₂_map_left_iff]
  refine hmem.imp fun e ds ⟨he, d, hd, hname, hcautioned⟩ => ?_
  obtain ⟨d', hd', hname', hbody⟩ := hdone.exists_of_mem hnodup he
  obtain rfl := Spec.eq_of_name hdistinct hd' hd (hname'.trans hname.symm)
  rw [eq_cautions_of_cautioned hdistinct hdone hnodup hbody hcautioned, cautionsOf, ← hname, hsymbols,
    find?_of_kindOf? hdistinct hd hbody.kind, cautions_congr htypes]
  rfl

/-- The warnings of an accepted specification are those of its types, and that it has none. -/
theorem warnings_perm (hproper : ∀ d ∈ spec.definitions, d.Proper) {s : Schema}
    (h : (analyze spec).result = .ok s) : (analyze spec).warnings.Perm
      (s.types.flatMap s.cautionsOf ++ if s.types.isEmpty then [Caution.noTypes.diagnostic spec.span?] else []) := by
  have hdistinct := (specWellFormed_of_analyze h).distinct
  obtain ⟨p, hends⟩ := ends_build_iff.mp h
  have hwarnings : (analyze spec).warnings = p.warnings := (congrArg (·.2.warnings) hends :)
  have hdone : Known spec p.done :=
    ((decides_build spec [] ⟨[], []⟩ List.nil_suffix .nil).2 s p hends).2.1
  obtain ⟨-, hsound, -, -⟩ := gives_build hproper _ _ _ List.nil_suffix .nil hends
  have hnodup : (names p.done).Nodup := hsound.nodup
  have htypes : s.types = inOrder (Symbol.types (Symbol.ofSpec spec)) p.done := by
    rw [eq_of_build hends]
  have hlookup (name : String) : s.types.lookup name = p.done.lookup name := by
    refine Option.ext fun r => ?_
    rw [htypes, lookup_inOrder, and_iff_right_iff_imp]
    intro hlookup
    obtain ⟨d, hd, rfl, hbody⟩ :=
      hdone.exists_of_mem hnodup ((lookup_eq_some_iff_of_nodup hnodup).mp hlookup)
    exact List.mem_map.mpr ⟨_, Symbol.mem_types_iff.mpr ⟨hd, hbody.kind⟩, rfl⟩
  have hperm : s.types.Perm p.done :=
    perm_of_lookup_eq hnodup (wellFormed_of_analyze hproper h).distinct hlookup
  have hempty : s.types.isEmpty = (Symbol.types (Symbol.ofSpec spec)).isEmpty := by
    rw [← List.isEmpty_map (f := (·.1)), ← List.isEmpty_map (f := fun x : TypeKind × Spec.Definition => x.2.name)]
    exact congrArg List.isEmpty (typeNames_of_analyze hproper h)
  obtain ⟨noted, hnoted, haccounts⟩ := accounts_of_build hends
  rw [noted_eq hdistinct hdone hnodup (symbols_of_analyze h) hlookup hnoted] at haccounts
  rw [hwarnings, hempty]
  exact haccounts.trans ((hperm.symm.flatMap_right _).append_right _)

end XdrSchema.Schema
