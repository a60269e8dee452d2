import XdrSchema.Proofs.Schema.Decide

/-! A specification makes a schema if and only if it is well formed. -/
namespace XdrSchema.Schema

open Resolve

variable {spec : Spec} {base : List (String × Definition)}

namespace Scope

/-! ### Conditions -/

/-- What a type mentions is defined, and what it holds is founded. -/
def Grounded (spec : Spec) (t : Spec.Ty) : Prop :=
  spec.Fits t ∧ ∀ inner, t.direct? = some inner → spec.Founded inner

theorem grounded_plain_iff {b : Base String} :
    Grounded spec (.plain b) ↔ ∀ name, b = .named name → spec.Founded name := by
  simpa [Grounded, Spec.fits_iff, TypeExpr.bound?] using fun h name hb => (h name hb).isType

theorem admits_iff {d : Spec.Definition} :
    (spec.Admits d ∧ ∀ t ∈ d.body.types, ∀ inner, t.direct? = some inner → spec.Founded inner) ↔
      (∀ t ∈ d.body.types, Grounded spec t) ∧ spec.Enumerates d.body.members ∧
        ∀ u, d.body = .union u → spec.Switches u := by
  constructor
  · rintro ⟨hadmits, hfounded⟩
    exact ⟨fun t ht => ⟨hadmits.types t ht, hfounded t ht⟩, hadmits.members, hadmits.cases⟩
  · rintro ⟨hgrounded, hmembers, hcases⟩
    exact ⟨⟨fun t ht => (hgrounded t ht).1, hmembers, hcases⟩, fun t ht => (hgrounded t ht).2⟩

/-- The labels of an enumeration denote distinct numbers of 32 bits, none of them seen before. -/
def EnumeratesAfter (spec : Spec) (seen : List Int) (members : List Spec.Member) : Prop :=
  ∃ values, List.Forall₂ (fun m n => spec.Denotes m.name n) members values ∧
    (∀ n ∈ values, -2 ^ 31 ≤ n ∧ n < 2 ^ 31) ∧ values.Nodup ∧ ∀ n ∈ values, n ∉ seen

theorem enumeratesAfter_nil {members : List Spec.Member} :
    EnumeratesAfter spec [] members ↔ spec.Enumerates members := by
  simp [EnumeratesAfter, Spec.Enumerates]

theorem enumeratesAfter_cons {seen : List Int} {m : Spec.Member} {rest : List Spec.Member} :
    EnumeratesAfter spec seen (m :: rest) ↔ ∃ n, spec.Denotes m.name n ∧
      (-2 ^ 31 ≤ n ∧ n < 2 ^ 31) ∧ n ∉ seen ∧ EnumeratesAfter spec (seen ++ [n]) rest := by
  unfold EnumeratesAfter
  constructor
  · rintro ⟨_, hvalues, hfits, hnodup, hseen⟩
    cases hvalues with
    | @cons _ n _ values hn hvalues =>
      rw [List.forall_mem_cons] at hfits hseen
      obtain ⟨hnew, hnodup⟩ := List.nodup_cons.mp hnodup
      refine ⟨n, hn, hfits.1, hseen.1, values, hvalues, hfits.2, hnodup, fun k hk => ?_⟩
      simpa using ⟨hseen.2 k hk, fun heq => hnew (heq ▸ hk)⟩
  · rintro ⟨n, hn, hfits, hseen, values, hvalues, hrest, hnodup, hnew⟩
    have hnot : n ∉ values := fun hmem => hnew n hmem (by simp)
    refine ⟨n :: values, .cons hn hvalues, List.forall_mem_cons.mpr ⟨hfits, hrest⟩,
      List.nodup_cons.mpr ⟨hnot, hnodup⟩, List.forall_mem_cons.mpr ⟨hseen, fun k hk hmem => ?_⟩⟩
    exact hnew k hk (List.mem_append_left _ hmem)

theorem forall_mem_zip_zip {names : List String} {drafts : List Variant.Draft} {arms : List Spec.Arm}
    {P : Spec.Arm → Prop} (hnames : names.length = drafts.length) (hdrafts : drafts.length = arms.length) :
    (∀ x ∈ names.zip (drafts.zip arms), P x.2.2) ↔ ∀ a ∈ arms, P a := by
  have hzip : (drafts.zip arms).length ≤ names.length := by
    rw [List.length_zip]
    omega
  have hmap : ((names.zip (drafts.zip arms)).map Prod.snd).map Prod.snd = arms := by
    rw [List.map_snd_zip hzip, List.map_snd_zip (Nat.le_of_eq hdrafts.symm)]
  rw [← hmap, List.forall_mem_map, List.forall_mem_map, hmap]

theorem forall_mem_types_union {u : Spec.Union} {P : Spec.Ty → Prop} :
    (∀ t ∈ (Spec.Body.union u).types, P t) ↔ P (.plain u.discriminant.type) ∧
      (∀ a ∈ u.arms, ∀ f ∈ a.payload.field?, P f.type) ∧ ∀ p ∈ u.default, ∀ f ∈ p.field?, P f.type := by
  have hfields {ps : List Spec.Payload} : (∀ t ∈ ps.filterMap fun p => p.field?.map (·.type), P t) ↔
      ∀ p ∈ ps, ∀ f ∈ p.field?, P f.type := by
    constructor
    · intro h p hp f hf
      exact h _ (List.mem_filterMap.mpr ⟨p, hp, by rw [Option.mem_def.mp hf]; rfl⟩)
    · intro h t ht
      obtain ⟨p, hp, ht⟩ := List.mem_filterMap.mp ht
      obtain ⟨f, hf, rfl⟩ := Option.map_eq_some_iff.mp ht
      exact h p hp f hf
  rw [Spec.Body.types, List.forall_mem_cons, hfields, Spec.Union.payloads, List.forall_mem_append]
  simp

/-! ### What the definitions that are done say -/

/-- To follow the typedefs decides that they lead to what can select an arm. -/
theorem decides_selector {α : Type} (hdistinct : spec.names.Nodup) {b : Base String} {b' : Base Ref}
    (hb : spec.BaseAs b b') (hdirect : ∀ x, b' = .named x → x.name ∈ names base)
    {f : Selector → Resolve α} {fault : Fault} {span : Span} {E : Selector → Prop}
    {Q : α → List (String × Definition) → Prop}
    (hf : ∀ selector done, base <:+ done → spec.Selects b selector →
      Decides spec done (f selector) (E selector) Q) :
    Decides spec base (do
      let some selector := Selector.ofType? (underlying (← get).done (.plain b')) | fail fault span
      f selector)
      (∃ selector, spec.Selects b selector ∧ E selector) Q := by
  refine decides_get.extends.then fun p _ _ hp => ?_
  obtain ⟨hextends, rfl, hknown⟩ := hp
  have hselector {selector : Selector} :
      Selector.ofType? (underlying p.done (.plain b')) = some selector ↔ spec.Selects b selector :=
    hknown.selector_eq_some_iff hdistinct hb fun x hx => (hextends.map (·.1)).subset (hdirect x hx)
  split
  · next selector hsome =>
    have hselects := hselector.mp hsome
    refine (hf selector p.done hextends hselects).congr ⟨fun h => ⟨selector, hselects, h⟩, ?_⟩
    rintro ⟨selector', hselects', h⟩
    rwa [selects_unique hdistinct hselects hselects']
  · next hnone =>
    refine decides_fail.congr (iff_of_false id ?_)
    rintro ⟨selector, hselects, -⟩
    rw [hselector.mpr hselects] at hnone
    exact hnone _ rfl

/-- The labels that are found are those of the enumeration that selects. -/
theorem decides_enumLabels (hdistinct : spec.names.Nodup) {b : Base String} {b' : Base Ref}
    (hb : spec.BaseAs b b') (hdirect : ∀ x, b' = .named x → x.name ∈ names base) {selector : Selector}
    (hselects : spec.Selects b selector) :
    Decides spec base (enumLabels selector) True fun labels _ => ∀ name, selector = .enum name →
      ∀ n, n ∈ labels.map (·.2) ↔ spec.Belongs (.enum name) n := by
  unfold enumLabels
  split
  · next name =>
    refine decides_get.extends.then fun p done _ hp => ?_
    obtain ⟨hbase, rfl, hknown⟩ := hp
    have hdirect' : ∀ x, b' = .named x → x.name ∈ names p.done := fun x hx =>
      (hbase.map (·.1)).subset (hdirect x hx)
    obtain ⟨labels, hlookup, hlabels⟩ := hknown.enum_labels hdistinct hb hdirect' hselects
    rw [hlookup]
    refine decides_pure fun _ _ => ?_
    rintro _ ⟨⟩
    exact hlabels
  · next hne => exact decides_pure fun _ _ name hname => absurd hname (hne name)

/-- A scope in which the definition of `outer` can be resolved: what it holds is resolved if and only if
it is founded. -/
structure Serves (spec : Spec) (outer : String) (scope : Scope) : Prop where
  symbols : scope.symbols = Symbol.ofSpec spec
  distinct : spec.names.Nodup
  visit : ∀ inner span base, spec.Holds outer inner → spec.IsType inner →
    Decides spec base (scope.visit inner span) (spec.Founded inner) fun _ done => inner ∈ names done

variable {outer : String} {scope : Scope} (hs : Serves spec outer scope)

include hs

/-! ### Types -/

theorem decides_kindOf (name : String) (span : Span) :
    Decides spec base (scope.kindOf name span) (spec.IsType name) fun k _ => spec.Declares name k := by
  have hfind {x : Symbol} : Symbol.find? (Symbol.ofSpec spec) name = some x ↔ _ :=
    Symbol.find?_ofSpec_eq_some_iff hs.distinct
  unfold kindOf
  rw [hs.symbols]
  split
  · next sname span k d hx =>
    obtain ⟨hmem, rfl⟩ := hfind.mp hx
    have hdeclares : spec.Declares sname k := ⟨d, Symbol.type_iff.mp ⟨_, hmem, rfl, rfl⟩⟩
    exact (decides_pure fun _ _ => hdeclares).congr
      (iff_of_true trivial (Spec.isType_iff_declares.mpr ⟨k, hdeclares⟩))
  · next hnone =>
    refine decides_fail.congr (iff_of_false id fun htype => ?_)
    obtain ⟨k, d, hdeclares⟩ := Spec.isType_iff_declares.mp htype
    obtain ⟨⟨sname, span, meaning⟩, hmem, hname, hmeaning⟩ := Symbol.type_iff.mpr hdeclares
    cases hmeaning
    exact hnone _ _ _ _ (hfind.mpr ⟨hmem, hname⟩)

theorem decides_bound (v : Spec.Value) :
    Decides spec base (scope.bound v) (∃ n, spec.Bounds v n) fun n _ => spec.Bounds v n := by
  unfold bound
  rw [hs.symbols]
  exact decides_lift fun n => Constant.bound_eq_ok_iff hs.distinct

theorem decides_bound? (v : Option Spec.Value) :
    Decides spec base (scope.bound? v) (∀ w ∈ v, ∃ n, spec.Bounds w n)
      fun n _ => Option.Rel spec.Bounds v n := by
  cases v with
  | none => exact (decides_pure fun _ _ => .none).congr (by simp)
  | some v => exact ((decides_bound hs v).return fun n _ hn => .some hn).congr (by simp)

theorem decides_direct (b : Base String) (span : Span)
    (hheld : ∀ name, b = .named name → spec.Holds outer name) :
    Decides spec base (scope.direct b span) (∀ name, b = .named name → spec.Founded name)
      fun b' done => spec.BaseAs b b' ∧ ∀ x, b' = .named x → x.name ∈ names done := by
  cases b with
  | primitive p => exact (decides_pure fun _ _ => ⟨.primitive p, nofun⟩).congr (by simp)
  | named name =>
    refine ((decides_kindOf hs name span).bind (D := spec.Founded name) fun k done _ hk => ?_).congr ?_
    · have htype : spec.IsType name := Spec.isType_iff_declares.mpr ⟨k, hk⟩
      refine (hs.visit name span done (hheld name rfl) htype).return fun _ done' hdone' => ⟨.named hk, ?_⟩
      rintro x ⟨⟩
      exact hdone'
    · simpa using fun h => h.isType

theorem decides_linked (b : Base String) (span : Span) :
    Decides spec base (scope.linked b span) (∀ name, b = .named name → spec.IsType name)
      fun b' _ => spec.BaseAs b b' := by
  cases b with
  | primitive p => exact (decides_pure fun _ _ => .primitive p).congr (by simp)
  | named name => exact ((decides_kindOf hs name span).return fun k _ hk => .named hk).congr (by simp)

theorem decides_type (t : Spec.Ty) (span : Span)
    (hheld : ∀ inner, t.direct? = some inner → spec.Holds outer inner) :
    Decides spec base (scope.type t span) (Grounded spec t) fun t' done => spec.TypeAs t t' ∧
      ∀ x, t'.direct? = some x → x.name ∈ names done := by
  cases t with
  | plain b =>
    exact ((decides_direct hs b span fun name hb => hheld name (by simpa using hb)).return
      fun b' done hb => ⟨.plain hb.1, by simpa using hb.2⟩).congr grounded_plain_iff.symm
  | array b n =>
    refine ((decides_direct hs b span fun name hb => hheld name (by simpa using hb)).bind
      fun b' done _ hb => (decides_bound hs n).extends.return fun n' done' hn => ?_).congr ?_
    · exact ⟨.array hb.1 hn.2, fun x hx => (hn.1.map (·.1)).subset (hb.2 x (by simpa using hx))⟩
    · simp only [Grounded, Spec.fits_iff, TypeExpr.bound?, TypeExpr.target?_array,
        TypeExpr.direct?_array, Option.mem_some_iff, forall_eq']
      -- what is founded is defined, so that only the one was decided
      constructor
      · rintro ⟨h, hn⟩
        exact ⟨⟨fun name hb => (h name hb).isType, hn⟩, h⟩
      · rintro ⟨⟨_, hn⟩, h⟩
        exact ⟨h, hn⟩
  | vector b n =>
    refine ((decides_linked hs b span).bind fun b' done _ hb =>
      (decides_bound? hs n).return fun n' done' hn => ⟨.vector hb hn, by simp⟩).congr ?_
    simp [Grounded, Spec.fits_iff, TypeExpr.bound?]
  | optional b =>
    refine ((decides_linked hs b span).return fun b' done hb => ⟨.optional hb, by simp⟩).congr ?_
    simp [Grounded, Spec.fits_iff, TypeExpr.bound?]
  | fixedBytes n =>
    refine ((decides_bound hs n).return fun n' done hn => ⟨.fixedBytes hn, by simp⟩).congr ?_
    simp [Grounded, Spec.fits_iff, TypeExpr.bound?]
  | bytes n =>
    refine ((decides_bound? hs n).return fun n' done hn => ⟨.bytes hn, by simp⟩).congr ?_
    simp [Grounded, Spec.fits_iff, TypeExpr.bound?]
  | string n =>
    refine ((decides_bound? hs n).return fun n' done hn => ⟨.string hn, by simp⟩).congr ?_
    simp [Grounded, Spec.fits_iff, TypeExpr.bound?]

theorem decides_field (f : Spec.Field Spec.Ty)
    (hheld : ∀ inner, f.type.direct? = some inner → spec.Holds outer inner) :
    Decides spec base (scope.field f) (Grounded spec f.type) fun f' _ => spec.FieldAs f f' :=
  (decides_type hs f.type f.nameSpan hheld).return fun _ _ ht => ⟨rfl, ht.1⟩

theorem decides_payload (p : Spec.Payload)
    (hheld : ∀ f ∈ p.field?, ∀ inner, f.type.direct? = some inner → spec.Holds outer inner) :
    Decides spec base (scope.payload p) (∀ f ∈ p.field?, Grounded spec f.type)
      fun f _ => spec.PayloadAs p f := by
  cases p with
  | void span => exact (decides_pure fun _ _ => .none).congr (by simp [Spec.Payload.field?])
  | field f =>
    refine ((decides_field hs f (hheld f rfl)).return fun f' _ hf => .some hf).congr ?_
    simp [Spec.Payload.field?]

/-! ### Enumerations -/

theorem decides_labels (enum : String) (members : List Spec.Member) (seen : List (String × Int)) :
    Decides spec base (scope.labels enum seen members) (EnumeratesAfter spec (seen.map (·.2)) members)
      fun labels _ => ∃ added, labels = seen ++ added ∧ List.Forall₂ spec.MemberAs members added := by
  induction members generalizing seen base with
  | nil => exact (decides_pure fun _ _ => ⟨[], by simp, .nil⟩).congr (by simp [EnumeratesAfter])
  | cons m rest ih =>
    unfold labels
    rw [hs.symbols, enumeratesAfter_cons]
    have hvalue (n : Int) : Constant.valueOf (Symbol.ofSpec spec) m.name (some m.span) = .ok n ↔
        spec.Denotes m.name n := Constant.valueOf_eq_ok_iff hs.distinct
    refine decides_lift_bind hvalue fun n done _ hn => ?_
    rw [← CaseSet.isSigned32_iff, ← labelOf?_eq_none_iff]
    dsimp only
    split
    · next hwide => exact decides_fail_bind.congr (iff_of_false id fun h => by simp [h.1] at hwide)
    · next hfits =>
      split
      · next first hfirst => exact decides_fail.congr (iff_of_false id fun h => by simp [h.2.1] at hfirst)
      · next hnew =>
        have hrest : Decides spec done (scope.labels enum (seen ++ [(m.name, n)]) rest) _ _ := ih _
        rw [List.map_append, List.map_singleton] at hrest
        refine (hrest.mono fun labels _ h => ?_).congr ?_
        · obtain ⟨added, rfl, hadded⟩ := h
          exact ⟨(m.name, n) :: added, by simp, .cons ⟨rfl, hn⟩ hadded⟩
        · simp [hnew, show Constant.isSigned32 n = true by simpa using hfits]

/-! ### Unions -/

theorem decides_draft (a : Spec.Arm) :
    Decides spec base (scope.draft a) (∀ v ∈ a.labels, ∃ n, spec.Evaluates v n)
      fun d _ => spec.DraftAs a d := by
  have hlabel (v : Spec.Value) (done : List (String × Definition)) : Decides spec done
      (do return ⟨← lift (Constant.evaluate scope.symbols v), v.name?⟩) (∃ n, spec.Evaluates v n)
      fun l _ => spec.LabelAs v l := by
    rw [hs.symbols]
    exact (decides_lift fun n => Constant.evaluate_eq_ok_iff hs.distinct).return fun n _ hn => ⟨hn, rfl⟩
  exact (decides_mapM fun v _ done _ => hlabel v done).return fun labels _ h => ⟨h, rfl, rfl⟩

theorem decides_arms (xs : List (String × Variant.Draft × Spec.Arm))
    (hheld : ∀ x ∈ xs, ∀ f ∈ x.2.2.payload.field?, ∀ inner, f.type.direct? = some inner →
      spec.Holds outer inner) :
    Decides spec base (scope.arms xs) (∀ x ∈ xs, ∀ f ∈ x.2.2.payload.field?, Grounded spec f.type)
      fun arms _ => List.Forall₂ spec.ArmAs xs arms := by
  induction xs generalizing base with
  | nil => exact (decides_pure fun _ _ => .nil).congr (by simp)
  | cons x rest ih =>
    obtain ⟨variant, d, a⟩ := x
    rw [List.forall_mem_cons] at hheld ⊢
    exact (decides_payload hs a.payload hheld.1).bind fun field done _ hfield =>
      (ih hheld.2).return fun arms _ harms => .cons ⟨rfl, rfl, hfield⟩ harms

theorem decides_union (name : String) (span : Span) (u : Spec.Union)
    (hheld : ∀ t ∈ (Spec.Body.union u).types, ∀ inner, t.direct? = some inner → spec.Holds outer inner) :
    Decides spec base (scope.union name span u)
      ((∀ t ∈ (Spec.Body.union u).types, Grounded spec t) ∧ spec.Switches u)
      fun u' _ => spec.UnionAs u u' := by
  rw [forall_mem_types_union] at hheld ⊢
  obtain ⟨hheld, hheldArms, hheldDefault⟩ := hheld
  rw [grounded_plain_iff]
  set Arms := ∀ a ∈ u.arms, ∀ f ∈ a.payload.field?, Grounded spec f.type
  set Default := ∀ p ∈ u.default, ∀ f ∈ p.field?, Grounded spec f.type with hDefault
  unfold union
  dsimp only
  refine ((decides_direct hs u.discriminant.type _ fun name hb => hheld name (by simpa using hb)).bind
    fun discriminant _ _ hdiscriminant => decides_selector (E := fun selector =>
      spec.DistinctCases selector u.labels ∧ Arms ∧ Default) hs.distinct hdiscriminant.1
      hdiscriminant.2 fun selector done hdone hselects => ?_).congr ?_
  · have hevaluates : spec.DistinctCases selector u.labels ∧ Arms ∧ Default →
        ∀ a ∈ u.arms, ∀ v ∈ a.labels, ∃ n, spec.Evaluates v n :=
      fun h a ha v hv => h.1.evaluates (List.mem_flatMap.mpr ⟨a, ha, hv⟩)
    have hdirect : ∀ x, discriminant = .named x → x.name ∈ names done :=
      fun x hx => (hdone.map (·.1)).subset (hdiscriminant.2 x hx)
    refine (decides_enumLabels hs.distinct hdiscriminant.1 hdirect hselects).then
      fun labels _ _ hlabels => ?_
    refine ((decides_mapM fun a _ _ _ => decides_draft hs a).bind fun drafts _ _ hdrafts => ?_).congr
      (and_iff_right_of_imp hevaluates)
    refine (decides_check (check_drafts_iff hs.distinct hlabels hdrafts)).bind fun _ _ _ _ => ?_
    have hzip (P : Spec.Arm → Prop) := forall_mem_zip_zip (P := P)
      (Variant.length_assign u.default.isSome drafts) hdrafts.length_eq.symm
    have hgrounded := hzip fun a => ∀ f ∈ a.payload.field?, Grounded spec f.type
    have hheldZip := (hzip fun a => ∀ f ∈ a.payload.field?, ∀ inner, f.type.direct? = some inner →
      spec.Holds outer inner).mpr hheldArms
    refine ((decides_arms hs _ hheldZip).bind (D := Default) fun arms _ _ hmade => ?_).congr
      (and_congr_left' hgrounded)
    have hunion {default : Option Arm}
        (h : Option.Rel (spec.DefaultAs (Variant.assign u.default.isSome drafts)) u.default default) :
        spec.UnionAs u ⟨u.discriminant.name, discriminant, selector, arms, default⟩ :=
      ⟨rfl, hdiscriminant.1, hselects, drafts, hdrafts, hmade, h⟩
    split
    · next payload hpayload =>
      refine ((decides_payload hs payload (hheldDefault payload hpayload)).return fun field _ hfield =>
        hunion ?_).congr (by simp [hDefault, hpayload])
      rw [hpayload]
      exact .some ⟨rfl, rfl, hfield⟩
    · next hnone =>
      have hdefault : True ↔ Default := by simp [hDefault, hnone]
      have hnoDefault := @hunion none (by rw [hnone]; exact .none)
      split
      · exact (decides_warn.return fun _ _ _ => hnoDefault).congr hdefault
      · exact (decides_pure fun _ _ => hnoDefault).congr hdefault
  · simp only [Spec.Switches, ← and_assoc, exists_and_right]
    tauto

/-! ### Definitions -/

theorem decides_definition {d : Spec.Definition} (hd : d ∈ spec.definitions) (hname : d.name = outer)
    (htype : d.body.IsType) : Decides spec base (scope.definition d)
      (spec.Admits d ∧ ∀ t ∈ d.body.types, ∀ inner, t.direct? = some inner → spec.Founded inner)
      fun r done => spec.BodyAs d.body r ∧
        ∀ t, r = .typedef t → ∀ x, t.direct? = some x → x.name ∈ names done := by
  have hheld : ∀ t ∈ d.body.types, ∀ inner, t.direct? = some inner → spec.Holds outer inner :=
    fun t ht inner hinner => ⟨d, hd, hname, t, ht, hinner⟩
  have hempty : spec.Enumerates [] := ⟨[], .nil, by simp, List.nodup_nil⟩
  rw [admits_iff]
  obtain ⟨name, body, span, nameSpan⟩ := d
  cases body with
  | const v => cases htype
  | typedef t =>
    refine ((decides_type hs t nameSpan (hheld t (by simp [Spec.Body.types]))).return
      fun t' done ht => ⟨ht.1, ?_⟩).congr (by simp [Spec.Body.types, Spec.Body.members, hempty])
    rintro _ ⟨⟩
    exact ht.2
  | struct fields =>
    refine ((decides_mapM fun f hf _ _ => decides_field hs f (hheld _ (List.mem_map_of_mem hf))).return
      fun fs _ hfs => ⟨hfs, by simp⟩).congr ?_
    simp [Spec.Body.types, Spec.Body.members, hempty]
  | enum members =>
    refine ((decides_labels hs name members []).return fun labels _ h => ⟨?_, by simp⟩).congr ?_
    · simpa [Spec.Body.types, Spec.Body.members] using enumeratesAfter_nil
    · obtain ⟨added, rfl, hadded⟩ := h
      exact hadded
  | union u =>
    refine ((decides_union hs name nameSpan u hheld).return fun u' _ hu => ⟨hu, by simp⟩).congr ?_
    simp [Spec.Body.members, hempty]

end Scope

open Scope

/-- A walk down to a type: all types are fresh or on the path, and those on the path hold it. -/
structure Walk (spec : Spec) (fresh : List (TypeKind × Spec.Definition)) (path : List String)
    (name : String) : Prop where
  types : ∀ x ∈ fresh, x.2 ∈ spec.definitions ∧ x.2.body.IsType
  cover : ∀ n, spec.IsType n → n ∈ fresh.map (·.2.name) ∨ n ∈ path
  target : spec.IsType name
  holds : ∀ n ∈ path, Relation.TransGen spec.Holds n name

/-- A walk goes on to what its end holds. -/
theorem Walk.step {fresh : List (TypeKind × Spec.Definition)} {path : List String} {name inner : String}
    (h : Walk spec fresh path name) (hholds : spec.Holds name inner) (hinner : spec.IsType inner) :
    Walk spec (fresh.eraseP (·.2.name = name)) (path ++ [name]) inner where
  types x hx := h.types x (List.mem_of_mem_eraseP hx)
  cover n hn := by
    rw [map_eraseP_key fun x : TypeKind × Spec.Definition => x.2.name]
    by_cases heq : n = name
    · simp [heq]
    · apply (h.cover n hn).imp
      · exact (List.mem_erase_of_ne heq).mpr
      · exact List.mem_append_left _
  target := hinner
  holds n hn := by
    rcases List.mem_append.mp hn with hn | hn
    · exact (h.holds n hn).tail hholds
    · rw [List.mem_singleton.mp hn]
      exact .single hholds

/-- Resolving a type decides whether it is founded. If it is on the path already, it holds itself. -/
theorem decides_visit (hdistinct : spec.names.Nodup) (fresh : List (TypeKind × Spec.Definition))
    (path : List String) (name : String) (span : Span) (hwalk : Walk spec fresh path name)
    (base : List (String × Definition)) :
    Decides spec base (visit (Symbol.ofSpec spec) fresh path name span) (spec.Founded name)
      fun _ done => name ∈ names done := by
  rw [visit]
  refine decides_get.then fun p _ _ hp => ?_
  obtain ⟨rfl, hknown⟩ := hp
  split
  · next hdone =>
    have hmem := lookup_isSome_iff_mem.mp hdone
    exact (decides_pure fun done h => (h.map (·.1)).subset hmem).congr
      (iff_of_true trivial (hknown.founded hmem))
  · split
    · next hnone =>
      refine decides_fail.congr (iff_of_false id fun hfounded => ?_)
      rcases hwalk.cover name hwalk.target with hmem | hmem
      · obtain ⟨x, hx, hname⟩ := List.mem_map.mp hmem
        exact List.find?_eq_none.mp hnone x hx (by simpa using hname)
      · exact hfounded.not_cyclic hdistinct (hwalk.holds name hmem)
    · next k d hfind =>
      have hmem := List.mem_of_find?_eq_some hfind
      obtain rfl : d.name = name := by simpa using List.find?_some hfind
      obtain ⟨hd, htype⟩ := hwalk.types _ hmem
      have hserves : Serves spec d.name ⟨Symbol.ofSpec spec, fun n s =>
          visit (Symbol.ofSpec spec) (fresh.eraseP (·.2.name = d.name)) (path ++ [d.name]) n s⟩ :=
        ⟨rfl, hdistinct, fun inner span base hholds hinner =>
          decides_visit hdistinct _ _ inner span (hwalk.step hholds hinner) base⟩
      have hfounded : (spec.Admits d ∧ ∀ t ∈ d.body.types, ∀ inner, t.direct? = some inner →
          spec.Founded inner) ↔ spec.Founded d.name :=
        ⟨fun h => .intro hd htype h.1 h.2, fun h => h.of_name hdistinct hd⟩
      refine (((decides_definition hserves hd rfl htype).congr hfounded).holds.bind
        fun r done _ hr => ?_).congr (iff_of_eq (and_true _))
      exact decides_finish hd hr.2.1 hr.2.2 hr.1
termination_by fresh.length
decreasing_by
  exact length_eraseP_key_lt (List.mem_map_of_mem hmem)

theorem decides_visitAll (hdistinct : spec.names.Nodup) :
    Decides spec base (visitAll (Symbol.ofSpec spec)) (∀ name, spec.IsType name → spec.Founded name)
      fun _ _ => True := by
  have htype {x : TypeKind × Spec.Definition} (hx : x ∈ Symbol.types (Symbol.ofSpec spec)) :
      x.2 ∈ spec.definitions ∧ x.2.body.IsType := by
    obtain ⟨hd, hkind⟩ := Symbol.mem_types_iff.mp hx
    exact ⟨hd, Spec.isType_iff_kindOf?.mpr ⟨x.1, hkind⟩⟩
  have hmem {n : String} (hn : spec.IsType n) :
      ∃ x ∈ Symbol.types (Symbol.ofSpec spec), x.2.name = n := by
    obtain ⟨k, d, hd, rfl, hkind⟩ := Spec.isType_iff_declares.mp hn
    exact ⟨(k, d), Symbol.mem_types_iff.mpr ⟨hd, hkind⟩, rfl⟩
  unfold visitAll
  refine (decides_forM (E := fun x => spec.Founded x.2.name) (R := fun x done => x.2.name ∈ names done)
    fun x hx done _ => ?_).congr ?_
  · apply decides_visit hdistinct
    exact ⟨fun y hy => htype hy, fun n hn => .inl (List.mem_map.mpr (hmem hn)),
      ⟨x.2, (htype hx).1, rfl, (htype hx).2⟩, by simp⟩
  · constructor
    · intro h n hn
      obtain ⟨x, hx, rfl⟩ := hmem hn
      exact h x hx
    · exact fun h x hx => h _ ⟨x.2, (htype hx).1, rfl, (htype hx).2⟩

/-! ### The schema -/

/-- What a schema says of a name is what the specification says of it. -/
def Reflects (spec : Spec) (s : Schema) : Prop :=
  ∀ name r, s.definition? name = some r → ∃ d ∈ spec.definitions, d.name = name ∧ spec.BodyAs d.body r

theorem reflects_of_known {done : List (String × Definition)} (h : Known spec done) :
    Reflects spec ⟨Symbol.ofSpec spec, inOrder (Symbol.types (Symbol.ofSpec spec)) done⟩ := by
  intro name r hr
  have hlookup : done.lookup name = some r := (lookup_inOrder.mp hr).2
  have hname : name ∈ names done := lookup_isSome_iff_mem.mp (by rw [hlookup]; rfl)
  obtain ⟨d, r', before, rfl, entry⟩ := h.exists_entry hname
  cases entry.lookup.symm.trans hlookup
  exact ⟨d, entry.mem, rfl, entry.body⟩

theorem decides_build (spec : Spec) (base : List (String × Definition)) :
    Decides spec base (build spec) spec.WellFormed fun s _ => Reflects spec s := by
  have hdistinct : Symbol.checkDistinct [] (Symbol.ofSpec spec) = .ok () ↔ spec.names.Nodup := by
    rw [checkDistinct_eq_ok_iff, Symbol.map_name_ofSpec]
    simp
  set Constants := ∀ name v, spec.Assigns name v → ∃ n, spec.Denotes name n
  set Types := ∀ name, spec.IsType name → spec.Founded name
  have hschema {base : List (String × Definition)} : Decides spec base (do
      return Schema.mk (Symbol.ofSpec spec) (inOrder (Symbol.types (Symbol.ofSpec spec)) (← get).done))
      True fun s _ => Reflects spec s :=
    decides_get.return fun p _ hp => reflects_of_known (hp.1 ▸ hp.2)
  unfold build
  dsimp only
  refine ((decides_check hdistinct).bind (D := Constants ∧ Types) fun _ _ _ hdistinct => ?_).congr ?_
  · refine (decides_check (Constant.checkAll_eq_ok_iff hdistinct)).bind fun _ _ _ _ => ?_
    refine ((decides_visitAll hdistinct).bind fun _ _ _ _ => ?_).congr (iff_of_eq (and_true Types))
    split
    · exact decides_warn.then fun _ _ _ _ => hschema
    · exact hschema
  · constructor
    · rintro ⟨hdistinct, hconstants, htypes⟩
      obtain ⟨hadmits, hacyclic⟩ := (Spec.founded_iff hdistinct).mp htypes
      exact ⟨hdistinct, hconstants, hadmits, hacyclic⟩
    · intro h
      exact ⟨h.distinct, h.constants, (Spec.founded_iff h.distinct).mpr ⟨h.definitions, h.acyclic⟩⟩

theorem ends_build_iff {s : Schema} :
    (analyze spec).result = .ok s ↔ ∃ p, Ends (build spec) ⟨[], []⟩ s p :=
  ⟨fun h => ⟨_, Prod.ext h rfl⟩, fun ⟨_, h⟩ => congrArg Prod.fst h⟩

theorem reflects_of_analyze {s : Schema} (h : (analyze spec).result = .ok s) : Reflects spec s := by
  obtain ⟨p, hends⟩ := ends_build_iff.mp h
  exact ((decides_build spec [] ⟨[], []⟩ List.nil_suffix .nil).2 s p hends).2.2

/-- A specification makes a schema if and only if it is well formed. -/
theorem analyze_eq_ok_iff_wellFormed (spec : Spec) :
    (∃ s, (analyze spec).result = .ok s) ↔ spec.WellFormed := by
  simp only [ends_build_iff]
  exact (decides_build spec [] ⟨[], []⟩ List.nil_suffix .nil).1

end XdrSchema.Schema
