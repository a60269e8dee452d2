import XdrSchema.Proofs.Schema.Progress
import XdrSchema.Proofs.Schema.Variant
import XdrSchema.Proofs.Spec.Proper

/-! Resolving one definition, provided that resolving another by its name is sound. -/
namespace XdrSchema.Schema.Scope

open Resolve

/-- Resolving the definition of a name is sound, and done in the end. -/
def Visits (scope : Scope) (fresh : List String) : Prop :=
  ∀ name span base,
    Gives scope.symbols fresh base (scope.visit name span) fun _ done => name ∈ names done

variable {scope : Scope} {fresh : List String} {base : List (String × Definition)}

theorem gives_kindOf (name : String) (span : Span) :
    Gives scope.symbols fresh base (scope.kindOf name span)
      fun k _ => Refers scope.symbols ⟨name, k⟩ := by
  unfold kindOf
  split
  · next x _ k _ hx => exact gives_pure fun _ _ => ⟨_, hx, rfl⟩
  · exact gives_fail

theorem gives_bound (v : Spec.Value) :
    Gives scope.symbols fresh base (scope.bound v) fun n _ => n ≤ Wire.maxLength := by
  refine gives_lift fun n hn _ _ => ?_
  obtain ⟨k, -, hk⟩ := bind_eq_ok_iff.mp hn
  split at hk
  · next hrange =>
    cases hk
    have := CaseSet.isUnsigned32_iff.mp hrange
    unfold Wire.maxLength
    omega
  · cases hk

theorem gives_bound? (v : Option Spec.Value) :
    Gives scope.symbols fresh base (scope.bound? v) fun n _ => ∀ k ∈ n, k ≤ Wire.maxLength := by
  cases v with
  | none => exact gives_pure fun _ _ => by simp
  | some v => exact (gives_bound v).bind fun n _ _ hn => gives_pure fun _ _ => by simpa using hn

theorem gives_direct (hvisit : Visits scope fresh) (b : Base String) (span : Span) :
    Gives scope.symbols fresh base (scope.direct b span)
      fun b done => ∀ r, b = .named r → Refers scope.symbols r ∧ r.name ∈ names done := by
  cases b with
  | primitive p => exact gives_pure fun _ _ => nofun
  | named name =>
    refine (gives_kindOf name span).bind fun k _ _ hk => ?_
    refine (hvisit name span _).bind fun _ done _ hdone => gives_pure fun done' hdone' => ?_
    rintro r ⟨⟩
    exact ⟨hk, (hdone'.map (·.1)).subset hdone⟩

theorem gives_linked (b : Base String) (span : Span) :
    Gives scope.symbols fresh base (scope.linked b span)
      fun b _ => ∀ r, b = .named r → Refers scope.symbols r := by
  cases b with
  | primitive p => exact gives_pure fun _ _ => nofun
  | named name =>
    refine (gives_kindOf name span).bind fun k _ _ hk => gives_pure fun _ _ => ?_
    rintro r ⟨⟩
    exact hk

theorem gives_type (hvisit : Visits scope fresh) (t : Spec.Ty) (span : Span) :
    Gives scope.symbols fresh base (scope.type t span)
      fun t done => Settled scope.symbols done t := by
  cases t with
  | plain b =>
    refine (gives_direct hvisit b span).bind fun b _ _ hb => gives_pure fun _ hdone => ?_
    refine Settled.mono hdone ⟨nofun, fun r hr => ?_, fun r hr => ?_⟩ <;> cases b <;> cases hr
    · exact (hb r rfl).1
    · exact (hb r rfl).2
  | array b n =>
    refine (gives_direct hvisit b span).bind fun b _ _ hb => ?_
    refine (gives_bound n).bind fun n _ hdone hn => gives_pure fun _ hdone' => ?_
    refine Settled.mono (hdone.trans hdone') ⟨by simpa [TypeExpr.bound?] using hn, ?_, ?_⟩ <;>
      intro r hr <;> cases b <;> cases hr
    · exact (hb r rfl).1
    · exact (hb r rfl).2
  | vector b n =>
    refine (gives_linked b span).bind fun b _ _ hb => ?_
    refine (gives_bound? n).bind fun n _ _ hn => gives_pure fun _ _ => ?_
    refine ⟨hn, fun r hr => ?_, nofun⟩
    cases b <;> cases hr
    exact hb r rfl
  | optional b =>
    refine (gives_linked b span).bind fun b _ _ hb => gives_pure fun _ _ => ?_
    refine ⟨nofun, fun r hr => ?_, nofun⟩
    cases b <;> cases hr
    exact hb r rfl
  | fixedBytes n =>
    exact (gives_bound n).bind fun n _ _ hn => gives_pure fun _ _ =>
      ⟨by simpa [TypeExpr.bound?] using hn, nofun, nofun⟩
  | bytes n =>
    exact (gives_bound? n).bind fun n _ _ hn => gives_pure fun _ _ => ⟨hn, nofun, nofun⟩
  | string n =>
    exact (gives_bound? n).bind fun n _ _ hn => gives_pure fun _ _ => ⟨hn, nofun, nofun⟩

theorem gives_field (hvisit : Visits scope fresh) (f : Spec.Field Spec.Ty) :
    Gives scope.symbols fresh base (scope.field f)
      fun f' done => f'.name = f.name ∧ Settled scope.symbols done f'.type :=
  (gives_type hvisit f.type f.nameSpan).bind fun _ _ _ ht => gives_pure fun _ hdone =>
    ⟨rfl, ht.mono hdone⟩

theorem gives_payload (hvisit : Visits scope fresh) (p : Spec.Payload) :
    Gives scope.symbols fresh base (scope.payload p)
      fun f done => ∀ f' ∈ f, Settled scope.symbols done f'.type := by
  cases p with
  | void span => exact gives_pure fun _ _ => nofun
  | field f =>
    refine (gives_field hvisit f).bind fun f' _ _ hf => gives_pure fun _ hdone => ?_
    rintro _ ⟨⟩
    exact hf.2.mono hdone

/-! ### Enumerations -/

theorem gives_labels (enum : String) (members : List Spec.Member) (seen : List (String × Int))
    (hseen : LabelsProper seen) (hnames : (seen.map (·.1) ++ members.map (·.name)).Nodup) :
    Gives scope.symbols fresh base (scope.labels enum seen members)
      fun labels _ => LabelsProper labels ∧
        labels.map (·.1) = seen.map (·.1) ++ members.map (·.name) := by
  induction members generalizing seen base with
  | nil => exact gives_pure fun _ _ => ⟨hseen, by simp⟩
  | cons m rest ih =>
    refine Gives.bind (gives_lift (Q := fun _ _ => True) fun _ _ _ _ => trivial) fun n _ _ _ => ?_
    dsimp only
    split
    · exact gives_fail.bind (P := fun _ _ => False) fun _ _ _ h => h.elim
    · next hfits =>
      split
      · exact gives_fail
      · next hnew =>
        have hname : m.name ∉ seen.map (·.1) := fun hmem =>
          (List.nodup_append.mp hnames).2.2 _ hmem _ List.mem_cons_self rfl
        have hproper := hseen.append hname hnew (by simpa using hfits)
        refine (ih _ hproper (by simpa using hnames)).mono fun labels _ _ h => ⟨h.1, ?_⟩
        simpa using h.2

/-! ### Unions -/

theorem gives_draft (a : Spec.Arm) :
    Gives scope.symbols fresh base (scope.draft a)
      fun d _ => d.labels.length = a.labels.length := by
  refine Gives.bind (P := fun ls _ => ls.length = a.labels.length) ?_ fun _ _ _ h =>
    gives_pure fun _ _ => h
  refine (gives_mapM (Q := fun _ _ _ => True) (fun _ _ _ _ _ h => h) fun v _ _ _ => ?_).mono
    fun _ _ _ h => h.length_eq.symm
  exact (gives_lift (Q := fun _ _ => True) fun _ _ _ _ => trivial).bind fun _ _ _ _ =>
    gives_pure fun _ _ => trivial

/-- An arm takes its name and its labels from what it was made of. -/
def ArmOf (symbols : List Symbol) (x : String × Variant.Draft × Spec.Arm) (a : Arm)
    (done : List (String × Definition)) : Prop :=
  a.variant = x.1 ∧ a.labels = x.2.1.labels ∧ ∀ f ∈ a.field, Settled symbols done f.type

theorem gives_arms (hvisit : Visits scope fresh) (xs : List (String × Variant.Draft × Spec.Arm)) :
    Gives scope.symbols fresh base (scope.arms xs)
      fun arms done => List.Forall₂ (ArmOf scope.symbols · · done) xs arms := by
  induction xs generalizing base with
  | nil => exact gives_pure fun _ _ => .nil
  | cons x rest ih =>
    obtain ⟨variant, d, a⟩ := x
    refine (gives_payload hvisit a.payload).bind fun field done _ hfield => ?_
    refine ih.bind fun arms done' hdone' harms => gives_pure fun done'' hdone'' => ?_
    refine .cons ⟨rfl, rfl, fun f hf => ?_⟩ (harms.imp fun x a h => ?_)
    · exact (hfield f hf).mono (hdone'.trans hdone'')
    · exact ⟨h.1, h.2.1, fun f hf => (h.2.2 f hf).mono hdone''⟩

/-- The labels of the enumeration that is found fit a signed word. -/
theorem gives_enumLabels (selector : Selector) :
    Gives scope.symbols fresh base (enumLabels selector)
      fun labels _ => ∀ l ∈ labels, Constant.isSigned32 l.2 = true := by
  unfold enumLabels
  split
  · next name =>
    refine (gives_get (Q := fun p _ => Sound scope.symbols p.done) fun p _ h => h).bind
      fun p _ _ hsound => ?_
    split
    · next labels hlookup =>
      obtain ⟨_, _, hfinished⟩ := hsound.finished hlookup
      exact gives_pure fun _ _ => hfinished.proper.2.fits
    · exact gives_pure fun _ _ => nofun
  · exact gives_pure fun _ _ => nofun

theorem map_eq_of_forall₂ {α β γ : Type} {f : α → γ} {g : β → γ} {as : List α} {bs : List β}
    (h : List.Forall₂ (fun a b => g b = f a) as bs) : bs.map g = as.map f := by
  induction h with
  | nil => rfl
  | cons hab _ ih => rw [List.map_cons, List.map_cons, hab, ih]

theorem exists_left_of_forall₂ {α β : Type} {R : α → β → Prop} {as : List α} {bs : List β}
    (h : List.Forall₂ R as bs) {b : β} (hb : b ∈ bs) : ∃ a ∈ as, R a b := by
  induction h with
  | nil => cases hb
  | cons hab _ ih =>
    rcases List.mem_cons.mp hb with rfl | hb
    · exact ⟨_, List.mem_cons_self, hab⟩
    · obtain ⟨a, ha, h⟩ := ih hb
      exact ⟨a, List.mem_cons_of_mem _ ha, h⟩

section Arms

variable {symbols : List Symbol} {done : List (String × Definition)} {names : List String}
  {drafts : List Variant.Draft} {made : List Spec.Arm} {arms : List Arm}
  (hnames : names.length = drafts.length) (hmade : drafts.length = made.length)
  (harms : List.Forall₂ (ArmOf symbols · · done) (names.zip (drafts.zip made)) arms)

include hnames hmade harms

theorem variants_of_armOf : arms.map (·.variant) = names := by
  have hzip : names.length ≤ (drafts.zip made).length := by
    rw [List.length_zip]
    omega
  rw [map_eq_of_forall₂ (harms.imp fun x a h => h.1)]
  exact List.map_fst_zip hzip

theorem labels_of_armOf : arms.map (·.labels) = drafts.map (·.labels) := by
  have hzip : (drafts.zip made).length ≤ names.length := by
    rw [List.length_zip]
    omega
  calc arms.map (·.labels)
      = (names.zip (drafts.zip made)).map ((·.1.labels) ∘ Prod.snd) :=
        map_eq_of_forall₂ (harms.imp fun x a h => h.2.1)
    _ = (drafts.zip made).map (·.1.labels) := by rw [← List.map_map, List.map_snd_zip hzip]
    _ = ((drafts.zip made).map Prod.fst).map (·.labels) := List.map_map.symm
    _ = drafts.map (·.labels) := by rw [List.map_fst_zip (Nat.le_of_eq hmade)]

theorem values_of_armOf :
    arms.flatMap Arm.values = (drafts.flatMap (·.labels)).map (·.value) :=
  calc arms.flatMap Arm.values
      = (arms.map (·.labels)).flatMap (List.map (·.value)) := by
        rw [List.flatMap_map]
        rfl
    _ = (drafts.map (·.labels)).flatMap (List.map (·.value)) := by
        rw [labels_of_armOf hnames hmade harms]
    _ = (drafts.flatMap (·.labels)).map (·.value) := by rw [List.flatMap_map, List.map_flatMap]

end Arms

/-- The arms of a union whose drafts passed the check, under the names assigned to them, with a
default arm if there is one in the specification. -/
theorem proper_of_arms {u : Spec.Union} (hu : u.Proper) {union : String} {selector : Selector}
    {labels : List (String × Int)} (hlabels : ∀ l ∈ labels, Constant.isSigned32 l.2 = true)
    {drafts : List Variant.Draft}
    (hdrafts : List.Forall₂ (fun a d => d.labels.length = a.labels.length) u.arms drafts)
    (hcheck : CaseSet.check union selector labels drafts = .ok ())
    {names : List String} (hnames : names.Nodup) (hlength : names.length = drafts.length)
    {symbols : List Symbol} {done : List (String × Definition)} {arms : List Arm}
    (harms : List.Forall₂ (ArmOf symbols · · done) (names.zip (drafts.zip u.arms)) arms)
    {default : Option Arm} (hdefault : ∀ a ∈ default, a.labels = [] ∧ a.variant ∉ names)
    (hsome : u.default.isSome → default.isSome) (dn : String) (discriminant : Base Ref) :
    Union.Proper ⟨dn, discriminant, selector, arms, default⟩ := by
  have hmade : drafts.length = u.arms.length := hdrafts.length_eq.symm
  have hvariants := variants_of_armOf hlength hmade harms
  have hvalues := values_of_armOf hlength hmade harms
  obtain ⟨hdistinct, hrefusal⟩ := CaseSet.check_eq_ok_iff.mp hcheck
  constructor
  case arms =>
    rcases hu.arms with hne | hdef
    · have harmsne : arms ≠ [] := by
        rintro rfl
        have hnone : names = [] := hvariants.symm
        rw [hnone] at hlength
        exact hne (List.length_eq_zero_iff.mp (hmade.symm.trans hlength.symm))
      simp [Union.allArms, harmsne]
    · simp [Union.allArms, Option.isSome_iff_ne_none.mp (hsome hdef)]
  case labelled =>
    intro a ha hnone
    have hmem : [] ∈ drafts.map (·.labels) := by
      rw [← labels_of_armOf hlength hmade harms, ← hnone]
      exact List.mem_map_of_mem ha
    obtain ⟨d, hd, hempty⟩ := List.mem_map.mp hmem
    obtain ⟨a', ha', heq⟩ := exists_left_of_forall₂ hdrafts hd
    rw [hempty] at heq
    exact hu.labels a' ha' (List.length_eq_zero_iff.mp heq.symm)
  case unlabelled => exact fun a ha => (hdefault a ha).1
  case distinct =>
    change (arms.flatMap Arm.values).Nodup
    rw [hvalues]
    exact hdistinct
  case fits =>
    intro n hn
    change n ∈ arms.flatMap Arm.values at hn
    rw [hvalues] at hn
    obtain ⟨l, hl, rfl⟩ := List.mem_map.mp hn
    exact CaseSet.fitsWord_of_refusal hlabels (hrefusal l hl)
  case variants =>
    change ((arms ++ default.toList).map (·.variant)).Nodup
    rw [List.map_append, hvariants]
    cases default with
    | none => simpa using hnames
    | some a => exact hnames.append (List.nodup_singleton _) (by simpa using (hdefault a rfl).2)

theorem gives_union (hvisit : Visits scope fresh) (name : String) (span : Span) (u : Spec.Union)
    (hu : u.Proper) :
    Gives scope.symbols fresh base (scope.union name span u)
      fun u done => u.Proper ∧
        ∀ t ∈ (Definition.union u).members, Settled scope.symbols done t := by
  unfold Scope.union
  refine (gives_direct hvisit _ _).bind fun discriminant _ _ _ => ?_
  refine (gives_get (Q := fun _ _ => True) fun _ _ _ => trivial).bind fun p _ _ _ => ?_
  split
  · next selector hselector =>
    refine (gives_enumLabels selector).bind fun enumLabels _ _ hfits => ?_
    refine (gives_mapM
      (Q := fun (a : Spec.Arm) (d : Variant.Draft) _ => d.labels.length = a.labels.length)
      (fun _ _ _ _ _ h => h) fun a _ _ _ => gives_draft a).bind fun drafts _ _ hdrafts => ?_
    refine (gives_lift (Q := fun _ _ => CaseSet.check name selector enumLabels drafts = .ok ())
      fun _ h _ _ => h).bind fun _ _ _ hcheck => ?_
    dsimp only
    refine (gives_arms hvisit _).bind fun arms armsDone _ harms => ?_
    have hmembers : ∀ (dn : String) (default : Option Arm) (done : List (String × Definition)),
        armsDone <:+ done → (∀ a ∈ default, ∀ f ∈ a.field, Settled scope.symbols done f.type) →
        ∀ t ∈ (Definition.union ⟨dn, discriminant, selector, arms, default⟩).members,
          Settled scope.symbols done t := by
      intro dn default done hdone hdefault t ht
      obtain ⟨a, ha, htype⟩ := List.mem_filterMap.mp ht
      obtain ⟨f, hf, rfl⟩ := Option.map_eq_some_iff.mp htype
      rcases List.mem_append.mp ha with ha | ha
      · obtain ⟨x, -, h⟩ := exists_left_of_forall₂ harms ha
        exact (h.2.2 f hf).mono hdone
      · exact hdefault a (Option.mem_toList.mp ha) f hf
    split
    · next p hp =>
      refine (gives_payload hvisit p).bind fun field _ hdone hfield => gives_pure fun _ hdone' => ?_
      refine ⟨proper_of_arms hu hfits hdrafts hcheck (Variant.assign_nodup _ _)
        (Variant.length_assign _ _) harms ?_ (fun _ => rfl) _ _,
        hmembers _ _ _ (hdone.trans hdone') ?_⟩
      · rintro _ ⟨⟩
        exact ⟨rfl, Variant.defaultFor_not_mem _⟩
      · rintro _ ⟨⟩ f hf
        exact (hfield f hf).mono hdone'
    · next hnone =>
      have hproper : ∀ dn, Union.Proper ⟨dn, discriminant, selector, arms, none⟩ := fun dn =>
        proper_of_arms hu hfits hdrafts hcheck (Variant.assign_nodup _ _)
          (Variant.length_assign _ _) harms (by simp) (by simp [hnone]) dn discriminant
      split
      · exact gives_warn.bind fun _ _ hdone _ => gives_pure fun _ hdone' =>
          ⟨hproper _, hmembers _ _ _ (hdone.trans hdone') (by simp)⟩
      · exact gives_pure fun _ hdone => ⟨hproper _, hmembers _ _ _ hdone (by simp)⟩
  · exact gives_fail

/-! ### Definitions -/

/-- The labels of an enumeration have distinct names, as all symbols have. -/
def DistinctMembers (d : Spec.Definition) : Prop :=
  match d.body with
  | .enum members => (members.map (·.name)).Nodup
  | _ => True

/-- The kind of type that a definition makes of its name. -/
def kindOf? (d : Spec.Definition) : Option TypeKind :=
  match d.body with
  | .const _ => none
  | .typedef _ => some .typedef
  | .struct _ => some .struct
  | .enum _ => some .enum
  | .union _ => some .union

theorem gives_definition (hvisit : Visits scope fresh) (d : Spec.Definition) (hd : d.Proper)
    (hmembers : DistinctMembers d) :
    Gives scope.symbols fresh base (scope.definition d)
      fun r done => kindOf? d = some r.kind ∧ r.Proper ∧
        ∀ t ∈ r.members, Settled scope.symbols done t := by
  obtain ⟨name, body, span, nameSpan⟩ := d
  cases body with
  | const v => exact gives_fail
  | typedef t =>
    refine (gives_type hvisit t nameSpan).bind fun t _ _ ht => gives_pure fun _ hdone => ?_
    exact ⟨rfl, trivial, by simpa [Definition.members] using ht.mono hdone⟩
  | struct fields =>
    refine (gives_mapM (Q := fun (f : Spec.Field Spec.Ty) (f' : Field) done =>
      f'.name = f.name ∧ Settled scope.symbols done f'.type)
      (fun _ _ _ _ hdone h => ⟨h.1, h.2.mono hdone⟩) fun f _ _ _ => gives_field hvisit f).bind
      fun fs _ _ hfs => gives_pure fun _ hdone => ?_
    refine ⟨rfl, ?_, fun t ht => ?_⟩
    · change (fs.map (·.name)).Nodup
      rw [map_eq_of_forall₂ (hfs.imp fun f f' h => h.1)]
      exact hd
    · obtain ⟨f', hf', rfl⟩ := List.mem_map.mp ht
      obtain ⟨f, -, h⟩ := exists_left_of_forall₂ hfs hf'
      exact h.2.mono hdone
  | enum members =>
    have hempty : LabelsProper [] := ⟨List.nodup_nil, List.nodup_nil, by simp⟩
    have hnames : (members.map (·.name)).Nodup := hmembers
    refine (gives_labels name members [] hempty (by simpa using hnames)).bind
      fun labels _ _ h => gives_pure fun _ _ => ⟨rfl, ⟨?_, h.1⟩, by simp [Definition.members]⟩
    rintro rfl
    have hnil : members.map (·.name) = [] := by simpa using h.2
    exact hd (List.map_eq_nil_iff.mp hnil)
  | union u =>
    exact (gives_union hvisit name nameSpan u hd).bind fun u _ _ h => gives_pure fun _ hdone =>
      ⟨rfl, h.1, fun t ht => (h.2 t ht).mono hdone⟩

end XdrSchema.Schema.Scope
