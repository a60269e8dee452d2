import XdrSchema.Proofs.Spec.Shared

/-! What a definition resolves to is settled by it and by what it mentions: in two specifications that
share these, it resolves to the same. -/
namespace XdrSchema

/-- Lists whose items are settled by the items of equal lists are equal. -/
theorem eq_of_forall₂ {α α' β γ : Type} {R : α → β → Prop} {R' : α' → β → Prop} {f : α → γ}
    {g : α' → γ} {as : List α} {as' : List α'} {bs bs' : List β} (h : List.Forall₂ R as bs)
    (h' : List.Forall₂ R' as' bs') (heq : as'.map g = as.map f)
    (hsame : ∀ a ∈ as, ∀ a' b b', g a' = f a → R a b → R' a' b' → b' = b) : bs' = bs := by
  induction h generalizing as' bs' with
  | nil =>
    rw [List.map_nil, List.map_eq_nil_iff] at heq
    subst heq
    cases h'
    rfl
  | @cons a b as bs hab _ ih =>
    cases h' with
    | nil => cases heq
    | @cons a' b' as' bs' hab' h' =>
      obtain ⟨hhead, htail⟩ := List.cons.inj heq
      rw [List.forall_mem_cons] at hsame
      rw [hsame.1 a' b b' hhead hab hab', ih h' htail hsame.2]

/-- What is settled by equal things, if there is one, is equal. -/
theorem eq_of_rel {α α' β γ : Type} {R : α → β → Prop} {R' : α' → β → Prop} {f : α → γ} {g : α' → γ}
    {a : Option α} {a' : Option α'} {b b' : Option β} (h : Option.Rel R a b) (h' : Option.Rel R' a' b')
    (heq : a'.map g = a.map f)
    (hsame : ∀ x ∈ a, ∀ x' y y', g x' = f x → R x y → R' x' y' → y' = y) : b' = b := by
  cases h with
  | none =>
    rw [Option.map_none, Option.map_eq_none_iff] at heq
    subst heq
    cases h'
    rfl
  | some hxy =>
    cases h' with
    | none => cases heq
    | some hxy' => rw [hsame _ rfl _ _ _ (Option.some.inj heq) hxy hxy']

namespace Schema.Variant

def Draft.unplaced (d : Draft) : Draft := ⟨d.labels, d.fieldName, .nowhere⟩

theorem assignFrom_unplaced (all : List String) (hasDefault : Bool) (taken : List String)
    (drafts : List Draft) :
    assignFrom all hasDefault taken (drafts.map Draft.unplaced) = assignFrom all hasDefault taken drafts := by
  induction drafts generalizing taken with
  | nil => rfl
  | cons d rest ih => exact congrArg (List.cons _) (ih _)

/-- The names of the arms do not depend on places. -/
theorem assign_unplaced (hasDefault : Bool) (drafts : List Draft) :
    assign hasDefault (drafts.map Draft.unplaced) = assign hasDefault drafts := by
  unfold assign
  rw [assignFrom_unplaced, List.map_map]
  rfl

end Schema.Variant

namespace Spec

open Schema (Ref Variant.Draft)
open Schema.Variant (assign)

variable {spec spec' : Spec} {K : Definition → Prop}

theorem declares_unique (hdistinct : spec.names.Nodup) {name : String} {k k' : TypeKind}
    (h : spec.Declares name k) (h' : spec.Declares name k') : k' = k := by
  obtain ⟨d, hd, rfl, hk⟩ := h
  obtain ⟨d', hd', hname, hk'⟩ := h'
  obtain rfl := eq_of_name hdistinct hd' hd hname
  exact Option.some.inj (hk'.symm.trans hk)

namespace Shares

variable (h : Shares spec spec' K) (hdistinct' : spec'.names.Nodup)

include h hdistinct'

/-! ### Types -/

theorem base_eq {b : Base String} (hb : ∀ name, b = .named name → Covers spec K name) {r r' : Base Ref}
    (hr : spec.BaseAs b r) (hr' : spec'.BaseAs b r') : r' = r := by
  cases hr with
  | primitive p =>
    cases hr'
    rfl
  | named hk =>
    cases hr' with
    | named hk' => rw [declares_unique hdistinct' (h.declares (hb _ rfl) hk) hk']

theorem bound_eq {v v' : Value} (heq : v'.unplaced = v.unplaced)
    (hv : ∀ name, v.name? = some name → Covers spec K name) {n n' : Nat} (hn : spec.Bounds v n)
    (hn' : spec'.Bounds v' n') : n' = n :=
  Int.ofNat_inj.mp
    (Schema.Resolve.evaluates_unique hdistinct' hn'.1 (h.bounds heq hv hn).1)

theorem bound?_eq {v v' : Option Value} (heq : v'.map Value.unplaced = v.map Value.unplaced)
    (hv : ∀ w ∈ v, ∀ name, w.name? = some name → Covers spec K name) {n n' : Option Nat}
    (hn : Option.Rel spec.Bounds v n) (hn' : Option.Rel spec'.Bounds v' n') : n' = n :=
  eq_of_rel hn hn' heq fun w hw _ _ _ heq hn hn' => h.bound_eq hdistinct' heq (hv w hw) hn hn'

theorem type_eq {t t' : Ty} (heq : Ty.unplaced t' = Ty.unplaced t)
    (ht : ∀ name ∈ Ty.mentions t, Covers spec K name) {r r' : Schema.Ty} (hr : spec.TypeAs t r)
    (hr' : spec'.TypeAs t' r') : r' = r := by
  have htarget (name : String) (h : t.target? = some name) : Covers spec K name :=
    ht name (mem_mentions_of_target h)
  have hbound (v : Value) (hv : v ∈ t.bound?) (name : String) (h : v.name? = some name) :
      Covers spec K name := ht name (mem_mentions_of_bound hv h)
  cases hr with
  | plain hb =>
    cases hr' with
    | plain hb' =>
      obtain rfl := TypeExpr.plain.inj heq
      rw [h.base_eq hdistinct' (fun name hn => htarget name (by rw [hn]; rfl)) hb hb']
    | _ => cases heq
  | array hb hn =>
    cases hr' with
    | array hb' hn' =>
      obtain ⟨rfl, hlength⟩ := TypeExpr.array.inj heq
      rw [h.base_eq hdistinct' (fun name hn => htarget name (by rw [hn]; rfl)) hb hb',
        h.bound_eq hdistinct' hlength (hbound _ rfl) hn hn']
    | _ => cases heq
  | vector hb hn =>
    cases hr' with
    | vector hb' hn' =>
      obtain ⟨rfl, hlimit⟩ := TypeExpr.vector.inj heq
      rw [h.base_eq hdistinct' (fun name hn => htarget name (by rw [hn]; rfl)) hb hb',
        h.bound?_eq hdistinct' hlimit hbound hn hn']
    | _ => cases heq
  | optional hb =>
    cases hr' with
    | optional hb' =>
      obtain rfl := TypeExpr.optional.inj heq
      rw [h.base_eq hdistinct' (fun name hn => htarget name (by rw [hn]; rfl)) hb hb']
    | _ => cases heq
  | fixedBytes hn =>
    cases hr' with
    | fixedBytes hn' => rw [h.bound_eq hdistinct' (TypeExpr.fixedBytes.inj heq) (hbound _ rfl) hn hn']
    | _ => cases heq
  | bytes hn =>
    cases hr' with
    | bytes hn' => rw [h.bound?_eq hdistinct' (TypeExpr.bytes.inj heq) hbound hn hn']
    | _ => cases heq
  | string hn =>
    cases hr' with
    | string hn' => rw [h.bound?_eq hdistinct' (TypeExpr.string.inj heq) hbound hn hn']
    | _ => cases heq

theorem field_eq {f f' : Field Ty} (heq : f'.unplaced Ty.unplaced = f.unplaced Ty.unplaced)
    (hf : ∀ name ∈ Ty.mentions f.type, Covers spec K name) {r r' : Schema.Field}
    (hr : spec.FieldAs f r) (hr' : spec'.FieldAs f' r') : r' = r := by
  obtain ⟨rname, rtype⟩ := r
  obtain ⟨rname', rtype'⟩ := r'
  obtain ⟨hname, htype, -⟩ := Field.mk.inj heq
  obtain ⟨rfl, hr⟩ := hr
  obtain ⟨rfl, hr'⟩ := hr'
  have htypes : rtype' = rtype := h.type_eq hdistinct' htype hf hr hr'
  rw [hname, htypes]

theorem payload_eq {p p' : Payload} (heq : p'.unplaced = p.unplaced)
    (hp : ∀ f ∈ p.field?, ∀ name ∈ Ty.mentions f.type, Covers spec K name) {r r' : Option Schema.Field}
    (hr : spec.PayloadAs p r) (hr' : spec'.PayloadAs p' r') : r' = r := by
  refine eq_of_rel hr hr' (f := Field.unplaced Ty.unplaced) (g := Field.unplaced Ty.unplaced) ?_
    fun f hf _ _ _ heq hr hr' => h.field_eq hdistinct' heq (hp f hf) hr hr'
  rw [← field?_unplaced, heq, field?_unplaced]

/-! ### Labels and arms -/

theorem member_eq {m m' : Member} (hname : m'.name = m.name) (hm : Covers spec K m.name)
    {r r' : String × Int} (hr : spec.MemberAs m r) (hr' : spec'.MemberAs m' r') : r' = r := by
  refine Prod.ext (hr'.1.trans (hname.trans hr.1.symm)) ?_
  exact Constant.denotes_unique hdistinct' (hname ▸ hr'.2) (h.denotes hm hr.2)

theorem label_eq {v v' : Value} (heq : v'.unplaced = v.unplaced)
    (hv : ∀ name, v.name? = some name → Covers spec K name) {r r' : Schema.Label}
    (hr : spec.LabelAs v r) (hr' : spec'.LabelAs v' r') : r' = r := by
  obtain ⟨value, name⟩ := r
  obtain ⟨value', name'⟩ := r'
  obtain ⟨hvalue, rfl⟩ := hr
  obtain ⟨hvalue', rfl⟩ := hr'
  have hvalues : value' = value :=
    Schema.Resolve.evaluates_unique hdistinct' hvalue' (h.evaluates heq hv hvalue)
  rw [hvalues, ← name?_unplaced v', heq, name?_unplaced]

theorem draft_eq {a a' : Arm} (heq : a'.unplaced = a.unplaced)
    (ha : ∀ v ∈ a.labels, ∀ name, v.name? = some name → Covers spec K name) {r r' : Variant.Draft}
    (hr : spec.DraftAs a r) (hr' : spec'.DraftAs a' r') : r'.unplaced = r.unplaced := by
  obtain ⟨hlabels, hpayload, -⟩ := Arm.mk.inj heq
  have hname : a'.payload.name? = a.payload.name? := by
    rw [← payloadName?_unplaced, hpayload, payloadName?_unplaced]
  have hsame : r'.labels = r.labels :=
    eq_of_forall₂ hr.labels hr'.labels hlabels fun v hv _ _ _ heq hl hl' =>
      h.label_eq hdistinct' heq (ha v hv) hl hl'
  rw [Schema.Variant.Draft.unplaced, Schema.Variant.Draft.unplaced, hsame, hr.field, hr'.field, hname]

theorem drafts_eq {arms arms' : List Arm} (heq : arms'.map Arm.unplaced = arms.map Arm.unplaced)
    (harms : ∀ a ∈ arms, ∀ v ∈ a.labels, ∀ name, v.name? = some name → Covers spec K name)
    {drafts drafts' : List Variant.Draft} (hdrafts : List.Forall₂ spec.DraftAs arms drafts)
    (hdrafts' : List.Forall₂ spec'.DraftAs arms' drafts') :
    drafts'.map Schema.Variant.Draft.unplaced = drafts.map Schema.Variant.Draft.unplaced := by
  have hmapped {spec : Spec} {arms : List Arm} {drafts : List Variant.Draft}
      (h : List.Forall₂ spec.DraftAs arms drafts) :
      List.Forall₂ (fun a d => ∃ r, spec.DraftAs a r ∧ r.unplaced = d) arms
        (drafts.map Schema.Variant.Draft.unplaced) :=
    List.forall₂_map_right_iff.mpr (h.imp fun _ r hr => ⟨r, hr, rfl⟩)
  refine eq_of_forall₂ (hmapped hdrafts) (hmapped hdrafts') heq ?_
  rintro a ha a' _ _ heq ⟨r, hr, rfl⟩ ⟨r', hr', rfl⟩
  exact h.draft_eq hdistinct' heq (harms a ha) hr hr'

theorem arm_eq {x x' : String × Variant.Draft × Arm} (hvariant : x'.1 = x.1)
    (hlabels : x'.2.1.labels = x.2.1.labels) (heq : x'.2.2.unplaced = x.2.2.unplaced)
    (hx : ∀ f ∈ x.2.2.payload.field?, ∀ name ∈ Ty.mentions f.type, Covers spec K name)
    {r r' : Schema.Arm} (hr : spec.ArmAs x r) (hr' : spec'.ArmAs x' r') : r' = r := by
  obtain ⟨-, hpayload, -⟩ := Arm.mk.inj heq
  obtain ⟨variant, labels, field⟩ := r
  obtain ⟨variant', labels', field'⟩ := r'
  have hfield : field' = field := h.payload_eq hdistinct' hpayload hx hr.payload hr'.payload
  obtain rfl : variant' = variant := hr'.variant.trans (hvariant.trans hr.variant.symm)
  obtain rfl : labels' = labels := hr'.labels.trans (hlabels.trans hr.labels.symm)
  rw [hfield]

theorem default_eq {names : List String} {p p' : Payload} (heq : p'.unplaced = p.unplaced)
    (hp : ∀ f ∈ p.field?, ∀ name ∈ Ty.mentions f.type, Covers spec K name) {r r' : Schema.Arm}
    (hr : spec.DefaultAs names p r) (hr' : spec'.DefaultAs names p' r') : r' = r := by
  obtain ⟨variant, labels, field⟩ := r
  obtain ⟨variant', labels', field'⟩ := r'
  have hfield : field' = field := h.payload_eq hdistinct' heq hp hr.payload hr'.payload
  obtain rfl : variant' = variant := hr'.variant.trans hr.variant.symm
  obtain rfl : labels' = labels := hr'.labels.trans hr.labels.symm
  rw [hfield]

theorem union_eq {u u' : Union} (heq : u'.unplaced = u.unplaced)
    (hu : ∀ name ∈ (Body.union u).mentions, Covers spec K name) {r r' : Schema.Union}
    (hr : spec.UnionAs u r) (hr' : spec'.UnionAs u' r') : r' = r := by
  obtain ⟨hdiscriminant, harms, hdefault⟩ := Union.mk.inj heq
  obtain ⟨hname, htype, -⟩ := Field.mk.inj hdiscriminant
  have htype : u'.discriminant.type = u.discriminant.type := htype
  have hbase (name : String) (hn : u.discriminant.type = .named name) : Covers spec K name :=
    hu name (mem_mentions_of_type List.mem_cons_self (mem_mentions_of_target (by simp [hn])))
  have hlabels (a : Arm) (ha : a ∈ u.arms) (v : Value) (hv : v ∈ a.labels) (name : String)
      (hn : v.name? = some name) : Covers spec K name :=
    hu name (mem_mentions_of_value (List.mem_flatMap.mpr ⟨a, ha, hv⟩) hn)
  have hpayloads (p : Payload) (hp : p ∈ u.payloads) (f : Field Ty) (hf : f ∈ p.field?) (name : String)
      (hn : name ∈ Ty.mentions f.type) : Covers spec K name := by
    refine hu name (mem_mentions_of_type (List.mem_cons_of_mem _ ?_) hn)
    exact List.mem_filterMap.mpr ⟨p, hp, by rw [Option.mem_def.mp hf]; rfl⟩
  obtain ⟨drafts, hdrafts, hmade, hlast⟩ := hr.arms
  obtain ⟨drafts', hdrafts', hmade', hlast'⟩ := hr'.arms
  have hunplaced := h.drafts_eq hdistinct' harms hlabels hdrafts hdrafts'
  have hsome : u'.default.isSome = u.default.isSome := by
    rw [← Option.isSome_map (f := Payload.unplaced), hdefault, Option.isSome_map]
  have hnames : assign u'.default.isSome drafts' = assign u.default.isSome drafts := by
    rw [hsome, ← Schema.Variant.assign_unplaced, hunplaced, Schema.Variant.assign_unplaced]
  rw [hnames] at hmade' hlast'
  obtain ⟨dname, discriminant, selector, arms, default⟩ := r
  obtain ⟨dname', discriminant', selector', arms', default'⟩ := r'
  have hbases : discriminant' = discriminant :=
    h.base_eq hdistinct' hbase hr.discriminant (htype ▸ hr'.discriminant)
  have hselectors : selector' = selector :=
    Schema.Resolve.selects_unique hdistinct' (htype ▸ hr'.selector) (h.selects hr.selector hbase)
  have harmsEq : arms' = arms := by
    refine eq_of_forall₂ hmade hmade'
      (f := Prod.map id (Prod.map Schema.Variant.Draft.unplaced Arm.unplaced))
      (g := Prod.map id (Prod.map Schema.Variant.Draft.unplaced Arm.unplaced)) ?_ ?_
    · rw [← List.zip_map, ← List.zip_map, ← List.zip_map, ← List.zip_map, hunplaced, harms]
    · rintro ⟨variant, d, a⟩ hx ⟨variant', d', a'⟩ b b' hsame hb hb'
      obtain ⟨hvariant, hsame⟩ := Prod.mk.inj hsame
      obtain ⟨hd, ha⟩ := Prod.mk.inj hsame
      refine h.arm_eq hdistinct' hvariant (congrArg (·.labels) hd :) ha (hpayloads a.payload ?_) hb hb'
      exact List.mem_append_left _ (List.mem_map_of_mem (List.of_mem_zip (List.of_mem_zip hx).2).2)
  have hdefaults : default' = default := by
    refine eq_of_rel hlast hlast' hdefault fun p hp _ _ _ heq hr hr' =>
      h.default_eq hdistinct' heq (hpayloads p ?_) hr hr'
    exact List.mem_append_right _ (by rw [Option.mem_def.mp hp]; exact List.mem_singleton_self p)
  have hdnames : dname' = dname := hr'.discriminantName.trans (hname.trans hr.discriminantName.symm)
  rw [hbases, hselectors, harmsEq, hdefaults, hdnames]

/-! ### Definitions -/

theorem body_eq {b b' : Body} (heq : b'.unplaced = b.unplaced)
    (hmentions : ∀ name ∈ b.mentions, Covers spec K name)
    (hmembers : ∀ m ∈ b.members, Covers spec K m.name) {r r' : Schema.Definition}
    (hr : spec.BodyAs b r) (hr' : spec'.BodyAs b' r') : r' = r := by
  unfold BodyAs at hr
  split at hr
  · next t r =>
    obtain ⟨t', rfl, htype⟩ := exists_typedef_of_unplaced heq
    cases r' with
    | typedef r' =>
      have ht (name : String) (hn : name ∈ Ty.mentions t) : Covers spec K name :=
        hmentions name (mem_mentions_of_type (List.mem_singleton_self t) hn)
      rw [h.type_eq hdistinct' htype ht hr hr']
    | _ => exact hr'.elim
  · next fields rs =>
    cases b' with
    | struct fields' =>
      cases r' with
      | struct rs' =>
        refine congrArg _ (eq_of_forall₂ hr hr' (Body.struct.inj heq) fun f hf _ _ _ heq hr hr' =>
          h.field_eq hdistinct' heq (fun name hn => hmentions name ?_) hr hr')
        exact mem_mentions_of_type (List.mem_map_of_mem hf) hn
      | _ => exact hr'.elim
    | _ => cases heq
  · next members rs =>
    obtain ⟨members', rfl, hmap⟩ := exists_enum_of_unplaced heq
    cases r' with
    | enum rs' =>
      exact congrArg _ (eq_of_forall₂ hr hr' hmap fun m hm _ _ _ heq hr hr' =>
        h.member_eq hdistinct' (memberName_eq_of_unplaced heq) (hmembers m hm) hr hr')
    | _ => exact hr'.elim
  · next u r =>
    obtain ⟨u', rfl, hu⟩ := exists_union_of_unplaced heq
    cases r' with
    | union r' => rw [h.union_eq hdistinct' hu hmentions hr hr']
    | _ => exact hr'.elim
  · exact hr.elim

/-- A shared definition resolves to the same in both specifications. -/
theorem record_eq (hdistinct : spec.names.Nodup) {d d' : Definition} (hd : d ∈ spec.definitions)
    (hK : K d) (heq : d'.unplaced = d.unplaced) {r r' : Schema.Definition}
    (hr : spec.BodyAs d.body r) (hr' : spec'.BodyAs d'.body r') : r' = r := by
  refine h.body_eq hdistinct' (body_eq_of_unplaced heq)
    (fun name hname => h.covers_of_mentions hd hK hname) (fun m hm => ?_) hr hr'
  exact covers_of_introduces hdistinct hd hK (List.mem_cons_of_mem _ (List.mem_map_of_mem hm))

end Shares

end Spec

end XdrSchema
