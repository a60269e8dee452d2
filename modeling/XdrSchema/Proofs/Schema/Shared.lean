import XdrSchema.Proofs.Schema.Caution
import XdrSchema.Proofs.Spec.Reorder
import XdrSchema.Proofs.Wire.Agree

/-! The schemas of specifications that share definitions. What both define alike, with all that it
mentions, is the same in both schemas; specifications that differ in their order only have the same
names, types, sizes and warnings. -/
namespace XdrSchema

namespace Spec

variable {spec : Spec}

/-! ### What a resolved definition mentions -/

theorem TypeAs.target? {t : Ty} {t' : Schema.Ty} (h : spec.TypeAs t t') {ref : Schema.Ref}
    (href : t'.target? = some ref) : t.target? = some ref.name ∧ spec.IsType ref.name := by
  have hnamed {b : Base String} {b' : Base Schema.Ref} (hb : spec.BaseAs b b') (hb' : b' = .named ref) :
      b = .named ref.name ∧ spec.IsType ref.name := by
    subst hb'
    cases hb with
    | named hk => exact ⟨rfl, isType_iff_declares.mpr ⟨_, hk⟩⟩
  cases h with
  | plain hb | array hb _ | vector hb _ | optional hb =>
    simp only [TypeExpr.target?_plain, TypeExpr.target?_array, TypeExpr.target?_vector,
      TypeExpr.target?_optional] at href ⊢
    exact hnamed hb href
  | fixedBytes _ | bytes _ | string _ => cases href

theorem FieldAs.exists_type {f : Option (Field Ty)} {f' : Option Schema.Field} (h : Option.Rel spec.FieldAs f f')
    {g : Schema.Field} (hg : f' = some g) : ∃ t ∈ f.map (·.type), spec.TypeAs t g.type := by
  subst hg
  cases h with
  | some h => exact ⟨_, rfl, h.2⟩

/-- Each type in a resolved definition comes from one in the specification. -/
theorem BodyAs.exists_type {b : Body} {r : Schema.Definition} (h : spec.BodyAs b r) {t' : Schema.Ty}
    (ht' : t' ∈ r.members) : ∃ t ∈ b.types, spec.TypeAs t t' := by
  unfold BodyAs at h
  split at h
  · next t r =>
    rw [List.mem_singleton.mp ht']
    exact ⟨t, List.mem_singleton_self t, h⟩
  · next fields rs =>
    obtain ⟨f', hf', rfl⟩ := List.mem_map.mp ht'
    obtain ⟨f, hf, hfield⟩ := Schema.Scope.exists_left_of_forall₂ h hf'
    exact ⟨f.type, List.mem_map_of_mem hf, hfield.2⟩
  · cases ht'
  · next u r =>
    obtain ⟨a, ha, htype⟩ := List.mem_filterMap.mp ht'
    obtain ⟨f, hf, rfl⟩ := Option.map_eq_some_iff.mp htype
    obtain ⟨drafts, -, harms, hdefault⟩ := h.arms
    have hpayload : ∃ p ∈ u.payloads, spec.PayloadAs p a.field := by
      rcases List.mem_append.mp ha with ha | ha
      · obtain ⟨⟨name, d, made⟩, hx, harm⟩ := Schema.Scope.exists_left_of_forall₂ harms ha
        have hmade : made ∈ u.arms := (List.of_mem_zip (List.of_mem_zip hx).2).2
        exact ⟨made.payload, List.mem_append_left _ (List.mem_map_of_mem hmade), harm.payload⟩
      · rw [Option.mem_toList] at ha
        rw [ha] at hdefault
        generalize hp : u.default = p at hdefault
        cases hdefault with
        | @some p _ hlast =>
          exact ⟨p, List.mem_append_right _ (by rw [hp]; exact List.mem_singleton_self p), hlast.payload⟩
    obtain ⟨p, hp, hfield⟩ := hpayload
    obtain ⟨t, ht, htype⟩ := FieldAs.exists_type hfield hf
    exact ⟨t, List.mem_cons_of_mem _ (List.mem_filterMap.mpr ⟨p, hp, ht⟩), htype⟩
  · exact h.elim

end Spec

/-! ### Names -/

def Symbol.unplaced (x : Symbol) : Symbol :=
  ⟨x.name, x.span.map fun _ => .nowhere,
    match x.meaning with
    | .builtin n => .builtin n
    | .constant v => .constant v.unplaced
    | .label owner v => .label owner v.unplaced
    | .type k d => .type k d.unplaced⟩

namespace Symbol

@[simp] theorem name_unplaced (x : Symbol) : x.unplaced.name = x.name := rfl

@[simp] theorem kind_unplaced (x : Symbol) : x.unplaced.kind = x.kind := by
  obtain ⟨name, span, meaning⟩ := x
  cases meaning <;> rfl

@[simp] theorem owner?_unplaced (x : Symbol) : x.unplaced.owner? = x.owner? := by
  obtain ⟨name, span, meaning⟩ := x
  cases meaning <;> rfl

theorem type?_unplaced (x : Symbol) : x.unplaced.type? = x.type?.map (Prod.map id Spec.Definition.unplaced) := by
  obtain ⟨name, span, meaning⟩ := x
  cases meaning <;> rfl

theorem ofDefinition_unplaced (d : Spec.Definition) :
    ofDefinition d.unplaced = (ofDefinition d).map unplaced := by
  obtain ⟨name, body, span, nameSpan⟩ := d
  cases body with
  | enum members =>
    simp only [ofDefinition, Spec.Definition.unplaced, Spec.Body.unplaced, List.map_cons, List.map_map]
    rfl
  | _ => rfl

theorem map_unplaced_ofSpec (spec : Spec) : (ofSpec spec).map unplaced =
    builtins ++ (spec.definitions.map Spec.Definition.unplaced).flatMap ofDefinition := by
  rw [ofSpec, List.map_append, List.map_flatMap, List.flatMap_map]
  congr 1
  exact List.flatMap_congr fun d _ => (ofDefinition_unplaced d).symm

theorem map_unplaced_perm {spec spec' : Spec} (h : Spec.Reorders spec' spec) :
    ((ofSpec spec').map unplaced).Perm ((ofSpec spec).map unplaced) := by
  rw [map_unplaced_ofSpec, map_unplaced_ofSpec]
  exact (h.flatMap_right _).append_left _

/-- Names mean the same in every order of the definitions. -/
theorem find?_of_reorders {spec spec' : Spec} (h : Spec.Reorders spec' spec) (hdistinct : spec.names.Nodup)
    (name : String) :
    (find? (ofSpec spec') name).map unplaced = (find? (ofSpec spec) name).map unplaced := by
  have hdistinct' : spec'.names.Nodup := h.names_perm.nodup_iff.mpr hdistinct
  have hfind {spec : Spec} (hdistinct : spec.names.Nodup) (x : Symbol) :
      (find? (ofSpec spec) name).map unplaced = some x ↔ x ∈ (ofSpec spec).map unplaced ∧ x.name = name := by
    rw [Option.map_eq_some_iff, List.mem_map]
    constructor
    · rintro ⟨y, hy, rfl⟩
      obtain ⟨hmem, hname⟩ := (find?_ofSpec_eq_some_iff hdistinct).mp hy
      exact ⟨⟨y, hmem, rfl⟩, hname⟩
    · rintro ⟨⟨y, hmem, rfl⟩, hname⟩
      exact ⟨y, (find?_ofSpec_eq_some_iff hdistinct).mpr ⟨hmem, hname⟩, rfl⟩
  refine Option.ext fun x => ?_
  rw [hfind hdistinct', hfind hdistinct, (map_unplaced_perm h).mem_iff]

end Symbol

/-- What is reported, apart from the place. -/
def Diagnostic.unplaced (d : Diagnostic) : Diagnostic := { d with span := d.span.map fun _ => .nowhere }

namespace Schema

open Wire (size?)

theorem map_unplaced_cautions (definitions : List (String × Definition)) (name : String) (span : Option Span)
    (r : Definition) : (cautions definitions name span r).map Diagnostic.unplaced =
      cautions definitions name (span.map fun _ => .nowhere) r := by
  cases r with
  | union u =>
    simp only [cautions]
    split <;> rfl
  | _ => rfl

variable {spec spec' : Spec} {s s' : Schema} {K : Spec.Definition → Prop}
  (hs : (analyze spec).result = .ok s) (hs' : (analyze spec').result = .ok s')

include hs hs'

theorem find?_of_reorders (h : Spec.Reorders spec' spec) (name : String) :
    (Symbol.find? s'.symbols name).map Symbol.unplaced = (Symbol.find? s.symbols name).map Symbol.unplaced := by
  rw [symbols_of_analyze hs, symbols_of_analyze hs']
  exact Symbol.find?_of_reorders h (specWellFormed_of_analyze hs).distinct name

theorem valueOf_of_reorders (h : Spec.Reorders spec' spec) (name : String) (span : Option Span) (n : Int) :
    Constant.valueOf s'.symbols name span = .ok n ↔ Constant.valueOf s.symbols name span = .ok n := by
  rw [symbols_of_analyze hs, symbols_of_analyze hs',
    Constant.valueOf_eq_ok_iff (specWellFormed_of_analyze hs).distinct,
    Constant.valueOf_eq_ok_iff (specWellFormed_of_analyze hs').distinct]
  exact ⟨h.symm.denotes, h.denotes⟩

variable (hproper : ∀ d ∈ spec.definitions, d.Proper) (hproper' : ∀ d ∈ spec'.definitions, d.Proper)

include hproper hproper'

/-! ### Shared definitions -/

theorem definition?_of_shares (h : Spec.Shares spec spec' K) {name : String} (htype : spec.IsType name)
    (hname : Spec.Covers spec K name) : s'.definition? name = s.definition? name := by
  have hdistinct := (specWellFormed_of_analyze hs).distinct
  have hdistinct' := (specWellFormed_of_analyze hs').distinct
  obtain ⟨d, hd, rfl, hbody⟩ := htype
  have hK : K d := hname d hd List.mem_cons_self
  obtain ⟨d', hd', heq⟩ := h.shared d hd hK
  obtain ⟨r, hr, hbodyAs⟩ := exists_definition hproper hs hd hbody
  have hbody' : d'.body.IsType := by
    rw [Spec.isType_iff_kindOf?, ← Spec.kindOf?_unplaced, heq, Spec.kindOf?_unplaced,
      ← Spec.isType_iff_kindOf?]
    exact hbody
  obtain ⟨r', hr', hbodyAs'⟩ := exists_definition hproper' hs' hd' hbody'
  rw [Spec.name_eq_of_unplaced heq] at hr'
  rw [hr, hr', h.record_eq hdistinct' hdistinct hd hK heq hbodyAs hbodyAs']

/-- The schemas agree on the shared types. -/
theorem agreesOn_of_shares (h : Spec.Shares spec spec' K) :
    s.AgreesOn s' fun name => spec.IsType name ∧ Spec.Covers spec K name where
  same name hname := definition?_of_shares hs hs' hproper hproper' h hname.1 hname.2
  closed outer inner houter hmentions := by
    obtain ⟨r, hr, t', ht', ref, href, rfl⟩ := hmentions
    obtain ⟨d, hd, rfl, hbody⟩ := reflects_of_analyze hs outer r hr
    obtain ⟨t, ht, htype⟩ := hbody.exists_type ht'
    obtain ⟨htarget, hinner⟩ := htype.target? href
    have hK : K d := houter.2 d hd List.mem_cons_self
    exact ⟨hinner, h.covers_of_mentions hd hK
      (Spec.mem_mentions_of_type ht (Spec.mem_mentions_of_target htarget))⟩

/-! ### Definitions in another order -/

variable (h : Spec.Reorders spec' spec)

include h

theorem definition?_of_reorders (name : String) : s'.definition? name = s.definition? name := by
  by_cases htype : spec.IsType name
  · exact definition?_of_shares hs hs' hproper hproper' h.shares htype fun _ _ _ => trivial
  · have hnone {spec : Spec} {s : Schema} (hs : (analyze spec).result = .ok s) (htype : ¬ spec.IsType name) :
        s.definition? name = none := by
      refine Option.eq_none_iff_forall_ne_some.mpr fun r hr => htype ?_
      obtain ⟨d, hd, hname, hbody⟩ := reflects_of_analyze hs name r hr
      exact ⟨d, hd, hname, Spec.isType_iff_kindOf?.mpr ⟨_, hbody.kind⟩⟩
    have htype' : ¬ spec'.IsType name := fun htype' =>
      htype (h.symm.shares.isType (fun _ _ _ => trivial) htype')
    rw [hnone hs htype, hnone hs' htype']

theorem types_perm_of_reorders : s'.types.Perm s.types :=
  perm_of_lookup_eq (wellFormed_of_analyze hproper hs).distinct (wellFormed_of_analyze hproper' hs').distinct
    (definition?_of_reorders hs hs' hproper hproper' h)

theorem size?_of_reorders (name : String) : size? s' name = size? s name := by
  have hsame := definition?_of_reorders hs hs' hproper hproper' h
  have hagrees : s.AgreesOn s' fun _ => True := ⟨fun name _ => hsame name, fun _ _ _ _ => trivial⟩
  have hfind := find?_of_reorders hs hs' h name
  have hs := wellFormed_of_analyze hproper hs
  have hs' := wellFormed_of_analyze hproper' hs'
  rw [Wire.Sizing.size?_eq hs, Wire.Sizing.size?_eq hs', Wire.Sizing.declared, Wire.Sizing.declared,
    Wire.SizeTable.get_of_agreesOn hagrees hs hs' trivial, Wire.Sizing.definition, Wire.Sizing.definition,
    hsame]
  cases hx : Symbol.find? s.symbols name with
  | none =>
    rw [hx, Option.map_none, Option.map_eq_none_iff] at hfind
    rw [hfind]
  | some x =>
    rw [hx, Option.map_some, Option.map_eq_some_iff] at hfind
    obtain ⟨x', hx', -⟩ := hfind
    rw [hx']
    cases s.definition? name <;> rfl

/-- The same is warned about, up to order. -/
theorem warnings_of_reorders : ((analyze spec').warnings.map Diagnostic.unplaced).Perm
    ((analyze spec).warnings.map Diagnostic.unplaced) := by
  have hperm := types_perm_of_reorders hs hs' hproper hproper' h
  have hcautions (e : String × Definition) :
      (s'.cautionsOf e).map Diagnostic.unplaced = (s.cautionsOf e).map Diagnostic.unplaced := by
    have hspan (x : Option Symbol) :
        (x.bind (·.span)).map (fun _ => Span.nowhere) = (x.map Symbol.unplaced).bind (·.span) := by
      cases x <;> rfl
    rw [cautionsOf, cautionsOf, map_unplaced_cautions, map_unplaced_cautions, hspan, hspan,
      find?_of_reorders hs hs' h, cautions_congr (definition?_of_reorders hs hs' hproper hproper' h)]
  have hempty : s'.types.isEmpty = s.types.isEmpty := by
    rw [Bool.eq_iff_iff, List.isEmpty_iff, List.isEmpty_iff, ← List.length_eq_zero_iff, hperm.length_eq,
      List.length_eq_zero_iff]
  have hspan : spec'.span?.map (fun _ => Span.nowhere) = spec.span?.map fun _ => Span.nowhere := by
    have hlength : spec'.definitions.length = spec.definitions.length := by simpa using h.length_eq
    have hsome (spec : Spec) : spec.span?.map (fun _ => Span.nowhere) =
        if spec.definitions.length = 0 then none else some .nowhere := by
      obtain ⟨definitions⟩ := spec
      cases definitions <;> rfl
    rw [hsome, hsome, hlength]
  refine ((warnings_perm hproper' hs').map _).trans (.trans ?_ ((warnings_perm hproper hs).map _).symm)
  rw [List.map_append, List.map_append, List.map_flatMap, List.map_flatMap, hempty]
  refine .append (.trans (hperm.flatMap_right _) (.of_eq (List.flatMap_congr fun e _ => hcautions e))) (.of_eq ?_)
  split
  · exact congrArg (fun span => [Caution.noTypes.diagnostic span]) hspan
  · rfl

end Schema

end XdrSchema
