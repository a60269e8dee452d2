import XdrSchema.Compile
import XdrSchema.Proofs.Schema.Caution

/-! Which unions are reported for the labels they leave out: those without default arm, once for each,
with the labels of their enumeration that no case names. -/
namespace XdrSchema.Schema

variable {spec : Spec} {s : Schema}

/-! ### The enumeration of a union -/

/-- The enumeration that a type is, behind typedefs. -/
inductive StandsFor (s : Schema) : Base Ref → String → Prop
  | enum {r : Ref} {labels : List (String × Int)} (h : s.definition? r.name = some (.enum labels)) :
    StandsFor s (.named r) r.name
  | typedef {r : Ref} {b : Base Ref} {enum : String} (h : s.definition? r.name = some (.typedef (.plain b)))
    (hb : StandsFor s b enum) : StandsFor s (.named r) enum

/-- A typedef is followed to its end, and to nothing else. -/
theorem standsFor_iff_of_selects (hproper : ∀ d ∈ spec.definitions, d.Proper)
    (h : (analyze spec).result = .ok s) {b : Base String} {selector : Selector}
    (hselects : spec.Selects b selector) {b' : Base Ref} (hb : spec.BaseAs b b') {enum : String} :
    s.StandsFor b' enum ↔ selector = .enum enum := by
  induction hselects generalizing b' with
  | int | unsignedInt | bool =>
    cases hb
    exact ⟨nofun, nofun⟩
  | @enum d members hd hbody =>
    cases hb with
    | named hk =>
      obtain ⟨r, hr, hrbody⟩ := exists_definition hproper h hd (by rw [hbody]; trivial)
      rw [hbody] at hrbody
      cases r with
      | enum labels =>
        constructor
        · intro hstands
          cases hstands with
          | enum _ => rfl
          | typedef hr' _ => cases hr.symm.trans hr'
        · intro hselector
          cases hselector
          exact .enum hr
      | _ => exact hrbody.elim
  | @typedef d b selector hd hbody _ ih =>
    cases hb with
    | named hk =>
      obtain ⟨r, hr, hrbody⟩ := exists_definition hproper h hd (by rw [hbody]; trivial)
      rw [hbody] at hrbody
      cases r with
      | typedef t =>
        cases hrbody with
        | plain hb =>
          rw [← ih hb]
          constructor
          · intro hstands
            cases hstands with
            | enum hr' => cases hr.symm.trans hr'
            | typedef hr' hb' =>
              cases hr.symm.trans hr'
              exact hb'
          · exact .typedef hr
      | _ => exact hrbody.elim

/-- The arms of a union are selected by an enumeration if its discriminant is one. -/
theorem standsFor_iff (hproper : ∀ d ∈ spec.definitions, d.Proper) (h : (analyze spec).result = .ok s)
    {name enum : String} {u : Union} (hu : s.definition? name = some (.union u)) :
    s.StandsFor u.discriminant enum ↔ u.selector = .enum enum := by
  obtain ⟨⟨dname, body, span, nameSpan⟩, -, -, hbody⟩ := reflects_of_analyze h name _ hu
  cases body with
  | union v => exact standsFor_iff_of_selects hproper h hbody.selector hbody.discriminant
  | _ => exact hbody.elim

/-! ### What is reported -/

/-- The labels of its enumeration that a union without default arm leaves out, if there are any. -/
def LeavesOut (s : Schema) (name : String) (missing : List String) : Prop :=
  ∃ u enum labels, s.definition? name = some (.union u) ∧ s.StandsFor u.discriminant enum ∧
    s.definition? enum = some (.enum labels) ∧ u.default = none ∧
    missing = (labels.filter fun l => l.2 ∉ u.caseValues).map (·.1) ∧ missing ≠ []

/-- Names of labels are distinct, so that a label is left out by its own value. -/
theorem mem_leavesOut_iff (hproper : ∀ d ∈ spec.definitions, d.Proper) (h : (analyze spec).result = .ok s)
    {name enum : String} {u : Union} {labels : List (String × Int)} (hu : s.definition? name = some (.union u))
    (hstands : s.StandsFor u.discriminant enum) (hlabels : s.definition? enum = some (.enum labels))
    {label : String} {n : Int} (hlabel : (label, n) ∈ labels) :
    (∃ missing, s.LeavesOut name missing ∧ label ∈ missing) ↔ u.default = none ∧ n ∉ u.caseValues := by
  obtain ⟨-, hlabelled⟩ := (wellFormed_of_analyze hproper h).proper enum _ hlabels
  constructor
  · rintro ⟨missing, ⟨u', enum', labels', hu', hstands', hlabels', hdefault, rfl, -⟩, hmissing⟩
    cases hu.symm.trans hu'
    have hselector := (standsFor_iff hproper h hu).mp hstands
    cases hselector.symm.trans ((standsFor_iff hproper h hu).mp hstands')
    cases hlabels.symm.trans hlabels'
    obtain ⟨⟨_, n'⟩, hl, rfl⟩ := List.mem_map.mp hmissing
    obtain ⟨hl, hcase⟩ := List.mem_filter.mp hl
    have hvalue := (hlabelled.labelValue?_eq_some_iff.mpr hlabel).symm.trans
      (hlabelled.labelValue?_eq_some_iff.mpr hl)
    cases hvalue
    exact ⟨hdefault, of_decide_eq_true hcase⟩
  · rintro ⟨hdefault, hcase⟩
    have hmem : label ∈ (labels.filter fun l => l.2 ∉ u.caseValues).map (·.1) :=
      List.mem_map.mpr ⟨(label, n), List.mem_filter.mpr ⟨hlabel, decide_eq_true hcase⟩, rfl⟩
    exact ⟨_, ⟨u, enum, labels, hu, hstands, hlabels, hdefault, rfl, List.ne_nil_of_mem hmem⟩, hmem⟩

/-- A report about a union, at the place of its name. -/
def gapReport (s : Schema) (gap : String × List String) : Diagnostic :=
  (Caution.uncovered gap.1 gap.2).diagnostic ((Symbol.find? s.symbols gap.1).bind (·.span))

/-- What a definition leaves out. -/
def gapOf (s : Schema) : String × Definition → Option (String × List String)
  | (name, .union u) =>
    let missing := CaseSet.uncovered (labelsOf s.types u.selector) u.caseValues
    if u.default.isSome || missing.isEmpty then none else some (name, missing)
  | _ => none

theorem cautionsOf_eq (e : String × Definition) :
    s.cautionsOf e = ((s.gapOf e).map s.gapReport).toList := by
  obtain ⟨name, d⟩ := e
  cases d with
  | union u =>
    simp only [cautionsOf, cautions, gapOf]
    split <;> rfl
  | _ => rfl

theorem gapOf_eq_some_iff {e : String × Definition} {name : String} {missing : List String} :
    s.gapOf e = some (name, missing) ↔ ∃ u, e = (name, .union u) ∧ u.default = none ∧
      missing = CaseSet.uncovered (labelsOf s.types u.selector) u.caseValues ∧ missing ≠ [] := by
  obtain ⟨name', d⟩ := e
  cases d with
  | union u =>
    simp only [gapOf, Option.ite_none_left_eq_some, Bool.or_eq_true, not_or, Bool.not_eq_true,
      Option.isSome_eq_false_iff, Option.isNone_iff_eq_none, List.isEmpty_eq_false_iff,
      Option.some.injEq, Prod.mk.injEq]
    constructor
    · rintro ⟨⟨hdefault, hmissing⟩, rfl, rfl⟩
      exact ⟨u, ⟨rfl, rfl⟩, hdefault, rfl, hmissing⟩
    · rintro ⟨_, ⟨rfl, hu⟩, hdefault, rfl, hmissing⟩
      cases hu
      exact ⟨⟨hdefault, hmissing⟩, rfl, rfl⟩
  | _ => exact ⟨nofun, fun ⟨_, h, _⟩ => nomatch h⟩

theorem labelsOf_eq_nil_or (selector : Selector) : labelsOf s.types selector = [] ∨
    ∃ enum labels, selector = .enum enum ∧ s.definition? enum = some (.enum labels) ∧
      labelsOf s.types selector = labels := by
  cases selector with
  | enum enum =>
    rw [labelsOf]
    cases hlookup : s.types.lookup enum with
    | none => exact .inl rfl
    | some d =>
      cases d with
      | enum labels => exact .inr ⟨enum, labels, rfl, hlookup, rfl⟩
      | _ => exact .inl rfl
  | _ => exact .inl rfl

theorem names_gaps_sublist (types : List (String × Definition)) :
    ((types.filterMap s.gapOf).map (·.1)).Sublist (types.map (·.1)) := by
  induction types with
  | nil => exact .slnil
  | cons e rest ih =>
    cases hgap : s.gapOf e with
    | none =>
      rw [List.filterMap_cons_none hgap]
      exact ih.cons _
    | some gap =>
      obtain ⟨u, rfl, -⟩ := gapOf_eq_some_iff.mp hgap
      rw [List.filterMap_cons_some hgap]
      exact ih.cons_cons _

/-- Each union that leaves labels out is reported once with these labels, and no other definition is. -/
theorem exists_gaps (hproper : ∀ d ∈ spec.definitions, d.Proper) (h : (analyze spec).result = .ok s) :
    ∃ gaps : List (String × List String),
      ((analyze spec).warnings.filter (·.code = "XW2001")).Perm (gaps.map s.gapReport) ∧
      (gaps.map (·.1)).Nodup ∧ ∀ name missing, (name, missing) ∈ gaps ↔ s.LeavesOut name missing := by
  have hs := wellFormed_of_analyze hproper h
  refine ⟨s.types.filterMap s.gapOf, ?_, ?_, fun name missing => ?_⟩
  · have hreports : s.types.flatMap s.cautionsOf = (s.types.filterMap s.gapOf).map s.gapReport := by
      rw [List.map_filterMap, List.filterMap_eq_flatMap_toList]
      exact List.flatMap_congr fun e _ => cautionsOf_eq e
    have hall : ((s.types.filterMap s.gapOf).map s.gapReport).filter (·.code = "XW2001") =
        (s.types.filterMap s.gapOf).map s.gapReport := by
      rw [List.filter_eq_self]
      intro d hd
      obtain ⟨gap, -, rfl⟩ := List.mem_map.mp hd
      rfl
    have hnone : (if s.types.isEmpty then [Caution.noTypes.diagnostic spec.span?] else []).filter
        (·.code = "XW2001") = [] := by
      split <;> rfl
    have hperm := (warnings_perm hproper h).filter (·.code = "XW2001")
    rwa [List.filter_append, hreports, hall, hnone, List.append_nil] at hperm
  · exact hs.distinct.sublist (names_gaps_sublist s.types)
  · have hmem (d : Definition) : (name, d) ∈ s.types ↔ s.definition? name = some d :=
      (lookup_eq_some_iff_of_nodup hs.distinct).symm
    rw [List.mem_filterMap]
    constructor
    · rintro ⟨e, he, hgap⟩
      obtain ⟨u, rfl, hdefault, rfl, hmissing⟩ := gapOf_eq_some_iff.mp hgap
      have hu := (hmem _).mp he
      rcases labelsOf_eq_nil_or (s := s) u.selector with hnil | ⟨enum, labels, hselector, hlabels, heq⟩
      · rw [hnil] at hmissing
        exact absurd rfl hmissing
      · rw [heq] at hmissing ⊢
        exact ⟨u, enum, labels, hu, (standsFor_iff hproper h hu).mpr hselector, hlabels, hdefault, rfl,
          hmissing⟩
    · rintro ⟨u, enum, labels, hu, hstands, hlabels, hdefault, hmissing, hne⟩
      refine ⟨_, (hmem _).mpr hu, gapOf_eq_some_iff.mpr ⟨u, rfl, hdefault, ?_, hne⟩⟩
      rw [hmissing, (standsFor_iff hproper h hu).mp hstands, labelsOf,
        show s.types.lookup enum = _ from hlabels]
      rfl

end XdrSchema.Schema
