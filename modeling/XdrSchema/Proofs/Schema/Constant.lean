import XdrSchema.Proofs.Schema.Resolve
import XdrSchema.Proofs.Spec.WellFormed

/-! The symbols of a specification with distinct names are what it defines, and a constant has the value
at the end of its chain. -/
namespace XdrSchema

/-- What a constant or label is defined as. -/
def Meaning.value? : Meaning → Option Spec.Value
  | .constant v | .label _ v => some v
  | _ => none

variable {spec : Spec}

namespace Symbol

theorem map_name_ofSpec : (ofSpec spec).map (·.name) = spec.names := by
  have hdefinition (d : Spec.Definition) :
      (ofDefinition d).map (·.name) = d.name :: d.body.members.map (·.name) := by
    obtain ⟨name, body, span, nameSpan⟩ := d
    cases body <;> simp [ofDefinition, Spec.Body.members, Function.comp_def]
  simp [ofSpec, builtins, Spec.names, List.map_flatMap, hdefinition]

theorem find?_ofSpec_eq_some_iff (hdistinct : spec.names.Nodup) {name : String} {x : Symbol} :
    find? (ofSpec spec) name = some x ↔ x ∈ ofSpec spec ∧ x.name = name :=
  find?_eq_some_iff_of_nodup (map_name_ofSpec ▸ hdistinct)

/-- A symbol is that of a truth value or comes from a definition. -/
theorem exists_mem_ofSpec {P : Symbol → Prop} : (∃ x ∈ ofSpec spec, P x) ↔
    (∃ x ∈ builtins, P x) ∨ ∃ d ∈ spec.definitions, ∃ x ∈ ofDefinition d, P x := by
  simp only [ofSpec, List.mem_append, List.mem_flatMap, or_and_right, exists_or]
  apply or_congr_right
  constructor
  · rintro ⟨x, ⟨d, hd, hx⟩, h⟩
    exact ⟨d, hd, x, hx, h⟩
  · rintro ⟨d, hd, x, hx, h⟩
    exact ⟨x, ⟨d, hd, hx⟩, h⟩

theorem assigns_iff {name : String} {v : Spec.Value} :
    spec.Assigns name v ↔ ∃ x ∈ ofSpec spec, x.name = name ∧ x.meaning.value? = some v := by
  have hbuiltin : ¬ ∃ x ∈ builtins, x.name = name ∧ x.meaning.value? = some v := by
    simp [builtins, Meaning.value?]
  rw [exists_mem_ofSpec, or_iff_right hbuiltin]
  refine exists_congr fun d => and_congr_right fun _ => ?_
  obtain ⟨dname, body, span, nameSpan⟩ := d
  cases body <;> simp [ofDefinition, Spec.Body.members, Meaning.value?]

open Schema.Scope (kindOf?)

theorem type_iff {name : String} {k : TypeKind} {d : Spec.Definition} :
    (∃ x ∈ ofSpec spec, x.name = name ∧ x.meaning = .type k d) ↔
      d ∈ spec.definitions ∧ d.name = name ∧ kindOf? d = some k := by
  constructor
  · rintro ⟨x, hx, rfl, hmeaning⟩
    obtain ⟨hd, hname, -, hkind⟩ := Schema.of_mem_ofSpec hx (by rw [type?, hmeaning])
    exact ⟨hd, hname.symm, hkind⟩
  · rintro ⟨hd, rfl, hkind⟩
    refine exists_mem_ofSpec.mpr (.inr ⟨d, hd, ⟨d.name, some d.nameSpan, .type k d⟩, ?_, rfl, rfl⟩)
    obtain ⟨name, body, span, nameSpan⟩ := d
    cases body <;> cases hkind <;> exact List.mem_cons_self

theorem mem_types_iff {k : TypeKind} {d : Spec.Definition} :
    (k, d) ∈ types (ofSpec spec) ↔ d ∈ spec.definitions ∧ kindOf? d = some k := by
  rw [types, List.mem_filterMap]
  constructor
  · rintro ⟨x, hx, htype⟩
    obtain ⟨hd, -, -, hkind⟩ := Schema.of_mem_ofSpec hx htype
    exact ⟨hd, hkind⟩
  · rintro ⟨hd, hkind⟩
    obtain ⟨x, hx, -, hmeaning⟩ := type_iff.mpr ⟨hd, rfl, hkind⟩
    exact ⟨x, hx, by rw [type?, hmeaning]⟩

theorem leads_of_builtin {x : Symbol} (hx : x ∈ ofSpec spec) {n : Int} (hmeaning : x.meaning = .builtin n) :
    spec.Leads [x.name] n := by
  rcases List.mem_append.mp hx with hx | hx
  · simp only [builtins, List.mem_cons, List.not_mem_nil, or_false] at hx
    rcases hx with rfl | rfl <;> cases hmeaning
    · exact .true
    · exact .false
  · obtain ⟨⟨name, body, span, nameSpan⟩, -, hx⟩ := List.mem_flatMap.mp hx
    cases body <;> simp [ofDefinition] at hx <;> rcases hx with rfl | ⟨m, -, rfl⟩ <;> cases hmeaning

/-- A chain starts with a truth value or with a name that is defined as a value. -/
theorem exists_of_leads {name : String} {chain : List String} {n : Int} (h : spec.Leads (name :: chain) n) :
    ∃ x ∈ ofSpec spec, x.name = name ∧ (x.meaning = .builtin n ∨ ∃ v, x.meaning.value? = some v) := by
  cases h with
  | true => exact ⟨⟨"TRUE", none, .builtin 1⟩, by simp [ofSpec, builtins], rfl, .inl rfl⟩
  | false => exact ⟨⟨"FALSE", none, .builtin 0⟩, by simp [ofSpec, builtins], rfl, .inl rfl⟩
  | literal h | constant h =>
    obtain ⟨x, hx, hname, hvalue⟩ := assigns_iff.mp h
    exact ⟨x, hx, hname, .inr ⟨_, hvalue⟩⟩

variable (hdistinct : spec.names.Nodup) {name : String} {s : Symbol}
  (hfind : find? (ofSpec spec) name = some s)

include hdistinct hfind

theorem eq_of_find? {x : Symbol} (hx : x ∈ ofSpec spec) (hname : x.name = name) : x = s :=
  Option.some.inj (((find?_ofSpec_eq_some_iff hdistinct).mpr ⟨hx, hname⟩).symm.trans hfind)

theorem assigns_iff_value? {v : Spec.Value} : spec.Assigns name v ↔ s.meaning.value? = some v := by
  rw [assigns_iff]
  constructor
  · rintro ⟨x, hx, hname, hvalue⟩
    rwa [← eq_of_find? hdistinct hfind hx hname]
  · intro hvalue
    obtain ⟨hs, hname⟩ := (find?_ofSpec_eq_some_iff hdistinct).mp hfind
    exact ⟨s, hs, hname, hvalue⟩

/-- The first step of a chain is what its first name is defined as. -/
theorem leads_of_value? {v : Spec.Value} {chain : List String} {n : Int} :
    s.meaning.value? = some v → spec.Leads (name :: chain) n →
      match v with
      | .literal k _ _ => k = n ∧ -2 ^ 63 ≤ n ∧ n < 2 ^ 63
      | .constant next _ => ∃ rest, chain = next :: rest ∧ spec.Leads (next :: rest) n := by
  intro hvalue hleads
  have hassigns {w : Spec.Value} := assigns_iff_value? hdistinct hfind (v := w)
  cases hleads with
  | true =>
    obtain rfl : ⟨"TRUE", none, .builtin 1⟩ = s := Option.some.inj hfind
    cases hvalue
  | false =>
    obtain rfl : ⟨"FALSE", none, .builtin 0⟩ = s := Option.some.inj hfind
    cases hvalue
  | literal h hn =>
    rw [hassigns, hvalue] at h
    cases h
    exact ⟨rfl, hn⟩
  | constant h hnext =>
    rw [hassigns, hvalue] at h
    cases h
    exact ⟨_, rfl, hnext⟩

end Symbol

namespace Constant

open XdrSchema.Symbol

theorem isSigned64_iff {n : Int} : isSigned64 n = true ↔ -2 ^ 63 ≤ n ∧ n < 2 ^ 63 := by
  simp only [isSigned64, Bool.and_eq_true, decide_eq_true_eq]
  omega

/-- A name that is defined as a value is followed once. -/
theorem follow_of_value? {symbols fresh : List Symbol} {path : List String} {name : String}
    {span : Option Span} {s : Symbol} {v : Spec.Value} {n : Int} (hfind : find? symbols name = some s) :
    s.meaning.value? = some v → (follow symbols fresh path name span = .ok n ↔
      name ∈ fresh.map (·.name) ∧
        match v with
        | .literal k _ _ => isSigned64 k = true ∧ k = n
        | .constant next place =>
          follow symbols (fresh.eraseP (·.name = name)) (path ++ [name]) next (some place) = .ok n) := by
  intro hvalue
  obtain ⟨sname, sspan, meaning⟩ := s
  have hmem : name ∈ fresh.map (·.name) ↔ (fresh.find? (·.name = name)).isSome := by
    simp [List.find?_isSome]
  rw [follow, hfind, hmem]
  cases meaning with
  | builtin k | type k d => cases hvalue
  | constant w | label owner w =>
    cases hvalue
    dsimp only
    split
    · next hnone => simp [hnone]
    · next x hx =>
      cases v with
      | literal k text place => by_cases hk : isSigned64 k <;> simp [hx, hk, pure, Except.pure]
      | constant next place => simp [hx]

/-- A name that is not defined as a value is a truth value or nothing. -/
theorem follow_of_no_value? {symbols fresh : List Symbol} {path : List String} {name : String}
    {span : Option Span} {s : Symbol} {n : Int} (hfind : find? symbols name = some s)
    (hvalue : s.meaning.value? = none) :
    follow symbols fresh path name span = .ok n ↔ s.meaning = .builtin n := by
  obtain ⟨sname, sspan, meaning⟩ := s
  rw [follow, hfind]
  cases meaning with
  | builtin k => simp [pure, Except.pure]
  | type k d => simp
  | constant w | label owner w => cases hvalue

/-- Following a name comes to the end of its chain, if the names of the chain are all fresh. -/
theorem follow_eq_ok_iff (hdistinct : spec.names.Nodup) (fresh : List Symbol)
    (hfresh : (fresh.map (·.name)).Nodup) (path : List String) (name : String) (span : Option Span)
    {n : Int} : follow (ofSpec spec) fresh path name span = .ok n ↔
      ∃ chain, (name :: chain).Nodup ∧ spec.Leads (name :: chain) n ∧
        ∀ x ∈ name :: chain, ∀ v, spec.Assigns x v → x ∈ fresh.map (·.name) := by
  cases hfind : find? (ofSpec spec) name with
  | none =>
    rw [follow, hfind]
    refine ⟨nofun, fun ⟨chain, _, hleads, _⟩ => ?_⟩
    obtain ⟨x, hx, hname, -⟩ := exists_of_leads hleads
    exact absurd ((find?_ofSpec_eq_some_iff hdistinct).mpr ⟨hx, hname⟩) (by simp [hfind])
  | some s =>
    obtain ⟨hs, hname⟩ := (find?_ofSpec_eq_some_iff hdistinct).mp hfind
    have hassigns {v : Spec.Value} := assigns_iff_value? hdistinct hfind (v := v)
    cases hvalue : s.meaning.value? with
    | none =>
      rw [follow_of_no_value? hfind hvalue]
      constructor
      · intro hmeaning
        have hleads := leads_of_builtin hs hmeaning
        rw [hname] at hleads
        refine ⟨[], List.nodup_singleton _, hleads, fun x hx v hv => ?_⟩
        rw [List.mem_singleton.mp hx, hassigns, hvalue] at hv
        cases hv
      · rintro ⟨chain, -, hleads, -⟩
        obtain ⟨x, hx, hxname, hmeaning⟩ := exists_of_leads hleads
        rw [eq_of_find? hdistinct hfind hx hxname, hvalue] at hmeaning
        exact hmeaning.resolve_right nofun
    | some v =>
      rw [follow_of_value? hfind hvalue]
      have hstep {chain : List String} (hleads : spec.Leads (name :: chain) n) :=
        leads_of_value? hdistinct hfind hvalue hleads
      cases v with
      | literal k text place =>
        constructor
        · rintro ⟨hmem, hk, rfl⟩
          exact ⟨[], List.nodup_singleton _, .literal (hassigns.mpr hvalue) (isSigned64_iff.mp hk),
            by simpa using fun _ _ => hmem⟩
        · rintro ⟨chain, -, hleads, hall⟩
          obtain ⟨rfl, hn⟩ := hstep hleads
          exact ⟨hall name List.mem_cons_self _ (hassigns.mpr hvalue), isSigned64_iff.mpr hn, rfl⟩
      | constant next place =>
        have herase := map_eraseP_key Symbol.name fresh name
        have hfresh' := herase ▸ hfresh.erase name
        constructor
        · rintro ⟨hmem, hnext⟩
          obtain ⟨chain, hnodup, hleads, hall⟩ :=
            (follow_eq_ok_iff hdistinct _ hfresh' _ next (some place)).mp hnext
          simp only [herase] at hall
          have hnew : name ∉ next :: chain := fun hin =>
            hfresh.not_mem_erase (hall name hin _ (hassigns.mpr hvalue))
          refine ⟨next :: chain, List.nodup_cons.mpr ⟨hnew, hnodup⟩,
            .constant (hassigns.mpr hvalue) hleads, List.forall_mem_cons.mpr ⟨fun _ _ => hmem, ?_⟩⟩
          exact fun x hx w hw => List.mem_of_mem_erase (hall x hx w hw)
        · rintro ⟨chain, hnodup, hleads, hall⟩
          obtain ⟨rest, rfl, hrest⟩ := hstep hleads
          have hmem := hall name List.mem_cons_self _ (hassigns.mpr hvalue)
          obtain ⟨hnew, hnodup⟩ := List.nodup_cons.mp hnodup
          refine ⟨hmem, (follow_eq_ok_iff hdistinct _ hfresh' _ next (some place)).mpr
            ⟨rest, hnodup, hrest, fun x hx w hw => ?_⟩⟩
          rw [herase, hfresh.mem_erase_iff]
          exact ⟨fun heq => hnew (heq ▸ hx), hall x (List.mem_cons_of_mem _ hx) w hw⟩
termination_by fresh.length
decreasing_by all_goals exact length_eraseP_key_lt hmem

variable (hdistinct : spec.names.Nodup)

include hdistinct

theorem valueOf_eq_ok_iff {name : String} {span : Option Span} {n : Int} :
    valueOf (ofSpec spec) name span = .ok n ↔ spec.Denotes name n := by
  have hnodup : ((ofSpec spec).map (·.name)).Nodup := map_name_ofSpec ▸ hdistinct
  rw [valueOf, follow_eq_ok_iff hdistinct _ hnodup]
  refine exists_congr fun chain => and_congr_right fun _ => and_iff_left fun x _ v hv => ?_
  obtain ⟨y, hy, rfl, -⟩ := assigns_iff.mp hv
  exact List.mem_map_of_mem hy

theorem evaluate_eq_ok_iff {v : Spec.Value} {n : Int} :
    evaluate (ofSpec spec) v = .ok n ↔ spec.Evaluates v n := by
  cases v with
  | literal k text span => simp [evaluate, Spec.Evaluates, pure, Except.pure, eq_comm]
  | constant name span => exact valueOf_eq_ok_iff hdistinct

theorem bound_eq_ok_iff {v : Spec.Value} {n : Nat} :
    bound (ofSpec spec) v = .ok n ↔ spec.Bounds v n := by
  rw [bound, bind_eq_ok_iff]
  constructor
  · rintro ⟨k, hk, hbound⟩
    split at hbound
    · next hrange =>
      cases hbound
      have := Schema.CaseSet.isUnsigned32_iff.mp hrange
      rw [evaluate_eq_ok_iff hdistinct] at hk
      rw [Spec.Bounds, Int.toNat_of_nonneg this.1]
      exact ⟨hk, by omega⟩
    · cases hbound
  · rintro ⟨hv, hn⟩
    refine ⟨n, (evaluate_eq_ok_iff hdistinct).mpr hv, ?_⟩
    rw [if_pos (Schema.CaseSet.isUnsigned32_iff.mpr ⟨Int.natCast_nonneg n, by omega⟩)]
    rfl

theorem denotes_unique {name : String} {m n : Int} (hm : spec.Denotes name m) (hn : spec.Denotes name n) :
    m = n := by
  have hvalueOf {k : Int} (hk : spec.Denotes name k) : valueOf (ofSpec spec) name none = .ok k :=
    (valueOf_eq_ok_iff hdistinct).mpr hk
  exact Except.ok.inj ((hvalueOf hm).symm.trans (hvalueOf hn))

theorem checkAll_eq_ok_iff : checkAll (ofSpec spec) = .ok () ↔
    ∀ name v, spec.Assigns name v → ∃ n, spec.Denotes name n := by
  have hvalueOf {name : String} {span : Option Span} : (do let _ ← valueOf (ofSpec spec) name span) =
      Except.ok () ↔ ∃ n, spec.Denotes name n := by
    simp [bind_eq_ok_iff, valueOf_eq_ok_iff hdistinct, pure, Except.pure]
  rw [checkAll, forM_eq_ok_iff]
  constructor
  · intro h name v hv
    obtain ⟨⟨sname, span, meaning⟩, hx, rfl, hvalue⟩ := assigns_iff.mp hv
    have hx := h _ hx
    cases meaning with
    | builtin n | type k d => cases hvalue
    | constant w | label owner w => exact hvalueOf.mp hx
  · rintro h ⟨name, span, meaning⟩ hx
    have hassigns {v : Spec.Value} (hvalue : meaning.value? = some v) : ∃ n, spec.Denotes name n :=
      h name v (assigns_iff.mpr ⟨_, hx, rfl, hvalue⟩)
    cases meaning with
    | type k d => rfl
    | builtin n => exact hvalueOf.mpr ⟨n, [], List.nodup_singleton _, leads_of_builtin hx rfl⟩
    | constant w | label owner w => exact hvalueOf.mpr (hassigns rfl)

end Constant

end XdrSchema
