import Mathlib.Data.List.TakeWhile
import XdrSchema.Proofs.Strict.Constant

/-! Cycles among names. Both evaluating constants and resolving types go down a path of names and notice
when it comes back to itself: the cycle that is reported is the part of the path from that name on. -/
namespace XdrSchema

/-- A walk along `R` from `root` that comes back to itself: `before` leads to the cycle, and `chain` goes
round it, from a name to the same name. -/
structure Cycle (R : String → String → Prop) (root : String) (before chain : List String) : Prop where
  long : 2 ≤ chain.length
  closed : chain.head? = chain.getLast?
  distinct : chain.dropLast.Nodup
  linked : (before ++ chain).IsChain R
  root : (before ++ chain).head? = some root
  apart : ∀ n ∈ before, n ∉ chain

/-- A walk along `R` from `root` that has come to `name`. The names with the property `P` are those that can
be passed, each of them once: they are fresh or on the path. -/
structure Trail (R : String → String → Prop) (P : String → Prop) (root : String)
    (fresh path : List String) (name : String) : Prop where
  distinct : (fresh ++ path).Nodup
  cover : ∀ n, P n → n ∈ fresh ++ path
  linked : (path ++ [name]).IsChain R
  root : (path ++ [name]).head? = some root

variable {R : String → String → Prop} {P : String → Prop} {root name : String}

namespace Trail

variable {fresh path : List String}

theorem start (hdistinct : fresh.Nodup) (hcover : ∀ n, P n → n ∈ fresh) (name : String) :
    Trail R P name fresh [] name :=
  ⟨by simpa using hdistinct, by simpa using hcover, List.isChain_singleton name, rfl⟩

/-- A fresh name is passed: it goes on the path. -/
theorem step (h : Trail R P root fresh path name) (hname : name ∈ fresh) {next : String}
    (hnext : R name next) : Trail R P root (fresh.erase name) (path ++ [name]) next := by
  have hperm : (fresh.erase name ++ (path ++ [name])).Perm (fresh ++ path) := by
    rw [← List.append_assoc]
    exact List.perm_append_singleton name (fresh.erase name ++ path) |>.trans
      ((List.perm_cons_erase hname).symm.append_right path)
  refine ⟨hperm.nodup_iff.mpr h.distinct, fun n hn => hperm.mem_iff.mpr (h.cover n hn), ?_, ?_⟩
  · rw [List.isChain_append]
    exact ⟨h.linked, List.isChain_singleton next, by simpa using hnext⟩
  · rw [List.head?_append_of_ne_nil _ (by simp)]
    exact h.root

theorem not_mem_path (h : Trail R P root fresh path name) (hname : name ∈ fresh) : name ∉ path :=
  fun hpath => (List.nodup_append.mp h.distinct).2.2 name hname name hpath rfl

/-- A name that could be passed but is not fresh closes a cycle. -/
theorem exists_cycle (h : Trail R P root fresh path name) (hname : P name) (hold : name ∉ fresh) :
    ∃ before, Cycle R root before (Constant.cycleAt path name) ∧
      ∀ n ∈ before ++ Constant.cycleAt path name, n ∈ path := by
  have hpath := (List.mem_append.mp (h.cover name hname)).resolve_left hold
  obtain ⟨before, rest, rfl, hnew⟩ := List.eq_append_cons_of_mem hpath
  have hcycle : Constant.cycleAt (before ++ name :: rest) name = name :: rest ++ [name] := by
    have hbefore : before.dropWhile (· ≠ name) = [] :=
      by simpa using fun n hn (heq : n = name) => hnew (heq ▸ hn)
    rw [Constant.cycleAt, List.dropWhile_append, hbefore]
    simp
  have hwhole : before ++ (name :: rest ++ [name]) = before ++ name :: rest ++ [name] :=
    (List.append_assoc ..).symm
  have hnodup := (List.nodup_append.mp h.distinct).2.1
  obtain ⟨-, hround, hapart⟩ := List.nodup_append.mp hnodup
  rw [hcycle]
  refine ⟨before, ?_, fun n hn => ?_⟩
  rotate_left
  · rw [hwhole] at hn
    exact (List.mem_append.mp hn).elim id fun hn => List.mem_singleton.mp hn ▸ hpath
  constructor
  case long => simp
  case closed => rw [List.getLast?_concat]; rfl
  case distinct => rwa [List.dropLast_concat]
  case linked => rw [hwhole]; exact h.linked
  case root => rw [hwhole]; exact h.root
  case apart =>
    intro n hn hmem
    rcases List.mem_append.mp hmem with hmem | hmem
    · exact hapart n hn n hmem rfl
    · exact hnew (List.mem_singleton.mp hmem ▸ hn)

end Trail

theorem exists_next_of_mem_dropLast {l : List String} (h : l.IsChain R) {n : String} (hn : n ∈ l.dropLast) :
    ∃ m ∈ l, R n m := by
  induction l with
  | nil => cases hn
  | cons a rest ih =>
    cases rest with
    | nil => cases hn
    | cons b rest =>
      obtain ⟨hab, hrest⟩ := List.isChain_cons_cons.mp h
      rcases List.mem_cons.mp hn with rfl | hn
      · exact ⟨b, by simp, hab⟩
      · obtain ⟨m, hm, hnm⟩ := ih hrest hn
        exact ⟨m, List.mem_cons_of_mem _ hm, hnm⟩

theorem Cycle.eq_round {before chain : List String} (h : Cycle R root before chain) :
    ∃ first body, chain = first :: body ++ [first] := by
  obtain ⟨hlong, hclosed, -⟩ := h
  cases chain with
  | nil => cases hlong
  | cons first rest =>
    rcases List.eq_nil_or_concat' rest with rfl | ⟨body, last, rfl⟩
    · simp at hlong
    · rw [← List.cons_append, List.getLast?_concat] at hclosed
      exact ⟨first, body, by rw [Option.some.inj hclosed]; rfl⟩

/-- Every name of a cycle goes on to a name of it. -/
theorem Cycle.exists_next {before chain : List String} (h : Cycle R root before chain) {n : String}
    (hn : n ∈ before ++ chain) : ∃ m ∈ before ++ chain, R n m := by
  obtain ⟨first, body, rfl⟩ := h.eq_round
  apply exists_next_of_mem_dropLast h.linked
  rw [← List.append_assoc, List.dropLast_concat]
  simp only [List.mem_append, List.mem_cons, List.not_mem_nil, or_false] at hn ⊢
  tauto

/-! ### Constants -/

/-- A constant or a label that is defined as another name. -/
def Spec.Cites (spec : Spec) (outer inner : String) : Prop :=
  ∃ place, spec.Assigns outer (.constant inner place)

variable {spec : Spec}

/-- A name that is defined as another has a value only if that name has one. -/
theorem Spec.Cites.leads (hdistinct : spec.names.Nodup) {inner : String} (h : spec.Cites name inner)
    {chain : List String} {n : Int} (hleads : spec.Leads (name :: chain) n) :
    ∃ rest, chain = inner :: rest ∧ spec.Leads (inner :: rest) n := by
  obtain ⟨place, hassigns⟩ := h
  obtain ⟨x, hx, hname, hvalue⟩ := Symbol.assigns_iff.mp hassigns
  have hfind := (Symbol.find?_ofSpec_eq_some_iff hdistinct).mpr ⟨hx, hname⟩
  exact Symbol.leads_of_value? hdistinct hfind hvalue hleads

/-- No name of a cycle has a value, as its chain would never end. -/
theorem Cycle.not_denotes (hdistinct : spec.names.Nodup) {before chain : List String}
    (h : Cycle spec.Cites root before chain) {n : String} (hn : n ∈ before ++ chain) (k : Int) :
    ¬ spec.Denotes n k := by
  rintro ⟨rest, -, hleads⟩
  induction rest generalizing n with
  | nil =>
    obtain ⟨m, -, hcites⟩ := h.exists_next hn
    obtain ⟨rest, hrest, -⟩ := hcites.leads hdistinct hleads
    cases hrest
  | cons next rest ih =>
    obtain ⟨m, hm, hcites⟩ := h.exists_next hn
    obtain ⟨_, ⟨⟩, hleads⟩ := hcites.leads hdistinct hleads
    exact ih hm hleads

/-- A fault other than a cycle. -/
def SpecError.NotCyclic (e : SpecError) : Prop := ∀ chain, e.fault ≠ .cyclic chain

namespace Constant

open XdrSchema.Symbol

/-- To follow a name that is not defined as a value closes no cycle. -/
theorem failsWith_follow_of_not_assigned (hdistinct : spec.names.Nodup) {fresh : List Symbol}
    {path : List String} {span : Option Span} (h : ¬ ∃ v, spec.Assigns name v) :
    FailsWith SpecError.NotCyclic (follow (ofSpec spec) fresh path name span) := by
  rw [follow]
  cases hfind : find? (ofSpec spec) name with
  | none => exact failsWith_error (by rintro chain ⟨⟩)
  | some s =>
    have hvalue (v : Spec.Value) : s.meaning.value? ≠ some v := fun hv =>
      h ⟨v, (assigns_iff_value? hdistinct hfind).mpr hv⟩
    obtain ⟨sname, sspan, meaning⟩ := s
    cases meaning with
    | builtin n => exact failsWith_ok n
    | type k d => exact failsWith_error (by rintro chain ⟨⟩)
    | constant v | label owner v => exact absurd rfl (hvalue v)

/-- Following a name fails with a cycle only if one can be walked from where it started. -/
theorem exists_cycle_of_follow (hdistinct : spec.names.Nodup) (fresh : List Symbol) (path : List String)
    (name : String) (span : Option Span)
    (htrail : Trail spec.Cites (∃ v, spec.Assigns · v) root (fresh.map (·.name)) path name) :
    FailsWith (fun e => ∀ chain, e.fault = .cyclic chain → ∃ before, Cycle spec.Cites root before chain)
      (follow (ofSpec spec) fresh path name span) := by
  by_cases hassigned : ∃ v, spec.Assigns name v
  · obtain ⟨v, hassigns⟩ := hassigned
    obtain ⟨s, hs, hname, hvalue⟩ := assigns_iff.mp hassigns
    rw [follow_eq_of_value? ((find?_ofSpec_eq_some_iff hdistinct).mpr ⟨hs, hname⟩) hvalue]
    by_cases hmem : name ∈ fresh.map (·.name)
    · rw [if_pos hmem]
      cases v with
      | literal n text place =>
        dsimp only
        split
        · exact failsWith_ok n
        · exact failsWith_error fun _ h => nomatch h
      | constant next place =>
        have hnext := htrail.step hmem ⟨place, hassigns⟩
        rw [← map_eraseP_key Symbol.name] at hnext
        exact exists_cycle_of_follow hdistinct _ _ next (some place) hnext
    · rw [if_neg hmem]
      obtain ⟨before, hcycle, -⟩ := htrail.exists_cycle ⟨v, hassigns⟩ hmem
      refine failsWith_error ?_
      rintro _ ⟨⟩
      exact ⟨before, hcycle⟩
  · intro e he chain hchain
    exact absurd hchain (failsWith_follow_of_not_assigned hdistinct hassigned e he chain)
termination_by fresh.length
decreasing_by exact length_eraseP_key_lt hmem

variable (hdistinct : spec.names.Nodup)

include hdistinct

theorem exists_cycle_of_valueOf (name : String) (span : Option Span) :
    FailsWith (fun e => ∀ chain, e.fault = .cyclic chain → ∃ before, Cycle spec.Cites name before chain)
      (valueOf (ofSpec spec) name span) := by
  refine exists_cycle_of_follow hdistinct _ [] name span (.start (map_name_ofSpec ▸ hdistinct) ?_ name)
  rintro n ⟨v, hv⟩
  obtain ⟨x, hx, rfl, -⟩ := assigns_iff.mp hv
  exact List.mem_map_of_mem hx

/-- The cycle at which the constants cannot be checked in order is walked to from the first without a
value. -/
theorem exists_cycle_of_checkAll {e : SpecError} {chain : List String} (hchain : e.fault = .cyclic chain)
    (h : checkAll (ofSpec spec) = .error e) :
    ∃ first x rest before, ofSpec spec = first ++ x :: rest ∧ Cycle spec.Cites x.name before chain ∧
      ∀ y ∈ first, ∀ v, spec.Assigns y.name v → ∃ n, spec.Denotes y.name n := by
  obtain ⟨first, x, rest, hsymbols, hfirst, hx⟩ := exists_of_forM_eq_error h
  have hcycle : ∃ before, Cycle spec.Cites x.name before chain := by
    have hvalueOf : (do let _ ← valueOf (ofSpec spec) x.name x.span) = Except.error e := by
      cases hkind : x.kind <;> rw [hkind] at hx
      · exact hx
      · exact hx
      · cases hx
    cases hvalue : valueOf (ofSpec spec) x.name x.span with
    | ok n =>
      rw [hvalue] at hvalueOf
      cases hvalueOf
    | error e' =>
      rw [hvalue] at hvalueOf
      cases hvalueOf
      exact exists_cycle_of_valueOf hdistinct x.name x.span e hvalue chain hchain
  obtain ⟨before, hcycle⟩ := hcycle
  refine ⟨first, x, rest, before, hsymbols, hcycle, fun y hy v hv => ?_⟩
  have hvalue := (assigns_iff_value? hdistinct ((find?_ofSpec_eq_some_iff hdistinct).mpr
    ⟨hsymbols ▸ List.mem_append_left _ hy, rfl⟩)).mp hv
  have hy := hfirst y hy
  obtain ⟨name, span, meaning⟩ := y
  cases meaning with
  | builtin n | type k d => cases hvalue
  | constant w | label owner w =>
    obtain ⟨n, hn, -⟩ := bind_eq_ok_iff.mp hy
    exact ⟨n, (valueOf_eq_ok_iff hdistinct).mp hn⟩

/-! When every constant has a value, no cycle is found any more. -/

variable (hconstants : ∀ name v, spec.Assigns name v → ∃ n, spec.Denotes name n)

include hconstants

theorem failsWith_valueOf (name : String) (span : Option Span) :
    FailsWith SpecError.NotCyclic (valueOf (ofSpec spec) name span) := by
  by_cases hassigned : ∃ v, spec.Assigns name v
  · obtain ⟨v, hassigns⟩ := hassigned
    obtain ⟨n, hn⟩ := hconstants name v hassigns
    rw [(valueOf_eq_ok_iff hdistinct).mpr hn]
    exact failsWith_ok n
  · exact failsWith_follow_of_not_assigned hdistinct hassigned

theorem failsWith_evaluate (v : Spec.Value) :
    FailsWith SpecError.NotCyclic (evaluate (ofSpec spec) v) := by
  cases v with
  | literal n text span => exact failsWith_ok n
  | constant name span => exact failsWith_valueOf hdistinct hconstants name (some span)

theorem failsWith_bound (v : Spec.Value) : FailsWith SpecError.NotCyclic (bound (ofSpec spec) v) := by
  refine (failsWith_evaluate hdistinct hconstants v).bind fun n _ => ?_
  split
  · exact failsWith_ok n.toNat
  · exact failsWith_error nofun

end Constant

end XdrSchema
