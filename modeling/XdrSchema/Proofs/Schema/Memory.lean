import Mathlib.Logic.Function.Basic
import XdrSchema.Proofs.Strict.Constant

/-! Evaluation of constants with a memory. A name is untouched, begun or done with its value; the names that are
begun stand on a stack, and meeting one of them closes a cycle. Main statement: `evaluation_follows_chain`, in
whatever order names are evaluated, each comes to what its chain of names ends in, and a value that is kept stays. -/
namespace XdrSchema

/-! ### Chains of names -/

namespace Spec

variable (spec : Spec)

/-- A constant or a label, the place of its name, and what it is defined as. -/
def Defines (name : String) (at' : Span) (v : Value) : Prop :=
  ∃ d ∈ spec.definitions, d.name = name ∧ d.nameSpan = at' ∧ d.body = .const v ∨
    ∃ m ∈ d.body.members, m.name = name ∧ m.span = at' ∧ m.value = v

/-- The chain of `name`, which is referred to at `span`, passes some names, each defined as the next, and comes to
a name that is referred to at some place. -/
inductive Passes (name : String) (span : Option Span) : List String → String → Option Span → Prop
  | start : Passes name span [] name span
  | next {passed : List String} {last next : String} {place : Option Span} {at' place' : Span}
      (h : Passes name span passed last place) (hnext : spec.Defines last at' (.constant next place')) :
      Passes name span (passed ++ [last]) next (some place')

/-- What it means for a chain that has passed some names to come to `last`, where it does not go on. -/
inductive EndsAs (passed : List String) (last : String) (place : Option Span) : Except SpecError Int → Prop
  | true (h : last = "TRUE") : EndsAs passed last place (.ok 1)
  | false (h : last = "FALSE") : EndsAs passed last place (.ok 0)
  | number {at' span : Span} {n : Int} {text : String} (h : spec.Defines last at' (.literal n text span))
      (hn : -2 ^ 63 ≤ n ∧ n < 2 ^ 63) : EndsAs passed last place (.ok n)
  | wide {at' span : Span} {n : Int} {text : String} (h : spec.Defines last at' (.literal n text span))
      (hn : ¬ (-2 ^ 63 ≤ n ∧ n < 2 ^ 63)) : EndsAs passed last place (.error ⟨.notConstant last .wide, some at'⟩)
  | unknown (h : last ∉ spec.names) : EndsAs passed last place (.error ⟨.undefined last, place⟩)
  | type {d : Definition} {k : TypeKind} (hd : d ∈ spec.definitions) (hname : d.name = last)
      (hkind : Schema.Scope.kindOf? d = some k) :
      EndsAs passed last place (.error ⟨.notConstant last (.names last (.type k)), place⟩)
  | repeated (h : last ∈ passed) :
      EndsAs passed last place (.error ⟨.cyclic (Constant.cycleAt passed last), place⟩)

/-- What the chain of `name` ends in, once it ends or comes to a name for the second time. -/
def Concludes (name : String) (span : Option Span) (r : Except SpecError Int) : Prop :=
  ∃ passed last place, spec.Passes name span passed last place ∧ passed.Nodup ∧ spec.EndsAs passed last place r

end Spec

namespace Constant

open XdrSchema.Symbol

variable {spec : Spec}

theorem defines_iff {name : String} {at' : Span} {v : Spec.Value} : spec.Defines name at' v ↔
    ∃ x ∈ ofSpec spec, x.name = name ∧ x.span = some at' ∧ x.meaning.value? = some v := by
  have hbuiltin : ¬ ∃ x ∈ builtins, x.name = name ∧ x.span = some at' ∧ x.meaning.value? = some v := by
    simp [builtins, Meaning.value?]
  rw [exists_mem_ofSpec, or_iff_right hbuiltin]
  refine exists_congr fun d => and_congr_right fun _ => ?_
  obtain ⟨dname, body, span, nameSpan⟩ := d
  cases body <;> simp [ofDefinition, Spec.Body.members, Meaning.value?]

theorem assigns_of_defines {name : String} {at' : Span} {v : Spec.Value} (h : spec.Defines name at' v) :
    spec.Assigns name v := by
  obtain ⟨x, hx, hname, -, hvalue⟩ := defines_iff.mp h
  exact assigns_iff.mpr ⟨x, hx, hname, hvalue⟩

/-- What a symbol of a value is defined as, and where. -/
theorem defines_of_find? {name : String} {s : Symbol} {v : Spec.Value} (hfind : find? (ofSpec spec) name = some s)
    (hvalue : s.meaning.value? = some v) : ∃ at', s.span = some at' ∧ spec.Defines name at' v := by
  have hs := List.mem_of_find?_eq_some hfind
  have hname : s.name = name := by simpa using List.find?_some hfind
  have hspan : ∃ at', s.span = some at' := by
    rcases List.mem_append.mp hs with hs | hs
    · simp only [builtins, List.mem_cons, List.not_mem_nil, or_false] at hs
      rcases hs with rfl | rfl <;> cases hvalue
    · obtain ⟨⟨dname, body, span, nameSpan⟩, -, hs⟩ := List.mem_flatMap.mp hs
      cases body <;> simp [ofDefinition] at hs <;> rcases hs with rfl | ⟨m, -, rfl⟩ <;> exact ⟨_, rfl⟩
  obtain ⟨at', hat⟩ := hspan
  exact ⟨at', hat, defines_iff.mpr ⟨s, hs, hname, hat, hvalue⟩⟩

/-! ### Following a chain -/

section Follow

variable {name : String} {span : Option Span}

/-- What is fresh after some names are passed. -/
structure Fresh (spec : Spec) (fresh : List Symbol) (passed : List String) : Prop where
  distinct : (fresh.map (·.name)).Nodup
  mem_iff : ∀ x ∈ ofSpec spec, x.name ∈ fresh.map (·.name) ↔ x.name ∉ passed

theorem fresh_start (hdistinct : spec.names.Nodup) : Fresh spec (ofSpec spec) [] :=
  ⟨map_name_ofSpec ▸ hdistinct, fun _ hx => iff_of_true (List.mem_map_of_mem hx) List.not_mem_nil⟩

theorem Fresh.next {fresh : List Symbol} {passed : List String} (h : Fresh spec fresh passed) (last : String) :
    Fresh spec (fresh.eraseP (·.name = last)) (passed ++ [last]) := by
  have herase := map_eraseP_key Symbol.name fresh last
  refine ⟨herase ▸ h.distinct.erase last, fun x hx => ?_⟩
  rw [herase, h.distinct.mem_erase_iff, h.mem_iff x hx, List.mem_append, List.mem_singleton, not_or, and_comm]

theorem Fresh.mem_of_defines {fresh : List Symbol} {passed : List String} (h : Fresh spec fresh passed)
    {last : String} {at' : Span} {v : Spec.Value} (hdefines : spec.Defines last at' v) :
    last ∈ fresh.map (·.name) ↔ last ∉ passed := by
  obtain ⟨x, hx, rfl, -⟩ := defines_iff.mp hdefines
  exact h.mem_iff x hx

theorem follow_of_defines (hdistinct : spec.names.Nodup) {fresh : List Symbol} {passed : List String}
    (hfresh : Fresh spec fresh passed) {last : String} {place : Option Span} {at' : Span} {v : Spec.Value} :
    spec.Defines last at' v → follow (ofSpec spec) fresh passed last place =
      if last ∈ passed then throw ⟨.cyclic (cycleAt passed last), place⟩
      else match v with
        | .literal n _ _ => if isSigned64 n then return n else throw ⟨.notConstant last .wide, some at'⟩
        | .constant next place' =>
          follow (ofSpec spec) (fresh.eraseP (·.name = last)) (passed ++ [last]) next (some place') := by
  intro hdefines
  obtain ⟨⟨xname, xspan, meaning⟩, hx, hname, hspan, hvalue⟩ := defines_iff.mp hdefines
  obtain rfl : xspan = some at' := hspan
  have hfind := (find?_ofSpec_eq_some_iff hdistinct).mpr ⟨hx, hname⟩
  have hmem := hfresh.mem_of_defines hdefines
  by_cases hpassed : last ∈ passed
  · exact (follow_eq_of_value? hfind hvalue).trans ((if_neg fun h => hmem.mp h hpassed).trans (if_pos hpassed).symm)
  · refine (follow_eq_of_value? hfind hvalue).trans ((if_pos (hmem.mpr hpassed)).trans ?_)
    refine Eq.trans ?_ (if_neg hpassed).symm
    cases v <;> rfl

/-- A chain that goes on is followed. -/
theorem valueOf_of_passes (hdistinct : spec.names.Nodup) {passed : List String} {last : String}
    {place : Option Span} (h : spec.Passes name span passed last place) (hpassed : passed.Nodup) :
    ∃ fresh, Fresh spec fresh passed ∧
      valueOf (ofSpec spec) name span = follow (ofSpec spec) fresh passed last place := by
  induction h with
  | start => exact ⟨_, fresh_start hdistinct, rfl⟩
  | @next passed last next place at' place' h hnext ih =>
    have hnew : last ∉ passed := fun hmem => List.disjoint_of_nodup_append hpassed hmem (List.mem_singleton_self _)
    obtain ⟨fresh, hfresh, heq⟩ := ih hpassed.of_append_left
    rw [follow_of_defines hdistinct hfresh hnext, if_neg hnew] at heq
    exact ⟨_, hfresh.next last, heq⟩

theorem defines_unique (hdistinct : spec.names.Nodup) {at₁ at₂ : Span} {v₁ v₂ : Spec.Value}
    (h₁ : spec.Defines name at₁ v₁) (h₂ : spec.Defines name at₂ v₂) : v₁ = v₂ := by
  obtain ⟨x, hx, hname, -, hvalue⟩ := defines_iff.mp h₁
  have hfind := (find?_ofSpec_eq_some_iff hdistinct).mpr ⟨hx, hname⟩
  have hassigns := (assigns_iff_value? hdistinct hfind).mp (assigns_of_defines h₂)
  exact Option.some.inj (hvalue.symm.trans hassigns)

/-- Each name that a chain passes is defined as the next. -/
theorem exists_of_mem_passed {passed : List String} {last : String} {place : Option Span}
    (h : spec.Passes name span passed last place) :
    ∀ n ∈ passed, ∃ at' next place', spec.Defines n at' (.constant next place') := by
  induction h with
  | start => exact fun n hn => absurd hn List.not_mem_nil
  | next h hnext ih => exact List.forall_mem_append.mpr ⟨ih, List.forall_mem_singleton.mpr ⟨_, _, _, hnext⟩⟩

theorem follow_of_endsAs (hdistinct : spec.names.Nodup) {fresh : List Symbol} {passed : List String}
    (hfresh : Fresh spec fresh passed) {last : String} {place : Option Span}
    (hpasses : spec.Passes name span passed last place) {r : Except SpecError Int}
    (h : spec.EndsAs passed last place r) : follow (ofSpec spec) fresh passed last place = r := by
  have hnew {at' place' : Span} {n : Int} {text : String}
      (hdefines : spec.Defines last at' (.literal n text place')) : last ∉ passed := fun hmem => by
    obtain ⟨_, _, _, hconstant⟩ := exists_of_mem_passed hpasses last hmem
    cases defines_unique hdistinct hdefines hconstant
  cases h with
  | true h | false h =>
    subst h
    rw [follow]
    rfl
  | number h hn =>
    rw [follow_of_defines hdistinct hfresh h, if_neg (hnew h)]
    exact if_pos (isSigned64_iff.mpr hn)
  | wide h hn =>
    rw [follow_of_defines hdistinct hfresh h, if_neg (hnew h)]
    exact if_neg (isSigned64_iff.not.mpr hn)
  | unknown h =>
    have hfind : find? (ofSpec spec) last = none := by
      refine List.find?_eq_none.mpr fun x hx heq => h ?_
      rw [← map_name_ofSpec, ← of_decide_eq_true heq]
      exact List.mem_map_of_mem hx
    rw [follow, hfind]
    rfl
  | type hd hname hkind =>
    obtain ⟨x, hx, hxname, hmeaning⟩ := type_iff.mpr ⟨hd, hname, hkind⟩
    have hfind := (find?_ofSpec_eq_some_iff hdistinct).mpr ⟨hx, hxname⟩
    exact follow_of_type hfind (congrArg Meaning.kind hmeaning)
  | repeated h =>
    obtain ⟨_, _, _, hconstant⟩ := exists_of_mem_passed hpasses last h
    rw [follow_of_defines hdistinct hfresh hconstant, if_pos h]
    rfl

theorem builtin_cases {x : Symbol} (hx : x ∈ ofSpec spec) {n : Int} (hmeaning : x.meaning = .builtin n) :
    x.name = "TRUE" ∧ n = 1 ∨ x.name = "FALSE" ∧ n = 0 := by
  rcases List.mem_append.mp hx with hx | hx
  · simp only [builtins, List.mem_cons, List.not_mem_nil, or_false] at hx
    rcases hx with rfl | rfl <;> cases hmeaning
    · exact .inl ⟨rfl, rfl⟩
    · exact .inr ⟨rfl, rfl⟩
  · obtain ⟨⟨name, body, span, nameSpan⟩, -, hx⟩ := List.mem_flatMap.mp hx
    cases body <;> simp [ofDefinition] at hx <;> rcases hx with rfl | ⟨m, -, rfl⟩ <;> cases hmeaning

/-- Following comes to the end of the chain. -/
theorem concludes_follow (hdistinct : spec.names.Nodup) (fresh : List Symbol) (passed : List String) (last : String)
    (place : Option Span) (hfresh : Fresh spec fresh passed) (hpassed : passed.Nodup)
    (hpasses : spec.Passes name span passed last place) :
    spec.Concludes name span (follow (ofSpec spec) fresh passed last place) := by
  have hends {r : Except SpecError Int} (h : spec.EndsAs passed last place r) :
      spec.Concludes name span (follow (ofSpec spec) fresh passed last place) := by
    rw [follow_of_endsAs hdistinct hfresh hpasses h]
    exact ⟨passed, last, place, hpasses, hpassed, h⟩
  cases hfind : find? (ofSpec spec) last with
  | none =>
    refine hends (.unknown fun hmem => ?_)
    rw [← map_name_ofSpec] at hmem
    obtain ⟨x, hx, hname⟩ := List.mem_map.mp hmem
    simpa [hname] using List.find?_eq_none.mp hfind x hx
  | some s =>
    obtain ⟨hs, hname⟩ := (find?_ofSpec_eq_some_iff hdistinct).mp hfind
    by_cases htype : ∃ k, s.kind = .type k
    · obtain ⟨k, hk⟩ := htype
      obtain ⟨sname, sspan, meaning⟩ := s
      cases meaning with
      | type k' d =>
        cases hk
        obtain ⟨hd, hdname, hkind⟩ := type_iff.mp ⟨_, hs, hname, rfl⟩
        exact hends (.type hd hdname hkind)
      | _ => cases hk
    rcases meaning_of_not_type fun k hk => htype ⟨k, hk⟩ with ⟨n, hn⟩ | ⟨v, hvalue⟩
    · rcases builtin_cases hs hn with ⟨htrue, rfl⟩ | ⟨hfalse, rfl⟩
      · exact hends (.true (hname ▸ htrue))
      · exact hends (.false (hname ▸ hfalse))
    · obtain ⟨at', -, hdefines⟩ := defines_of_find? hfind hvalue
      by_cases hmem : last ∈ passed
      · exact hends (.repeated hmem)
      cases v with
      | literal n text place' =>
        by_cases hn : -2 ^ 63 ≤ n ∧ n < 2 ^ 63
        · exact hends (.number hdefines hn)
        · exact hends (.wide hdefines hn)
      | constant next place' =>
        rw [follow_of_defines hdistinct hfresh hdefines, if_neg hmem]
        have hnodup : (passed ++ [last]).Nodup := List.nodup_append_comm.mp (List.nodup_cons.mpr ⟨hmem, hpassed⟩)
        exact concludes_follow hdistinct _ _ next (some place') (hfresh.next last) hnodup (.next hpasses hdefines)
termination_by fresh.length
decreasing_by exact length_eraseP_key_lt ((hfresh.mem_of_defines hdefines).mpr hmem)

/-- The value of a name is what its chain ends in. -/
theorem concludes_iff (hdistinct : spec.names.Nodup) {r : Except SpecError Int} :
    spec.Concludes name span r ↔ valueOf (ofSpec spec) name span = r := by
  constructor
  · rintro ⟨passed, last, place, hpasses, hpassed, hends⟩
    obtain ⟨fresh, hfresh, heq⟩ := valueOf_of_passes hdistinct hpasses hpassed
    rw [heq, follow_of_endsAs hdistinct hfresh hpasses hends]
  · rintro rfl
    exact concludes_follow hdistinct _ _ name span (fresh_start hdistinct) List.nodup_nil .start

end Follow

/-! ### Evaluation with a memory -/

/-- How far the evaluation of a name has come. -/
inductive Stage
  | untouched
  | begun
  | done (value : Int)
deriving DecidableEq

/-- What is known of the names, and those that are being evaluated, the first one begun first. -/
structure Memory where
  stage : String → Stage
  stack : List String

namespace Memory

open Outcome (raise breach)

/-- Before the first evaluation only the truth values are known. -/
def start (symbols : List Symbol) : Memory where
  stage name :=
    match find? symbols name with
    | some ⟨_, _, .builtin n⟩ => .done n
    | _ => .untouched
  stack := []

def enter (m : Memory) (name : String) : Memory := ⟨Function.update m.stage name .begun, m.stack ++ [name]⟩

/-- Takes the last name from the stack. It stays begun, unless it is settled then. -/
def leave (m : Memory) : Memory := { m with stack := m.stack.dropLast }

def settle (m : Memory) (name : String) (n : Int) : Memory :=
  { m with stage := Function.update m.stage name (.done n) }

section Stages

variable {m : Memory} {name other : String} {n : Int}

theorem stage_enter_self : (m.enter name).stage name = .begun := Function.update_self _ _ _

theorem stage_enter_of_ne (h : other ≠ name) : (m.enter name).stage other = m.stage other :=
  Function.update_of_ne h _ _

theorem stage_settle_self : (m.settle name n).stage name = .done n := Function.update_self _ _ _

theorem stage_settle_of_ne (h : other ≠ name) : (m.settle name n).stage other = m.stage other :=
  Function.update_of_ne h _ _

theorem ne_of_stage_ne (h : m.stage other ≠ m.stage name) : other ≠ name := fun heq => h (heq ▸ rfl)

end Stages

/-- Keeps the value that was found for a name, which is introduced at `span`. -/
def keep (m : Memory) (name : String) (span : Option Span) : Outcome Int → Outcome Int × Memory
  | .error e => (.error e, m)
  | .ok n => if isSigned64 n then (.ok n, m.settle name n) else (raise ⟨.notConstant name .wide, span⟩, m)

/-- The symbols whose evaluation has not begun. -/
def untouched (m : Memory) (symbols : List Symbol) : List Symbol :=
  symbols.filter fun s => m.stage s.name = .untouched

theorem length_untouched_enter_lt {m : Memory} {symbols : List Symbol} {name : String} {s : Symbol}
    (hfind : find? symbols name = some s) (hstage : m.stage name = .untouched) :
    ((m.enter name).untouched symbols).length < (m.untouched symbols).length := by
  have hname : s.name = name := by simpa using List.find?_some hfind
  have hfewer : (m.enter name).untouched symbols = (m.untouched symbols).filter (·.name ≠ name) := by
    rw [untouched, untouched, List.filter_filter]
    refine List.filter_congr fun x _ => ?_
    by_cases hx : x.name = name <;> simp [enter, hx]
  rw [hfewer, List.length_filter_lt_length_iff_exists]
  exact ⟨s, List.mem_filter.mpr ⟨List.mem_of_find?_eq_some hfind, by simp [hname, hstage]⟩, by simp [hname]⟩

/-- The value of a name that is referred to at `span`. -/
def valueOf (symbols : List Symbol) (m : Memory) (name : String) (span : Option Span) : Outcome Int × Memory :=
  match _hfind : find? symbols name with
  | none => (raise ⟨.undefined name, span⟩, m)
  | some s =>
    match s.kind with
    | .type k => (raise ⟨.notConstant name (.names name (.type k)), span⟩, m)
    | _ =>
      match _hstage : m.stage name with
      | .done n => (.ok n, m)
      | .begun =>
        if name ∈ m.stack then (raise ⟨.cyclic (cycleAt m.stack name), span⟩, m)
        else (breach (.assertion "a name in progress is on the stack"), m)
      | .untouched =>
        let (found, m') := match s.meaning.value? with
          | none => (breach (.assertion "the node of a value is a constant or a label"), m.enter name)
          | some (.literal n _ _) => (.ok n, m.enter name)
          | some (.constant next place) => valueOf symbols (m.enter name) next (some place)
        m'.leave.keep name s.span found
termination_by (m.untouched symbols).length
decreasing_by exact length_untouched_enter_lt _hfind _hstage

theorem keep_keeps {m : Memory} {name other : String} {span : Option Span} {found : Outcome Int} {n : Int}
    (hne : other ≠ name) (h : m.stage other = .done n) : (m.keep name span found).2.stage other = .done n := by
  cases found with
  | error e => exact h
  | ok k =>
    by_cases hfits : isSigned64 k
    · rw [keep, if_pos hfits]
      exact (stage_settle_of_ne hne).trans h
    · rw [keep, if_neg hfits]
      exact h

/-- A value that is kept stays, however the evaluation of another name ends. -/
theorem valueOf_keeps {symbols : List Symbol} {m : Memory} {name other : String} {span : Option Span} {n : Int}
    (h : m.stage other = .done n) : (valueOf symbols m name span).2.stage other = .done n := by
  fun_induction valueOf symbols m name span with
  | case1 | case2 | case3 | case4 | case5 => exact h
  | case6 m name span s hfind hstage found m' hfound _ ih =>
    have hne : other ≠ name := ne_of_stage_ne (by rw [h, hstage]; exact nofun)
    have hentered : (m.enter name).stage other = .done n := (stage_enter_of_ne hne).trans h
    refine keep_keeps hne ?_
    split at hfound
    · cases hfound
      exact hentered
    · cases hfound
      exact hentered
    · next next place _ =>
      have hkept := ih next place hentered
      rw [hfound] at hkept
      exact hkept

/-! ### The same as following -/

/-- A memory while the names that a chain has passed are begun. What is done is so for the names of a whole
chain. -/
structure Running (spec : Spec) (fresh : List Symbol) (passed : List String) (m : Memory) : Prop where
  fresh : Fresh spec fresh passed
  stack : m.stack = passed
  begun : ∀ name, m.stage name = .begun ↔ name ∈ passed
  done : ∀ name n, m.stage name = .done n → ∃ chain, (name :: chain).Nodup ∧ spec.Leads (name :: chain) n ∧
    ∀ x ∈ name :: chain, ∃ k, m.stage x = .done k
  builtins : ∀ x ∈ ofSpec spec, ∀ n, x.meaning = .builtin n → m.stage x.name = .done n

variable {fresh : List Symbol} {passed : List String} {m : Memory} {name : String}

theorem Running.not_passed (h : Running spec fresh passed m) {n : Int} (hdone : m.stage name = .done n) :
    name ∉ passed := by
  rw [← h.begun, hdone]
  exact nofun

theorem Running.follow_of_done (hdistinct : spec.names.Nodup) (h : Running spec fresh passed m) {n : Int}
    (hdone : m.stage name = .done n) (span : Option Span) :
    follow (ofSpec spec) fresh passed name span = .ok n := by
  obtain ⟨chain, hnodup, hleads, hall⟩ := h.done name n hdone
  refine (follow_eq_ok_iff hdistinct fresh h.fresh.distinct passed name span).mpr
    ⟨chain, hnodup, hleads, fun x hx v hv => ?_⟩
  obtain ⟨k, hk⟩ := hall x hx
  obtain ⟨y, hy, rfl, -⟩ := assigns_iff.mp hv
  exact (h.fresh.mem_iff y hy).mpr (h.not_passed hk)

theorem Running.exists_defines (hdistinct : spec.names.Nodup) (h : Running spec fresh passed m) {s : Symbol}
    (hfind : find? (ofSpec spec) name = some s) (hkind : ∀ k, s.kind = .type k → False)
    (hstage : ∀ n, m.stage name ≠ .done n) :
    ∃ at' v, s.span = some at' ∧ s.meaning.value? = some v ∧ spec.Defines name at' v := by
  obtain ⟨hs, rfl⟩ := (find?_ofSpec_eq_some_iff hdistinct).mp hfind
  rcases meaning_of_not_type hkind with ⟨n, hn⟩ | ⟨v, hvalue⟩
  · exact absurd (h.builtins s hs n hn) (hstage n)
  · obtain ⟨at', hat, hdefines⟩ := defines_of_find? hfind hvalue
    exact ⟨at', v, hat, hvalue, hdefines⟩

theorem Running.enter (h : Running spec fresh passed m) (hstage : m.stage name = .untouched) :
    Running spec (fresh.eraseP (·.name = name)) (passed ++ [name]) (m.enter name) := by
  have hkept {x : String} {k : Int} (hx : m.stage x = .done k) : (m.enter name).stage x = .done k :=
    (stage_enter_of_ne (ne_of_stage_ne (by rw [hx, hstage]; exact nofun))).trans hx
  refine ⟨h.fresh.next name, congrArg (· ++ [name]) h.stack, fun x => ?_, fun x n hx => ?_,
    fun x hx n hn => hkept (h.builtins x hx n hn)⟩
  · rw [List.mem_append, List.mem_singleton]
    by_cases hne : x = name
    · exact iff_of_true (hne ▸ stage_enter_self) (.inr hne)
    · rw [stage_enter_of_ne hne, h.begun, or_iff_left hne]
  · have hne : x ≠ name := ne_of_stage_ne (by rw [hx, stage_enter_self]; exact nofun)
    obtain ⟨chain, hnodup, hleads, hall⟩ := h.done x n ((stage_enter_of_ne hne).symm.trans hx)
    exact ⟨chain, hnodup, hleads, fun y hy => (hall y hy).imp fun _ hk => hkept hk⟩

/-- When the evaluation of a name has come to a value, the name is done with it, like the others of its chain. -/
theorem Running.settle (h : Running spec fresh passed m) (hnew : name ∉ passed) {m' : Memory}
    (h' : Running spec (fresh.eraseP (·.name = name)) (passed ++ [name]) m') {n : Int} {chain : List String}
    (hleads : spec.Leads (name :: chain) n) (hnodup : chain.Nodup)
    (hall : ∀ x ∈ chain, ∃ k, m'.stage x = .done k) : Running spec fresh passed (m'.leave.settle name n) := by
  have hbegun : m'.stage name = .begun := (h'.begun name).mpr (by simp)
  have hother {x : String} {k : Int} (hx : m'.stage x = .done k) : x ≠ name :=
    ne_of_stage_ne (by rw [hx, hbegun]; exact nofun)
  have hkept {x : String} {k : Int} (hx : m'.stage x = .done k) : (m'.leave.settle name n).stage x = .done k :=
    (stage_settle_of_ne (hother hx)).trans hx
  have hstack : m'.leave.stack = passed := by rw [leave, h'.stack, List.dropLast_concat]
  refine ⟨h.fresh, hstack, fun x => ?_, fun x k hx => ?_, fun x hx k hk => hkept (h'.builtins x hx k hk)⟩
  · by_cases hne : x = name
    · subst hne
      rw [stage_settle_self]
      exact iff_of_false nofun hnew
    · rw [stage_settle_of_ne hne]
      exact (h'.begun x).trans (by simp [hne])
  · by_cases hne : x = name
    · subst hne
      obtain rfl : n = k := Stage.done.inj (stage_settle_self.symm.trans hx)
      have hout : x ∉ chain := fun hin => (hall x hin).elim fun _ hk => hother hk rfl
      refine ⟨chain, List.nodup_cons.mpr ⟨hout, hnodup⟩, hleads,
        List.forall_mem_cons.mpr ⟨⟨n, stage_settle_self⟩, fun y hy => ?_⟩⟩
      exact (hall y hy).imp fun _ hk => hkept hk
    · obtain ⟨chain, hnodup, hleads, hall⟩ := h'.done x k ((stage_settle_of_ne hne).symm.trans hx)
      exact ⟨chain, hnodup, hleads, fun y hy => (hall y hy).imp fun _ hk => hkept hk⟩

theorem stage_start (hdistinct : spec.names.Nodup) {n : Int} :
    (start (ofSpec spec)).stage name = .done n ↔ ∃ x ∈ ofSpec spec, x.name = name ∧ x.meaning = .builtin n := by
  unfold start
  dsimp only
  split
  · next xname span k hfind =>
    obtain ⟨hx, rfl⟩ := (find?_ofSpec_eq_some_iff hdistinct).mp hfind
    constructor
    · intro h
      cases h
      exact ⟨_, hx, rfl, rfl⟩
    · rintro ⟨y, hy, hname, hmeaning⟩
      cases eq_of_find? hdistinct hfind hy hname
      cases hmeaning
      rfl
  · next hnot =>
    refine iff_of_false nofun ?_
    rintro ⟨⟨yname, span, meaning⟩, hy, hname, rfl⟩
    exact hnot _ _ _ ((find?_ofSpec_eq_some_iff hdistinct).mpr ⟨hy, hname⟩)

theorem running_start (hdistinct : spec.names.Nodup) : Running spec (ofSpec spec) [] (start (ofSpec spec)) := by
  refine ⟨fresh_start hdistinct, rfl, fun x => iff_of_false ?_ List.not_mem_nil, fun x n hx => ?_, fun x hx n hn => ?_⟩
  · unfold start
    dsimp only
    split <;> exact nofun
  · obtain ⟨y, hy, rfl, hmeaning⟩ := (stage_start hdistinct).mp hx
    exact ⟨[], List.nodup_singleton _, leads_of_builtin hy hmeaning, List.forall_mem_singleton.mpr ⟨n, hx⟩⟩
  · exact (stage_start hdistinct).mpr ⟨x, hx, rfl, hn⟩

theorem agrees_of_fault {e : SpecError} (h : e.fault.OfText) {P : Int → Prop} :
    Outcome.Agrees (raise (α := Int) e, m).1 (throw e) ∧ ∀ n, (throw e : Except SpecError Int) = .ok n → P n :=
  ⟨Outcome.agrees_raise h, nofun⟩

theorem fits_of_leads {chain : List String} {n : Int} (h : spec.Leads chain n) : isSigned64 n = true := by
  induction h with
  | true | false => rfl
  | literal h hn => exact isSigned64_iff.mpr hn
  | constant h hnext ih => exact ih

/-- Evaluating a name does what following it does. When that ends with a value, the value is kept and the memory
is as before otherwise. -/
theorem valueOf_agrees (hdistinct : spec.names.Nodup) (h : Running spec fresh passed m) (name : String)
    (span : Option Span) :
    Outcome.Agrees (valueOf (ofSpec spec) m name span).1 (follow (ofSpec spec) fresh passed name span) ∧
      ∀ n, follow (ofSpec spec) fresh passed name span = .ok n →
        Running spec fresh passed (valueOf (ofSpec spec) m name span).2 ∧
          (valueOf (ofSpec spec) m name span).2.stage name = .done n := by
  fun_induction valueOf (ofSpec spec) m name span generalizing fresh passed with
  | case1 m name span hfind =>
    rw [follow, hfind]
    exact agrees_of_fault (e := ⟨.undefined name, span⟩) trivial
  | case2 m name span s hfind k hk =>
    rw [follow_of_type hfind hk]
    exact agrees_of_fault (e := ⟨.notConstant name (.names name (.type k)), span⟩) trivial
  | case3 m name span s hfind n hstage hkind =>
    rw [h.follow_of_done hdistinct hstage]
    refine ⟨.ok n, ?_⟩
    rintro _ ⟨⟩
    exact ⟨h, hstage⟩
  | case4 m name span s hfind hstage hmem hkind =>
    obtain ⟨at', v, -, -, hdefines⟩ := h.exists_defines hdistinct hfind hkind (by simp [hstage])
    rw [follow_of_defines hdistinct h.fresh hdefines, if_pos (h.stack ▸ hmem), h.stack]
    exact agrees_of_fault (e := ⟨.cyclic (cycleAt passed name), span⟩) trivial
  | case5 m name span s hfind hstage hmem hkind =>
    exact absurd ((h.begun name).mp hstage) (h.stack ▸ hmem)
  | case6 m name span s hfind hstage found m' hfound hkind ih =>
    obtain ⟨at', v, hat, hvalue, hdefines⟩ :=
      h.exists_defines hdistinct hfind hkind (by simp [hstage])
    have hnew : name ∉ passed := fun hmem => by
      cases hstage.symm.trans ((h.begun name).mpr hmem)
    have hentered := h.enter hstage
    rw [follow_of_defines hdistinct h.fresh hdefines, if_neg hnew]
    rw [hvalue] at hfound
    cases v with
    | literal n text place =>
      cases hfound
      dsimp only
      by_cases hfits : isSigned64 n
      · rw [if_pos hfits, keep, if_pos hfits]
        refine ⟨.ok n, ?_⟩
        rintro _ ⟨⟩
        have hleads : spec.Leads [name] n := .literal (assigns_of_defines hdefines) (isSigned64_iff.mp hfits)
        exact ⟨h.settle hnew hentered hleads List.nodup_nil (by simp), stage_settle_self⟩
      · rw [if_neg hfits, keep, if_neg hfits, hat]
        exact agrees_of_fault (e := ⟨.notConstant name .wide, some at'⟩) trivial
    | constant next place =>
      obtain ⟨hagrees, hok⟩ := ih next place hentered
      dsimp only at hfound ⊢
      rw [hfound] at hagrees hok
      dsimp only at hagrees hok
      cases hr : follow (ofSpec spec) (fresh.eraseP (·.name = name)) (passed ++ [name]) next (some place) with
      | error e =>
        rw [hr, Outcome.agrees_error_iff] at hagrees
        rw [hagrees.1]
        exact ⟨.error hagrees.2, fun _ hn => by cases hn⟩
      | ok n =>
        rw [hr, Outcome.agrees_ok_iff] at hagrees
        obtain ⟨h', hnext⟩ := hok n hr
        obtain ⟨chain, hnodup, hleads, hall⟩ := h'.done next n hnext
        rw [hagrees, keep, if_pos (fits_of_leads hleads)]
        refine ⟨.ok n, ?_⟩
        rintro _ ⟨⟩
        exact ⟨h.settle hnew h' (.constant (assigns_of_defines hdefines) hleads) hnodup hall, stage_settle_self⟩

/-- What evaluations that have all succeeded lead to. -/
inductive Reached (symbols : List Symbol) : Memory → Prop
  | start : Reached symbols (start symbols)
  | next {m m' : Memory} {name : String} {span : Option Span} {n : Int} (h : Reached symbols m)
      (hok : valueOf symbols m name span = (.ok n, m')) : Reached symbols m'

theorem Reached.running (hdistinct : spec.names.Nodup) (h : Reached (ofSpec spec) m) :
    Running spec (ofSpec spec) [] m := by
  induction h with
  | start => exact running_start hdistinct
  | @next m m' name span n h hok ih =>
    obtain ⟨hagrees, hkept⟩ := valueOf_agrees hdistinct ih name span
    rw [hok] at hagrees hkept
    cases hr : follow (ofSpec spec) (ofSpec spec) [] name span with
    | error e =>
      rw [hr] at hagrees
      cases hagrees
    | ok k => exact (hkept k hr).1

end Memory

/-- After any evaluations that have succeeded, each name comes to the one thing that its chain ends in, and a
value that it comes to is kept. In no memory does an evaluation change a value that is kept. -/
theorem evaluation_follows_chain (hdistinct : checkDistinct [] (ofSpec spec) = .ok ()) :
    (∀ m, Memory.Reached (ofSpec spec) m → ∀ name span, ∃ r, spec.Concludes name span r ∧
      (∀ r', spec.Concludes name span r' → r' = r) ∧ valueOf (ofSpec spec) name span = r ∧
      Outcome.Agrees (m.valueOf (ofSpec spec) name span).1 r ∧
      ∀ n, r = .ok n → (m.valueOf (ofSpec spec) name span).2.stage name = .done n) ∧
    ∀ (m : Memory) name span other n, m.stage other = .done n →
      (m.valueOf (ofSpec spec) name span).2.stage other = .done n := by
  refine ⟨fun m hm name span => ?_, fun m name span other n => Memory.valueOf_keeps⟩
  have hnames : spec.names.Nodup := map_name_ofSpec ▸ (Schema.checkDistinct_eq_ok_iff.mp hdistinct).1
  obtain ⟨hagrees, hkept⟩ := Memory.valueOf_agrees hnames (hm.running hnames) name span
  refine ⟨_, (concludes_iff hnames).mpr rfl, fun r hr => ((concludes_iff hnames).mp hr).symm, rfl, hagrees, ?_⟩
  exact fun n hn => (hkept n hn).2

/-- Labels between constants, and two constants that are defined as each other. -/
def chainedSpec : Spec :=
  let span : Span := ⟨1, 1, 1, 1⟩
  ⟨[⟨"A", .const (.constant "B" span), span, span⟩, ⟨"E", .enum [⟨"B", .constant "C" span, span⟩], span, span⟩,
    ⟨"C", .const (.literal 7 "7" span), span, span⟩, ⟨"D", .const (.constant "F" span), span, span⟩,
    ⟨"F", .const (.constant "D" span), span, span⟩]⟩

theorem evaluation_follows_chain_sample : checkDistinct [] (ofSpec chainedSpec) = .ok () ∧
    ∃ m, Memory.Reached (ofSpec chainedSpec) m ∧ m.stage "B" = .done 7 ∧
      ∃ r, chainedSpec.Concludes "D" none r ∧ Outcome.Agrees (m.valueOf (ofSpec chainedSpec) "D" none).1 r ∧
        (m.valueOf (ofSpec chainedSpec) "D" none).2.stage "B" = .done 7 := by
  have hdistinct : checkDistinct [] (ofSpec chainedSpec) = .ok () := rfl
  have hfirst : (Memory.valueOf (ofSpec chainedSpec) (.start (ofSpec chainedSpec)) "A" none).1 = .ok 7 :=
    toOption_eq_some_iff.mp (by decide +kernel)
  have hstage : (Memory.valueOf (ofSpec chainedSpec) (.start (ofSpec chainedSpec)) "A" none).2.stage "B" = .done 7 := by
    decide +kernel
  have hreached := Memory.Reached.start.next (Prod.ext hfirst rfl)
  obtain ⟨hends, hkept⟩ := evaluation_follows_chain hdistinct
  obtain ⟨r, hr, -, -, hagrees, -⟩ := hends _ hreached "D" none
  exact ⟨hdistinct, _, hreached, hstage, r, hr, hagrees, hkept _ "D" none "B" 7 hstage⟩

end Constant

end XdrSchema
