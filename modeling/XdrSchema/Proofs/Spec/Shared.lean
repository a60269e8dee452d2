import XdrSchema.Proofs.Schema.Known
import XdrSchema.Proofs.Spec.Unplaced

/-! Two specifications that share some definitions, apart from their places. If these mention only each
other, what the one specification says of them the other one says too. -/
namespace XdrSchema.Spec

open Schema (Ref Selector Variant.Draft)
open Schema.Scope (kindOf?)

/-- The definitions in `K` are in both specifications, and what they mention is in `K` too. -/
structure Shares (spec spec' : Spec) (K : Definition → Prop) : Prop where
  shared : ∀ d ∈ spec.definitions, K d → ∃ d' ∈ spec'.definitions, d'.unplaced = d.unplaced
  closed : ∀ d ∈ spec.definitions, K d → ∀ name ∈ d.body.mentions, ∀ e ∈ spec.definitions,
    name ∈ e.introduces → K e

/-- What introduces the name is in `K`. -/
def Covers (spec : Spec) (K : Definition → Prop) (name : String) : Prop :=
  ∀ d ∈ spec.definitions, name ∈ d.introduces → K d

variable {spec spec' : Spec} {K : Definition → Prop}

/-- A name is introduced once. -/
theorem eq_of_introduces (hdistinct : spec.names.Nodup) {d e : Definition} (hd : d ∈ spec.definitions)
    (he : e ∈ spec.definitions) {name : String} (hname : name ∈ d.introduces)
    (hname' : name ∈ e.introduces) : d = e := by
  have hall : (spec.definitions.flatMap Definition.introduces).Nodup := hdistinct.of_cons.of_cons
  have hapart := (List.nodup_flatMap.mp hall).2
  have hsymm : Std.Symm fun d e : Definition => List.Disjoint d.introduces e.introduces :=
    ⟨fun _ _ h => List.Disjoint.symm h⟩
  by_contra hne
  exact hapart.forall hd he hne hname hname'

theorem covers_of_introduces (hdistinct : spec.names.Nodup) {d : Definition} (hd : d ∈ spec.definitions)
    (hK : K d) {name : String} (hname : name ∈ d.introduces) : Covers spec K name := by
  intro e he hname'
  obtain rfl := eq_of_introduces hdistinct hd he hname hname'
  exact hK

namespace Shares

variable (h : Shares spec spec' K)

include h

theorem covers_of_mentions {d : Definition} (hd : d ∈ spec.definitions) (hK : K d) {name : String}
    (hname : name ∈ d.body.mentions) : Covers spec K name :=
  fun e he hintroduces => h.closed d hd hK name hname e he hintroduces

/-- What is in `K` is in the other specification under its name and with its body. -/
theorem exists_definition {d : Definition} (hd : d ∈ spec.definitions)
    (hname : Covers spec K d.name) :
    ∃ d' ∈ spec'.definitions, d'.name = d.name ∧ d'.body.unplaced = d.body.unplaced := by
  obtain ⟨d', hd', heq⟩ := h.shared d hd (hname d hd List.mem_cons_self)
  exact ⟨d', hd', name_eq_of_unplaced heq, body_eq_of_unplaced heq⟩

/-! ### Constants -/

theorem assigns {name : String} (hname : Covers spec K name) {v : Value} (hv : spec.Assigns name v) :
    ∃ v', spec'.Assigns name v' ∧ v'.unplaced = v.unplaced ∧
      ∀ next, v.name? = some next → Covers spec K next := by
  obtain ⟨d, hd, hv⟩ := hv
  have hintroduces : name ∈ d.introduces := by
    rcases hv with ⟨rfl, -⟩ | ⟨m, hm, rfl, -⟩
    · exact List.mem_cons_self
    · exact List.mem_cons_of_mem _ (List.mem_map_of_mem hm)
  have hK := hname d hd hintroduces
  obtain ⟨d', hd', heq⟩ := h.shared d hd hK
  have hbody : d'.body.unplaced = d.body.unplaced := body_eq_of_unplaced heq
  have hcovers {v : Value} (hv : v ∈ d.body.values) (next : String) (hnext : v.name? = some next) :
      Covers spec K next := h.covers_of_mentions hd hK (mem_mentions_of_value hv hnext)
  rcases hv with ⟨rfl, hconst⟩ | ⟨m, hm, rfl, rfl⟩
  · rw [hconst] at hbody hcovers
    obtain ⟨v', hv', hunplaced⟩ := exists_const_of_unplaced hbody
    exact ⟨v', ⟨d', hd', .inl ⟨name_eq_of_unplaced heq, hv'⟩⟩, hunplaced,
      hcovers (List.mem_singleton_self v)⟩
  · have hm' : m.unplaced ∈ d'.body.members.map Member.unplaced := by
      rw [← members_unplaced, hbody, members_unplaced]
      exact List.mem_map_of_mem hm
    obtain ⟨m', hm', hunplaced⟩ := List.mem_map.mp hm'
    exact ⟨m'.value, ⟨d', hd', .inr ⟨m', hm', memberName_eq_of_unplaced hunplaced, rfl⟩⟩,
      memberValue_eq_of_unplaced hunplaced, hcovers (value_mem_values hm)⟩

theorem leads {chain : List String} {n : Int} (hleads : spec.Leads chain n)
    (hchain : ∀ name ∈ chain.head?, Covers spec K name) : spec'.Leads chain n := by
  induction hleads with
  | true => exact .true
  | false => exact .false
  | @literal name text n span hassigns hn =>
    obtain ⟨v', hv', heq, -⟩ := h.assigns (hchain name rfl) hassigns
    cases v' with
    | literal k text' span' =>
      obtain ⟨rfl, -⟩ := Value.literal.inj heq
      exact .literal hv' hn
    | constant next span' => cases heq
  | @constant name next span chain n hassigns _ ih =>
    obtain ⟨v', hv', heq, hnext⟩ := h.assigns (hchain name rfl) hassigns
    cases v' with
    | literal k text' span' => cases heq
    | constant next' span' =>
      obtain ⟨rfl, -⟩ := Value.constant.inj heq
      refine .constant hv' (ih ?_)
      rintro _ ⟨⟩
      exact hnext next' rfl

theorem denotes {name : String} (hname : Covers spec K name) {n : Int} (hn : spec.Denotes name n) :
    spec'.Denotes name n := by
  obtain ⟨chain, hnodup, hleads⟩ := hn
  refine ⟨chain, hnodup, h.leads hleads ?_⟩
  rintro _ ⟨⟩
  exact hname

theorem evaluates {v v' : Value} (heq : v'.unplaced = v.unplaced)
    (hv : ∀ name, v.name? = some name → Covers spec K name) {n : Int} (hn : spec.Evaluates v n) :
    spec'.Evaluates v' n := by
  rw [← evaluates_unplaced, heq, evaluates_unplaced]
  cases v with
  | literal k text span => exact hn
  | constant name span => exact h.denotes (hv name rfl) hn

theorem bounds {v v' : Value} (heq : v'.unplaced = v.unplaced)
    (hv : ∀ name, v.name? = some name → Covers spec K name) {n : Nat} (hn : spec.Bounds v n) :
    spec'.Bounds v' n :=
  ⟨h.evaluates heq hv hn.1, hn.2⟩

/-! ### Types -/

theorem declares {name : String} (hname : Covers spec K name) {k : TypeKind}
    (hk : spec.Declares name k) : spec'.Declares name k := by
  obtain ⟨d, hd, rfl, hkind⟩ := hk
  obtain ⟨d', hd', heq⟩ := h.shared d hd (hname d hd List.mem_cons_self)
  refine ⟨d', hd', name_eq_of_unplaced heq, ?_⟩
  rw [← kindOf?_unplaced, heq, kindOf?_unplaced, hkind]

theorem isType {name : String} (hname : Covers spec K name) (htype : spec.IsType name) :
    spec'.IsType name := by
  rw [isType_iff_declares] at htype ⊢
  obtain ⟨k, hk⟩ := htype
  exact ⟨k, h.declares hname hk⟩

theorem selects {b : Base String} {selector : Selector} (hselects : spec.Selects b selector)
    (hb : ∀ name, b = .named name → Covers spec K name) : spec'.Selects b selector := by
  induction hselects with
  | int => exact .int
  | unsignedInt => exact .unsignedInt
  | bool => exact .bool
  | @enum d members hd hbody =>
    obtain ⟨d', hd', hname, hbody'⟩ := h.exists_definition hd (hb _ rfl)
    obtain ⟨members', hmembers, -⟩ := exists_enum_of_unplaced (hbody ▸ hbody')
    rw [← hname]
    exact .enum hd' hmembers
  | @typedef d b selector hd hbody _ ih =>
    obtain ⟨d', hd', hname, hbody'⟩ := h.exists_definition hd (hb _ rfl)
    obtain ⟨t', ht', heq⟩ := exists_typedef_of_unplaced (hbody ▸ hbody')
    obtain rfl := eq_plain_of_unplaced heq
    rw [← hname]
    refine .typedef hd' ht' (ih fun name hname => ?_)
    refine h.covers_of_mentions hd (hb _ rfl d hd List.mem_cons_self) ?_
    rw [hbody]
    refine mem_mentions_of_type (List.mem_singleton_self _) (mem_mentions_of_target ?_)
    rw [TypeExpr.target?_plain, hname]

theorem belongs (hdistinct : spec.names.Nodup) {selector : Selector}
    (hselector : ∀ name, selector = .enum name → Covers spec K name) {n : Int}
    (hn : spec.Belongs selector n) : spec'.Belongs selector n := by
  cases selector with
  | signed | unsigned | bool => exact hn
  | enum name =>
    obtain ⟨d, hd, rfl, m, hm, hdenotes⟩ := hn
    have hname := hselector d.name rfl
    obtain ⟨d', hd', hname', hbody⟩ := h.exists_definition hd hname
    have hm' : m.unplaced ∈ d'.body.members.map Member.unplaced := by
      rw [← members_unplaced, hbody, members_unplaced]
      exact List.mem_map_of_mem hm
    obtain ⟨m', hm', hunplaced⟩ := List.mem_map.mp hm'
    have hmname : m'.name = m.name := memberName_eq_of_unplaced hunplaced
    have hintroduces : m.name ∈ d.introduces := List.mem_cons_of_mem _ (List.mem_map_of_mem hm)
    have hcovers := covers_of_introduces hdistinct hd (hname d hd List.mem_cons_self) hintroduces
    exact ⟨d', hd', hname', m', hm', hmname ▸ h.denotes hcovers hdenotes⟩

end Shares

end XdrSchema.Spec
