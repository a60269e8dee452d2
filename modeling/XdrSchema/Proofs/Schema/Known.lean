import XdrSchema.Proofs.Schema.Constant
import XdrSchema.Proofs.Schema.Progress
import XdrSchema.Proofs.Spec.Resolution

/-! What is known of the definitions that are done: they are what the specification says, and founded.
So typedefs lead to the selector of a union, and the labels of an enumeration are its values. -/
namespace XdrSchema.Schema.Resolve

variable {spec : Spec}

/-- Definitions that were finished one after another: each is as the specification says, founded, and a
typedef leads to one that was finished before. -/
inductive Known (spec : Spec) : List (String × Definition) → Prop
  | nil : Known spec []
  | cons {d : Spec.Definition} {r : Definition} {done : List (String × Definition)}
      (hd : d ∈ spec.definitions) (hr : spec.BodyAs d.body r)
      (direct : ∀ t, r = .typedef t → ∀ x, t.direct? = some x → x.name ∈ names done)
      (founded : spec.Founded d.name) (rest : Known spec done) : Known spec ((d.name, r) :: done)

variable {done : List (String × Definition)}

theorem Known.founded (h : Known spec done) {name : String} (hname : name ∈ names done) :
    spec.Founded name := by
  induction h with
  | nil => cases hname
  | cons _ _ _ founded _ ih =>
    rcases List.mem_cons.mp hname with rfl | hname
    · exact founded
    · exact ih hname

/-! ### Behind typedefs -/

theorem underlying_of_ne_typedef {t : Ty} (h : ∀ name, t ≠ .plain (.named ⟨name, .typedef⟩)) :
    underlying done t = t := by
  cases done with
  | nil => rfl
  | cons e rest =>
    unfold underlying
    split
    · rfl
    · exact absurd rfl (h _)
    · rfl

theorem underlying_cons_self (name : String) (t : Ty) (rest : List (String × Definition)) :
    underlying ((name, .typedef t) :: rest) (.plain (.named ⟨name, .typedef⟩)) = underlying rest t := by
  simp [Schema.underlying]

theorem underlying_cons_of_ne {e : String × Definition} {name : String} (h : e.1 ≠ name)
    (rest : List (String × Definition)) : underlying (e :: rest) (.plain (.named ⟨name, .typedef⟩)) =
      underlying rest (.plain (.named ⟨name, .typedef⟩)) := by
  obtain ⟨other, d⟩ := e
  simp [Schema.underlying, show other ≠ name from h]

/-- The definition of a name that is done, with those that were done before it. A typedef is followed
in these. -/
structure Entry (spec : Spec) (done : List (String × Definition)) (d : Spec.Definition) (r : Definition)
    (before : List (String × Definition)) : Prop where
  mem : d ∈ spec.definitions
  body : spec.BodyAs d.body r
  lookup : done.lookup d.name = some r
  known : Known spec before
  shorter : before.length < done.length
  subset : names before ⊆ names done
  direct : ∀ t, r = .typedef t → ∀ x, t.direct? = some x → x.name ∈ names before
  underlying : ∀ t, r = .typedef t →
    underlying done (.plain (.named ⟨d.name, .typedef⟩)) = underlying before t

theorem Entry.typedef {d : Spec.Definition} {r : Definition} {before : List (String × Definition)}
    (entry : Entry spec done d r before) {t : Spec.Ty} (hbody : d.body = .typedef t) :
    ∃ t', r = .typedef t' ∧ spec.TypeAs t t' := by
  have hr := entry.body
  rw [hbody] at hr
  cases r with
  | typedef t' => exact ⟨t', rfl, hr⟩
  | _ => exact hr.elim

theorem Entry.enum {d : Spec.Definition} {r : Definition} {before : List (String × Definition)}
    (entry : Entry spec done d r before) {members : List Spec.Member} (hbody : d.body = .enum members) :
    ∃ labels, r = .enum labels ∧ List.Forall₂ spec.MemberAs members labels := by
  have hr := entry.body
  rw [hbody] at hr
  cases r with
  | enum labels => exact ⟨labels, rfl, hr⟩
  | _ => exact hr.elim

theorem Known.exists_entry (h : Known spec done) {name : String} (hname : name ∈ names done) :
    ∃ d r before, d.name = name ∧ Entry spec done d r before := by
  induction h with
  | nil => cases hname
  | @cons d r rest hd hr direct founded hrest ih =>
    by_cases heq : d.name = name
    · refine ⟨d, r, rest, heq, hd, hr, ?_, hrest, by simp, by simp [names], direct, ?_⟩
      · simp
      · rintro t rfl
        exact underlying_cons_self d.name t rest
    · obtain ⟨d', r', before, rfl, entry⟩ := ih ((List.mem_cons.mp hname).resolve_left (Ne.symm heq))
      refine ⟨d', r', before, rfl, entry.mem, entry.body, ?_, entry.known, ?_, ?_, entry.direct, ?_⟩
      · rw [List.lookup_cons, beq_eq_false_iff_ne.mpr (Ne.symm heq)]
        exact entry.lookup
      · exact entry.shorter.trans (Nat.lt_succ_self _)
      · exact List.Subset.trans entry.subset (List.subset_cons_self _ _)
      · intro t ht
        rw [← entry.underlying t ht]
        exact underlying_cons_of_ne heq rest

/-- Which definition a union is selected by depends on what its name stands for. -/
theorem selects_named_iff (hdistinct : spec.names.Nodup) {d : Spec.Definition} (hd : d ∈ spec.definitions)
    {selector : Selector} : spec.Selects (.named d.name) selector ↔
      (∃ members, d.body = .enum members ∧ selector = .enum d.name) ∨
        ∃ b, d.body = .typedef (.plain b) ∧ spec.Selects b selector := by
  constructor
  · generalize hb : Base.named d.name = b
    intro h
    cases h with
    | int | unsignedInt | bool => cases hb
    | enum hd' hbody =>
      have hname : d.name = _ := Base.named.inj hb
      obtain rfl := Spec.eq_of_name hdistinct hd hd' hname
      exact .inl ⟨_, hbody, rfl⟩
    | typedef hd' hbody h =>
      have hname : d.name = _ := Base.named.inj hb
      obtain rfl := Spec.eq_of_name hdistinct hd hd' hname
      exact .inr ⟨_, hbody, h⟩
  · rintro (⟨members, hbody, rfl⟩ | ⟨b, hbody, h⟩)
    · exact .enum hd hbody
    · exact .typedef hd hbody h

theorem selects_unique (hdistinct : spec.names.Nodup) {b : Base String} {s s' : Selector}
    (h : spec.Selects b s) (h' : spec.Selects b s') : s = s' := by
  induction h with
  | int | unsignedInt | bool =>
    cases h'
    rfl
  | enum hd hbody =>
    obtain ⟨_, -, rfl⟩ | ⟨b, hbody', -⟩ := (selects_named_iff hdistinct hd).mp h'
    · rfl
    · cases hbody.symm.trans hbody'
  | typedef hd hbody _ ih =>
    obtain ⟨_, hbody', -⟩ | ⟨b, hbody', hb⟩ := (selects_named_iff hdistinct hd).mp h'
    · cases hbody.symm.trans hbody'
    · cases hbody.symm.trans hbody'
      exact ih hb

/-- With typedefs followed, the type of a discriminant is what selects the arms. -/
theorem Known.selector_eq_some_iff (hdistinct : spec.names.Nodup) {done : List (String × Definition)}
    (h : Known spec done) {b : Base String} {b' : Base Ref} (hb : spec.BaseAs b b')
    (hdirect : ∀ x, b' = .named x → x.name ∈ names done) {selector : Selector} :
    Selector.ofType? (underlying done (.plain b')) = some selector ↔ spec.Selects b selector := by
  cases hb with
  | primitive p =>
    rw [underlying_of_ne_typedef (by simp)]
    constructor
    · intro h
      cases p <;> cases h <;> constructor
    · intro h
      cases h <;> rfl
  | @named name k hk =>
    obtain ⟨d, hd, rfl, hkind⟩ := hk
    rw [selects_named_iff hdistinct hd]
    obtain ⟨name, body, span, nameSpan⟩ := d
    cases body with
    | const v => cases hkind
    | struct fields | union u =>
      cases hkind
      rw [underlying_of_ne_typedef (by simp)]
      simp [Selector.ofType?]
    | enum members =>
      cases hkind
      rw [underlying_of_ne_typedef (by simp)]
      simp [Selector.ofType?, eq_comm]
    | typedef t =>
      cases hkind
      obtain ⟨d, r, before, hname, entry⟩ := h.exists_entry (hdirect _ rfl)
      obtain rfl := Spec.eq_of_name hdistinct entry.mem hd hname
      obtain ⟨t', rfl, ht⟩ := entry.typedef rfl
      rw [entry.underlying t' rfl]
      cases ht with
      | @plain b b' hb =>
        have hdirect' : ∀ x, b' = .named x → x.name ∈ names before := fun x hx =>
          entry.direct _ rfl x (by rw [hx]; rfl)
        have := entry.shorter
        rw [entry.known.selector_eq_some_iff hdistinct hb hdirect']
        simp
      | _ =>
        rw [underlying_of_ne_typedef (by simp)]
        simp [Selector.ofType?]
termination_by done.length

/-! ### The labels of an enumeration -/

/-- An enumeration that selects is done, as what holds it is. -/
theorem Known.enum_of_selects (hdistinct : spec.names.Nodup) (h : Known spec done) {b : Base String}
    {b' : Base Ref} (hb : spec.BaseAs b b') (hdirect : ∀ x, b' = .named x → x.name ∈ names done)
    {name : String} (hselects : spec.Selects b (.enum name)) : name ∈ names done ∧
      ∃ d ∈ spec.definitions, d.name = name ∧ ∃ members, d.body = .enum members := by
  generalize hselector : Selector.enum name = selector at hselects
  induction hselects generalizing done b' with
  | int | unsignedInt | bool => cases hselector
  | enum hd hbody =>
    cases hselector
    cases hb
    exact ⟨hdirect _ rfl, _, hd, rfl, _, hbody⟩
  | @typedef d b selector hd hbody _ ih =>
    cases hb
    obtain ⟨d', r, before, hname, entry⟩ := h.exists_entry (hdirect _ rfl)
    obtain rfl := Spec.eq_of_name hdistinct entry.mem hd hname
    obtain ⟨t', rfl, ht⟩ := entry.typedef hbody
    cases ht with
    | @plain _ b' hb =>
      have hdirect' : ∀ x, b' = .named x → x.name ∈ names before := fun x hx =>
        entry.direct _ rfl x (by rw [hx]; rfl)
      exact (ih entry.known hb hdirect' hselector).imp_left fun hmem => entry.subset hmem

theorem mem_values_iff (hdistinct : spec.names.Nodup) {members : List Spec.Member}
    {labels : List (String × Int)} (h : List.Forall₂ spec.MemberAs members labels) {n : Int} :
    n ∈ labels.map (·.2) ↔ ∃ m ∈ members, spec.Denotes m.name n := by
  induction h with
  | nil => simp
  | @cons m l _ _ hm _ ih =>
    have hl : n = l.2 ↔ spec.Denotes m.name n :=
      ⟨fun heq => heq ▸ hm.2, fun hn => Constant.denotes_unique hdistinct hn hm.2⟩
    simp only [List.map_cons, List.mem_cons, exists_eq_or_imp, ih, hl]

/-- The labels that an enumeration is done with are the values that it can have. -/
theorem Known.enum_labels (hdistinct : spec.names.Nodup) (h : Known spec done) {b : Base String}
    {b' : Base Ref} (hb : spec.BaseAs b b') (hdirect : ∀ x, b' = .named x → x.name ∈ names done)
    {name : String} (hselects : spec.Selects b (.enum name)) :
    ∃ labels, done.lookup name = some (.enum labels) ∧
      ∀ n, n ∈ labels.map (·.2) ↔ spec.Belongs (.enum name) n := by
  obtain ⟨hname, d, hd, rfl, members, hbody⟩ := h.enum_of_selects hdistinct hb hdirect hselects
  obtain ⟨d', r, before, hname, entry⟩ := h.exists_entry hname
  obtain rfl := Spec.eq_of_name hdistinct entry.mem hd hname
  obtain ⟨labels, rfl, hlabels⟩ := entry.enum hbody
  refine ⟨labels, entry.lookup, fun n => ?_⟩
  rw [mem_values_iff hdistinct hlabels, Spec.Belongs]
  constructor
  · rintro ⟨m, hm, hn⟩
    exact ⟨d', hd, rfl, m, by rwa [hbody], hn⟩
  · rintro ⟨d, hd', hname, m, hm, hn⟩
    obtain rfl := Spec.eq_of_name hdistinct hd' hd hname
    rw [hbody] at hm
    exact ⟨m, hm, hn⟩

/-! ### The labels of a union -/

/-- A label is not refused if and only if it is one of the values. -/
theorem refusal?_eq_none_iff {selector : Selector} {labels : List (String × Int)}
    (hlabels : ∀ name, selector = .enum name → ∀ n, n ∈ labels.map (·.2) ↔ spec.Belongs (.enum name) n)
    {l : Label} : CaseSet.refusal? selector labels l = none ↔ spec.Belongs selector l.value := by
  cases selector with
  | signed =>
    rw [Spec.Belongs, ← CaseSet.isSigned32_iff, CaseSet.refusal?]
    simp
  | unsigned =>
    rw [Spec.Belongs, ← CaseSet.isUnsigned32_iff, CaseSet.refusal?]
    split
    · next hneg => simp [Constant.isUnsigned32, hneg]
    · simp
  | bool =>
    rw [Spec.Belongs, CaseSet.refusal?]
    simp [Decidable.or_iff_not_imp_left]
  | enum name =>
    rw [← hlabels name rfl, CaseSet.refusal?]
    simp

theorem evaluates_unique (hdistinct : spec.names.Nodup) : Relator.RightUnique spec.Evaluates := by
  intro v m n hm hn
  rw [← Constant.evaluate_eq_ok_iff hdistinct] at hm hn
  exact Except.ok.inj (hm.symm.trans hn)

theorem evaluates_of_drafts {arms : List Spec.Arm} {drafts : List Variant.Draft}
    (h : List.Forall₂ spec.DraftAs arms drafts) :
    List.Forall₂ spec.Evaluates (arms.flatMap (·.labels)) ((drafts.flatMap (·.labels)).map (·.value)) := by
  rw [List.map_flatMap]
  refine List.rel_flatMap h fun a d hd => ?_
  rw [List.forall₂_map_right_iff]
  exact hd.labels.imp fun _ _ hl => hl.1

/-- The labels of the drafts pass the check if and only if the labels of the specification are distinct
values. -/
theorem check_drafts_iff (hdistinct : spec.names.Nodup) {union : String} {selector : Selector}
    {labels : List (String × Int)}
    (hlabels : ∀ name, selector = .enum name → ∀ n, n ∈ labels.map (·.2) ↔ spec.Belongs (.enum name) n)
    {arms : List Spec.Arm} {drafts : List Variant.Draft} (h : List.Forall₂ spec.DraftAs arms drafts) :
    CaseSet.check union selector labels drafts = .ok () ↔
      spec.DistinctCases selector (arms.flatMap (·.labels)) := by
  have hvalues := evaluates_of_drafts h
  rw [CaseSet.check_eq_ok_iff]
  constructor
  · rintro ⟨hnodup, hrefusal⟩
    refine ⟨_, hvalues, List.forall_mem_map.mpr fun l hl => ?_, hnodup⟩
    exact (refusal?_eq_none_iff hlabels).mp (hrefusal l hl)
  · rintro ⟨values, hvalues', hbelongs, hnodup⟩
    obtain rfl := List.right_unique_forall₂' (evaluates_unique hdistinct) hvalues' hvalues
    refine ⟨hnodup, fun l hl => (refusal?_eq_none_iff hlabels).mpr ?_⟩
    exact hbelongs _ (List.mem_map_of_mem hl)

end XdrSchema.Schema.Resolve
