import XdrSchema.Proofs.Schema.Known

/-! Steps of resolving that decide a condition: they end well if and only if it holds. One after another
they decide all of their conditions. -/
namespace XdrSchema.Schema.Resolve

variable {spec : Spec} {base : List (String × Definition)} {α β : Type} {C D : Prop}

/-- Started on known definitions that extend `base`, a step ends well if and only if `C` holds. Then it
only adds known definitions and has a result with the property `Q`. -/
def Decides (spec : Spec) (base : List (String × Definition)) (x : Resolve α) (C : Prop)
    (Q : α → List (String × Definition) → Prop) : Prop :=
  ∀ p, base <:+ p.done → Known spec p.done → ((∃ a p', Ends x p a p') ↔ C) ∧
    ∀ a p', Ends x p a p' → p.done <:+ p'.done ∧ Known spec p'.done ∧ Q a p'.done

variable {x : Resolve α} {P Q : α → List (String × Definition) → Prop}

theorem Decides.congr (hx : Decides spec base x C Q) (h : C ↔ D) : Decides spec base x D Q :=
  fun p hbase hknown => ⟨(hx p hbase hknown).1.trans h, (hx p hbase hknown).2⟩

theorem Decides.mono (hx : Decides spec base x C P) (h : ∀ a done, P a done → Q a done) :
    Decides spec base x C Q := by
  intro p hbase hknown
  obtain ⟨hiff, hends⟩ := hx p hbase hknown
  refine ⟨hiff, fun a p' ha => ?_⟩
  obtain ⟨hsuffix, hknown', hP⟩ := hends a p' ha
  exact ⟨hsuffix, hknown', h a _ hP⟩

theorem Decides.extends (hx : Decides spec base x C Q) :
    Decides spec base x C fun a done => base <:+ done ∧ Q a done := by
  intro p hbase hknown
  obtain ⟨hiff, hends⟩ := hx p hbase hknown
  refine ⟨hiff, fun a p' ha => ?_⟩
  obtain ⟨hsuffix, hknown', hQ⟩ := hends a p' ha
  exact ⟨hsuffix, hknown', hbase.trans hsuffix, hQ⟩

/-- Once a step has ended well, its condition holds. -/
theorem Decides.holds (hx : Decides spec base x C Q) :
    Decides spec base x C fun a done => C ∧ Q a done := by
  intro p hbase hknown
  obtain ⟨hiff, hends⟩ := hx p hbase hknown
  refine ⟨hiff, fun a p' ha => ?_⟩
  obtain ⟨hsuffix, hknown', hQ⟩ := hends a p' ha
  exact ⟨hsuffix, hknown', hiff.mp ⟨a, p', ha⟩, hQ⟩

theorem decides_pure {a : α} (h : ∀ done, base <:+ done → Q a done) :
    Decides spec base (pure a) True Q := by
  intro p hbase hknown
  refine ⟨iff_true_intro ⟨a, p, ends_pure.mpr ⟨rfl, rfl⟩⟩, fun b p' hends => ?_⟩
  obtain ⟨rfl, rfl⟩ := ends_pure.mp hends
  exact ⟨List.suffix_rfl, hknown, h _ hbase⟩

theorem decides_fail {f : Fault} {span : Span} : Decides spec base (fail f span) False Q :=
  fun _ _ _ => ⟨⟨fun ⟨_, _, hends⟩ => not_ends_throw hends, False.elim⟩,
    fun _ _ hends => (not_ends_throw hends).elim⟩

theorem decides_fail_bind {f : Fault} {span : Span} {g : α → Resolve β}
    {R : β → List (String × Definition) → Prop} : Decides spec base (fail f span >>= g) False R := by
  have hfail {p : Progress} {b : β} {p' : Progress} : ¬ Ends (fail f span >>= g) p b p' := fun hends => by
    obtain ⟨a, p'', ha, -⟩ := ends_bind.mp hends
    exact not_ends_throw ha
  exact fun _ _ _ => ⟨⟨fun ⟨_, _, hends⟩ => hfail hends, False.elim⟩, fun _ _ hends => (hfail hends).elim⟩

theorem Decides.bind {f : α → Resolve β} {R : β → List (String × Definition) → Prop}
    (hx : Decides spec base x C P)
    (hf : ∀ a done, base <:+ done → P a done → Decides spec done (f a) D R) :
    Decides spec base (x >>= f) (C ∧ D) R := by
  intro p hbase hknown
  obtain ⟨hiff, hends⟩ := hx p hbase hknown
  refine ⟨?_, fun b p'' hb => ?_⟩
  · simp only [ends_bind]
    constructor
    · rintro ⟨b, p'', a, p', ha, hb⟩
      obtain ⟨hsuffix, hknown', hP⟩ := hends a p' ha
      exact ⟨hiff.mp ⟨a, p', ha⟩,
        (hf a _ (hbase.trans hsuffix) hP p' List.suffix_rfl hknown').1.mp ⟨b, p'', hb⟩⟩
    · rintro ⟨hC, hD⟩
      obtain ⟨a, p', ha⟩ := hiff.mpr hC
      obtain ⟨hsuffix, hknown', hP⟩ := hends a p' ha
      obtain ⟨b, p'', hb⟩ := (hf a _ (hbase.trans hsuffix) hP p' List.suffix_rfl hknown').1.mpr hD
      exact ⟨b, p'', a, p', ha, hb⟩
  · obtain ⟨a, p', ha, hb⟩ := ends_bind.mp hb
    obtain ⟨hsuffix, hknown', hP⟩ := hends a p' ha
    obtain ⟨hsuffix', hknown'', hR⟩ :=
      (hf a _ (hbase.trans hsuffix) hP p' List.suffix_rfl hknown').2 b p'' hb
    exact ⟨hsuffix.trans hsuffix', hknown'', hR⟩

/-- After a step that always ends well, what follows decides. -/
theorem Decides.then {f : α → Resolve β} {R : β → List (String × Definition) → Prop}
    (hx : Decides spec base x True P)
    (hf : ∀ a done, base <:+ done → P a done → Decides spec done (f a) D R) :
    Decides spec base (x >>= f) D R :=
  (hx.bind hf).congr (iff_of_eq (true_and D))

/-- To make something of the result decides no more. -/
theorem Decides.return {R : β → List (String × Definition) → Prop} {g : α → β}
    (hx : Decides spec base x C P) (hg : ∀ a done, P a done → R (g a) done) :
    Decides spec base (x >>= fun a => pure (g a)) C R := by
  intro p hbase hknown
  obtain ⟨hiff, hends⟩ := hx p hbase hknown
  refine ⟨⟨?_, fun hC => ?_⟩, fun b p'' hb => ?_⟩
  · rintro ⟨b, p'', hb⟩
    obtain ⟨a, p', ha, -⟩ := ends_bind.mp hb
    exact hiff.mp ⟨a, p', ha⟩
  · obtain ⟨a, p', ha⟩ := hiff.mpr hC
    exact ⟨g a, p', ends_bind.mpr ⟨a, p', ha, ends_pure.mpr ⟨rfl, rfl⟩⟩⟩
  · obtain ⟨a, p', ha, hb⟩ := ends_bind.mp hb
    obtain ⟨rfl, rfl⟩ := ends_pure.mp hb
    obtain ⟨hsuffix, hknown', hP⟩ := hends a _ ha
    exact ⟨hsuffix, hknown', hg a _ hP⟩

theorem decides_lift {x : Except SpecError α} {R : α → Prop} (h : ∀ a, x = .ok a ↔ R a) :
    Decides spec base (lift x) (∃ a, R a) fun a _ => R a := by
  simp only [← h]
  cases x with
  | error e =>
    exact fun _ _ _ => ⟨⟨fun ⟨_, _, hends⟩ => (not_ends_throw hends).elim, fun ⟨_, ha⟩ => nomatch ha⟩,
      fun _ _ hends => (not_ends_throw hends).elim⟩
  | ok a => exact (decides_pure fun _ _ => rfl).congr (iff_of_true trivial ⟨a, rfl⟩)

theorem decides_check {x : Except SpecError Unit} (h : x = .ok () ↔ C) :
    Decides spec base (lift x) C fun _ _ => C :=
  (decides_lift fun _ => h).congr ⟨fun ⟨_, hC⟩ => hC, fun hC => ⟨(), hC⟩⟩

/-- After a computation the condition may be on its result, as there is only one. -/
theorem decides_lift_bind {x : Except SpecError α} {R : α → Prop} {E : α → Prop} {f : α → Resolve β}
    {S : β → List (String × Definition) → Prop} (h : ∀ a, x = .ok a ↔ R a)
    (hf : ∀ a done, base <:+ done → R a → Decides spec done (f a) (E a) S) :
    Decides spec base (lift x >>= f) (∃ a, R a ∧ E a) S := by
  refine ((decides_lift h).bind (D := ∀ a, R a → E a) fun a done hdone ha => ?_).congr ?_
  · refine (hf a done hdone ha).congr ⟨fun hE b hb => ?_, fun hE => hE a ha⟩
    rw [← h] at ha hb
    cases ha.symm.trans hb
    exact hE
  · constructor
    · rintro ⟨⟨a, ha⟩, hE⟩
      exact ⟨a, ha, hE a ha⟩
    · rintro ⟨a, ha, hE⟩
      refine ⟨⟨a, ha⟩, fun b hb => ?_⟩
      rw [← h] at ha hb
      cases ha.symm.trans hb
      exact hE

theorem decides_get : Decides spec base get True fun p done => p.done = done ∧ Known spec done := by
  intro p hbase hknown
  refine ⟨iff_true_intro ⟨p, p, ends_get.mpr ⟨rfl, rfl⟩⟩, fun a p' hends => ?_⟩
  obtain ⟨rfl, rfl⟩ := ends_get.mp hends
  exact ⟨List.suffix_rfl, hknown, rfl, hknown⟩

theorem decides_warn {c : Caution} {span : Option Span} :
    Decides spec base (warn c span) True fun _ _ => True := by
  intro p hbase hknown
  refine ⟨iff_true_intro ⟨(), _, ends_modify.mpr rfl⟩, fun a p' hends => ?_⟩
  rw [warn, ends_modify] at hends
  subst hends
  exact ⟨List.suffix_rfl, hknown, trivial⟩

/-- To finish a founded definition adds what is known of it. -/
theorem decides_finish {d : Spec.Definition} {r : Definition} (hd : d ∈ spec.definitions)
    (hr : spec.BodyAs d.body r)
    (hdirect : ∀ t, r = .typedef t → ∀ y, t.direct? = some y → y.name ∈ names base)
    (hfounded : spec.Founded d.name) :
    Decides spec base (finish d.name r) True fun _ done => d.name ∈ names done := by
  intro p hbase hknown
  refine ⟨iff_true_intro ⟨(), _, ends_modify.mpr rfl⟩, fun a p' hends => ?_⟩
  rw [finish, ends_modify] at hends
  subst hends
  have hdone : ∀ t, r = .typedef t → ∀ y, t.direct? = some y → y.name ∈ names p.done :=
    fun t ht y hy => (hbase.map (·.1)).subset (hdirect t ht y hy)
  exact ⟨List.suffix_cons _ _, .cons hd hr hdone hfounded hknown, List.mem_cons_self⟩

theorem decides_mapM {f : α → Resolve β} {as : List α} {E : α → Prop} {R : α → β → Prop}
    (hf : ∀ a ∈ as, ∀ done, base <:+ done → Decides spec done (f a) (E a) fun b _ => R a b) :
    Decides spec base (as.mapM f) (∀ a ∈ as, E a) fun bs _ => List.Forall₂ R as bs := by
  induction as generalizing base with
  | nil =>
    rw [List.mapM_nil]
    exact (decides_pure fun _ _ => .nil).congr (by simp)
  | cons a as ih =>
    rw [List.mapM_cons, List.forall_mem_cons]
    refine (hf a List.mem_cons_self base List.suffix_rfl).bind fun b done hdone hb => ?_
    have hrest : Decides spec done (as.mapM f) (∀ a ∈ as, E a) fun bs _ => List.Forall₂ R as bs :=
      ih fun a' ha' done' hdone' => hf a' (List.mem_cons_of_mem _ ha') done' (hdone.trans hdone')
    exact hrest.return fun bs _ hbs => .cons hb hbs

theorem decides_forM {f : α → Resolve Unit} {as : List α} {E : α → Prop}
    {R : α → List (String × Definition) → Prop}
    (hf : ∀ a ∈ as, ∀ done, base <:+ done → Decides spec done (f a) (E a) fun _ => R a) :
    Decides spec base (as.forM f) (∀ a ∈ as, E a) fun _ _ => True := by
  induction as generalizing base with
  | nil => exact (decides_pure fun _ _ => trivial).congr (by simp)
  | cons a as ih =>
    change Decides spec base (f a >>= fun _ => as.forM f) _ _
    rw [List.forall_mem_cons]
    exact (hf a List.mem_cons_self base List.suffix_rfl).bind fun _ done hdone _ =>
      ih fun a' ha' done' hdone' => hf a' (List.mem_cons_of_mem _ ha') done' (hdone.trans hdone')

end XdrSchema.Schema.Resolve
