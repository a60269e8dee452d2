import Mathlib.Data.List.Forall2

/-! Steps that may fail, one after another: a chain ends well when every step does. -/
namespace XdrSchema

variable {ε α β : Type}

theorem bind_eq_ok_iff {x : Except ε α} {f : α → Except ε β} {b : β} :
    (x >>= f) = .ok b ↔ ∃ a, x = .ok a ∧ f a = .ok b := by
  cases x with
  | error e => exact ⟨nofun, fun ⟨_, h, _⟩ => nomatch h⟩
  | ok a => exact ⟨fun h => ⟨a, rfl, h⟩, fun ⟨_, rfl, h⟩ => h⟩

theorem toOption_eq_some_iff {x : Except ε α} {a : α} : x.toOption = some a ↔ x = .ok a := by
  cases x with
  | error e => exact ⟨nofun, nofun⟩
  | ok b => exact ⟨fun | rfl => rfl, fun | rfl => rfl⟩

theorem bind_unit_eq_ok_iff {x : Except ε Unit} {f : Unit → Except ε β} {b : β} :
    (x >>= f) = .ok b ↔ x = .ok () ∧ f () = .ok b := by
  rw [bind_eq_ok_iff]
  exact ⟨fun ⟨_, hx, hf⟩ => ⟨hx, hf⟩, fun ⟨hx, hf⟩ => ⟨(), hx, hf⟩⟩

theorem bind_congr_of_eq_ok {x : Except ε α} {f g : α → Except ε β} (h : ∀ a, x = .ok a → f a = g a) :
    x >>= f = x >>= g := by
  cases x with
  | ok a => exact h a rfl
  | error e => rfl

theorem guard_eq_ok {c : Prop} [Decidable c] {e : ε} {x : Except ε α} {a : α} :
    (if c then (do throw e; x) else x) = .ok a ↔ ¬ c ∧ x = .ok a := by
  by_cases h : c
  · rw [if_pos h]
    exact ⟨nofun, fun h' => absurd h h'.1⟩
  · rw [if_neg h]
    exact ⟨fun hx => ⟨h, hx⟩, And.right⟩

theorem mapM_eq_ok_iff {f : α → Except ε β} {as : List α} {bs : List β} :
    as.mapM f = .ok bs ↔ List.Forall₂ (fun a b => f a = .ok b) as bs := by
  induction as generalizing bs with
  | nil =>
    rw [List.mapM_nil, List.forall₂_nil_left_iff]
    exact ⟨fun | rfl => rfl, fun | rfl => rfl⟩
  | cons a as ih =>
    rw [List.mapM_cons, bind_eq_ok_iff, List.forall₂_cons_left_iff]
    constructor
    · rintro ⟨b, hb, h⟩
      obtain ⟨rest, hrest, h⟩ := bind_eq_ok_iff.mp h
      cases h
      exact ⟨b, rest, hb, ih.mp hrest, rfl⟩
    · rintro ⟨b, rest, hb, hrest, rfl⟩
      exact ⟨b, hb, bind_eq_ok_iff.mpr ⟨rest, ih.mpr hrest, rfl⟩⟩

theorem mapM_eq_ok_map {f : α → Except ε β} {g : α → β} {as : List α} (h : ∀ a ∈ as, f a = .ok (g a)) :
    as.mapM f = .ok (as.map g) :=
  mapM_eq_ok_iff.mpr (List.forall₂_map_right_iff.mpr (List.forall₂_same.mpr h))

theorem exists_mapM_eq_ok_iff {f : α → Except ε β} {as : List α} :
    (∃ bs, as.mapM f = .ok bs) ↔ ∀ a ∈ as, ∃ b, f a = .ok b := by
  simp only [mapM_eq_ok_iff]
  induction as with
  | nil => simp
  | cons a as ih =>
    rw [List.forall_mem_cons, ← ih]
    constructor
    · rintro ⟨_, h⟩
      cases h with
      | cons hb hbs => exact ⟨⟨_, hb⟩, _, hbs⟩
    · rintro ⟨⟨b, hb⟩, bs, hbs⟩
      exact ⟨b :: bs, .cons hb hbs⟩

/-- A list fails at the first element that fails. -/
theorem exists_of_mapM_eq_error {f : α → Except ε β} {as : List α} {e : ε} (h : as.mapM f = .error e) :
    ∃ first a rest, as = first ++ a :: rest ∧ (∀ b ∈ first, ∃ c, f b = .ok c) ∧ f a = .error e := by
  induction as with
  | nil => cases h
  | cons a as ih =>
    rw [List.mapM_cons] at h
    cases ha : f a with
    | error e' =>
      rw [ha] at h
      cases h
      exact ⟨[], a, as, rfl, nofun, ha⟩
    | ok c =>
      cases has : as.mapM f with
      | error e' =>
        rw [ha, has] at h
        cases h
        obtain ⟨first, b, rest, rfl, hfirst, hb⟩ := ih has
        exact ⟨a :: first, b, rest, rfl, List.forall_mem_cons.mpr ⟨⟨c, ha⟩, hfirst⟩, hb⟩
      | ok cs =>
        rw [ha, has] at h
        cases h

theorem forM_eq_ok_iff {f : α → Except ε Unit} {as : List α} :
    as.forM f = .ok () ↔ ∀ a ∈ as, f a = .ok () := by
  induction as with
  | nil => simp [pure, Except.pure]
  | cons a as ih =>
    change (f a >>= fun _ => as.forM f) = .ok () ↔ _
    rw [bind_eq_ok_iff, List.forall_mem_cons, ← ih]
    exact ⟨fun ⟨_, ha, hrest⟩ => ⟨ha, hrest⟩, fun ⟨ha, hrest⟩ => ⟨(), ha, hrest⟩⟩

/-- A loop fails at the first element that fails. -/
theorem exists_of_forM_eq_error {f : α → Except ε Unit} {as : List α} {e : ε} (h : as.forM f = .error e) :
    ∃ first a rest, as = first ++ a :: rest ∧ (∀ b ∈ first, f b = .ok ()) ∧ f a = .error e := by
  induction as with
  | nil => cases h
  | cons a as ih =>
    change (f a >>= fun _ => as.forM f) = .error e at h
    cases ha : f a with
    | error e' =>
      rw [ha] at h
      cases h
      exact ⟨[], a, as, rfl, nofun, ha⟩
    | ok u =>
      rw [ha] at h
      obtain ⟨first, b, rest, rfl, hfirst, hb⟩ := ih h
      exact ⟨a :: first, b, rest, rfl, List.forall_mem_cons.mpr ⟨ha, hfirst⟩, hb⟩

/-! ### How a chain may fail -/

/-- A step that fails only with some errors. -/
def FailsWith (E : ε → Prop) (x : Except ε α) : Prop := ∀ e, x = .error e → E e

section FailsWith

variable {E : ε → Prop}

theorem failsWith_ok (a : α) : FailsWith E (.ok a : Except ε α) := nofun

theorem failsWith_error {e : ε} (h : E e) : FailsWith E (.error e : Except ε α) := by
  rintro _ ⟨⟩
  exact h

theorem FailsWith.imp {F : ε → Prop} {x : Except ε α} (h : FailsWith E x) (himp : ∀ e, E e → F e) : FailsWith F x :=
  fun e he => himp e (h e he)

theorem FailsWith.bind {x : Except ε α} {f : α → Except ε β} (hx : FailsWith E x)
    (hf : ∀ a, x = .ok a → FailsWith E (f a)) : FailsWith E (x >>= f) := by
  cases x with
  | error e => exact failsWith_error (hx e rfl)
  | ok a => exact hf a rfl

theorem failsWith_guard {c : Prop} [Decidable c] {e : ε} {x : Except ε α} (he : c → E e)
    (hx : ¬ c → FailsWith E x) : FailsWith E (if c then (do throw e; x) else x) := by
  split
  · next hc => exact failsWith_error (he hc)
  · next hc => exact hx hc

theorem failsWith_forM {f : α → Except ε Unit} {as : List α} (h : ∀ a ∈ as, FailsWith E (f a)) :
    FailsWith E (as.forM f) := by
  induction as with
  | nil => exact failsWith_ok ()
  | cons a as ih =>
    rw [List.forall_mem_cons] at h
    exact h.1.bind fun _ _ => ih h.2

theorem failsWith_mapM {f : α → Except ε β} {as : List α} (h : ∀ a ∈ as, FailsWith E (f a)) :
    FailsWith E (as.mapM f) := by
  induction as with
  | nil => exact failsWith_ok []
  | cons a as ih =>
    rw [List.forall_mem_cons] at h
    rw [List.mapM_cons]
    exact h.1.bind fun b _ => (ih h.2).bind fun bs _ => failsWith_ok (b :: bs)

end FailsWith

/-! ### Steps with a state -/

section State

variable {σ : Type}

/-- From the state `p` a step ends with `a`, in the state `p'`. -/
def Ends (x : ExceptT ε (StateM σ) α) (p : σ) (a : α) (p' : σ) : Prop := x.run.run p = (.ok a, p')

@[simp] theorem ends_pure {a b : α} {p p' : σ} :
    Ends (ε := ε) (pure a) p b p' ↔ b = a ∧ p' = p := by
  change ((Except.ok a, p) : Except ε α × σ) = _ ↔ _
  rw [Prod.mk.injEq, Except.ok.injEq, eq_comm, @eq_comm _ p]

@[simp] theorem ends_bind {x : ExceptT ε (StateM σ) α} {f : α → ExceptT ε (StateM σ) β} {p p'' : σ} {b : β} :
    Ends (x >>= f) p b p'' ↔ ∃ a p', Ends x p a p' ∧ Ends (f a) p' b p'' := by
  unfold Ends
  rw [ExceptT.run_bind, StateT.run_bind]
  rcases x.run.run p with ⟨e | a, p'⟩
  · exact ⟨nofun, fun ⟨_, _, h, _⟩ => nomatch h⟩
  · exact ⟨fun h => ⟨a, p', rfl, h⟩, fun ⟨_, _, rfl, h⟩ => h⟩

theorem run_bind_of_ends {x : ExceptT ε (StateM σ) α} {f : α → ExceptT ε (StateM σ) β} {p p' : σ} {a : α}
    (h : Ends x p a p') : (x >>= f).run.run p = (f a).run.run p' := by
  rw [ExceptT.run_bind, StateT.run_bind, h]
  rfl

theorem run_bind_of_error {x : ExceptT ε (StateM σ) α} {f : α → ExceptT ε (StateM σ) β} {p p' : σ} {e : ε}
    (h : x.run.run p = (.error e, p')) : (x >>= f).run.run p = (.error e, p') := by
  rw [ExceptT.run_bind, StateT.run_bind, h]
  rfl

@[simp] theorem not_ends_throw {e : ε} {a : α} {p p' : σ} :
    ¬ Ends (throw e : ExceptT ε (StateM σ) α) p a p' := by
  intro h
  cases h

@[simp] theorem ends_get {p a p' : σ} :
    Ends (get : ExceptT ε (StateM σ) σ) p a p' ↔ a = p ∧ p' = p := by
  change ((Except.ok p, p) : Except ε σ × σ) = _ ↔ _
  rw [Prod.mk.injEq, Except.ok.injEq, eq_comm, @eq_comm _ p]

/-- Each result of a loop is that of a step. -/
theorem exists_of_ends_mapM {f : α → ExceptT ε (StateM σ) β} {as : List α} {p p' : σ} {bs : List β}
    (h : Ends (as.mapM f) p bs p') : ∀ b ∈ bs, ∃ a ∈ as, ∃ q q', Ends (f a) q b q' := by
  induction as generalizing p p' bs with
  | nil =>
    rw [List.mapM_nil, ends_pure] at h
    rw [h.1]
    exact nofun
  | cons a as ih =>
    rw [List.mapM_cons] at h
    obtain ⟨b, q, hb, h⟩ := ends_bind.mp h
    obtain ⟨bs, q', hbs, h⟩ := ends_bind.mp h
    rw [(ends_pure.mp h).1, List.forall_mem_cons]
    refine ⟨⟨a, List.mem_cons_self, p, q, hb⟩, fun b' hb' => ?_⟩
    obtain ⟨a', ha', hends⟩ := ih hbs b' hb'
    exact ⟨a', List.mem_cons_of_mem a ha', hends⟩

theorem ends_get_bind {f : σ → ExceptT ε (StateM σ) β} {p p' : σ} {b : β} :
    Ends (get >>= f) p b p' ↔ Ends (f p) p b p' := by
  simp

@[simp] theorem ends_modify {f : σ → σ} {p p' : σ} {u : Unit} :
    Ends (modify f : ExceptT ε (StateM σ) Unit) p u p' ↔ p' = f p := by
  change ((Except.ok (), f p) : Except ε Unit × σ) = _ ↔ _
  rw [Prod.mk.injEq, @eq_comm _ p']
  simp

/-- From the state `p` a step fails with `e`, in the state `p'`. -/
def Stops (x : ExceptT ε (StateM σ) α) (p : σ) (e : ε) (p' : σ) : Prop := x.run.run p = (.error e, p')

@[simp] theorem not_stops_pure {a : α} {p p' : σ} {e : ε} :
    ¬ Stops (pure a : ExceptT ε (StateM σ) α) p e p' := by
  intro h
  cases h

@[simp] theorem stops_throw {e e' : ε} {p p' : σ} :
    Stops (throw e : ExceptT ε (StateM σ) α) p e' p' ↔ e' = e ∧ p' = p := by
  change ((Except.error e, p) : Except ε α × σ) = _ ↔ _
  rw [Prod.mk.injEq, Except.error.injEq, eq_comm, @eq_comm _ p]

@[simp] theorem stops_bind {x : ExceptT ε (StateM σ) α} {f : α → ExceptT ε (StateM σ) β} {p p'' : σ} {e : ε} :
    Stops (x >>= f) p e p'' ↔ Stops x p e p'' ∨ ∃ a p', Ends x p a p' ∧ Stops (f a) p' e p'' := by
  unfold Stops Ends
  rw [ExceptT.run_bind, StateT.run_bind]
  rcases x.run.run p with ⟨e' | a, p'⟩
  · constructor
    · rintro ⟨⟩
      exact .inl rfl
    · rintro (⟨⟨⟩⟩ | ⟨_, _, h, -⟩)
      · rfl
      · cases h
  · constructor
    · exact fun h => .inr ⟨a, p', rfl, h⟩
    · rintro (h | ⟨_, _, ⟨⟩, h⟩)
      · cases h
      · exact h

theorem stops_get_bind {f : σ → ExceptT ε (StateM σ) β} {p p' : σ} {e : ε} :
    Stops (get >>= f) p e p' ↔ Stops (f p) p e p' := by
  have hget : ¬ Stops (get : ExceptT ε (StateM σ) σ) p e p' := by
    intro h
    cases h
  simp [hget]

/-! ### What steps maintain -/

section Maintains

variable {I : σ → Prop} {E : ε → σ → Prop}

/-- From a state with the property `I`, a step that ends well leads to such a state, and one that fails does so as
`E` says. -/
def Maintains (I : σ → Prop) (E : ε → σ → Prop) (x : ExceptT ε (StateM σ) α) : Prop :=
  ∀ p, I p → (∀ a p', Ends x p a p' → I p') ∧ ∀ e p', Stops x p e p' → E e p'

theorem maintains_pure (a : α) : Maintains I E (pure a) := by
  intro p hp
  refine ⟨fun b p' hends => ?_, fun e p' hstops => (not_stops_pure hstops).elim⟩
  obtain ⟨-, rfl⟩ := ends_pure.mp hends
  exact hp

theorem maintains_throw {e : ε} (h : ∀ p, I p → E e p) :
    Maintains I E (throw e : ExceptT ε (StateM σ) α) := by
  intro p hp
  refine ⟨fun b p' hends => (not_ends_throw hends).elim, fun e' p' hstops => ?_⟩
  obtain ⟨rfl, rfl⟩ := stops_throw.mp hstops
  exact h _ hp

/-- What follows a step may use that the step has ended well. -/
theorem Maintains.bind {x : ExceptT ε (StateM σ) α} {f : α → ExceptT ε (StateM σ) β} (hx : Maintains I E x)
    (hf : ∀ a, (∃ p p', Ends x p a p') → Maintains I E (f a)) : Maintains I E (x >>= f) := by
  intro p hp
  obtain ⟨hends, hstops⟩ := hx p hp
  constructor
  · intro b p'' hb
    obtain ⟨a, p', ha, hb⟩ := ends_bind.mp hb
    exact (hf a ⟨p, p', ha⟩ p' (hends a p' ha)).1 b p'' hb
  · intro e p'' he
    rcases stops_bind.mp he with he | ⟨a, p', ha, he⟩
    · exact hstops e p'' he
    · exact (hf a ⟨p, p', ha⟩ p' (hends a p' ha)).2 e p'' he

theorem maintains_get : Maintains I E (get : ExceptT ε (StateM σ) σ) := by
  intro p hp
  refine ⟨fun q p' hends => ?_, fun e p' hstops => by cases hstops⟩
  rw [(ends_get.mp hends).2]
  exact hp

theorem maintains_modify {f : σ → σ} (h : ∀ p, I p → I (f p)) :
    Maintains I E (modify f : ExceptT ε (StateM σ) Unit) := by
  intro p hp
  refine ⟨fun u p' hends => ?_, fun e p' hstops => by cases hstops⟩
  rw [ends_modify.mp hends]
  exact h p hp

theorem maintains_mapM {f : α → ExceptT ε (StateM σ) β} {as : List α} (hf : ∀ a ∈ as, Maintains I E (f a)) :
    Maintains I E (as.mapM f) := by
  induction as with
  | nil =>
    rw [List.mapM_nil]
    exact maintains_pure []
  | cons a as ih =>
    rw [List.forall_mem_cons] at hf
    rw [List.mapM_cons]
    exact hf.1.bind fun b _ => (ih hf.2).bind fun bs _ => maintains_pure (b :: bs)

theorem maintains_forM {f : α → ExceptT ε (StateM σ) Unit} {as : List α} (hf : ∀ a ∈ as, Maintains I E (f a)) :
    Maintains I E (as.forM f) := by
  induction as with
  | nil => exact maintains_pure ()
  | cons a as ih =>
    rw [List.forall_mem_cons] at hf
    exact hf.1.bind fun _ _ => ih hf.2

end Maintains

end State

end XdrSchema
