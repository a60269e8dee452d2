import XdrSchema.Proofs.Chain
import XdrSchema.Proofs.Schema.WellFormed
import XdrSchema.Schema.Resolve

/-! What resolving keeps true of the definitions that are done. The list of them only grows at its
head; each refers directly to definitions further on, and by any reference to a type. -/
namespace XdrSchema.Schema.Resolve

/-- The names of the definitions that are done. -/
def names (done : List (String × Definition)) : List String := done.map (·.1)

/-- The name of a reference stands for a type of its kind. -/
def Refers (symbols : List Symbol) (r : Ref) : Prop :=
  ∃ x, Symbol.find? symbols r.name = some x ∧ x.kind = .type r.kind

/-- A type whose bound is a length, whose name stands for a type, and whose direct part is done. -/
structure Settled (symbols : List Symbol) (done : List (String × Definition)) (t : Ty) : Prop where
  bound : ∀ n ∈ t.bound?, n ≤ Wire.maxLength
  target : ∀ r, t.target? = some r → Refers symbols r
  direct : ∀ r, t.direct? = some r → r.name ∈ names done

/-- A definition that was finished after those in `done`. -/
structure Finished (symbols : List Symbol) (done : List (String × Definition)) (name : String)
    (d : Definition) : Prop where
  symbol : Refers symbols ⟨name, d.kind⟩
  proper : d.Proper
  members : ∀ t ∈ d.members, Settled symbols done t

inductive Sound (symbols : List Symbol) : List (String × Definition) → Prop
  | nil : Sound symbols []
  | cons {name : String} {d : Definition} {done : List (String × Definition)}
      (new : name ∉ names done) (finished : Finished symbols done name d)
      (rest : Sound symbols done) : Sound symbols ((name, d) :: done)

variable {symbols : List Symbol} {fresh : List String} {α β : Type}

/-- A name stands for types of one kind. -/
theorem Refers.kind_eq {name : String} {k k' : TypeKind} (h : Refers symbols ⟨name, k⟩)
    (h' : Refers symbols ⟨name, k'⟩) : k = k' := by
  obtain ⟨x, hfind, hkind⟩ := h
  obtain ⟨x', hfind', hkind'⟩ := h'
  cases hfind.symm.trans hfind'
  exact SymbolKind.type.inj (hkind.symm.trans hkind')

theorem Settled.mono {done done' : List (String × Definition)} {t : Ty} (h : done <:+ done')
    (ht : Settled symbols done t) : Settled symbols done' t :=
  ⟨ht.bound, ht.target, fun r hr => (h.map (·.1)).subset (ht.direct r hr)⟩

theorem Sound.nodup {done : List (String × Definition)} (h : Sound symbols done) :
    (names done).Nodup := by
  induction h with
  | nil => exact List.nodup_nil
  | cons new _ _ ih => exact List.nodup_cons.mpr ⟨new, ih⟩

theorem Sound.of_suffix {before done : List (String × Definition)} (h : Sound symbols done)
    (hbefore : before <:+ done) : Sound symbols before := by
  obtain ⟨first, rfl⟩ := hbefore
  induction first with
  | nil => exact h
  | cons e first ih =>
    cases h with
    | cons _ _ rest => exact ih rest

/-- A definition that is done was finished after a shorter list. -/
theorem Sound.finished {done : List (String × Definition)} (h : Sound symbols done) {name : String}
    {d : Definition} (hd : done.lookup name = some d) :
    ∃ before, (name, d) :: before <:+ done ∧ Finished symbols before name d := by
  induction h with
  | nil => cases hd
  | @cons other e rest new finished hrest ih =>
    rw [List.lookup_cons] at hd
    split at hd
    · next heq =>
      cases hd
      rw [beq_iff_eq] at heq
      subst heq
      exact ⟨rest, List.suffix_rfl, finished⟩
    · obtain ⟨before, hbefore, hfinished⟩ := ih hd
      exact ⟨before, hbefore.trans (List.suffix_cons _ _), hfinished⟩

/-! ### Steps of resolving -/

/-- Started on sound progress that extends `base`, a step that ends well only finishes definitions
among `fresh`, keeps the progress sound and has a result with the property `Q`. -/
def Gives (symbols : List Symbol) (fresh : List String) (base : List (String × Definition))
    (x : Resolve α) (Q : α → List (String × Definition) → Prop) : Prop :=
  ∀ p a p', base <:+ p.done → Sound symbols p.done → Ends x p a p' →
    p.done <:+ p'.done ∧ Sound symbols p'.done ∧
      (∀ n ∈ names p'.done, n ∈ names p.done ∨ n ∈ fresh) ∧ Q a p'.done

variable {base : List (String × Definition)}

theorem Gives.mono {x : Resolve α} {P Q : α → List (String × Definition) → Prop}
    (hx : Gives symbols fresh base x P) (h : ∀ a done, base <:+ done → P a done → Q a done) :
    Gives symbols fresh base x Q := by
  intro p a p' hbase hsound hends
  obtain ⟨hsuffix, hsound', hnames, ha⟩ := hx p a p' hbase hsound hends
  exact ⟨hsuffix, hsound', hnames, h a _ (hbase.trans hsuffix) ha⟩

theorem gives_pure {a : α} {Q : α → List (String × Definition) → Prop}
    (h : ∀ done, base <:+ done → Q a done) : Gives symbols fresh base (pure a) Q := by
  intro p b p' hbase hsound hends
  obtain ⟨rfl, rfl⟩ := ends_pure.mp hends
  exact ⟨List.suffix_rfl, hsound, fun n hn => .inl hn, h _ hbase⟩

theorem Gives.bind {x : Resolve α} {f : α → Resolve β} {P : α → List (String × Definition) → Prop}
    {Q : β → List (String × Definition) → Prop} (hx : Gives symbols fresh base x P)
    (hf : ∀ a done, base <:+ done → P a done → Gives symbols fresh done (f a) Q) :
    Gives symbols fresh base (x >>= f) Q := by
  intro p b p'' hbase hsound hends
  obtain ⟨a, p', hxa, hfb⟩ := ends_bind.mp hends
  obtain ⟨hsuffix, hsound', hnames, ha⟩ := hx p a p' hbase hsound hxa
  obtain ⟨hsuffix', hsound'', hnames', hb⟩ :=
    hf a p'.done (hbase.trans hsuffix) ha p' b p'' List.suffix_rfl hsound' hfb
  refine ⟨hsuffix.trans hsuffix', hsound'', fun n hn => ?_, hb⟩
  rcases hnames' n hn with h | h
  · exact hnames n h
  · exact .inr h

theorem gives_lift {x : Except SpecError α} {Q : α → List (String × Definition) → Prop}
    (h : ∀ a, x = .ok a → ∀ done, base <:+ done → Q a done) :
    Gives symbols fresh base (lift x) Q := by
  cases x with
  | error e => exact fun _ _ _ _ _ hends => (not_ends_throw hends).elim
  | ok a => exact gives_pure (h a rfl)

theorem gives_fail {f : Fault} {span : Span} {Q : α → List (String × Definition) → Prop} :
    Gives symbols fresh base (fail f span) Q :=
  fun _ _ _ _ _ hends => (not_ends_throw hends).elim

theorem gives_get {Q : Progress → List (String × Definition) → Prop}
    (h : ∀ p : Progress, base <:+ p.done → Sound symbols p.done → Q p p.done) :
    Gives symbols fresh base get Q := by
  intro p a p' hbase hsound hends
  obtain ⟨rfl, rfl⟩ := ends_get.mp hends
  exact ⟨List.suffix_rfl, hsound, fun n hn => .inl hn, h _ hbase hsound⟩

theorem gives_warn {c : Caution} {span : Option Span} :
    Gives symbols fresh base (warn c span) fun _ _ => True := by
  intro p a p' hbase hsound hends
  rw [warn, ends_modify] at hends
  subst hends
  exact ⟨List.suffix_rfl, hsound, fun n hn => .inl hn, trivial⟩

/-- A property that later definitions do not take away holds of all results in the end. -/
theorem gives_mapM {f : α → Resolve β} {as : List α}
    {Q : α → β → List (String × Definition) → Prop}
    (hmono : ∀ a b done done', done <:+ done' → Q a b done → Q a b done')
    (hf : ∀ a ∈ as, ∀ done, base <:+ done → Gives symbols fresh done (f a) (Q a)) :
    Gives symbols fresh base (as.mapM f) fun bs done => List.Forall₂ (Q · · done) as bs := by
  induction as generalizing base with
  | nil =>
    rw [List.mapM_nil]
    exact gives_pure fun _ _ => .nil
  | cons a as ih =>
    rw [List.mapM_cons]
    refine (hf a List.mem_cons_self base List.suffix_rfl).bind fun b done hdone hb => ?_
    have hrest : Gives symbols fresh done (as.mapM f) fun bs done => List.Forall₂ (Q · · done) as bs :=
      ih fun a' ha' done' hdone' => hf a' (List.mem_cons_of_mem _ ha') done' (hdone.trans hdone')
    refine hrest.bind fun bs done' hdone' hbs => gives_pure fun done'' hdone'' => ?_
    refine .cons (hmono _ _ _ _ (hdone'.trans hdone'') hb) (hbs.imp fun a' b' h => ?_)
    exact hmono _ _ _ _ hdone'' h

end XdrSchema.Schema.Resolve
