import XdrSchema.Proofs.Schema.Constant
import XdrSchema.Proofs.Strict.Failure

/-! Strict work on the table of symbols. The table keeps what names were resolved to; what is not in it yet
must not be asked for. Strict work follows other work when it agrees with it and makes the same progress. -/
namespace XdrSchema.Schema

/-- What is known of the symbols: the values of constants, the latest first, and the progress with the
types. -/
structure Table where
  values : List (String × Int)
  progress : Progress

abbrev Work := ExceptT Failure (StateM Table)

namespace Work

variable {α β : Type}

def lift : Outcome α → Work α
  | .ok a => pure a
  | .error e => throw e

def raise (e : SpecError) : Work α := lift (Outcome.raise e)

def breach (b : Breach) : Work α := lift (Outcome.breach b)

def report (x : Except SpecError α) : Work α := lift (Outcome.report x)

/-- Keeps the value of a name. -/
def settle (name : String) (n : Int) : Work Unit :=
  modify fun t => { t with values := (name, n) :: t.values }

/-- Keeps the definition of a name. -/
def finish (name : String) (d : Definition) : Work Unit :=
  modify fun t => { t with progress := { t.progress with done := (name, d) :: t.progress.done } }

/-- Warns, with a message that is made. -/
def warn (c : Caution) (span : Option Span) : Work Unit :=
  match Diagnostic.worded c.entry.1 c.entry.2 with
  | .ok _ => modify fun t =>
    { t with progress := { t.progress with warnings := t.progress.warnings ++ [c.diagnostic span] } }
  | .error b => breach b

end Work

open Outcome (Agrees)

/-- From a table, strict work ends as other work does from the progress in it, and with the same progress.
When it ends well, it is so that `P` holds. -/
structure Follows {α : Type} (t : Table) (x' : Work α) (x : Resolve α) (P : α → Table → Prop) : Prop where
  result : Agrees (x'.run.run t).1 (x.run.run t.progress).1
  progress : (x'.run.run t).2.progress = (x.run.run t.progress).2
  holds : ∀ a t', Ends x' t a t' → P a t'

section Follows

variable {α β : Type} {t : Table} {P : α → Table → Prop} {Q : β → Table → Prop}

theorem Follows.mono {x' : Work α} {x : Resolve α} {P' : α → Table → Prop} (h : Follows t x' x P)
    (hP : ∀ a t', P a t' → P' a t') : Follows t x' x P' :=
  ⟨h.result, h.progress, fun a t' hends => hP a t' (h.holds a t' hends)⟩

theorem Follows.ends {x' : Work α} {x : Resolve α} (h : Follows t x' x P) {a : α} {t' : Table}
    (hends : Ends x' t a t') : Ends x t.progress a t'.progress := by
  obtain ⟨hresult, hprogress, -⟩ := h
  rw [hends] at hresult hprogress
  refine Prod.ext ?_ hprogress.symm
  cases hrun : (x.run.run t.progress).1 with
  | ok b =>
    rw [hrun] at hresult
    cases hresult
    rfl
  | error e =>
    rw [hrun] at hresult
    cases hresult

theorem follows_pure {a : α} (h : P a t) : Follows t (pure a) (pure a) P := by
  refine ⟨.ok a, rfl, fun b t' hends => ?_⟩
  obtain ⟨rfl, rfl⟩ := ends_pure.mp hends
  exact h

theorem Follows.bind {x' : Work α} {x : Resolve α} {f' : α → Work β} {f : α → Resolve β}
    (hx : Follows t x' x P)
    (hf : ∀ a t', P a t' → Ends x t.progress a t'.progress → Follows t' (f' a) (f a) Q) :
    Follows t (x' >>= f') (x >>= f) Q := by
  obtain ⟨hresult, hprogress, hholds⟩ := hx
  rcases hrun : x.run.run t.progress with ⟨r, p⟩
  rcases hrun' : x'.run.run t with ⟨r', t'⟩
  rw [hrun, hrun'] at hresult hprogress
  dsimp only at hresult hprogress
  subst hprogress
  cases hresult with
  | ok a =>
    have hrest := hf a t' (hholds a t' hrun') hrun
    constructor
    · rw [run_bind_of_ends hrun', run_bind_of_ends hrun]
      exact hrest.result
    · rw [run_bind_of_ends hrun', run_bind_of_ends hrun]
      exact hrest.progress
    · intro b t'' hends
      exact hrest.holds b t'' ((run_bind_of_ends hrun').symm.trans hends)
  | error h =>
    constructor
    · rw [run_bind_of_error hrun', run_bind_of_error hrun]
      exact .error h
    · rw [run_bind_of_error hrun', run_bind_of_error hrun]
    · intro b t'' hends
      cases (run_bind_of_error hrun').symm.trans hends

/-- Strict work may look at the table. -/
theorem follows_read {f' : Table → Work β} {x : Resolve β} (h : Follows t (f' t) x Q) :
    Follows t (get >>= f') x Q :=
  ⟨h.result, h.progress, fun b t' hends => h.holds b t' (ends_get_bind.mp hends)⟩

theorem follows_get_bind {f' : Table → Work β} {f : Progress → Resolve β}
    (h : Follows t (f' t) (f t.progress) Q) : Follows t (get >>= f') (get >>= f) Q :=
  ⟨h.result, h.progress, (follows_read h).holds⟩

/-- What strict work looks up in the table, other work does without. -/
theorem follows_lift_bind {x' : Outcome α} {a : α} (hx : x' = .ok a) {f' : α → Work β} {x : Resolve β}
    (h : Follows t (f' a) x Q) : Follows t (Work.lift x' >>= f') x Q := by
  rw [hx]
  exact h

theorem follows_lift {x' : Outcome α} {x : Except SpecError α} (h : Agrees x' x)
    (hP : ∀ a, x = .ok a → P a t) : Follows t (Work.lift x') (Resolve.lift x) P := by
  cases h with
  | ok a => exact follows_pure (hP a rfl)
  | error he => exact ⟨.error he, rfl, fun a t' hends => (not_ends_throw hends).elim⟩

theorem follows_report {x : Except SpecError α} (h : FailsWith (·.fault.OfText) x)
    (hP : ∀ a, x = .ok a → P a t) : Follows t (Work.report x) (Resolve.lift x) P :=
  follows_lift (Outcome.agrees_report h) hP

theorem follows_raise {e : SpecError} (h : e.fault.OfText) : Follows t (Work.raise e) (throw e) P :=
  follows_lift (x := .error e) (Outcome.agrees_raise h) nofun

theorem ends_lift {x : Except SpecError α} {p p' : Progress} {a : α} :
    Ends (Resolve.lift x) p a p' ↔ x = .ok a ∧ p' = p := by
  cases x with
  | ok b => rw [Resolve.lift, ends_pure, Except.ok.injEq, eq_comm]
  | error e => exact ⟨fun h => (not_ends_throw h).elim, nofun⟩

theorem lift_bind (x : Except SpecError α) (f : α → Except SpecError β) :
    Resolve.lift (x >>= f) = Resolve.lift x >>= fun a => Resolve.lift (f a) := by
  cases x <;> rfl

/-- One step after another, each of which keeps `I` and what the steps before it have brought about. -/
theorem follows_forM {f' : α → Work Unit} {f : α → Except SpecError Unit} {I : Table → Prop}
    {R : α → Table → Prop}
    (hf : ∀ a t, I t → Follows t (f' a) (Resolve.lift (f a)) fun _ t' =>
      I t' ∧ R a t' ∧ ∀ b, R b t → R b t') (as : List α) {t : Table} (ht : I t) :
    Follows t (as.forM f') (Resolve.lift (as.forM f)) fun _ t' =>
      I t' ∧ (∀ a ∈ as, R a t') ∧ ∀ b, R b t → R b t' := by
  induction as generalizing t with
  | nil => exact follows_pure ⟨ht, nofun, fun _ h => h⟩
  | cons a as ih =>
    change Follows t (f' a >>= fun _ => as.forM f') (Resolve.lift (f a >>= fun _ => as.forM f)) _
    rw [lift_bind]
    refine (hf a t ht).bind fun _ t₁ ⟨ht₁, ha, hkept⟩ _ => ?_
    refine (ih ht₁).mono fun _ t₂ ⟨ht₂, has, hkept'⟩ => ?_
    exact ⟨ht₂, List.forall_mem_cons.mpr ⟨hkept' a ha, has⟩, fun b hb => hkept' b (hkept b hb)⟩

theorem follows_warn {c : Caution} {span : Option Span} {P : Unit → Table → Prop}
    (h : ∀ t', t'.values = t.values → P () t') :
    Follows t (Work.warn c span) (Resolve.warn c span) P := by
  unfold Work.warn
  rw [Caution.worded c span]
  refine ⟨.ok (), rfl, fun a t' hends => ?_⟩
  rw [ends_modify] at hends
  subst hends
  exact h _ rfl

theorem follows_finish {name : String} {d : Definition} {P : Unit → Table → Prop}
    (h : ∀ t', t'.values = t.values → P () t') :
    Follows t (Work.finish name d) (Resolve.finish name d) P := by
  refine ⟨.ok (), rfl, fun a t' hends => ?_⟩
  rw [Work.finish, ends_modify] at hends
  subst hends
  exact h _ rfl

/-- Other work does not keep values. -/
theorem follows_settle {name : String} {n : Int} {a : α}
    (h : P a { t with values := (name, n) :: t.values }) :
    Follows t (do Work.settle name n; return a) (pure a) P := by
  refine ⟨.ok a, rfl, fun b t' hends => ?_⟩
  obtain ⟨_, t₁, hsettle, hpure⟩ := ends_bind.mp hends
  obtain ⟨rfl, rfl⟩ := ends_pure.mp hpure
  rw [Work.settle, ends_modify] at hsettle
  rwa [hsettle]

end Follows

end XdrSchema.Schema
