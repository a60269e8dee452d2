import XdrSchema.Concrete.Parse

/-! What the grammar says about a tree that was read: an enumeration has a member, a union an arm and a
case arm a label. -/
namespace XdrSchema.Concrete

namespace Reader

variable {α β : Type}

/-- Whatever the reader returns has a property. -/
def Yields (r : Reader α) (P : α → Prop) : Prop :=
  ∀ tokens a rest, r tokens = .ok (a, rest) → P a

theorem yields_pure {P : α → Prop} {a : α} (h : P a) : Yields (pure a) P := by
  rintro tokens b rest heq
  cases heq
  exact h

theorem Yields.bind {P : α → Prop} {Q : β → Prop} {r : Reader α} {f : α → Reader β}
    (hr : Yields r P) (hf : ∀ a, P a → Yields (f a) Q) : Yields (r >>= f) Q := by
  intro tokens b rest heq
  change (r tokens >>= fun x => f x.1 x.2) = .ok (b, rest) at heq
  cases hx : r tokens with
  | error e => rw [hx] at heq; cases heq
  | ok x =>
    rw [hx] at heq
    exact hf x.1 (hr tokens x.1 x.2 hx) x.2 b rest heq

theorem yields_any (r : Reader α) : Yields r fun _ => True := fun _ _ _ _ => trivial

/-- What a reader returns does not depend on what was read before it. -/
theorem yields_bind {Q : β → Prop} {r : Reader α} {f : α → Reader β}
    (hf : ∀ a, Yields (f a) Q) : Yields (r >>= f) Q :=
  (yields_any r).bind fun a _ => hf a

theorem yields_itemsUpTo {P : α → Prop} {continues : Reader Bool} {item : Reader α}
    (h : Yields item P) (n : Nat) :
    Yields (itemsUpTo continues item n) fun items => ∀ a ∈ items, P a := by
  induction n with
  | zero => exact yields_pure (by simp)
  | succ n ih =>
    refine yields_bind fun go => ?_
    split
    · refine h.bind fun first hfirst => ih.bind fun others hothers => yields_pure ?_
      simpa using ⟨hfirst, hothers⟩
    · exact yields_pure (by simp)

theorem yields_items {P : α → Prop} {continues : Reader Bool} {item : Reader α}
    (h : Yields item P) : Yields (items continues item) fun items => ∀ a ∈ items, P a :=
  yields_bind fun tokens => yields_itemsUpTo h (tokens.length + 1)

end Reader

open Reader

/-- A case arm has a label. -/
def Arm.Labelled : Arm → Prop
  | .case labels _ _ => labels ≠ []
  | .default _ _ => True

/-- No list of a definition is empty where the grammar asks for an item. -/
def Definition.Filled (d : Definition) : Prop :=
  match d.body with
  | .enum _ members => members ≠ []
  | .union _ _ arms => arms ≠ [] ∧ ∀ a ∈ arms, a.Labelled
  | _ => True

theorem yields_members : Yields members fun ms => ms ≠ [] :=
  yields_bind fun _ => yields_bind fun _ => yields_pure (List.cons_ne_nil _ _)

theorem yields_arm : Yields arm Arm.Labelled := by
  refine yields_bind fun first => ?_
  split
  · refine yields_bind fun label => yields_bind fun labels => ?_
    exact yields_bind fun _ => yields_bind fun _ => yields_pure (List.cons_ne_nil label labels)
  · refine yields_bind fun _ => yields_bind fun _ => yields_bind fun _ => yields_pure ?_
    trivial

theorem yields_arms : Yields arms fun items => items ≠ [] ∧ ∀ a ∈ items, a.Labelled := by
  refine yields_arm.bind fun first hfirst => ?_
  refine (yields_items yields_arm).bind fun others hothers => yields_pure ?_
  exact ⟨List.cons_ne_nil first others, List.forall_mem_cons.mpr ⟨hfirst, hothers⟩⟩

theorem yields_definition : Yields definition Definition.Filled := by
  refine yields_bind fun first => ?_
  have hbody : Yields (bodyOf first.terminal)
      fun b => ∀ span, Definition.Filled ⟨b, span⟩ := by
    unfold bodyOf
    split
    · exact yields_bind fun _ => yields_bind fun _ => yields_bind fun _ =>
        yields_pure fun _ => trivial
    · exact yields_bind fun _ => yields_pure fun _ => trivial
    · refine yields_bind fun _ => yields_bind fun _ => yields_members.bind fun _ h => ?_
      exact yields_bind fun _ => yields_pure fun _ => h
    · refine yields_bind fun _ => yields_bind fun _ => yields_bind fun _ => ?_
      exact yields_bind fun _ => yields_pure fun _ => trivial
    · refine yields_bind fun _ => yields_bind fun _ => yields_bind fun _ => ?_
      refine yields_bind fun _ => yields_bind fun _ => yields_bind fun _ => ?_
      refine yields_arms.bind fun _ h => yields_bind fun _ => yields_pure fun _ => h
  exact hbody.bind fun _ h => yields_bind fun _ => yields_pure (h _)

/-- Every definition of a text that was read is filled. -/
theorem filled_of_parse {text : String} {definitions : List Definition}
    (h : parse text = .ok definitions) : ∀ d ∈ definitions, d.Filled := by
  unfold parse at h
  dsimp only at h
  split at h
  · cases h
  · cases h
  · next rest hrun _ =>
    cases h
    exact yields_items yields_definition _ _ rest hrun

end XdrSchema.Concrete
