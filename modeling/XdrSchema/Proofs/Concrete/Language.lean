import XdrSchema.Concrete.Parse
import XdrSchema.Proofs.Concrete.Splitting
import XdrSchema.Proofs.Concrete.Unambiguous

/-! The texts that are read are those of the grammar: each splits into the yield of a derivation, and of one
only, and what is read is the meaning of that derivation. -/
namespace XdrSchema.Concrete

open Pattern

/-- The tokens of the text are those of the derivation. -/
def DerivedBy (text : String) (d : Grammar.specification.Tree) : Prop :=
  Splits Position.start text.toList d.yield

theorem Splits.spelled {p : Position} {cs : List Char} {ts : List Token} (h : Splits p cs ts) :
    ∀ t ∈ ts, Spelled t.terminal t.text.toList := by
  induction h with
  | nil => simp
  | gap _ _ ih => exact ih
  | token hspelled _ _ ih => exact List.forall_mem_cons.mpr ⟨by rwa [String.toList_ofList], ih⟩

theorem Splits.next_ne {p : Position} {cs : List Char} {ts : List Token} (h : Splits p cs ts) {t : Token}
    (ht : t ∈ ts) : t.terminal ≠ .endOfInput := by
  intro heq
  have hspelled := h.spelled t ht
  rw [heq] at hspelled
  cases hspelled

theorem Splits.unique {p : Position} {cs : List Char} {ts ts' : List Token} (h : Splits p cs ts)
    (h' : Splits p cs ts') : ts = ts' :=
  (Tokens.mk.inj ((tokensFrom_eq_iff.mpr h).symm.trans (tokensFrom_eq_iff.mpr h'))).1

/-- A text has one derivation at most. -/
theorem DerivedBy.unique {text : String} {d d' : Grammar.specification.Tree} (h : DerivedBy text d)
    (h' : DerivedBy text d') : d = d' := by
  have hyield : d.yield ++ [] = d'.yield ++ [] := congrArg (· ++ []) (Splits.unique h h')
  exact (determined_specification d d' [] [] hyield rfl rfl).1

theorem parse_eq_ok_iff_run {text : String} {definitions : List Definition} : parse text = .ok definitions ↔
    ∃ rest, specification (tokens text).tokens = .ok (definitions, rest) ∧ (tokens text).illegal = none := by
  have hrun : specification.run (tokens text).tokens = specification (tokens text).tokens := rfl
  unfold parse
  dsimp only
  rw [hrun]
  split
  · next s hs =>
    rw [hs]
    exact iff_of_false (fun h => by cases h) fun ⟨_, h, _⟩ => by cases h
  · next rest x hs hillegal =>
    rw [hs, hillegal]
    exact iff_of_false (fun h => by cases h) fun ⟨_, _, h⟩ => by cases h
  · next ds rest hs hlegal =>
    rw [hs, hlegal]
    constructor
    · intro h
      cases h
      exact ⟨rest, rfl, rfl⟩
    · rintro ⟨rest', h, -⟩
      cases h
      rfl

/-- A text is read when it has a derivation, as what that derivation means. -/
theorem parse_eq_ok_iff {text : String} {definitions : List Definition} :
    parse text = .ok definitions ↔ ∃ d, DerivedBy text d ∧ Grammar.meaning d = definitions := by
  rw [parse_eq_ok_iff_run]
  constructor
  · rintro ⟨rest, hrun, hlegal⟩
    have hsplits : Splits Position.start text.toList (tokens text).tokens :=
      tokensFrom_eq_iff.mp (congrArg (Tokens.mk (tokens text).tokens) hlegal)
    obtain ⟨d, hts, rfl, hend, hstarts⟩ := (reads_specification _ _ _).mp hrun
    cases rest with
    | nil =>
      rw [hts, List.append_nil] at hsplits
      exact ⟨d, hsplits, rfl⟩
    | cons t rest =>
      have ht : t ∈ (tokens text).tokens := hts ▸ List.mem_append_right _ List.mem_cons_self
      rcases List.mem_cons.mp hend with hend | hdefinition
      · exact (hsplits.next_ne ht hend).elim
      · exact (hstarts hdefinition).elim
  · rintro ⟨d, hd, rfl⟩
    have htokens : tokens text = ⟨d.yield, none⟩ := tokensFrom_eq_iff.mpr hd
    rw [htokens]
    have hend : next [] ∈ .endOfInput :: definitionStart ∧ next [] ∉ Grammar.definition.starts := by decide
    exact ⟨[], (reads_specification _ _ _).mpr ⟨d, (List.append_nil _).symm, rfl, hend⟩, rfl⟩

end XdrSchema.Concrete
