import XdrSchema.Proofs.Concrete.Language
import XdrSchema.Proofs.Concrete.Place
import XdrSchema.Proofs.Concrete.Stopping
import XdrSchema.Spec.OfTree

/-! The fault of a text that is no specification. Main statement: `stuck_of_parse`, it is at the first token
that cannot go on a specification, or at a character that starts none where one could come. -/
namespace XdrSchema.Concrete

open Grammar

/-- Why a text is no specification, and the place where that is seen. -/
inductive Stuck (cs : List Char) : SyntaxFault → Position → Prop
  | token {front rest : List Char} {before : List Token} {t : Token} (expected : List Terminal)
    (ht : Stands .start cs front t rest) (hfront : Splits .start front before)
    (hbegins : Begins Grammar.specification before) (hstuck : ¬ Begins Grammar.specification (before ++ [t])) :
    Stuck cs (.token t.text expected) (Position.start.afterAll front)
  | character {front rest : List Char} {c : Char} {before : List Token} (heq : cs = front ++ c :: rest)
    (hillegal : Illegal (c :: rest)) (hfront : Splits .start front before)
    (hbegins : Begins Grammar.specification before) : Stuck cs (.character c) (Position.start.afterAll front)
  | endOfInput {front rest : List Char} {before : List Token} {last : Token} (expected : List Terminal)
    (hlast : Stands .start cs front last rest) (hfront : Splits .start front before)
    (hsplits : Splits .start cs (before ++ [last])) (hbegins : Begins Grammar.specification (before ++ [last]))
    (hstuck : ∀ d : Grammar.specification.Tree, d.yield ≠ before ++ [last]) :
    Stuck cs (.endOfInput expected) (Position.start.afterAll front)

/-- What comes after the yield of a specification at its end. -/
theorem specification_yield (d : Grammar.specification.Tree) : specification d.yield = .ok (meaning d, []) :=
  (reads_specification _ _ _).mpr ⟨d, (List.append_nil _).symm, rfl, by decide⟩

/-- The reader of specifications stops where the tokens cease to begin one. -/
theorem stuck_of_stop {ts : List Token} {s : Stop} (h : specification ts = .error s) :
    ∃ before, ts = before ++ s.rest ∧ Begins Grammar.specification before ∧
      (∀ t after, s.rest = t :: after → ¬ Begins Grammar.specification (before ++ [t])) ∧
      (s.rest = [] → ∀ d : Grammar.specification.Tree, d.yield ≠ before) := by
  obtain ⟨before, heq, hbegins, hstuck⟩ := stops_specification ts s h
  refine ⟨before, heq, hbegins, ?_, fun hrest d hd => ?_⟩
  · rintro t after hrest ⟨d, more, hd⟩
    rw [List.append_assoc] at hd
    exact hstuck (t :: more) (by rw [hrest]; rfl) _ _ (hd ▸ specification_yield d)
  · refine hstuck [] (by rw [hrest]; rfl) (meaning d) [] ?_
    rw [List.append_nil, ← hd, specification_yield]

theorem begins_of_read {ts rest : List Token} {definitions : List Definition}
    (h : specification ts = .ok (definitions, rest)) (hne : ∀ t ∈ ts, t.terminal ≠ .endOfInput) :
    Begins Grammar.specification ts ∧ rest = [] := by
  obtain ⟨d, rfl, -, hend, hstarts⟩ := (reads_specification _ _ _).mp h
  cases rest with
  | nil => exact ⟨⟨d, [], by simp⟩, rfl⟩
  | cons t rest =>
    rcases List.mem_cons.mp hend with hend | hdefinition
    · exact (hne t (List.mem_append_right _ List.mem_cons_self) hend).elim
    · exact (hstarts hdefinition).elim

theorem head_span_of_stands {p : Position} {cs front rest : List Char} {t : Token} (h : Stands p cs front t rest) :
    t.span.head = Span.point (p.afterAll front) := by
  rw [h.span_eq]
  rfl

/-- What is wrong where reading stops. -/
theorem stuck_of_error {text : String} {s : Stop} (h : specification (tokens text).tokens = .error s) :
    ∃ f p, s.error (tokens text) = ⟨.grammar f, some (Span.point p)⟩ ∧ Stuck text.toList f p := by
  obtain ⟨before, heq, hbegins, htoken, hend⟩ := stuck_of_stop h
  obtain ⟨expected, rest⟩ := s
  rcases htokens : tokens text with ⟨ts, illegal⟩
  rw [htokens] at heq
  cases rest with
  | cons t after =>
    obtain ⟨front, rest, ht, hfront, -⟩ := stands_of_tokensFrom (htokens.trans (congrArg (Tokens.mk · illegal) heq))
    refine ⟨_, _, ?_, .token expected ht hfront hbegins (htoken t after rfl)⟩
    exact congrArg (fun place => SpecError.mk (.grammar (.token t.text expected)) (some place)) (head_span_of_stands ht)
  | nil =>
    obtain rfl : before = ts := ((List.append_nil _).symm.trans heq.symm)
    cases illegal with
    | some at' =>
      obtain ⟨c, q⟩ := at'
      obtain ⟨front, rest, hcs, hfront, rfl, hillegal⟩ := illegal_of_tokensFrom htokens
      exact ⟨_, _, rfl, .character hcs hillegal hfront hbegins⟩
    | none =>
      -- A text without tokens is the empty specification.
      have hne : before ≠ [] := fun hnil => hend rfl ([] : List Grammar.definition.Tree) hnil.symm
      obtain ⟨before, last, rfl⟩ := List.eq_nil_or_concat before |>.resolve_left hne
      rw [List.concat_eq_append] at *
      obtain ⟨front, rest, hlast, hfront, -⟩ := stands_of_tokensFrom htokens
      refine ⟨_, _, ?_, .endOfInput expected hlast hfront (tokensFrom_eq_iff.mp htokens) hbegins (hend rfl)⟩
      simp only [Stop.error, List.getLast?_concat, head_span_of_stands hlast]

/-- A text that the grammar refuses is refused at the first token that no specification has there, at a character
that starts nothing after tokens that one begins with, or at its end, which is told at its last token. -/
theorem stuck_of_parse {text : String} {e : SpecError} (h : parse text = .error e) : Spec.parse text = .error e ∧
    ∃ f p, e = ⟨.grammar f, some (Span.point p)⟩ ∧ Stuck text.toList f p := by
  refine ⟨by rw [Spec.parse, h]; rfl, ?_⟩
  unfold parse at h
  dsimp only at h
  split at h
  · next s hs =>
    cases h
    exact stuck_of_error hs
  · next definitions rest at' hs hillegal =>
    cases h
    obtain ⟨c, q⟩ := at'
    have htokens : tokens text = ⟨(tokens text).tokens, some (c, q)⟩ := congrArg (Tokens.mk _) hillegal
    obtain ⟨front, tail, hcs, hfront, rfl, hstarts⟩ := illegal_of_tokensFrom htokens
    obtain ⟨hbegins, rfl⟩ := begins_of_read hs fun t ht => hfront.next_ne ht
    refine ⟨_, _, ?_, .character hcs hstarts hfront hbegins⟩
    rw [Stop.error, hillegal]
  · cases h

theorem stuck_of_parse_sample : ∃ e, parse "const A B;" = .error e ∧ e.span = some ⟨1, 9, 1, 9⟩ ∧
    ∃ f p, e = ⟨.grammar f, some (Span.point p)⟩ ∧ Stuck "const A B;".toList f p := by
  have hspan : (match parse "const A B;" with
    | .error e => e.span
    | .ok _ => none) = some ⟨1, 9, 1, 9⟩ := by decide +kernel
  cases h : parse "const A B;" with
  | error e =>
    rw [h] at hspan
    exact ⟨e, rfl, hspan, (stuck_of_parse h).2⟩
  | ok definitions =>
    rw [h] at hspan
    cases hspan

end XdrSchema.Concrete
