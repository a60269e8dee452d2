import XdrSchema.Proofs.Concrete.Splitting

/-! Where the tokens of a text stand in it, and where no token does. Main statements: `stands_of_tokensFrom`,
`illegal_of_tokensFrom`. -/
namespace XdrSchema.Concrete

variable {p : Position} {cs front gap rest : List Char} {ts before after : List Token} {t : Token}

/-- In the text `cs`, which begins at `p`, the token stands after `front` and goes on for as long as it can. -/
structure Stands (p : Position) (cs front : List Char) (t : Token) (rest : List Char) : Prop where
  text_eq : cs = front ++ (t.text.toList ++ rest)
  spelled : Spelled t.terminal t.text.toList
  ends : ∀ c ∈ rest.head?, t.terminal.goesOn c = false
  span_eq : t.span = Span.between (p.afterAll front) (p.afterAll (front ++ t.text.toList))

/-- Neither a gap nor a token starts here. -/
structure Illegal (cs : List Char) : Prop where
  not_gap : ∀ gap rest, cs = gap ++ rest → ¬ Gap gap rest
  not_spelled : ∀ terminal chars rest, cs = chars ++ rest → (∀ c ∈ rest.head?, terminal.goesOn c = false) →
    ¬ Spelled terminal chars

/-! ### Texts that are cut short -/

theorem forall_head?_front {P : Char → Prop} (h : ∀ c ∈ (front ++ rest).head?, P c) : ∀ c ∈ front.head?, P c := by
  cases front with
  | nil => exact nofun
  | cons c front => exact h

theorem Gap.cut (h : Gap gap (front ++ rest)) : Gap gap front := by
  cases h with
  | blank hne h => exact .blank hne h
  | passed h hend => exact .passed h (forall_head?_front hend)
  | line h hend => exact .line h (forall_head?_front hend)
  | block h => exact .block h

theorem Stands.shift (h : Stands (p.afterAll gap) cs front t rest) : Stands p (gap ++ cs) (gap ++ front) t rest := by
  refine ⟨?_, h.spelled, h.ends, ?_⟩
  · rw [h.text_eq, List.append_assoc]
  · simp only [h.span_eq, List.append_assoc, afterAll_append]

/-! ### Tokens -/

/-- A token stands after the text that the tokens before it split. -/
theorem stands_of_tokensFrom {illegal : Option (Char × Position)}
    (h : tokensFrom p cs = ⟨before ++ t :: after, illegal⟩) :
    ∃ front rest, Stands p cs front t rest ∧ Splits p front before ∧
      tokensFrom (p.afterAll (front ++ t.text.toList)) rest = ⟨after, illegal⟩ := by
  fun_induction tokensFrom p cs generalizing before with
  | case1 => cases before <;> cases h
  | case2 p c cs chars mid hstep ih =>
    obtain ⟨heq, hgap⟩ : Step.Says (c :: cs) (.gap chars mid) := hstep ▸ step_says c cs
    obtain ⟨front, rest, hstands, hfront, hafter⟩ := ih h
    rw [hstands.text_eq] at hgap
    refine ⟨chars ++ front, rest, heq ▸ hstands.shift, .gap hgap.cut hfront, ?_⟩
    rwa [List.append_assoc, afterAll_append]
  | case3 p c cs terminal chars mid hstep =>
    rename_i q tail ih
    obtain ⟨heq, hspelled, hends⟩ : Step.Says (c :: cs) (.token terminal chars mid) := hstep ▸ step_says c cs
    obtain ⟨htokens, hillegal⟩ := Tokens.mk.inj h
    cases before with
    | nil =>
      obtain ⟨rfl, htail⟩ := List.cons.inj htokens
      refine ⟨[], mid, ⟨?_, ?_, hends, ?_⟩, .nil, ?_⟩
      · rwa [String.toList_ofList]
      · rwa [String.toList_ofList]
      · rw [String.toList_ofList]
        rfl
      · rw [String.toList_ofList, List.nil_append, ← htail, ← hillegal]
    | cons u before =>
      obtain ⟨rfl, htail⟩ := List.cons.inj htokens
      have htail' : tokensFrom q mid = ⟨before ++ t :: after, illegal⟩ := by
        rw [← hillegal]
        exact congrArg (Tokens.mk · tail.illegal) htail
      obtain ⟨front, rest, hstands, hfront, hafter⟩ := ih htail'
      rw [hstands.text_eq] at hends
      refine ⟨chars ++ front, rest, heq ▸ hstands.shift, .token hspelled (forall_head?_front hends) hfront, ?_⟩
      rwa [List.append_assoc, afterAll_append]
  | case4 => cases before <;> cases h

theorem Splits.stands (h : Splits p cs (before ++ t :: after)) : ∃ front rest, Stands p cs front t rest ∧
    Splits p front before ∧ Splits (p.afterAll (front ++ t.text.toList)) rest after := by
  obtain ⟨front, rest, hstands, hfront, hafter⟩ := stands_of_tokensFrom (tokensFrom_eq_iff.mpr h)
  exact ⟨front, rest, hstands, hfront, tokensFrom_eq_iff.mp hafter⟩

/-! ### Characters that start nothing -/

theorem illegal_of_step {c : Char} (h : step c cs = .illegal) : Illegal (c :: cs) := by
  constructor
  · rintro gap rest heq hgap
    cases hgap with
    | @blank gap _ hne hblank =>
      obtain ⟨d, gap, rfl⟩ := List.exists_cons_of_ne_nil hne
      obtain ⟨rfl, rfl⟩ := List.cons.inj heq
      cases h.symm.trans (step_blank hblank)
    | passed hline hend =>
      obtain ⟨rfl, rfl⟩ := List.cons.inj heq
      cases h.symm.trans (step_passed hline hend)
    | line hline hend =>
      obtain ⟨rfl, rfl⟩ := List.cons.inj heq
      cases h.symm.trans (step_line hline hend)
    | @block body rest hbody =>
      obtain ⟨rfl, rfl⟩ := List.cons.inj heq
      have htext : ('*' :: (body ++ ['*', '/'])).append rest = '*' :: (body ++ '*' :: '/' :: rest) := by simp
      cases h.symm.trans (htext ▸ step_block hbody)
  · intro terminal chars rest heq hends hspelled
    obtain ⟨d, ds, rfl, hstep⟩ := step_of_spelled hspelled hends
    obtain ⟨rfl, rfl⟩ := List.cons.inj heq
    cases h.symm.trans hstep

/-- The tokens before a character that starts nothing split the text before it. -/
theorem illegal_of_tokensFrom {c : Char} {q : Position} (h : tokensFrom p cs = ⟨ts, some (c, q)⟩) :
    ∃ front rest, cs = front ++ c :: rest ∧ Splits p front ts ∧ q = p.afterAll front ∧ Illegal (c :: rest) := by
  fun_induction tokensFrom p cs generalizing ts with
  | case1 => cases h
  | case2 p d cs chars mid hstep ih =>
    obtain ⟨heq, hgap⟩ : Step.Says (d :: cs) (.gap chars mid) := hstep ▸ step_says d cs
    obtain ⟨front, rest, rfl, hfront, rfl, hillegal⟩ := ih h
    exact ⟨chars ++ front, rest, heq.trans (List.append_assoc _ _ _).symm, .gap hgap.cut hfront,
      (afterAll_append _ _ _).symm, hillegal⟩
  | case3 p d cs terminal chars mid hstep =>
    rename_i q tail ih
    obtain ⟨heq, hspelled, hends⟩ : Step.Says (d :: cs) (.token terminal chars mid) := hstep ▸ step_says d cs
    obtain ⟨rfl, hlast⟩ := Tokens.mk.inj h
    have htail : tokensFrom q mid = ⟨tail.tokens, some _⟩ := congrArg (Tokens.mk tail.tokens) hlast
    obtain ⟨front, rest, rfl, hfront, rfl, hillegal⟩ := ih htail
    exact ⟨chars ++ front, rest, heq.trans (List.append_assoc _ _ _).symm,
      .token hspelled (forall_head?_front hends) hfront, (afterAll_append _ _ _).symm, hillegal⟩
  | case4 p d cs hstep =>
    cases h
    exact ⟨[], cs, rfl, .nil, rfl, illegal_of_step hstep⟩

end XdrSchema.Concrete
