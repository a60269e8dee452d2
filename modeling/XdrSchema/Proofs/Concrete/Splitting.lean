import Mathlib.Data.List.Infix
import Mathlib.Data.List.TakeWhile
import XdrSchema.Concrete.Token

/-! How a text splits into tokens. Between tokens stand gaps: blanks, comments and lines that are
passed over. A name or a number goes on for as long as it can. Main statement: `tokensFrom_eq_iff`. -/
namespace XdrSchema.Concrete

/-! ### Gaps -/

/-- A line ends here. -/
def AtLineEnd (rest : List Char) : Prop := ∀ c ∈ rest.head?, c = '\n'

/-- Characters that are dropped when `rest` comes after them. -/
inductive Gap : (gap rest : List Char) → Prop
  | blank {cs rest : List Char} (hne : cs ≠ []) (h : ∀ c ∈ cs, isGapChar c) : Gap cs rest
  | passed {cs rest : List Char} (h : '\n' ∉ cs) (hend : AtLineEnd rest) : Gap ('%' :: cs) rest
  | line {cs rest : List Char} (h : '\n' ∉ cs) (hend : AtLineEnd rest) : Gap ('/' :: '/' :: cs) rest
  | block {body rest : List Char} (h : ¬ ['*', '/'] <:+: body ++ ['*']) :
    Gap ('/' :: '*' :: (body ++ ['*', '/'])) rest

/-! ### Words and marks -/

def IsName (cs : List Char) : Prop :=
  ∃ c rest, cs = c :: rest ∧ c.isAlpha ∧ ∀ d ∈ rest, Text.isWordChar d

def IsNumber (cs : List Char) : Prop :=
  ∃ c rest, (cs = c :: rest ∨ cs = '-' :: c :: rest) ∧ c.isDigit ∧ ∀ d ∈ rest, isNumberChar d

/-- The characters of a token. -/
inductive Spelled : Terminal → List Char → Prop
  | keyword (k : Keyword) : Spelled (.keyword k) k.spelling.toList
  | mark (m : Mark) : Spelled (.mark m) [m.char]
  | name {cs : List Char} (h : IsName cs) (hkeyword : ∀ k : Keyword, cs ≠ k.spelling.toList) :
    Spelled .name cs
  | number {cs : List Char} (h : IsNumber cs) : Spelled .number cs

/-- A character with which a token would go on. -/
def Terminal.goesOn : Terminal → Char → Bool
  | .keyword _ | .name => Text.isWordChar
  | .number => isNumberChar
  | _ => fun _ => false

/-- The tokens of a text that begins at some place. -/
inductive Splits : Position → List Char → List Token → Prop
  | nil {p : Position} : Splits p [] []
  | gap {p : Position} {cs rest : List Char} {ts : List Token} (hgap : Gap cs rest)
    (h : Splits (p.afterAll cs) rest ts) : Splits p (cs ++ rest) ts
  | token {p : Position} {terminal : Terminal} {cs rest : List Char} {ts : List Token}
    (hspelled : Spelled terminal cs) (hends : ∀ c ∈ rest.head?, terminal.goesOn c = false)
    (h : Splits (p.afterAll cs) rest ts) :
    Splits p (cs ++ rest) (⟨terminal, String.ofList cs, Span.between p (p.afterAll cs)⟩ :: ts)

/-! ### Runs of characters -/

section Runs

variable {p : Char → Bool} {cs rest : List Char}

theorem takeWhile_append_of_ends (h : ∀ c ∈ cs, p c) (hends : ∀ c ∈ rest.head?, p c = false) :
    (cs ++ rest).takeWhile p = cs := by
  rw [List.takeWhile_append_of_pos h]
  cases rest with
  | nil => simp
  | cons c rest => simp [hends c rfl]

theorem dropWhile_append_of_ends (h : ∀ c ∈ cs, p c) (hends : ∀ c ∈ rest.head?, p c = false) :
    (cs ++ rest).dropWhile p = rest := by
  rw [List.dropWhile_append_of_pos h]
  cases rest with
  | nil => rfl
  | cons c rest => simp [hends c rfl]

theorem forall_head?_cons {c : Char} (h : p c = false) : ∀ d ∈ (c :: rest).head?, p d = false := by
  rintro d ⟨⟩
  exact h

theorem head?_dropWhile (p : Char → Bool) (cs : List Char) : ∀ c ∈ (cs.dropWhile p).head?, p c = false := by
  intro c hc
  have := List.head?_dropWhile_not p cs
  rw [show (cs.dropWhile p).head? = some c from hc] at this
  simpa using this

theorem atLineEnd_iff : AtLineEnd rest ↔ ∀ c ∈ rest.head?, decide (c ≠ '\n') = false := by
  simp [AtLineEnd]

end Runs

/-! ### Comments -/

theorem commentEnd?_append {body : List Char} (h : ¬ ['*', '/'] <:+: body ++ ['*']) (rest : List Char) :
    commentEnd? (body ++ '*' :: '/' :: rest) = some (body ++ ['*', '/'], rest) := by
  induction body with
  | nil => rfl
  | cons c body ih =>
    have hbody : ¬ ['*', '/'] <:+: body ++ ['*'] := fun hmiddle => h (hmiddle.trans (List.suffix_cons c _).isInfix)
    rw [List.cons_append, commentEnd?, ih hbody]
    · rfl
    · intro rest' hc hrest
      subst hc
      cases body with
      | nil => cases hrest
      | cons d body =>
        cases hrest
        exact h ⟨[], body ++ ['*'], rfl⟩

theorem exists_of_commentEnd? {cs body rest : List Char} (h : commentEnd? cs = some (body, rest)) :
    ∃ inner, body = inner ++ ['*', '/'] ∧ cs = body ++ rest ∧ ¬ ['*', '/'] <:+: inner ++ ['*'] := by
  fun_induction commentEnd? cs generalizing body rest with
  | case1 rest' =>
    cases h
    refine ⟨[], rfl, rfl, fun hmiddle => ?_⟩
    have := hmiddle.length_le
    simp at this
  | case2 c cs hnot ih =>
    obtain ⟨⟨body', rest'⟩, hend, heq⟩ := Option.map_eq_some_iff.mp h
    cases heq
    obtain ⟨inner, rfl, rfl, hmiddle⟩ := ih hend
    refine ⟨c :: inner, rfl, rfl, fun hmem => ?_⟩
    rcases List.infix_cons_iff.mp hmem with hprefix | hmem
    · obtain ⟨tail, htail⟩ := hprefix
      obtain ⟨hc, hrest⟩ := List.cons.inj htail
      subst hc
      cases inner with
      | nil => cases hrest
      | cons d inner =>
        obtain rfl : '/' = d := (List.cons.inj hrest).1
        exact hnot _ rfl rfl
    · exact hmiddle hmem
  | case3 => cases h

/-! ### Kinds of characters -/

theorem eq_of_isGapChar {c : Char} (h : isGapChar c = true) :
    c = ' ' ∨ c = '\t' ∨ c = '\x0c' ∨ c = '\r' ∨ c = '\n' := by
  simpa [isGapChar, or_assoc] using h

theorem not_isGapChar_of_isWordChar {c : Char} (h : Text.isWordChar c = true) : isGapChar c = false := by
  refine Bool.eq_false_iff.mpr fun hgap => ?_
  rcases eq_of_isGapChar hgap with rfl | rfl | rfl | rfl | rfl <;> cases h

theorem isWordChar_of_isAlpha {c : Char} (h : c.isAlpha = true) : Text.isWordChar c = true := by
  simp [Text.isWordChar, Char.isAlphanum, h]

theorem isWordChar_of_isDigit {c : Char} (h : c.isDigit = true) : Text.isWordChar c = true := by
  simp [Text.isWordChar, Char.isAlphanum, h]

theorem not_isAlpha_of_isDigit {c : Char} (h : c.isDigit = true) : c.isAlpha = false := by
  have hnine : c.val.toNat ≤ '9'.val.toNat := of_decide_eq_true (Bool.and_eq_true_iff.mp h).2
  have hupper : c.isUpper = false := decide_eq_false fun hle => absurd (Nat.le_trans hle.1 hnine) (by decide)
  have hlower : c.isLower = false :=
    Bool.and_eq_false_iff.mpr (.inl (decide_eq_false fun hle => absurd (Nat.le_trans hle hnine) (by decide)))
  exact Bool.or_eq_false_iff.mpr ⟨hupper, hlower⟩

theorem Keyword.ofSpelling?_eq_some_iff {s : String} {k : Keyword} :
    Keyword.ofSpelling? s = some k ↔ s = k.spelling := by
  constructor
  · intro h
    have hspelling := List.find?_some (p := fun k : Keyword => k.spelling = s) h
    exact (of_decide_eq_true hspelling).symm
  · rintro rfl
    cases k <;> decide

theorem Keyword.isName (k : Keyword) : IsName k.spelling.toList := by
  cases k <;> exact ⟨_, _, rfl, by decide, List.all_eq_true.mp rfl⟩

theorem Mark.ofChar?_eq_some_iff {c : Char} {m : Mark} : Mark.ofChar? c = some m ↔ c = m.char := by
  constructor
  · intro h
    have hchar := List.find?_some (p := fun m : Mark => m.char = c) h
    exact (of_decide_eq_true hchar).symm
  · rintro rfl
    cases m <;> decide

/-! ### One step -/

/-- What a step says about the text that it is taken in. -/
def Step.Says (text : List Char) : Step → Prop
  | .gap chars rest => text = chars ++ rest ∧ Gap chars rest
  | .token terminal chars rest => text = chars ++ rest ∧ Spelled terminal chars ∧
      ∀ c ∈ rest.head?, terminal.goesOn c = false
  | .illegal => True

theorem not_mem_takeWhile_line (cs : List Char) : '\n' ∉ cs.takeWhile (· ≠ '\n') := fun hd => by
  simpa using List.mem_takeWhile_imp hd

theorem says_word {c : Char} (cs : List Char) (hc : c.isAlpha) :
    Step.Says (c :: cs) (.token (match Keyword.ofSpelling? (String.ofList (c :: cs.takeWhile Text.isWordChar)) with
      | some k => .keyword k
      | none => .name) (c :: cs.takeWhile Text.isWordChar) (cs.dropWhile Text.isWordChar)) := by
  have hname : IsName (c :: cs.takeWhile Text.isWordChar) :=
    ⟨c, _, rfl, hc, fun d hd => List.mem_takeWhile_imp hd⟩
  have heq : c :: cs = c :: cs.takeWhile Text.isWordChar ++ cs.dropWhile Text.isWordChar :=
    congrArg (c :: ·) List.takeWhile_append_dropWhile.symm
  cases hkeyword : Keyword.ofSpelling? (String.ofList (c :: cs.takeWhile Text.isWordChar)) with
  | some k =>
    have hchars : c :: cs.takeWhile Text.isWordChar = k.spelling.toList := by
      rw [← Keyword.ofSpelling?_eq_some_iff.mp hkeyword, String.toList_ofList]
    exact ⟨heq, hchars ▸ .keyword k, head?_dropWhile _ cs⟩
  | none =>
    refine ⟨heq, .name hname fun k hk => ?_, head?_dropWhile _ cs⟩
    rw [hk, String.ofList_toList, Keyword.ofSpelling?_eq_some_iff.mpr rfl] at hkeyword
    cases hkeyword

theorem says_number {c : Char} {cs : List Char}
    (h : (c.isDigit || (c = '-' && cs.head?.any Char.isDigit)) = true) :
    Step.Says (c :: cs) (.token .number (c :: cs.takeWhile isNumberChar) (cs.dropWhile isNumberChar)) := by
  have hchars : ∀ d ∈ cs.takeWhile isNumberChar, isNumberChar d := fun d hd => List.mem_takeWhile_imp hd
  refine ⟨congrArg (c :: ·) List.takeWhile_append_dropWhile.symm, .number ?_, head?_dropWhile _ cs⟩
  rw [Bool.or_eq_true, Bool.and_eq_true, decide_eq_true_iff] at h
  rcases h with hdigit | ⟨rfl, hminus⟩
  · exact ⟨c, _, .inl rfl, hdigit, hchars⟩
  · cases cs with
    | nil => cases hminus
    | cons d cs =>
      have hdigit : d.isDigit = true := hminus
      have hnumber : isNumberChar d = true := by simp [isNumberChar, isWordChar_of_isDigit hdigit]
      rw [List.takeWhile_cons_of_pos hnumber] at hchars ⊢
      exact ⟨d, _, .inr rfl, hdigit, fun x hx => hchars x (List.mem_cons_of_mem _ hx)⟩

theorem says_slash (cs : List Char) : Step.Says ('/' :: cs) (step '/' cs) := by
  unfold step
  rw [if_neg (by decide), if_neg (by decide), if_neg (by decide), if_neg (by simp), if_pos rfl]
  split
  · next rest =>
    exact ⟨congrArg ('/' :: '/' :: ·) List.takeWhile_append_dropWhile.symm,
      .line (not_mem_takeWhile_line rest) (atLineEnd_iff.mpr (head?_dropWhile _ rest))⟩
  · next rest =>
    split
    · next hend =>
      obtain ⟨inner, rfl, rfl, hmiddle⟩ := exists_of_commentEnd? hend
      exact ⟨rfl, .block hmiddle⟩
    · trivial
  · trivial

theorem step_says (c : Char) (cs : List Char) : (step c cs).Says (c :: cs) := by
  by_cases hslash : c = '/'
  · subst hslash
    exact says_slash cs
  unfold step
  split
  · next hgap =>
    refine ⟨congrArg (c :: ·) List.takeWhile_append_dropWhile.symm, .blank (List.cons_ne_nil _ _) ?_⟩
    exact List.forall_mem_cons.mpr ⟨hgap, fun d hd => List.mem_takeWhile_imp hd⟩
  split
  · next hpassed =>
    subst hpassed
    exact ⟨congrArg ('%' :: ·) List.takeWhile_append_dropWhile.symm,
      .passed (not_mem_takeWhile_line cs) (atLineEnd_iff.mpr (head?_dropWhile _ cs))⟩
  split
  · next halpha => exact says_word cs halpha
  split
  · next hnumber => exact says_number hnumber
  split
  · next m hmark =>
    obtain rfl := Mark.ofChar?_eq_some_iff.mp hmark
    exact ⟨rfl, .mark m, fun _ _ => rfl⟩
  · trivial

theorem step_blank {c : Char} {cs rest : List Char} (h : ∀ d ∈ c :: cs, isGapChar d) :
    step c (cs ++ rest) = .gap (c :: (cs ++ rest.takeWhile isGapChar)) (rest.dropWhile isGapChar) := by
  rw [List.forall_mem_cons] at h
  unfold step
  rw [if_pos h.1, List.takeWhile_append_of_pos h.2, List.dropWhile_append_of_pos h.2]

theorem step_passed {cs rest : List Char} (h : '\n' ∉ cs) (hend : AtLineEnd rest) :
    step '%' (cs ++ rest) = .gap ('%' :: cs) rest := by
  have hcs : ∀ c ∈ cs, decide (c ≠ '\n') = true := fun c hc =>
    decide_eq_true fun heq => h (heq ▸ hc)
  unfold step
  rw [if_neg (by decide), if_pos rfl, takeWhile_append_of_ends hcs (atLineEnd_iff.mp hend),
    dropWhile_append_of_ends hcs (atLineEnd_iff.mp hend)]

theorem step_line {cs rest : List Char} (h : '\n' ∉ cs) (hend : AtLineEnd rest) :
    step '/' ('/' :: (cs ++ rest)) = .gap ('/' :: '/' :: cs) rest := by
  have hcs : ∀ c ∈ cs, decide (c ≠ '\n') = true := fun c hc =>
    decide_eq_true fun heq => h (heq ▸ hc)
  unfold step
  rw [if_neg (by decide), if_neg (by decide), if_neg (by decide), if_neg (by simp), if_pos rfl]
  simp only [takeWhile_append_of_ends hcs (atLineEnd_iff.mp hend),
    dropWhile_append_of_ends hcs (atLineEnd_iff.mp hend)]

theorem step_block {body rest : List Char} (h : ¬ ['*', '/'] <:+: body ++ ['*']) :
    step '/' ('*' :: (body ++ '*' :: '/' :: rest)) = .gap ('/' :: '*' :: (body ++ ['*', '/'])) rest := by
  unfold step
  rw [if_neg (by decide), if_neg (by decide), if_neg (by decide), if_neg (by simp), if_pos rfl]
  simp only [commentEnd?_append h]

theorem step_word {c : Char} {cs rest : List Char} (hc : c.isAlpha) (h : ∀ d ∈ cs, Text.isWordChar d)
    (hends : ∀ d ∈ rest.head?, Text.isWordChar d = false) :
    step c (cs ++ rest) =
      .token ((Keyword.ofSpelling? (String.ofList (c :: cs))).elim .name .keyword) (c :: cs) rest := by
  have hgap := not_isGapChar_of_isWordChar (isWordChar_of_isAlpha hc)
  have hpercent : c ≠ '%' := by
    rintro rfl
    cases hc
  unfold step
  rw [if_neg (by simp [hgap]), if_neg hpercent, if_pos hc, takeWhile_append_of_ends h hends,
    dropWhile_append_of_ends h hends]
  dsimp only
  cases Keyword.ofSpelling? (String.ofList (c :: cs)) <;> rfl

theorem step_number {c : Char} {cs rest : List Char} (hcs : IsNumber (c :: cs))
    (hends : ∀ d ∈ rest.head?, isNumberChar d = false) :
    step c (cs ++ rest) = .token .number (c :: cs) rest := by
  obtain ⟨d, ds, heq, hd, hds⟩ := hcs
  have hnumber : isNumberChar d = true := by simp [isNumberChar, isWordChar_of_isDigit hd]
  rcases heq with heq | heq
  · obtain ⟨rfl, rfl⟩ := List.cons.inj heq
    have hgap := not_isGapChar_of_isWordChar (isWordChar_of_isDigit hd)
    have hpercent : c ≠ '%' := by
      rintro rfl
      cases hd
    unfold step
    rw [if_neg (by simp [hgap]), if_neg hpercent, if_neg (by simp [not_isAlpha_of_isDigit hd]),
      if_pos (by simp [hd]), takeWhile_append_of_ends hds hends, dropWhile_append_of_ends hds hends]
  · obtain ⟨rfl, rfl⟩ := List.cons.inj heq
    have hall : ∀ x ∈ d :: ds, isNumberChar x := List.forall_mem_cons.mpr ⟨hnumber, hds⟩
    unfold step
    rw [if_neg (by decide), if_neg (by decide), if_neg (by decide), if_pos (by simp [hd]),
      takeWhile_append_of_ends hall hends, dropWhile_append_of_ends hall hends]

theorem step_mark (m : Mark) (rest : List Char) : step m.char rest = .token (.mark m) [m.char] rest := by
  cases m <;> rfl

theorem step_of_spelled {terminal : Terminal} {cs rest : List Char} (h : Spelled terminal cs)
    (hends : ∀ c ∈ rest.head?, terminal.goesOn c = false) :
    ∃ c cs', cs = c :: cs' ∧ step c (cs' ++ rest) = .token terminal cs rest := by
  cases h with
  | keyword k =>
    obtain ⟨c, cs', heq, hc, hcs⟩ := k.isName
    refine ⟨c, cs', heq, ?_⟩
    rw [step_word hc hcs hends, ← heq, String.ofList_toList, Keyword.ofSpelling?_eq_some_iff.mpr rfl,
      Option.elim_some]
  | mark m => exact ⟨m.char, [], rfl, step_mark m rest⟩
  | name h hkeyword =>
    obtain ⟨c, cs', rfl, hc, hcs⟩ := h
    refine ⟨c, cs', rfl, ?_⟩
    have hnone : Keyword.ofSpelling? (String.ofList (c :: cs')) = none := by
      refine Option.eq_none_iff_forall_not_mem.mpr fun k hk => hkeyword k ?_
      rw [← Keyword.ofSpelling?_eq_some_iff.mp hk, String.toList_ofList]
    rw [step_word hc hcs hends, hnone, Option.elim_none]
  | number h =>
    have hne : cs ≠ [] := by
      rintro rfl
      obtain ⟨_, _, h | h, -⟩ := h <;> cases h
    obtain ⟨c, cs', rfl⟩ := List.exists_cons_of_ne_nil hne
    exact ⟨c, cs', rfl, step_number h hends⟩

/-! ### All steps -/

section Tokens

variable {p : Position} {c : Char} {cs chars rest : List Char} {terminal : Terminal}

theorem tokensFrom_cons_gap (h : step c cs = .gap chars rest) :
    tokensFrom p (c :: cs) = tokensFrom (p.afterAll chars) rest := by
  rw [tokensFrom]
  split
  · next heq =>
    cases h.symm.trans heq
    rfl
  · next heq => cases h.symm.trans heq
  · next heq => cases h.symm.trans heq

theorem tokensFrom_cons_token (h : step c cs = .token terminal chars rest) :
    tokensFrom p (c :: cs) =
      { tokensFrom (p.afterAll chars) rest with
        tokens := ⟨terminal, String.ofList chars, Span.between p (p.afterAll chars)⟩ ::
          (tokensFrom (p.afterAll chars) rest).tokens } := by
  rw [tokensFrom]
  split
  · next heq => cases h.symm.trans heq
  · next heq =>
    cases h.symm.trans heq
    rfl
  · next heq => cases h.symm.trans heq

theorem afterAll_append (p : Position) (cs ds : List Char) :
    p.afterAll (cs ++ ds) = (p.afterAll cs).afterAll ds := List.foldl_append

/-- Blanks are dropped, one by one or all at once. -/
theorem tokensFrom_blanks (p : Position) (cs : List Char) :
    tokensFrom (p.afterAll (cs.takeWhile isGapChar)) (cs.dropWhile isGapChar) = tokensFrom p cs := by
  cases cs with
  | nil => rfl
  | cons c cs =>
    by_cases hc : isGapChar c = true
    · have hstep : step c cs = .gap (c :: cs.takeWhile isGapChar) (cs.dropWhile isGapChar) :=
        step_blank (List.forall_mem_singleton.mpr hc)
      rw [List.takeWhile_cons_of_pos hc, List.dropWhile_cons_of_pos hc, tokensFrom_cons_gap hstep]
    · rw [List.takeWhile_cons_of_neg hc, List.dropWhile_cons_of_neg hc]
      rfl

theorem tokensFrom_gap (h : Gap cs rest) : tokensFrom p (cs ++ rest) = tokensFrom (p.afterAll cs) rest := by
  cases h with
  | blank hne hcs =>
    obtain ⟨c, cs, rfl⟩ := List.exists_cons_of_ne_nil hne
    rw [List.cons_append, tokensFrom_cons_gap (step_blank hcs), ← List.cons_append, afterAll_append,
      tokensFrom_blanks]
  | passed h hend => exact tokensFrom_cons_gap (step_passed h hend)
  | line h hend => exact tokensFrom_cons_gap (step_line h hend)
  | @block body rest h =>
    have hstep : step '/' ('*' :: (body ++ '*' :: '/' :: rest)) = _ := step_block h
    simpa using tokensFrom_cons_gap (p := p) hstep

end Tokens

/-- The tokens of a text without illegal characters are those that it splits into. -/
theorem tokensFrom_eq_iff {p : Position} {cs : List Char} {ts : List Token} :
    tokensFrom p cs = ⟨ts, none⟩ ↔ Splits p cs ts := by
  constructor
  · intro h
    fun_induction tokensFrom p cs generalizing ts with
    | case1 p =>
      cases h
      exact .nil
    | case2 p c cs chars rest hstep ih =>
      obtain ⟨heq, hgap⟩ : Step.Says (c :: cs) (.gap chars rest) := hstep ▸ step_says c cs
      rw [heq]
      exact .gap hgap (ih h)
    | case3 p c cs terminal chars rest hstep =>
      rename_i q tail ih
      obtain ⟨heq, hspelled, hends⟩ : Step.Says (c :: cs) (.token terminal chars rest) :=
        hstep ▸ step_says c cs
      obtain ⟨rfl, hlegal⟩ := Tokens.mk.inj h
      rw [heq]
      exact .token hspelled hends (ih (congrArg (Tokens.mk _) hlegal))
    | case4 => cases h
  · intro h
    induction h with
    | nil => rw [tokensFrom]
    | gap hgap _ ih => rw [tokensFrom_gap hgap, ih]
    | token hspelled hends _ ih =>
      obtain ⟨c, cs, rfl, hstep⟩ := step_of_spelled hspelled hends
      rw [List.cons_append, tokensFrom_cons_token hstep, ih]

end XdrSchema.Concrete
