import XdrSchema.Concrete.Terminal
import XdrSchema.Text.Span
import XdrSchema.Text.Word

/-! Tokens of a specification text. Blanks, comments in both styles and lines that start with a
percent sign separate tokens and are dropped. Main statement: `step_shorter`, each token or gap
takes at least one character, so that reading ends. -/
namespace XdrSchema.Concrete

structure Token where
  terminal : Terminal
  text : String
  span : Span

/-- The tokens of a text up to its end or up to the first character that starts none. -/
structure Tokens where
  tokens : List Token
  illegal : Option (Char × Position)

/-- Numbers are read loosely, so that a malformed one is reported as a number. -/
def isNumberChar (c : Char) : Bool := Text.isWordChar c || c = '.'

def isGapChar (c : Char) : Bool := c = ' ' || c = '\t' || c = '\x0c' || c = '\r' || c = '\n'

/-- The text of a comment up to and with its `*/`, and what follows it. -/
def commentEnd? : List Char → Option (List Char × List Char)
  | '*' :: '/' :: rest => some (['*', '/'], rest)
  | c :: rest => (commentEnd? rest).map fun (body, rest) => (c :: body, rest)
  | [] => none

/-- The next thing in a text: its characters, and the text after them. -/
inductive Step
  | gap (chars rest : List Char)
  | token (terminal : Terminal) (chars rest : List Char)
  | illegal

/-- A letter starts a name, a digit or a minus before a digit starts a number. A word that is
spelled like a keyword as a whole is that keyword. -/
def step (c : Char) (rest : List Char) : Step :=
  if isGapChar c then
    .gap (c :: rest.takeWhile isGapChar) (rest.dropWhile isGapChar)
  else if c = '%' then
    .gap (c :: rest.takeWhile (· ≠ '\n')) (rest.dropWhile (· ≠ '\n'))
  else if c.isAlpha then
    let chars := c :: rest.takeWhile Text.isWordChar
    let terminal := match Keyword.ofSpelling? (String.ofList chars) with
      | some k => .keyword k
      | none => .name
    .token terminal chars (rest.dropWhile Text.isWordChar)
  else if c.isDigit || (c = '-' && rest.head?.any Char.isDigit) then
    .token .number (c :: rest.takeWhile isNumberChar) (rest.dropWhile isNumberChar)
  else if c = '/' then
    match rest with
    | '/' :: rest => .gap ('/' :: '/' :: rest.takeWhile (· ≠ '\n')) (rest.dropWhile (· ≠ '\n'))
    | '*' :: rest =>
      match commentEnd? rest with
      | some (body, rest) => .gap ('/' :: '*' :: body) rest
      | none => .illegal
    | _ => .illegal
  else
    match Mark.ofChar? c with
    | some m => .token (.mark m) [c] rest
    | none => .illegal

theorem length_dropWhile_le (p : Char → Bool) (cs : List Char) :
    (cs.dropWhile p).length ≤ cs.length :=
  (List.dropWhile_sublist p).length_le

theorem commentEnd?_shorter {cs body rest : List Char} (h : commentEnd? cs = some (body, rest)) :
    rest.length < cs.length := by
  fun_induction commentEnd? cs generalizing body rest with
  | case1 rest =>
    simp only [Option.some.injEq, Prod.mk.injEq] at h
    rw [← h.2, List.length_cons, List.length_cons]
    omega
  | case2 c cs _ ih =>
    simp only [Option.map_eq_some_iff, Prod.mk.injEq, Prod.exists] at h
    obtain ⟨b, r, hr, -, rfl⟩ := h
    have := ih hr
    rw [List.length_cons]
    omega
  | case3 => simp at h

/-- What is left of a text that starts with `c` is no longer than what follows `c`. -/
def Step.Leaves (s : Step) (n : Nat) : Prop :=
  match s with
  | .gap _ rest => rest.length ≤ n
  | .token _ _ rest => rest.length ≤ n
  | .illegal => True

theorem step_shorter (c : Char) (cs : List Char) : (step c cs).Leaves cs.length := by
  unfold step
  repeat' split
  all_goals simp only [Step.Leaves, length_dropWhile_le, Nat.le_refl]
  · next rest _ => exact Nat.le_succ_of_le (length_dropWhile_le _ rest)
  · next h => have := commentEnd?_shorter h; rw [List.length_cons]; omega

/-- The tokens of a text whose first character stands at `p`. -/
def tokensFrom (p : Position) : List Char → Tokens
  | [] => ⟨[], none⟩
  | c :: cs =>
    match _h : step c cs with
    | .gap chars rest => tokensFrom (p.afterAll chars) rest
    | .token terminal chars rest =>
      let q := p.afterAll chars
      let tail := tokensFrom q rest
      { tail with tokens := ⟨terminal, String.ofList chars, Span.between p q⟩ :: tail.tokens }
    | .illegal => ⟨[], some (c, p)⟩
termination_by cs => cs.length
decreasing_by
  all_goals
    have := step_shorter c cs
    simp only [_h, Step.Leaves] at this
    rw [List.length_cons]
    omega

def tokens (text : String) : Tokens := tokensFrom Position.start text.toList

end XdrSchema.Concrete
