/-! Escape sequences of terminals. A sequence starts with the escape character; if a bracket follows, it goes on
with parameters and other marks up to a final character, and otherwise it is one more character. Main statements:
`withoutSequences_append`, `withoutSequences_rendition`. -/
namespace XdrSchema.Text

def escape : Char := '\x1b'

def isParameter (c : Char) : Bool := '0' ≤ c && c ≤ '?'

def isIntermediate (c : Char) : Bool := ' ' ≤ c && c ≤ '/'

def isFinal (c : Char) : Bool := '@' ≤ c && c ≤ '~'

/-- The text after an escape sequence, from the character after its escape character on. -/
def afterSequence? : List Char → Option (List Char)
  | '[' :: rest =>
    match (rest.dropWhile isParameter).dropWhile isIntermediate with
    | c :: rest => if isFinal c then some rest else none
    | [] => none
  | c :: rest => if '@' ≤ c && c ≤ '_' then some rest else none
  | [] => none

theorem length_afterSequence? {text rest : List Char} (h : afterSequence? text = some rest) :
    rest.length < text.length := by
  unfold afterSequence? at h
  split at h
  · next tail =>
    have hparameters := (List.dropWhile_sublist isParameter (l := tail)).length_le
    have hmarks := (List.dropWhile_sublist isIntermediate (l := tail.dropWhile isParameter)).length_le
    split at h
    · next c rest' heq =>
      rw [Option.ite_none_right_eq_some, Option.some.injEq] at h
      obtain ⟨-, rfl⟩ := h
      rw [heq, List.length_cons] at hmarks
      rw [List.length_cons]
      omega
    · cases h
  · rw [Option.ite_none_right_eq_some, Option.some.injEq] at h
    obtain ⟨-, rfl⟩ := h
    exact Nat.lt_succ_self _
  · cases h

/-- A text without its escape sequences. An escape character that starts none stays. -/
def withoutSequences : List Char → List Char
  | [] => []
  | c :: text =>
    if c = escape then
      match _h : afterSequence? text with
      | some rest => withoutSequences rest
      | none => c :: withoutSequences text
    else c :: withoutSequences text
termination_by text => text.length
decreasing_by
  all_goals try have hlength := length_afterSequence? _h
  all_goals simp only [List.length_cons]
  all_goals omega

variable {c : Char} {front parameters rest : List Char}

@[simp] theorem withoutSequences_nil : withoutSequences [] = [] := by
  rw [withoutSequences]

theorem withoutSequences_cons (h : c ≠ escape) : withoutSequences (c :: rest) = c :: withoutSequences rest := by
  rw [withoutSequences, if_neg h]

theorem withoutSequences_append (h : escape ∉ front) :
    withoutSequences (front ++ rest) = front ++ withoutSequences rest := by
  induction front with
  | nil => rfl
  | cons c front ih =>
    rw [List.mem_cons, not_or] at h
    rw [List.cons_append, withoutSequences_cons (Ne.symm h.1), ih h.2, List.cons_append]

/-- A sequence that sets how characters are shown: parameters, and the letter m. -/
theorem afterSequence?_rendition (h : ∀ d ∈ parameters, isParameter d = true) :
    afterSequence? ('[' :: (parameters ++ 'm' :: rest)) = some rest := by
  have hparameters : (parameters ++ 'm' :: rest).dropWhile isParameter = 'm' :: rest := by
    rw [List.dropWhile_append_of_pos h, List.dropWhile_cons_of_neg (by decide)]
  rw [afterSequence?, hparameters, List.dropWhile_cons_of_neg (by decide)]
  rfl

theorem withoutSequences_rendition (h : ∀ d ∈ parameters, isParameter d = true) :
    withoutSequences (escape :: '[' :: (parameters ++ 'm' :: rest)) = withoutSequences rest := by
  rw [withoutSequences, if_pos rfl]
  split
  · next heq =>
    rw [afterSequence?_rendition h, Option.some.injEq] at heq
    rw [heq]
  · next heq =>
    rw [afterSequence?_rendition h] at heq
    cases heq

end XdrSchema.Text
