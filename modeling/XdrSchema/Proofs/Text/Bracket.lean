import Mathlib.Data.List.Basic

/-! Brackets and the indentation of lines. Reading a text keeps the brackets that are open, the innermost first. Main
statement: `wellLaid_of_rows`, what each line of a text has to satisfy on its own, next to the brackets that are open
where it begins, for the text to be laid out well. -/
namespace XdrSchema.Text

/-! ### Brackets -/

/-- The bracket that closes an opening one. -/
def closer? : Char → Option Char
  | '\x7b' => some '\x7d'
  | '(' => some ')'
  | '[' => some ']'
  | _ => none

def isCloser (c : Char) : Bool := c = '\x7d' || c = ')' || c = ']'

def isBracket (c : Char) : Bool := (closer? c).isSome || isCloser c

/-- The open brackets after one more character; nothing if it closes another one than the innermost. -/
def bracket (opened : List Char) (c : Char) : Option (List Char) :=
  if (closer? c).isSome then some (c :: opened)
  else if isCloser c then
    match opened with
    | [] => none
    | b :: rest => if closer? b = some c then some rest else none
  else some opened

/-- The open brackets after a text. -/
def nest (opened text : List Char) : Option (List Char) := text.foldlM bracket opened

section

variable {opened opened' opened'' outer a b text : List Char}

theorem nest_append (opened a b : List Char) : nest opened (a ++ b) = (nest opened a).bind (nest · b) :=
  List.foldlM_append

theorem nest_append_eq_some (ha : nest opened a = some opened') (hb : nest opened' b = some opened'') :
    nest opened (a ++ b) = some opened'' := by
  rw [nest_append, ha]
  exact hb

theorem bracket_of_not_isBracket {c : Char} (h : isBracket c = false) : bracket opened c = some opened := by
  rw [isBracket, Bool.or_eq_false_iff] at h
  unfold bracket
  rw [h.1, h.2]
  rfl

/-- A text without brackets closes and opens none. -/
theorem nest_of_plain (h : ∀ c ∈ text, isBracket c = false) : nest opened text = some opened := by
  induction text with
  | nil => rfl
  | cons c text ih =>
    rw [List.forall_mem_cons] at h
    rw [nest, List.foldlM_cons, bracket_of_not_isBracket h.1]
    exact ih h.2

theorem bracket_append {c : Char} (h : bracket opened c = some opened') :
    bracket (opened ++ outer) c = some (opened' ++ outer) := by
  unfold bracket at h ⊢
  split at h
  · next hopens =>
    cases h
    rw [if_pos hopens]
    rfl
  · next hopens =>
    rw [if_neg hopens]
    split at h
    · next hcloses =>
      rw [if_pos hcloses]
      split at h
      · cases h
      · next b rest =>
        split at h
        · next hb =>
          cases h
          exact if_pos hb
        · cases h
    · next hcloses =>
      cases h
      rw [if_neg hcloses]

/-- What is open around a text stays open. -/
theorem nest_outer (h : nest opened text = some opened') : nest (opened ++ outer) text = some (opened' ++ outer) := by
  induction text generalizing opened with
  | nil =>
    cases h
    rfl
  | cons c text ih =>
    rw [nest, List.foldlM_cons] at h ⊢
    obtain ⟨between, hc, htext⟩ := Option.bind_eq_some_iff.mp h
    rw [bracket_append hc]
    exact ih htext

end

/-! ### Lines -/

/-- The text of a line after its indentation. -/
def content (line : List Char) : List Char := line.dropWhile (· = ' ')

/-- The braces that count for the indentation of a line. A closing brace that it begins with has closed its own. -/
def level (opened line : List Char) : Nat :=
  (if (content line).head? = some '\x7d' then opened.tail else opened).count '\x7b'

/-- An empty line, or one that is indented by four spaces for each brace. -/
def isIndented (opened line : List Char) : Bool :=
  line.isEmpty || (line.takeWhile (· = ' ')).length = 4 * level opened line

/-- A line that begins an item of its own, since it is not indented and closes nothing, begins with nothing open. -/
def isOutermost (opened line : List Char) : Bool :=
  opened.isEmpty || line.head?.all fun c => c = ' ' || isCloser c

/-- What holds of a line of tidy code next to the brackets that are open where it begins. -/
def isAligned (opened line : List Char) : Bool := isOutermost opened line && isIndented opened line

/-- A text whose brackets are nested and whose lines are indented, after those of its front. -/
structure WellLaid (front : List (List Char)) (text : List Char) : Prop where
  nested : nest [] text = some []
  begins : front <+: text.splitOn '\n'
  outermost : ∀ before line after, text.splitOn '\n' = before ++ line :: after →
    ∃ opened, nest [] before.flatten = some opened ∧ isOutermost opened line = true
  indented : ∀ before line after, text.splitOn '\n' = before ++ line :: after → front <+: before →
    ∃ opened, nest [] before.flatten = some opened ∧ isIndented opened line = true
  ends : ∃ (init : List Char) (c : Char), text = init ++ [c, '\n'] ∧ c ≠ '\n'

/-! ### Rows -/

/-- The open brackets after a line that satisfies a condition where it begins. -/
def row (holds : List Char → List Char → Bool) (opened line : List Char) : Option (List Char) :=
  if holds opened line then nest opened line else none

/-- Lines one after the other lead from some open brackets to others, and each satisfies a condition. -/
def Rows (holds : List Char → List Char → Bool) (opened : List Char) (lines : List (List Char)) (opened' : List Char) :
    Prop :=
  lines.foldlM (row holds) opened = some opened'

instance (holds : List Char → List Char → Bool) (opened opened' : List Char) (lines : List (List Char)) :
    Decidable (Rows holds opened lines opened') :=
  inferInstanceAs (Decidable (_ = _))

section

variable {holds holds' : List Char → List Char → Bool} {opened opened' opened'' line : List Char}
  {lines lines' : List (List Char)}

theorem rows_nil : Rows holds opened [] opened := rfl

theorem rows_cons : Rows holds opened (line :: lines) opened'' ↔
    ∃ opened', holds opened line = true ∧ nest opened line = some opened' ∧ Rows holds opened' lines opened'' := by
  unfold Rows
  rw [List.foldlM_cons, row]
  split
  · next h => exact Option.bind_eq_some_iff.trans (exists_congr fun _ => (and_iff_right h).symm)
  · next h => exact iff_of_false nofun fun ⟨_, hholds, _⟩ => h hholds

theorem rows_append : Rows holds opened (lines ++ lines') opened'' ↔
    ∃ opened', Rows holds opened lines opened' ∧ Rows holds opened' lines' opened'' := by
  unfold Rows
  rw [List.foldlM_append]
  exact Option.bind_eq_some_iff

theorem Rows.append (h : Rows holds opened lines opened') (h' : Rows holds opened' lines' opened'') :
    Rows holds opened (lines ++ lines') opened'' := rows_append.mpr ⟨opened', h, h'⟩

theorem rows_singleton (hline : holds opened line = true) (h : nest opened line = some opened') :
    Rows holds opened [line] opened' := rows_cons.mpr ⟨opened', hline, h, rows_nil⟩

theorem Rows.imp (himp : ∀ opened line, holds opened line = true → holds' opened line = true)
    (h : Rows holds opened lines opened') : Rows holds' opened lines opened' := by
  induction lines generalizing opened with
  | nil => exact h
  | cons line lines ih =>
    obtain ⟨between, hline, hnest, hlines⟩ := rows_cons.mp h
    exact rows_cons.mpr ⟨between, himp _ _ hline, hnest, ih hlines⟩

theorem Rows.nest_flatten (h : Rows holds opened lines opened') : nest opened lines.flatten = some opened' := by
  induction lines generalizing opened with
  | nil => exact h
  | cons line lines ih =>
    obtain ⟨between, -, hnest, hlines⟩ := rows_cons.mp h
    exact nest_append_eq_some hnest (ih hlines)

/-- Lines without brackets keep what is open. -/
theorem rows_of_plain (hholds : ∀ line, holds opened line = true)
    (h : ∀ line ∈ lines, ∀ c ∈ line, isBracket c = false) : Rows holds opened lines opened := by
  induction lines with
  | nil => exact rows_nil
  | cons line lines ih =>
    rw [List.forall_mem_cons] at h
    exact rows_cons.mpr ⟨opened, hholds line, nest_of_plain h.1, ih h.2⟩

/-- A line among others satisfies the condition where it begins. -/
theorem Rows.holds_of_eq_append {before after : List (List Char)} (h : Rows holds opened lines opened'')
    (hlines : lines = before ++ line :: after) :
    ∃ opened', nest opened before.flatten = some opened' ∧ holds opened' line = true := by
  subst hlines
  obtain ⟨opened', hbefore, hline⟩ := rows_append.mp h
  obtain ⟨-, hholds, -, -⟩ := rows_cons.mp hline
  exact ⟨opened', hbefore.nest_flatten, hholds⟩

/-- The parts of a text hold its characters without those between the parts. -/
theorem flatten_splitOn (separator : Char) (text : List Char) :
    (text.splitOn separator).flatten = text.filter (· ≠ separator) := by
  induction text with
  | nil => rfl
  | cons c text ih =>
    rw [List.splitOn_cons_eq_if_modifyHead]
    split
    · next hc => rw [List.flatten_cons, ih, List.filter_cons_of_neg (by simpa using hc), List.nil_append]
    · next hc =>
      rw [List.filter_cons_of_pos (by simpa using hc), ← ih]
      cases hsplit : text.splitOn separator with
      | nil => exact absurd hsplit (List.splitOn_ne_nil separator text)
      | cons line lines => rfl

theorem mem_of_mem_splitOn {separator : Char} {text part : List Char} (hpart : part ∈ text.splitOn separator) {c : Char}
    (hc : c ∈ part) : c ∈ text :=
  List.mem_of_mem_filter (flatten_splitOn separator text ▸ List.mem_flatten.mpr ⟨part, hpart, hc⟩)

theorem forall_mem_intercalate {separator : List Char} {parts : List (List Char)} {P : Char → Prop}
    (hseparator : ∀ c ∈ separator, P c) (h : ∀ part ∈ parts, ∀ c ∈ part, P c) :
    ∀ c ∈ separator.intercalate parts, P c := by
  induction parts with
  | nil => exact List.forall_mem_nil _
  | cons part rest ih =>
    rw [List.forall_mem_cons] at h
    cases rest with
    | nil =>
      rw [List.intercalate_singleton]
      exact h.1
    | cons next rest =>
      rw [List.intercalate_cons_cons]
      exact List.forall_mem_append.mpr ⟨List.forall_mem_append.mpr ⟨h.1, hseparator⟩, ih h.2⟩

theorem forall_mem_toList_intercalate {separator : String} {texts : List String} {P : Char → Prop}
    (hseparator : ∀ c ∈ separator.toList, P c) (h : ∀ t ∈ texts, ∀ c ∈ t.toList, P c) :
    ∀ c ∈ (separator.intercalate texts).toList, P c := by
  rw [String.toList_intercalate]
  exact forall_mem_intercalate hseparator (List.forall_mem_map.mpr h)

/-- Line ends are no brackets. -/
theorem nest_flatten_splitOn (text : List Char) : nest opened (text.splitOn '\n').flatten = nest opened text := by
  rw [flatten_splitOn]
  induction text generalizing opened with
  | nil => rfl
  | cons c text ih =>
    by_cases hc : c = '\n'
    · subst hc
      exact ih
    · rw [List.filter_cons_of_pos (by simpa using hc), nest, nest, List.foldlM_cons, List.foldlM_cons]
      exact congrArg _ (funext fun between => ih)

end

/-- A text is laid out well if its lines are, and it ends in one line end. -/
theorem wellLaid_of_rows {text : List Char} {front rest : List (List Char)}
    (hlines : text.splitOn '\n' = front ++ rest) (hfront : Rows isOutermost [] front [])
    (hrest : Rows isAligned [] rest [])
    (hends : ∃ (init : List Char) (c : Char), text = init ++ [c, '\n'] ∧ c ≠ '\n') :
    WellLaid front text := by
  have houtermost : Rows isOutermost [] (text.splitOn '\n') [] := by
    rw [hlines]
    exact hfront.append (hrest.imp fun _ _ h => (Bool.and_eq_true_iff.mp h).1)
  refine ⟨?_, hlines ▸ List.prefix_append _ _, fun _ _ _ h => houtermost.holds_of_eq_append h, ?_, hends⟩
  · rw [← nest_flatten_splitOn]
    exact houtermost.nest_flatten
  · rintro _ line after h ⟨before, rfl⟩
    rw [hlines, List.append_assoc] at h
    obtain ⟨opened, hnest, hholds⟩ := hrest.holds_of_eq_append (List.append_cancel_left h)
    refine ⟨opened, ?_, (Bool.and_eq_true_iff.mp hholds).2⟩
    rw [List.flatten_append]
    exact nest_append_eq_some hfront.nest_flatten hnest

end XdrSchema.Text
