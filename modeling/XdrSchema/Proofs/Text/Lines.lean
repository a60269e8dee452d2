import Mathlib.Data.List.Basic
import XdrSchema.Text.Lines
import XdrSchema.Text.Span

/-! Display lines against the lines that positions count, which end at a line feed only. Main statements:
`exists_line_at` finds the line of a position, `exists_display_line` the display line of the same number. -/
namespace XdrSchema.Text

/-! ### One line -/

/-- One line feed at most is dropped, so that what is left may not end in another. -/
theorem dropFinalNewline_eq_iff {text body : List Char} (h : body.getLast? ≠ some '\n') :
    dropFinalNewline text = body ↔ text = body ∨ text = body ++ ['\n'] := by
  unfold dropFinalNewline
  constructor
  · intro heq
    split at heq
    · next hlast => exact .inr (by rw [← heq, List.dropLast_append_getLast? _ hlast])
    · exact .inl heq
  · rintro (rfl | rfl)
    · rw [if_neg h]
    · rw [if_pos List.getLast?_concat, List.dropLast_concat]

/-- A line without the carriage return that may end it. -/
def withoutReturn (line : List Char) : List Char := if line.getLast? = some '\r' then line.dropLast else line

/-- Nothing in the line ends a display line, but for a carriage return at its end. -/
def Whole (line : List Char) : Prop := ∀ c ∈ withoutReturn line, isLineEnd c = false

instance : DecidablePred Whole := fun line => List.decidableBAll (isLineEnd · = false) (withoutReturn line)

section

variable {current front line rest : List Char} {c : Char}

/-- Characters are read one by one, but for a carriage return before a line feed. -/
theorem linesFrom_cons (h : c = '\r' → rest.head? ≠ some '\n') : linesFrom current (c :: rest) =
    if isLineEnd c then current.reverse :: lines rest else linesFrom (c :: current) rest := by
  rw [linesFrom]
  · rfl
  · exact fun _ hc hrest => h hc (congrArg List.head? hrest)

theorem linesFrom_newline : linesFrom current ('\n' :: rest) = current.reverse :: lines rest :=
  linesFrom_cons (by simp)

theorem linesFrom_ne_nil (h : line ≠ []) : linesFrom current line ≠ [] := by
  fun_induction linesFrom current line with
  | case1 | case2 => exact (h rfl).elim
  | case3 | case4 => exact List.cons_ne_nil _ _
  | case5 current c rest _ _ ih =>
    cases rest with
    | nil => simp [linesFrom]
    | cons d rest => exact ih (List.cons_ne_nil d rest)

/-- Display lines split at a line feed. -/
theorem linesFrom_append (h : '\n' ∉ line) :
    linesFrom current (line ++ '\n' :: rest) = linesFrom current (line ++ ['\n']) ++ lines rest := by
  induction line generalizing current with
  | nil =>
    rw [List.nil_append, List.nil_append, linesFrom_newline, linesFrom_newline]
    rfl
  | cons c line ih =>
    rw [List.mem_cons, not_or] at h
    cases line with
    | nil =>
      by_cases hc : c = '\r'
      · subst hc
        rfl
      · rw [List.cons_append, List.cons_append, linesFrom_cons (by simp [hc]), linesFrom_cons (by simp [hc])]
        split
        · rfl
        · exact ih h.2
    | cons d line =>
      have hd : d ≠ '\n' := fun heq => h.2 (heq ▸ List.mem_cons_self)
      have hhead : ∀ cs, c = '\r' → (d :: line ++ cs).head? ≠ some '\n' := fun cs _ => by simpa using hd
      have hcons : ∀ cs, linesFrom current (c :: (d :: line ++ cs)) = _ := fun cs => linesFrom_cons (hhead cs)
      change linesFrom current (c :: (d :: line ++ _)) = linesFrom current (c :: (d :: line ++ _)) ++ _
      rw [hcons, hcons]
      split
      · exact congrArg _ (ih h.2)
      · exact ih h.2

theorem linesFrom_of_plain (h : ∀ c ∈ line, isLineEnd c = false) :
    linesFrom current (line ++ rest) = linesFrom (line.reverse ++ current) rest := by
  induction line generalizing current with
  | nil => rfl
  | cons c line ih =>
    rw [List.forall_mem_cons] at h
    have hc : c ≠ '\r' := by
      rintro rfl
      cases h.1
    rw [List.cons_append, linesFrom_cons (fun heq => (hc heq).elim), h.1, ih h.2, List.reverse_cons, List.append_assoc]
    rfl

/-- Display lines hold characters of the text only. -/
theorem mem_of_mem_linesFrom {text : List Char} : ∀ l ∈ linesFrom current text, ∀ d ∈ l, d ∈ current ∨ d ∈ text := by
  fun_induction linesFrom current text with
  | case1 => exact List.forall_mem_nil _
  | case2 current =>
    rw [List.forall_mem_singleton]
    exact fun d hd => .inl (List.mem_reverse.mp hd)
  | case3 current rest ih =>
    rw [List.forall_mem_cons]
    refine ⟨fun d hd => .inl (List.mem_reverse.mp hd), fun l hl d hd => .inr ?_⟩
    exact List.mem_cons_of_mem _ (List.mem_cons_of_mem _ ((ih l hl d hd).resolve_left List.not_mem_nil))
  | case4 current c rest _ _ ih =>
    rw [List.forall_mem_cons]
    refine ⟨fun d hd => .inl (List.mem_reverse.mp hd), fun l hl d hd => .inr ?_⟩
    exact List.mem_cons_of_mem _ ((ih l hl d hd).resolve_left List.not_mem_nil)
  | case5 current c rest _ _ ih =>
    intro l hl d hd
    rcases ih l hl d hd with hmem | hmem
    · rcases List.mem_cons.mp hmem with rfl | hmem
      · exact .inr List.mem_cons_self
      · exact .inl hmem
    · exact .inr (List.mem_cons_of_mem c hmem)

theorem mem_of_mem_lines {text : List Char} (hline : line ∈ lines text) (hc : c ∈ line) : c ∈ text :=
  (mem_of_mem_linesFrom line hline c hc).resolve_left List.not_mem_nil

/-- A line is what is left of it and, perhaps, a carriage return. -/
theorem eq_withoutReturn (line : List Char) :
    line = withoutReturn line ∨ line = withoutReturn line ++ ['\r'] := by
  unfold withoutReturn
  split
  · next h => exact .inr (List.dropLast_append_getLast? _ h).symm
  · exact .inl rfl

/-- A character that is no carriage return keeps its place. -/
theorem exists_withoutReturn (hc : c ≠ '\r') (before after : List Char) :
    ∃ after', withoutReturn (before ++ c :: after) = before ++ c :: after' := by
  rcases List.eq_nil_or_concat after with rfl | ⟨after, d, rfl⟩
  · refine ⟨[], if_neg ?_⟩
    rw [List.getLast?_concat]
    exact fun h => hc (Option.some.inj h)
  · have heq : before ++ c :: after.concat d = (before ++ c :: after) ++ [d] := by simp
    unfold withoutReturn
    rw [heq, List.dropLast_concat]
    split
    · exact ⟨after, rfl⟩
    · exact ⟨after ++ [d], by simp⟩

theorem lines_append_of_whole (h : Whole line) (rest : List Char) :
    lines (withoutReturn line ++ rest) = linesFrom (withoutReturn line).reverse rest := by
  rw [lines, linesFrom_of_plain h, List.append_nil]

theorem lines_of_whole (h : Whole line) : lines (line ++ ['\n']) = [withoutReturn line] := by
  have happend := lines_append_of_whole h
  rcases eq_withoutReturn line with heq | heq
  · rw [← heq] at happend ⊢
    rw [happend, linesFrom_newline, List.reverse_reverse]
    rfl
  · generalize withoutReturn line = front at *
    rw [heq, List.append_assoc, happend]
    exact congrArg (· :: []) (List.reverse_reverse front)

/-- The last line may lack its line end. -/
theorem lines_of_whole_of_ne_nil (h : Whole line) (hne : line ≠ []) : lines line = [withoutReturn line] := by
  have happend := lines_append_of_whole h
  rcases eq_withoutReturn line with heq | heq
  · rw [← heq] at happend ⊢
    have hreverse : line.reverse.isEmpty = false := by simpa using hne
    rw [← List.append_nil line, happend, linesFrom, hreverse, List.append_nil, List.reverse_reverse]
    rfl
  · generalize withoutReturn line = front at *
    rw [heq, happend]
    exact congrArg (· :: []) (List.reverse_reverse front)

/-- A line that ends takes up one display line or more: one, if it is whole. -/
theorem exists_lines_append (h : '\n' ∉ front) (rest : List Char) : ∃ first others,
    lines (front ++ '\n' :: rest) = first :: (others ++ lines rest) ∧
      (Whole front → first = withoutReturn front ∧ others = []) := by
  have hne : lines (front ++ ['\n']) ≠ [] := linesFrom_ne_nil (by simp)
  obtain ⟨first, others, heq⟩ := List.exists_cons_of_ne_nil hne
  refine ⟨first, others, ?_, fun hwhole => ?_⟩
  · rw [← List.cons_append, ← heq]
    exact linesFrom_append h
  · cases heq.symm.trans (lines_of_whole hwhole)
    exact ⟨rfl, rfl⟩

/-- The line of some number, if it is not empty, has a display line of that number. It is that line itself when no
other line ends come before. -/
theorem exists_display_line {cs line : List Char} {k : Nat} (hline : (cs.splitOn '\n')[k]? = some line)
    (hne : line ≠ []) : ∃ shown, (lines cs)[k]? = some shown ∧
      ((∀ l ∈ (cs.splitOn '\n').take (k + 1), Whole l) → shown = withoutReturn line) := by
  by_cases hmem : '\n' ∈ cs
  · obtain ⟨front, rest, rfl, hfront⟩ := List.eq_append_cons_of_mem hmem
    obtain ⟨first, others, heq, hfirst⟩ := exists_lines_append hfront rest
    rw [List.splitOn_append_cons_self_of_not_mem hfront] at hline ⊢
    rw [heq]
    cases k with
    | zero =>
      cases hline
      exact ⟨first, rfl, fun h => (hfirst (h line List.mem_cons_self)).1⟩
    | succ k =>
      obtain ⟨shown, hshown, hwhole⟩ := exists_display_line (k := k) hline hne
      -- the display lines of the first line may be more than one, so that there are enough of them
      have hk : k < (others ++ lines rest).length := by
        have hlt := (List.getElem?_eq_some_iff.mp hshown).1
        rw [List.length_append]
        omega
      refine ⟨_, List.getElem?_eq_getElem (Nat.succ_lt_succ hk), fun h => ?_⟩
      rw [List.take_succ_cons, List.forall_mem_cons] at h
      obtain ⟨-, rfl⟩ := hfirst h.1
      rw [← hwhole h.2]
      exact Option.some.inj ((List.getElem?_eq_getElem hk).symm.trans hshown)
  · rw [List.splitOn_eq_singleton hmem] at hline ⊢
    cases k with
    | zero =>
      obtain rfl : cs = line := Option.some.inj hline
      have hlines : lines cs ≠ [] := linesFrom_ne_nil hne
      obtain ⟨shown, others, heq⟩ := List.exists_cons_of_ne_nil hlines
      refine ⟨shown, congrArg (·[0]?) heq, fun h => ?_⟩
      cases heq.symm.trans (lines_of_whole_of_ne_nil (h cs List.mem_cons_self) hne)
      rfl
    | succ k => cases hline
termination_by k

/-! ### The line of a position -/

theorem afterAll_of_not_mem (h : '\n' ∉ front) (p : Position) :
    p.afterAll front = ⟨p.line, p.column + front.length⟩ := by
  induction front generalizing p with
  | nil => rfl
  | cons c front ih =>
    rw [List.mem_cons, not_or] at h
    have hafter : p.after c = ⟨p.line, p.column + 1⟩ := if_neg (Ne.symm h.1)
    change (p.after c).afterAll front = _
    rw [hafter, ih h.2, List.length_cons]
    exact congrArg (Position.mk p.line) (Nat.add_right_comm _ _ _)

/-- The first line of a text goes on after a character that does not end it. -/
theorem exists_first_line (hfront : '\n' ∉ front) (hc : c ≠ '\n') (rest : List Char) :
    ∃ after, ((front ++ c :: rest).splitOn '\n')[0]? = some (front ++ c :: after) := by
  by_cases hrest : '\n' ∈ rest
  · obtain ⟨after, others, rfl, hafter⟩ := List.eq_append_cons_of_mem hrest
    have hline : '\n' ∉ front ++ c :: after := by simp [hfront, Ne.symm hc, hafter]
    have heq : front ++ c :: (after ++ '\n' :: others) = (front ++ c :: after) ++ '\n' :: others := by simp
    exact ⟨after, by rw [heq, List.splitOn_append_cons_self_of_not_mem hline]; rfl⟩
  · have hline : '\n' ∉ front ++ c :: rest := by simp [hfront, Ne.symm hc, hrest]
    exact ⟨rest, by rw [List.splitOn_eq_singleton hline]; rfl⟩

/-- The position of a character is the number of its line and its place in that line. -/
theorem exists_line_at (hc : c ≠ '\n') (front rest : List Char) (n : Nat) :
    ∃ k before after, (Position.afterAll ⟨n, 1⟩ front) = ⟨n + k, before.length + 1⟩ ∧
      ((front ++ c :: rest).splitOn '\n')[k]? = some (before ++ c :: after) := by
  by_cases hmem : '\n' ∈ front
  · obtain ⟨first, front', rfl, hfirst⟩ := List.eq_append_cons_of_mem hmem
    obtain ⟨k, before, after, hplace, hline⟩ := exists_line_at hc front' rest (n + 1)
    refine ⟨k + 1, before, after, ?_, ?_⟩
    · have happend : Position.afterAll ⟨n, 1⟩ (first ++ '\n' :: front') = Position.afterAll ⟨n + 1, 1⟩ front' := by
        change List.foldl _ _ _ = _
        rw [List.foldl_append]
        change ((Position.afterAll ⟨n, 1⟩ first).after '\n').afterAll front' = _
        rw [afterAll_of_not_mem hfirst]
        rfl
      rw [happend, hplace]
      exact congrArg (Position.mk · _) (by omega)
    · rw [List.append_assoc, List.cons_append, List.splitOn_append_cons_self_of_not_mem hfirst]
      exact hline
  · obtain ⟨after, hline⟩ := exists_first_line hmem hc rest
    exact ⟨0, front, after, by rw [afterAll_of_not_mem hmem]; rw [Nat.add_comm]; rfl, hline⟩
termination_by front.length

end

end XdrSchema.Text
