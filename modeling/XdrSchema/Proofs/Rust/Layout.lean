import XdrSchema.Proofs.Rust.Lines
import XdrSchema.Proofs.Text.Bracket

/-! The layout of generated code. Code is tidy if its lines close what they open, but for the braces of its blocks and
for brackets that the closing lines of the blocks close. Main statement: `exists_lines_writeAll`, tidy code is
written as lines that are indented by the depth of the braces around them. -/
namespace XdrSchema.Rust

open Text (nest isBracket isCloser isIndented isOutermost isAligned content level Rows rows_nil rows_singleton)

/-! ### Parts of a line -/

/-- A part of a line leads from some open brackets to others. -/
structure Turns (opened : List Char) (t : String) (opened' : List Char) : Prop where
  nest : Text.nest opened t.toList = some opened'
  line : '\n' ∉ t.toList

/-- A part of a line closes what it opens. -/
abbrev Closed (t : String) : Prop := Turns [] t []

section

variable {opened opened' opened'' : List Char} {a b t : String}

theorem Turns.append (ha : Turns opened a opened') (hb : Turns opened' b opened'') :
    Turns opened (a ++ b) opened'' := by
  constructor
  · rw [String.toList_append]
    exact Text.nest_append_eq_some ha.nest hb.nest
  · rw [String.toList_append, List.mem_append]
    exact not_or.mpr ⟨ha.line, hb.line⟩

/-- What is open around a part stays open. -/
theorem Turns.outer (h : Turns opened t opened') (outer : List Char) : Turns (opened ++ outer) t (opened' ++ outer) :=
  ⟨Text.nest_outer h.nest, h.line⟩

theorem Turns.keep (h : Turns opened a opened') (ht : Closed t) : Turns opened (a ++ t) opened' :=
  h.append (ht.outer opened')

theorem Turns.around (ha : Turns opened a opened') (ht : Closed t) (hb : Turns opened' b opened'') :
    Turns opened (a ++ t ++ b) opened'' := (ha.keep ht).append hb

theorem turns_fixed {t : List Char} (h : nest opened t = some opened') (hline : t.contains '\n' = false) :
    Turns opened (String.ofList t) opened' := by
  rw [List.contains_eq_mem, decide_eq_false_iff_not] at hline
  constructor <;> rwa [String.toList_ofList]

theorem closed_of_plain (h : ∀ c ∈ t.toList, isBracket c = false ∧ c ≠ '\n') : Closed t :=
  ⟨Text.nest_of_plain fun c hc => (h c hc).1, fun hmem => (h _ hmem).2 rfl⟩

/-- A part with which a line begins: its first character is no space and no closing bracket. -/
structure Begins (t : String) (opened : List Char) : Prop where
  turns : Turns [] t opened
  head : ∃ c ∈ t.toList.head?, c ≠ ' ' ∧ isCloser c = false

theorem Begins.append (h : Begins a opened) (hb : Turns opened b opened') : Begins (a ++ b) opened' := by
  refine ⟨h.turns.append hb, ?_⟩
  obtain ⟨c, hc, hhead⟩ := h.head
  obtain ⟨rest, hrest⟩ := List.head?_eq_some_iff.mp hc
  exact ⟨c, by rw [String.toList_append, hrest]; rfl, hhead⟩

theorem Begins.keep (h : Begins a opened) (ht : Closed t) : Begins (a ++ t) opened := h.append (ht.outer opened)

theorem Begins.around (h : Begins a opened) (ht : Closed t) (hb : Turns opened b opened') :
    Begins (a ++ t ++ b) opened' := (h.keep ht).append hb

theorem begins_fixed {c : Char} {t : List Char} (h : nest [] (c :: t) = some opened)
    (hline : (c :: t).contains '\n' = false) (hhead : (c ≠ ' ' && !isCloser c) = true) :
    Begins (String.ofList (c :: t)) opened := by
  rw [Bool.and_eq_true, decide_eq_true_iff, Bool.not_eq_true'] at hhead
  exact ⟨turns_fixed h hline, c, by rw [String.toList_ofList]; rfl, hhead⟩

theorem Begins.not_isEmpty (h : Begins t opened) : t.isEmpty = false := by
  obtain ⟨c, hc, -⟩ := h.head
  rw [Bool.eq_false_iff, Ne, String.isEmpty_iff]
  rintro rfl
  cases hc

end

/-! ### Tidy code -/

mutual

def Code.Tidy : Code → Prop
  | .line t => Begins t []
  | .blank => True
  | .raw _ => False
  | .block header suffix body =>
    (∃ opened, '\x7b' ∉ opened ∧ Begins header opened ∧ Turns opened suffix []) ∧ TidyAll body

def TidyAll : List Code → Prop
  | [] => True
  | c :: rest => c.Tidy ∧ TidyAll rest

end

section

variable {cs cs' : List Code} {c : Code}

theorem tidyAll_nil : TidyAll [] := trivial

theorem tidy_line {t : String} (h : Begins t []) : (Code.line t).Tidy := h

theorem tidyAll_singleton : TidyAll [c] ↔ c.Tidy := and_true _ |>.to_iff

theorem tidyAll_iff : TidyAll cs ↔ ∀ c ∈ cs, c.Tidy := by
  induction cs with
  | nil => exact iff_of_true trivial (List.forall_mem_nil _)
  | cons c cs ih => rw [TidyAll, ih, List.forall_mem_cons]

theorem tidyAll_append : TidyAll (cs ++ cs') ↔ TidyAll cs ∧ TidyAll cs' := by
  simp only [tidyAll_iff, List.forall_mem_append]

theorem tidyAll_map {α : Type} {l : List α} {f : α → Code} (h : ∀ a ∈ l, (f a).Tidy) : TidyAll (l.map f) :=
  tidyAll_iff.mpr (List.forall_mem_map.mpr h)

theorem tidyAll_flatMap {α : Type} {l : List α} {f : α → List Code} (h : ∀ a ∈ l, TidyAll (f a)) :
    TidyAll (l.flatMap f) := by
  rw [tidyAll_iff]
  intro c hc
  obtain ⟨a, ha, hc⟩ := List.mem_flatMap.mp hc
  exact tidyAll_iff.mp (h a ha) c hc

/-- A block that opens just its brace. -/
theorem tidy_block {header : String} (h : Begins header []) (hbody : TidyAll cs) : (Code.block header "" cs).Tidy :=
  ⟨⟨[], List.not_mem_nil, h, turns_fixed rfl rfl⟩, hbody⟩

theorem tidyAll_line {t : String} (h : Begins t []) : TidyAll [.line t] := tidyAll_singleton.mpr h

theorem tidyAll_block {header : String} (h : Begins header []) (hbody : TidyAll cs) : TidyAll [.block header "" cs] :=
  tidyAll_singleton.mpr (tidy_block h hbody)

/-- A block in parentheses. -/
theorem tidy_parenthesized {header : String} (h : Begins header ['(']) (hbody : TidyAll cs) :
    (Code.block header ")" cs).Tidy :=
  ⟨⟨['('], by decide, h, turns_fixed rfl rfl⟩, hbody⟩

end

/-! ### Writing -/

/-- Lines one after the other lead from some open brackets to others, and are indented. -/
structure Laid (opened : List Char) (ls : List String) (opened' : List Char) : Prop where
  rows : Rows isAligned opened (ls.map String.toList) opened'
  whole : ∀ l ∈ ls, '\n' ∉ l.toList

/-- There are as many open braces as blocks, and nothing else is open outside of all blocks. -/
def Opened (opened : List Char) (depth : Nat) : Prop := opened.count '\x7b' = depth ∧ (depth = 0 → opened = [])

section

variable {opened opened' opened'' : List Char} {ls ls' : List String} {depth : Nat} {t : String}

theorem laid_nil : Laid opened [] opened := ⟨rows_nil, List.forall_mem_nil _⟩

theorem Laid.append (h : Laid opened ls opened') (h' : Laid opened' ls' opened'') :
    Laid opened (ls ++ ls') opened'' :=
  ⟨by rw [List.map_append]; exact h.rows.append h'.rows, List.forall_mem_append.mpr ⟨h.whole, h'.whole⟩⟩

theorem laid_empty : Laid opened [""] opened := by
  refine ⟨rows_singleton ?_ rfl, by simp⟩
  change isAligned opened [] = true
  simp [isAligned, isOutermost, isIndented]

theorem takeWhile_indented {c : Char} (rest : List Char) (hc : c ≠ ' ') (k : Nat) :
    (List.replicate k ' ' ++ c :: rest).takeWhile (· = ' ') = List.replicate k ' ' ∧
      content (List.replicate k ' ' ++ c :: rest) = c :: rest := by
  have hspaces : ∀ x ∈ List.replicate k ' ', decide (x = ' ') = true := fun x hx =>
    decide_eq_true (List.eq_of_mem_replicate hx)
  constructor
  · rw [List.takeWhile_append_of_pos hspaces, List.takeWhile_cons_of_neg (by simpa using hc), List.append_nil]
  · rw [content, List.dropWhile_append_of_pos hspaces, List.dropWhile_cons_of_neg (by simpa using hc)]

/-- A line is indented by the braces that are open after a closing brace that it begins with. -/
theorem laid_indented {c : Char} {rest : List Char} (hc : c ≠ ' ') (ht : t.toList = c :: rest)
    (hline : '\n' ∉ t.toList) (hlevel : (if c = '\x7d' then opened.tail else opened).count '\x7b' = depth)
    (houtermost : opened = [] ∨ depth ≠ 0 ∨ isCloser c = true) (hnest : nest opened t.toList = some opened') :
    Laid opened [indented (4 * depth) t] opened' := by
  have htoList : (indented (4 * depth) t).toList = List.replicate (4 * depth) ' ' ++ c :: rest := by
    rw [indented, String.toList_append, String.toList_ofList, ht]
  obtain ⟨hspaces, hcontent⟩ := takeWhile_indented rest hc (4 * depth)
  constructor
  · rw [List.map_singleton, htoList]
    refine rows_singleton (Bool.and_eq_true_iff.mpr ⟨?_, ?_⟩) ?_
    · rw [isOutermost, Bool.or_eq_true, List.isEmpty_iff]
      rcases houtermost with hnone | hdepth | hcloses
      · exact .inl hnone
      · obtain ⟨k, hk⟩ := Nat.exists_eq_succ_of_ne_zero (Nat.mul_ne_zero (by decide : 4 ≠ 0) hdepth)
        rw [hk]
        exact .inr rfl
      · cases depth with
        | zero => exact .inr (by simpa using .inr hcloses)
        | succ k => exact .inr rfl
    · rw [isIndented, hspaces, List.length_replicate, level, hcontent, List.head?_cons]
      simp only [Option.some.injEq]
      rw [hlevel]
      simp
    · have hplain : nest opened (List.replicate (4 * depth) ' ') = some opened :=
        Text.nest_of_plain fun x hx => by rw [List.eq_of_mem_replicate hx]; rfl
      rw [ht] at hnest
      exact Text.nest_append_eq_some hplain hnest
  · rintro _ hl
    rw [List.mem_singleton.mp hl, htoList, List.mem_append, ← ht]
    rintro (hmem | hmem)
    · cases List.eq_of_mem_replicate hmem
    · exact hline hmem

theorem laid_line (hopened : Opened opened depth) (h : Begins t opened') :
    Laid opened [indented (4 * depth) t] (opened' ++ opened) := by
  obtain ⟨c, hc, hspace, hcloser⟩ := h.head
  obtain ⟨rest, hrest⟩ := List.head?_eq_some_iff.mp hc
  have hbrace : c ≠ '\x7d' := by
    rintro rfl
    cases hcloser
  refine laid_indented hspace hrest h.turns.line ?_ ?_ (h.turns.outer opened).nest
  · rw [if_neg hbrace]
    exact hopened.1
  · by_cases hdepth : depth = 0
    · exact .inl (hopened.2 hdepth)
    · exact .inr (.inl hdepth)

/-- The closing line of a block. -/
theorem laid_close (hopened : opened.count '\x7b' = depth) {inner : List Char} (hinner : '\x7b' ∉ inner)
    (hsuffix : Turns inner t []) : Laid ('\x7b' :: inner ++ opened) [indented (4 * depth) ("\x7d" ++ t)] opened := by
  have htoList : ("\x7d" ++ t).toList = '\x7d' :: t.toList := String.toList_append
  refine laid_indented (by decide) htoList ?_ ?_ (.inr (.inr rfl)) ?_
  · rw [htoList]
    exact List.not_mem_cons_of_ne_of_not_mem (by decide) hsuffix.line
  · rw [if_pos rfl, List.cons_append, List.tail_cons, List.count_append, List.count_eq_zero_of_not_mem hinner, hopened,
      Nat.zero_add]
  · rw [htoList]
    exact (hsuffix.outer opened).nest

end

namespace Source

section

variable (s : Source)

theorem lines_push (l : String) : (s.push l).lines = s.lines ++ [l] := by
  rw [lines, push, List.reverse_cons]
  rfl

theorem lines_line {t : String} (h : t.isEmpty = false) :
    (s.line t).lines = s.lines ++ [indented (4 * s.depth) t] := by
  rw [line, h, ← lines_push]
  rfl

theorem exists_lines_blank : ∃ ls, s.blank.lines = s.lines ++ ls ∧ ∀ opened, Laid opened ls opened := by
  have hnone : ∃ ls, s.lines = s.lines ++ ls ∧ ∀ opened, Laid opened ls opened :=
    ⟨[], (List.append_nil _).symm, fun _ => laid_nil⟩
  unfold blank
  split
  · exact hnone
  · split
    · exact hnone
    · exact ⟨[""], lines_push s "", fun _ => laid_empty⟩

theorem lines_openBlock {header : String} (h : header.isEmpty = false) (suffix : String) :
    (s.openBlock header suffix).lines = s.lines ++ [indented (4 * s.depth) (header ++ " \x7b")] := by
  rw [openBlock, h, ← lines_line]
  · rfl
  · simp

theorem lines_closeBlock {suffix : String} {rest : List String} (hs : s.closers = suffix :: rest) :
    s.closeBlock.lines = s.lines ++ [indented (4 * rest.length) ("\x7d" ++ suffix)] := by
  rw [closeBlock, hs]
  exact lines_line { s with closers := rest } (by simp)

theorem depth_openBlock (header suffix : String) : (s.openBlock header suffix).depth = s.depth + 1 := by
  rw [depth, closers_openBlock]
  rfl

end

mutual

/-- Tidy code is written as lines that are laid out where it is written. -/
theorem exists_lines_write (s : Source) : ∀ c : Code, c.Tidy →
    ∃ ls, (s.write c).lines = s.lines ++ ls ∧ ∀ opened, Opened opened s.depth → Laid opened ls opened
  | .line t, (h : Begins t []) => ⟨_, lines_line s h.not_isEmpty, fun _ hopened => laid_line hopened h⟩
  | .blank, _ => by
    obtain ⟨ls, hls, hlaid⟩ := exists_lines_blank s
    exact ⟨ls, hls, fun opened _ => hlaid opened⟩
  | .block header suffix body, ⟨⟨inner, hinner, hheader, hsuffix⟩, hbody⟩ => by
    obtain ⟨ls, hls, hlaid⟩ := exists_lines_writeAll (s.openBlock header suffix) body hbody
    have hclosers : ((s.openBlock header suffix).writeAll body).closers = suffix :: s.closers := by
      rw [closers_writeAll, closers_openBlock]
    refine ⟨[indented (4 * s.depth) (header ++ " \x7b")] ++ ls ++ [indented (4 * s.depth) ("\x7d" ++ suffix)], ?_,
      fun opened hopened => ?_⟩
    · rw [write, lines_closeBlock _ hclosers, hls, lines_openBlock s hheader.not_isEmpty, ← List.append_assoc,
        ← List.append_assoc]
      rfl
    · have hbrace : Turns [] " \x7b" ['\x7b'] := turns_fixed rfl rfl
      have hopened' : Opened ('\x7b' :: inner ++ opened) (s.openBlock header suffix).depth := by
        rw [depth_openBlock]
        refine ⟨?_, nofun⟩
        rw [List.cons_append, List.count_cons_self, List.count_append, List.count_eq_zero_of_not_mem hinner,
          Nat.zero_add, hopened.1]
      have hopening := laid_line hopened (hheader.append (hbrace.outer inner))
      exact (hopening.append (hlaid _ hopened')).append (laid_close hopened.1 hinner hsuffix)

theorem exists_lines_writeAll (s : Source) : ∀ cs : List Code, TidyAll cs →
    ∃ ls, (s.writeAll cs).lines = s.lines ++ ls ∧ ∀ opened, Opened opened s.depth → Laid opened ls opened
  | [], _ => ⟨[], (List.append_nil _).symm, fun _ _ => laid_nil⟩
  | c :: rest, ⟨hc, hrest⟩ => by
    obtain ⟨ls, hls, hlaid⟩ := exists_lines_write s c hc
    obtain ⟨ls', hls', hlaid'⟩ := exists_lines_writeAll (s.write c) rest hrest
    have hdepth : (s.write c).depth = s.depth := congrArg List.length (closers_write s c)
    refine ⟨ls ++ ls', ?_, fun opened hopened => (hlaid opened hopened).append (hlaid' opened (hdepth ▸ hopened))⟩
    rw [writeAll, hls', hls, List.append_assoc]

end

end Source

end XdrSchema.Rust
