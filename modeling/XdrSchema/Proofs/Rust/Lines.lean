import XdrSchema.Proofs.Rust.Words
import XdrSchema.Rust.Module

/-! The lines of a generated module. They are the lines of its code, indented, with empty lines between them. -/
namespace XdrSchema.Rust

/-- Spaces before a text. -/
def indented (k : Nat) (text : String) : String := String.ofList (List.replicate k ' ') ++ text

mutual

/-- The lines of code, without indentation. -/
def Code.texts : Code → List String
  | .line t => [t]
  | .blank => []
  | .raw t => (String.ofList (t.toList.reverse.dropWhile (· = '\n')).reverse).splitOn "\n"
  | .block header suffix body =>
    (if header.isEmpty then "\x7b" else header ++ " \x7b") :: textsAll body ++ ["\x7d" ++ suffix]

def textsAll : List Code → List String
  | [] => []
  | c :: rest => c.texts ++ textsAll rest

end

theorem textsAll_append (cs cs' : List Code) : textsAll (cs ++ cs') = textsAll cs ++ textsAll cs' := by
  induction cs with
  | nil => rfl
  | cons c cs ih => rw [List.cons_append, textsAll, textsAll, ih, List.append_assoc]

theorem textsAll_flatMap {α : Type} (f : α → List Code) (l : List α) :
    textsAll (l.flatMap f) = l.flatMap fun a => textsAll (f a) := by
  induction l with
  | nil => rfl
  | cons a l ih => rw [List.flatMap_cons, List.flatMap_cons, textsAll_append, ih]

theorem textsAll_map_line {α : Type} (f : α → String) (l : List α) :
    textsAll (l.map fun a => .line (f a)) = l.map f := by
  induction l with
  | nil => rfl
  | cons a l ih => rw [List.map_cons, List.map_cons, textsAll, ih, Code.texts, List.singleton_append]

/-! ### Writing -/

/-- The line is empty or one of the texts, indented. -/
def IsLineOf (ts : List String) (l : String) : Prop := l = "" ∨ ∃ t ∈ ts, ∃ k, l = indented k t

/-- The lines added are those of the texts. -/
def Source.Adds (s s' : Source) (ts : List String) : Prop :=
  ∀ l ∈ s'.reversed, l ∈ s.reversed ∨ IsLineOf ts l

namespace Source

variable {s s' s'' : Source} {ts ts' : List String}

theorem Adds.trans (h : s.Adds s' ts) (h' : s'.Adds s'' ts') : s.Adds s'' (ts ++ ts') := by
  have hmono {us : List String} (hsub : us ⊆ ts ++ ts') {l : String} (hl : IsLineOf us l) : IsLineOf (ts ++ ts') l :=
    hl.imp_right fun ⟨t, ht, hk⟩ => ⟨t, hsub ht, hk⟩
  intro l hl
  rcases h' l hl with hl | hl
  · exact (h l hl).imp_right (hmono (List.subset_append_left ts ts'))
  · exact .inr (hmono (List.subset_append_right ts ts') hl)

theorem adds_line (s : Source) (t : String) : s.Adds (s.line t) [t] := by
  unfold line
  split
  · intro l hl
    exact (List.mem_cons.mp hl).symm.imp_right fun h => .inl h
  · intro l hl
    exact (List.mem_cons.mp hl).symm.imp_right fun h => .inr ⟨t, List.mem_singleton.mpr rfl, _, h⟩

theorem adds_blank (s : Source) : s.Adds s.blank [] := by
  unfold blank
  split
  · exact fun l hl => .inl hl
  · split
    · exact fun l hl => .inl hl
    · exact fun l hl => (List.mem_cons.mp hl).symm.imp_right fun h => .inl h

theorem adds_foldl (s : Source) (ts : List String) : s.Adds (ts.foldl line s) ts := by
  induction ts generalizing s with
  | nil => exact fun l hl => .inl hl
  | cons t ts ih => exact (adds_line s t).trans (ih _)

theorem adds_closeBlock {suffix : String} {rest : List String} (hs : s.closers = suffix :: rest) :
    s.Adds s.closeBlock ["\x7d" ++ suffix] := by
  unfold closeBlock
  rw [hs]
  exact adds_line { s with closers := rest } _

@[simp] theorem closers_line (s : Source) (t : String) : (s.line t).closers = s.closers := by
  unfold line
  split <;> rfl

@[simp] theorem closers_blank (s : Source) : s.blank.closers = s.closers := by
  unfold blank
  split
  · rfl
  · split <;> rfl

theorem closers_foldl (s : Source) (ts : List String) : (ts.foldl line s).closers = s.closers := by
  induction ts generalizing s with
  | nil => rfl
  | cons t ts ih => rw [List.foldl_cons, ih, closers_line]

theorem closers_openBlock (s : Source) (header suffix : String) :
    (s.openBlock header suffix).closers = suffix :: s.closers := by
  unfold openBlock
  simp

theorem closers_closeBlock {suffix : String} {rest : List String} (hs : s.closers = suffix :: rest) :
    s.closeBlock.closers = rest := by
  unfold closeBlock
  rw [hs]
  simp

mutual

/-- Code closes the blocks that it opens. -/
theorem closers_write (s : Source) : ∀ c : Code, (s.write c).closers = s.closers
  | .line t => closers_line s t
  | .blank => closers_blank s
  | .raw t => closers_foldl s _
  | .block header suffix body => by
    have hbody : ((s.openBlock header suffix).writeAll body).closers = suffix :: s.closers := by
      rw [closers_writeAll, closers_openBlock]
    exact closers_closeBlock hbody

theorem closers_writeAll (s : Source) : ∀ cs : List Code, (s.writeAll cs).closers = s.closers
  | [] => rfl
  | c :: rest => by rw [writeAll, closers_writeAll, closers_write]

end

mutual

theorem adds_write (s : Source) : ∀ c : Code, s.Adds (s.write c) c.texts
  | .line t => adds_line s t
  | .blank => adds_blank s
  | .raw t => adds_foldl s _
  | .block header suffix body => by
    have hopen : s.Adds (s.openBlock header suffix) [if header.isEmpty then "\x7b" else header ++ " \x7b"] :=
      adds_line s _
    have hbody : ((s.openBlock header suffix).writeAll body).closers = suffix :: s.closers := by
      rw [closers_writeAll, closers_openBlock]
    exact (hopen.trans (adds_writeAll _ body)).trans (adds_closeBlock hbody)

theorem adds_writeAll (s : Source) : ∀ cs : List Code, s.Adds (s.writeAll cs) (textsAll cs)
  | [] => fun _ hl => .inl hl
  | c :: rest => (adds_write s c).trans (adds_writeAll _ rest)

end

end Source

/-! ### A module -/

/-- The lines of the text of a module. -/
def Module.lines (m : Module) : List String := (Source.empty.writeAll m.code).trimEnd.lines

theorem Module.text_eq (m : Module) : m.text = "\n".intercalate m.lines ++ "\n" := rfl

/-- Every line of a module is empty or a line of its code. -/
theorem Module.isLineOf_texts (m : Module) {l : String} (hl : l ∈ m.lines) : IsLineOf (textsAll m.code) l := by
  have hmem : l ∈ (Source.empty.writeAll m.code).reversed :=
    (List.dropWhile_sublist _).mem (List.mem_reverse.mp hl)
  exact (Source.adds_writeAll Source.empty m.code l hmem).resolve_left (List.not_mem_nil)

/-! ### Indentation -/

theorem wordsAfter_spaces (k : Nat) : wordsAfter ' ' (List.replicate k ' ') = [] ∧
    (List.replicate k ' ').getLastD ' ' = ' ' := by
  induction k with
  | zero => exact ⟨rfl, rfl⟩
  | succ k ih =>
    rw [List.replicate_succ, wordsAfter_cons (breaks_of_not_inner (by decide) _), List.getLastD_cons]
    exact ⟨by rw [ih.1]; rfl, ih.2⟩

/-- The words of a text are the same when it is indented. -/
theorem wordsAfter_indented (k : Nat) (t : String) :
    wordsAfter ' ' (indented k t).toList = wordsAfter ' ' t.toList := by
  have hbreaks : Breaks (List.replicate k ' ') t.toList := by
    intro c hc d _ hinner
    obtain rfl := List.eq_of_mem_replicate (List.mem_of_getLast? hc)
    exact absurd hinner (by decide)
  rw [indented, String.toList_append, String.toList_ofList, wordsAfter_append hbreaks, (wordsAfter_spaces k).1,
    (wordsAfter_spaces k).2, List.nil_append]

theorem numbers_indented (k : Nat) (t : String) : numbers (indented k t) = numbers t :=
  congrArg (List.filterMap number?) (wordsAfter_indented k t)

theorem bareWords_indented (k : Nat) (t : String) : bareWords (indented k t) = bareWords t :=
  congrArg (List.filterMap bare?) (wordsAfter_indented k t)

end XdrSchema.Rust
