import XdrSchema.Proofs.Concrete.Splitting
import XdrSchema.Proofs.Text.Bracket
import XdrSchema.Proofs.Text.Lines
import XdrSchema.Settings.OfToml

/-! What the texts of settings have to be like: a path is a row of identifiers with double colons between them, and an
annotation is an attribute in its brackets, with blanks around it or none. Main statements: `Rust.isPath_iff`,
`Settings.isAnnotation_iff`. -/
namespace XdrSchema

/-! ### Paths -/

namespace Rust

/-- A letter or an underscore. -/
def StartsIdentifier (c : Char) : Prop := 'A' ≤ c ∧ c ≤ 'Z' ∨ 'a' ≤ c ∧ c ≤ 'z' ∨ c = '_'

/-- A letter, an underscore or a digit. -/
def InIdentifier (c : Char) : Prop := StartsIdentifier c ∨ '0' ≤ c ∧ c ≤ '9'

/-- A part of a path. -/
def IsSegment (word : List Char) : Prop :=
  ∃ c rest, word = c :: rest ∧ StartsIdentifier c ∧ ∀ d ∈ rest, InIdentifier d

/-- Identifiers with double colons between them, and nothing else. -/
def IsPath (text : List Char) : Prop :=
  ∃ words, words ≠ [] ∧ (∀ word ∈ words, IsSegment word) ∧ text = "::".toList.intercalate words

variable {c : Char} {current word text : List Char} {words : List (List Char)}

theorem startsIdentifier_iff_or : StartsIdentifier c ↔ c.isAlpha = true ∨ c = '_' := by
  have hupper : 'A' ≤ c ∧ c ≤ 'Z' ↔ c.isUpper = true := decide_eq_true_iff.symm
  have hlower : 'a' ≤ c ∧ c ≤ 'z' ↔ c.isLower = true :=
    (Bool.and_eq_true_iff.trans (and_congr decide_eq_true_iff decide_eq_true_iff)).symm
  rw [StartsIdentifier, ← or_assoc, hupper, hlower]
  exact or_congr_left Bool.or_eq_true_iff.symm

theorem digit_iff : '0' ≤ c ∧ c ≤ '9' ↔ c.isDigit = true :=
  (Bool.and_eq_true_iff.trans (and_congr decide_eq_true_iff decide_eq_true_iff)).symm

theorem inIdentifier_iff : InIdentifier c ↔ Text.isWordChar c = true := by
  rw [InIdentifier, startsIdentifier_iff_or, digit_iff, Text.isWordChar, Char.isAlphanum, Bool.or_eq_true,
    Bool.or_eq_true, decide_eq_true_eq, or_right_comm]

theorem startsIdentifier_iff : StartsIdentifier c ↔ Text.isWordChar c = true ∧ c.isDigit = false := by
  constructor
  · intro h
    refine ⟨inIdentifier_iff.mp (.inl h), Bool.eq_false_iff.mpr fun hdigit => ?_⟩
    rcases startsIdentifier_iff_or.mp h with hc | rfl
    · rw [Concrete.not_isAlpha_of_isDigit hdigit] at hc
      cases hc
    · cases hdigit
  · rintro ⟨hc, hdigit⟩
    refine (inIdentifier_iff.mpr hc).resolve_right fun h => ?_
    rw [digit_iff, hdigit] at h
    cases h

theorem isSegment_iff : IsSegment word ↔ isWord word = true := by
  cases word with
  | nil => simp [IsSegment, isWord]
  | cons c rest =>
    simp only [IsSegment, isWord, startsIdentifier_iff, inIdentifier_iff, Bool.and_eq_true, Bool.not_eq_true',
      List.all_eq_true]
    constructor
    · rintro ⟨_, _, ⟨⟩, hc, hrest⟩
      exact ⟨hc, hrest⟩
    · rintro ⟨hc, hrest⟩
      exact ⟨c, rest, rfl, hc, hrest⟩

theorem InIdentifier.ne {d : Char} (h : InIdentifier c) (hd : Text.isWordChar d = false) : c ≠ d := by
  rintro rfl
  rw [inIdentifier_iff, hd] at h
  cases h

theorem IsSegment.inIdentifier (h : IsSegment word) : ∀ c ∈ word, InIdentifier c := by
  obtain ⟨c, rest, rfl, hc, hrest⟩ := h
  exact List.forall_mem_cons.mpr ⟨.inl hc, hrest⟩

theorem IsPath.mem (h : IsPath text) : ∀ c ∈ text, c = ':' ∨ InIdentifier c := by
  obtain ⟨words, -, hwords, rfl⟩ := h
  refine Text.forall_mem_intercalate (fun c hc => .inl (by simpa using hc)) fun word hword c hc => ?_
  exact .inr ((hwords word hword).inIdentifier c hc)

theorem pathPartsFrom_ne_nil (current text : List Char) : pathPartsFrom current text ≠ [] := by
  fun_induction pathPartsFrom current text with
  | case1 | case2 => exact List.cons_ne_nil _ _
  | case3 current c rest _ ih => exact ih

/-- The parts of a text, with the colons put back. -/
theorem intercalate_pathPartsFrom (current text : List Char) :
    "::".toList.intercalate (pathPartsFrom current text) = current.reverse ++ text := by
  fun_induction pathPartsFrom current text with
  | case1 current => rw [List.intercalate_singleton, List.append_nil]
  | case2 current rest ih =>
    rw [List.intercalate_cons_of_ne_nil (pathPartsFrom_ne_nil [] rest), ih, List.append_assoc]
    rfl
  | case3 current c rest _ ih => rw [ih, List.reverse_cons, List.append_assoc, List.singleton_append]

theorem pathPartsFrom_append (h : ':' ∉ word) (rest : List Char) :
    pathPartsFrom current (word ++ rest) = pathPartsFrom (word.reverse ++ current) rest := by
  induction word generalizing current with
  | nil => rfl
  | cons c word ih =>
    rw [List.mem_cons, not_or] at h
    rw [List.cons_append, pathPartsFrom, ih h.2, List.reverse_cons, List.append_assoc, List.singleton_append]
    rintro _ rfl
    exact (h.1 rfl).elim

/-- Words without colons are the parts of a text that is made of them. -/
theorem pathPartsFrom_intercalate (hne : words ≠ []) (h : ∀ word ∈ words, ':' ∉ word) :
    pathPartsFrom [] ("::".toList.intercalate words) = words := by
  induction words with
  | nil => exact (hne rfl).elim
  | cons word rest ih =>
    rw [List.forall_mem_cons] at h
    cases rest with
    | nil =>
      have hword : pathPartsFrom [] (word ++ []) = pathPartsFrom (word.reverse ++ []) [] := pathPartsFrom_append h.1 []
      rw [List.append_nil, List.append_nil] at hword
      rw [List.intercalate_singleton, hword, pathPartsFrom, List.reverse_reverse]
    | cons next rest =>
      rw [List.intercalate_cons_cons, List.append_assoc, pathPartsFrom_append h.1, List.append_nil]
      change (word.reverse).reverse :: pathPartsFrom [] ("::".toList.intercalate (next :: rest)) = _
      rw [List.reverse_reverse, ih (List.cons_ne_nil _ _) h.2]

theorem IsPath.pathPartsFrom (h : IsPath text) : (pathPartsFrom [] text).all isWord = true := by
  obtain ⟨words, hne, hwords, rfl⟩ := h
  have hcolon : ∀ word ∈ words, ':' ∉ word := fun word hword hmem =>
    ((hwords word hword).inIdentifier _ hmem).ne (by decide) rfl
  rw [pathPartsFrom_intercalate hne hcolon, List.all_eq_true]
  exact fun word hword => isSegment_iff.mp (hwords word hword)

/-- One line feed may follow a path. -/
theorem isPath_iff : isPath text = true ↔ ∃ path, IsPath path ∧ (text = path ∨ text = path ++ ['\n']) := by
  have hlast {path : List Char} (h : IsPath path) : path.getLast? ≠ some '\n' := by
    intro hlast
    rcases h.mem _ (List.mem_of_getLast? hlast) with heq | hc
    · cases heq
    · exact hc.ne (by decide) rfl
  unfold isPath
  constructor
  · intro h
    have hpath : IsPath (Text.dropFinalNewline text) := by
      refine ⟨pathPartsFrom [] (Text.dropFinalNewline text), pathPartsFrom_ne_nil _ _, fun word hword => ?_, ?_⟩
      · exact isSegment_iff.mpr (List.all_eq_true.mp h word hword)
      · rw [intercalate_pathPartsFrom]
        rfl
    exact ⟨_, hpath, (Text.dropFinalNewline_eq_iff (hlast hpath)).mp rfl⟩
  · rintro ⟨path, hpath, htext⟩
    rw [(Text.dropFinalNewline_eq_iff (hlast hpath)).mpr htext]
    exact hpath.pathPartsFrom

end Rust

/-! ### Attributes -/

namespace Settings

/-- An attribute stands in its brackets, with nothing around it but blanks. -/
def IsAttribute (text : String) : Prop :=
  ∃ before inner after : List Char, text.toList = before ++ '#' :: '[' :: (inner ++ ']' :: after) ∧
    (∀ c ∈ before, Text.isBlank c) ∧ ∀ c ∈ after, Text.isBlank c

theorem exists_trim (text : List Char) : ∃ before after, text = before ++ Text.trim text ++ after ∧
    (∀ c ∈ before, Text.isBlank c) ∧ ∀ c ∈ after, Text.isBlank c := by
  have hmem {cs : List Char} : ∀ c ∈ cs.takeWhile Text.isBlank, Text.isBlank c := fun c hc => List.mem_takeWhile_imp hc
  refine ⟨text.takeWhile Text.isBlank, ((text.dropWhile Text.isBlank).reverse.takeWhile Text.isBlank).reverse, ?_,
    hmem, fun c hc => hmem c (List.mem_reverse.mp hc)⟩
  rw [Text.trim, List.append_assoc, ← List.reverse_append, List.takeWhile_append_dropWhile, List.reverse_reverse,
    List.takeWhile_append_dropWhile]

/-- Trimming goes on up to characters that are no blanks. -/
theorem trim_append {before after : List Char} (middle : List Char) {c d : Char}
    (hbefore : ∀ c ∈ before, Text.isBlank c) (hafter : ∀ c ∈ after, Text.isBlank c) (hc : Text.isBlank c = false)
    (hd : Text.isBlank d = false) :
    Text.trim (before ++ c :: (middle ++ d :: after)) = c :: (middle ++ [d]) := by
  have hreverse : (c :: (middle ++ d :: after)).reverse = after.reverse ++ d :: (c :: middle).reverse := by simp
  rw [Text.trim, List.dropWhile_append_of_pos hbefore, List.dropWhile_cons_of_neg (by simp [hc]), hreverse,
    List.dropWhile_append_of_pos fun x hx => hafter x (List.mem_reverse.mp hx),
    List.dropWhile_cons_of_neg (by simp [hd]), List.reverse_cons, List.reverse_reverse, List.cons_append]

theorem isAnnotation_iff {text : String} : isAnnotation text = true ↔ IsAttribute text := by
  unfold isAnnotation
  simp only [Bool.and_eq_true, decide_eq_true_eq, List.isPrefixOf_iff_prefix]
  constructor
  · rintro ⟨⟨rest, hrest⟩, hlast⟩
    obtain ⟨before, after, htext, hbefore, hafter⟩ := exists_trim text.toList
    rw [← hrest] at htext hlast
    rcases List.eq_nil_or_concat' rest with rfl | ⟨inner, d, rfl⟩
    · cases hlast
    · obtain rfl : d = ']' := by
        rw [← List.append_assoc, List.getLast?_concat] at hlast
        exact Option.some.inj hlast
      refine ⟨before, inner, after, ?_, hbefore, hafter⟩
      rw [htext]
      simp
  · rintro ⟨before, inner, after, htext, hbefore, hafter⟩
    have htrim : Text.trim text.toList = '#' :: ('[' :: inner ++ [']']) := by
      rw [htext]
      exact trim_append ('[' :: inner) hbefore hafter (by decide) (by decide)
    rw [htrim]
    exact ⟨⟨inner ++ [']'], rfl⟩, List.getLast?_concat (l := '#' :: '[' :: inner)⟩

end Settings

end XdrSchema
