import XdrSchema.Proofs.Rust.Template
import XdrSchema.Proofs.Text.Bracket
import XdrSchema.Rust.Support

/-! The words of the support code, without its comments and its messages, and its brackets. -/
namespace XdrSchema.Rust

open Text (Rows isOutermost)

/-- A line without its comment and without what stands in quotation marks. Two dots are no access to a member. -/
def uncommented (quoted : Bool) : List Char → List Char
  | [] => []
  | '.' :: '.' :: rest => if quoted then uncommented quoted rest else ' ' :: uncommented quoted rest
  | c :: rest =>
    if c = '"' then c :: uncommented (!quoted) rest
    else if quoted then uncommented quoted rest
    else if c = '/' && rest.head? = some '/' then []
    else c :: uncommented quoted rest

/-- The numbers in a line of the support code. -/
def supportNumbers (line : List Char) : List (List Char) := numbersAfter ' ' (uncommented false line)

/-- The words that a line of the support code looks up. -/
def supportWords (line : List Char) : List (List Char) := bareAfter ' ' (uncommented false line)

/-- What begins a declaration. Macros are looked up apart from other items. -/
def itemKeywords : List Word :=
  [⟨"const", _, rfl⟩, ⟨"enum", _, rfl⟩, ⟨"extern", _, rfl⟩, ⟨"fn", _, rfl⟩, ⟨"mod", _, rfl⟩, ⟨"static", _, rfl⟩,
    ⟨"struct", _, rfl⟩, ⟨"trait", _, rfl⟩, ⟨"type", _, rfl⟩, ⟨"union", _, rfl⟩, ⟨"use", _, rfl⟩]

/-- The name that a line declares at module level. -/
def declared? (line : List Char) : Option (List Char) :=
  if line.head? = some ' ' then none
  else match ((wordsAfter ' ' (uncommented false line)).map Prod.snd).filter (· ≠ ['p', 'u', 'b']) with
    | keyword :: name :: _ => if (itemKeywords.map Word.letters).contains keyword then some name else none
    | _ => none

/-- The names of variants, of fields and of methods. -/
def supportMembers : List Word :=
  [⟨"UnexpectedEof", _, rfl⟩, ⟨"InvalidUnionDiscriminant", _, rfl⟩, ⟨"InvalidEnumValue", _, rfl⟩,
    ⟨"LengthExceedsBound", _, rfl⟩, ⟨"NonZeroPadding", _, rfl⟩, ⟨"DepthLimitExceeded", _, rfl⟩, ⟨"max", _, rfl⟩,
    ⟨"actual", _, rfl⟩, ⟨"buf", _, rfl⟩, ⟨"pos", _, rfl⟩, ⟨"depth", _, rfl⟩, ⟨"fmt", _, rfl⟩, ⟨"new", _, rfl⟩,
    ⟨"with_max_depth", _, rfl⟩, ⟨"position", _, rfl⟩, ⟨"remaining", _, rfl⟩, ⟨"ensure", _, rfl⟩, ⟨"nested", _, rfl⟩,
    ⟨"take", _, rfl⟩, ⟨"take_array", _, rfl⟩, ⟨"read_u32", _, rfl⟩, ⟨"read_u64", _, rfl⟩, ⟨"read_padding", _, rfl⟩,
    ⟨"read_length", _, rfl⟩, ⟨"read_opaque", _, rfl⟩, ⟨"read_fixed_opaque", _, rfl⟩, ⟨"decode", _, rfl⟩,
    ⟨"encode", _, rfl⟩, ⟨"from_xdr", _, rfl⟩, ⟨"to_xdr", _, rfl⟩]

/-- Attributes, derived traits and macros, which are looked up apart from types. -/
def supportMacros : List Word :=
  [⟨"#", _, rfl⟩, ⟨"derive", _, rfl⟩, ⟨"Debug", _, rfl⟩, ⟨"Clone", _, rfl⟩, ⟨"Copy", _, rfl⟩, ⟨"PartialEq", _, rfl⟩,
    ⟨"Eq", _, rfl⟩, ⟨"macro_rules", _, rfl⟩, ⟨"xdr_word", _, rfl⟩, ⟨"write", _, rfl⟩]

/-- The parameters of functions. -/
def supportParameters : List Word := [⟨"T", _, rfl⟩, ⟨"F", _, rfl⟩, ⟨"N", _, rfl⟩]

/-- The traits that are not named by their full paths. -/
def supportTraits : List Word := [⟨"Sized", _, rfl⟩, ⟨"FnOnce", _, rfl⟩, ⟨"FnMut", _, rfl⟩]

def supportVocabulary : List Word :=
  reservedWords ++ supportMembers ++ supportMacros ++ supportParameters ++ supportTraits

def isSupportNumber (w : List Char) : Bool :=
  [['0'], ['1'], ['4'], ['8'], ['1', '2', '8'], ['0', 'u', '8'], ['0', 'u', '3', '2'], ['1', 'u', '3', '2']].contains w

/-- A line whose numbers are these, whose words are in the vocabulary, and which declares an item of the support
code if it declares one. -/
def isSupportLine (line : List Char) : Bool :=
  (supportNumbers line).all isSupportNumber &&
    (supportWords line).all ((supportVocabulary.map Word.letters).contains ·) &&
    (declared? line).all ((supportItemWords.map Word.letters).contains ·)

/-- The texts have these characters. -/
inductive Spell : List String → List (List Char) → Prop
  | nil : Spell [] []
  | cons {l : List Char} {texts : List String} {lines : List (List Char)} (h : Spell texts lines) :
    Spell (String.ofList l :: texts) (l :: lines)

theorem Spell.forall_mem {P : List Char → Bool} {texts : List String} {lines : List (List Char)}
    (h : Spell texts lines) (hlines : lines.all P = true) : ∀ t ∈ texts, P t.toList = true := by
  induction h with
  | nil => exact List.forall_mem_nil _
  | cons h ih =>
    rw [List.all_cons, Bool.and_eq_true] at hlines
    exact List.forall_mem_cons.mpr ⟨by rw [String.toList_ofList]; exact hlines.1, ih hlines.2⟩

/-- The parts of the support code, with an empty line between each two. -/
def supportParts : List (List String) := [errorLines, cursorLines, traitLines, helperLines]

-- The characters of all lines are found first, so that the lines are read in one evaluation.
set_option maxRecDepth 4000 in
/-- A part has lines of the support code, and closes what it opens. -/
theorem exists_spell_of_mem_parts : ∀ part ∈ supportParts, ∃ lines, Spell part lines ∧
    lines.all isSupportLine = true ∧ Rows isOutermost [] (lines.flatMap (·.splitOn '\n')) [] := by
  simp only [supportParts, List.forall_mem_cons]
  refine ⟨?_, ?_, ?_, ?_, List.forall_mem_nil _⟩
  all_goals
    dsimp only [errorLines, cursorLines, traitLines, helperLines]
    refine ⟨_, by repeat' first | exact .nil | apply Spell.cons, ?_⟩
    decide +kernel

/-- The numbers of the support code are small, its words are in the vocabulary, and it declares its items. -/
theorem isSupportLine_of_mem : ∀ l ∈ supportLines, isSupportLine l.toList = true := by
  have hblank : ∀ l ∈ [""], isSupportLine l.toList = true := by decide
  have hparts : ∀ part ∈ supportParts, ∀ l ∈ part, isSupportLine l.toList = true := by
    intro part hpart
    obtain ⟨lines, hspell, hlines, -⟩ := exists_spell_of_mem_parts part hpart
    exact hspell.forall_mem hlines
  simp only [supportParts, List.forall_mem_cons] at hparts
  obtain ⟨herror, hcursor, htrait, hhelper, -⟩ := hparts
  simp only [supportLines, List.forall_mem_append]
  exact ⟨⟨⟨⟨⟨⟨herror, hblank⟩, hcursor⟩, hblank⟩, htrait⟩, hblank⟩, hhelper⟩

end XdrSchema.Rust
