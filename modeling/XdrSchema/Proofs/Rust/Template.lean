import XdrSchema.Proofs.Rust.Words

/-! Lines of generated code as templates: fixed parts, names of the specification, and numbers. A line can be read
word by word if no two words of it run together; then every number in it is one of the template, and every name
that is looked up as it stands is one of the template or of a short list. -/
namespace XdrSchema.Rust

/-! ### Templates -/

/-- What a number is written for; a length is one of data in memory. -/
inductive Integer
  | i32
  | u32
  | i64
  | u64
  | length

def Integer.Holds : Integer → Int → Prop
  | i32, n => -2 ^ 31 ≤ n ∧ n < 2 ^ 31
  | u32, n => 0 ≤ n ∧ n < 2 ^ 32
  | i64, n => -2 ^ 63 ≤ n ∧ n < 2 ^ 63
  | u64, n => 0 ≤ n ∧ n < 2 ^ 64
  | length, n => 0 ≤ n ∧ n ≤ Wire.maxLength

/-- The suffix that says what a number is written for. -/
def Integer.suffix : Integer → String
  | i32 => "i32"
  | u32 => "u32"
  | i64 => "i64"
  | u64 => "u64"
  | length => "usize"

inductive Piece
  | fixed (text : String)
  | name (name : String)
  | parameter (name : String)
  | number (type : Integer) (n : Int) (suffix : String)

namespace Piece

def text : Piece → String
  | fixed t => t
  | name n => identifier n
  | parameter p => p
  | number _ n suffix => toString n ++ suffix

/-- The number that a piece writes. -/
def number? : Piece → Option (List Char)
  | number _ n suffix => some ((toString n).toList ++ suffix.toList)
  | _ => none

end Piece

def render : List Piece → String
  | [] => ""
  | p :: ps => p.text ++ render ps

@[simp] theorem render_nil : render [] = "" := rfl

@[simp] theorem render_cons (p : Piece) (ps : List Piece) : render (p :: ps) = p.text ++ render ps := rfl

@[simp] theorem render_append (ps qs : List Piece) : render (ps ++ qs) = render ps ++ render qs := by
  induction ps with
  | nil => simp
  | cons p ps ih => rw [List.cons_append, render_cons, render_cons, ih, String.append_assoc]

/-! ### Fixed parts -/

/-- The associated items that a text reaches through the type itself. A name may be left to follow. -/
def reached : List Char → List (List Char)
  | [] => []
  | c :: rest =>
    (if "Self::".toList.isPrefixOf (c :: rest) then [((c :: rest).drop 6).takeWhile isInner] else []) ++ reached rest

/-- A word with its letters. -/
structure Word where
  text : String
  letters : List Char
  spelled : text = String.ofList letters

/-- Keywords and scalar types. -/
def languageWords : List Word :=
  [⟨"as", _, rfl⟩, ⟨"const", _, rfl⟩, ⟨"else", _, rfl⟩, ⟨"enum", _, rfl⟩, ⟨"false", _, rfl⟩, ⟨"fn", _, rfl⟩,
    ⟨"for", _, rfl⟩, ⟨"if", _, rfl⟩, ⟨"impl", _, rfl⟩, ⟨"in", _, rfl⟩, ⟨"let", _, rfl⟩, ⟨"match", _, rfl⟩,
    ⟨"mut", _, rfl⟩, ⟨"pub", _, rfl⟩, ⟨"return", _, rfl⟩, ⟨"struct", _, rfl⟩, ⟨"trait", _, rfl⟩, ⟨"true", _, rfl⟩,
    ⟨"type", _, rfl⟩, ⟨"where", _, rfl⟩, ⟨"self", _, rfl⟩, ⟨"Self", _, rfl⟩, ⟨"_", _, rfl⟩, ⟨"bool", _, rfl⟩,
    ⟨"f32", _, rfl⟩, ⟨"f64", _, rfl⟩, ⟨"i32", _, rfl⟩, ⟨"i64", _, rfl⟩, ⟨"u32", _, rfl⟩, ⟨"u64", _, rfl⟩,
    ⟨"u8", _, rfl⟩, ⟨"usize", _, rfl⟩]

/-- What the support code declares. -/
def supportItemWords : List Word :=
  [⟨"XDR_DEFAULT_MAX_DEPTH", _, rfl⟩, ⟨"XdrCursor", _, rfl⟩, ⟨"XdrDecode", _, rfl⟩, ⟨"XdrEncode", _, rfl⟩,
    ⟨"XdrError", _, rfl⟩, ⟨"XdrResult", _, rfl⟩, ⟨"check_length", _, rfl⟩, ⟨"decode_fixed_array", _, rfl⟩,
    ⟨"decode_var_array", _, rfl⟩, ⟨"decode_optional", _, rfl⟩, ⟨"encode_fixed_array", _, rfl⟩,
    ⟨"encode_var_array", _, rfl⟩, ⟨"encode_optional", _, rfl⟩, ⟨"encode_opaque", _, rfl⟩,
    ⟨"encode_fixed_opaque", _, rfl⟩]

/-- Parameters and local variables. -/
def localWords : List Word :=
  [⟨"_actual", _, rfl⟩, ⟨"_array", _, rfl⟩, ⟨"_b", _, rfl⟩, ⟨"_buf", _, rfl⟩, ⟨"_bytes", _, rfl⟩, ⟨"_cur", _, rfl⟩,
    ⟨"_data", _, rfl⟩, ⟨"_disc", _, rfl⟩, ⟨"_end", _, rfl⟩, ⟨"_f", _, rfl⟩, ⟨"_inner", _, rfl⟩, ⟨"_item", _, rfl⟩,
    ⟨"_items", _, rfl⟩, ⟨"_len", _, rfl⟩, ⟨"_max", _, rfl⟩, ⟨"_max_depth", _, rfl⟩, ⟨"_n", _, rfl⟩,
    ⟨"_out", _, rfl⟩, ⟨"_pad", _, rfl⟩, ⟨"_result", _, rfl⟩, ⟨"_v", _, rfl⟩, ⟨"_value", _, rfl⟩]

/-- Words that no definition can have as its name. -/
def reservedWords : List Word := languageWords ++ supportItemWords ++ localWords

/-- The associated items of a type. -/
def memberWords : List Word :=
  [⟨"decode", _, rfl⟩, ⟨"encode", _, rfl⟩, ⟨"from_xdr_value", _, rfl⟩, ⟨"xdr_value", _, rfl⟩,
    ⟨"XDR_MIN_SIZE", _, rfl⟩, ⟨"XDR_MAX_SIZE", _, rfl⟩, ⟨"XDR_FIXED_SIZE", _, rfl⟩]

def attributeWords : List Word := [⟨"#", _, rfl⟩, ⟨"repr", _, rfl⟩]

/-- The words of the fixed parts. -/
def fixedWords : List Word := reservedWords ++ memberWords ++ attributeWords

/-- The associated items that fixed parts reach through the type itself. -/
def reachedWords : List Word := [⟨"XDR_MIN_SIZE", _, rfl⟩, ⟨"from_xdr_value", _, rfl⟩]

/-- A fixed part writes no number, and looks up nothing but those words. -/
def isPlain (t : List Char) : Bool :=
  !t.isEmpty && (numbersAfter ' ' t).isEmpty && (bareAfter ' ' t).all ((fixedWords.map Word.letters).contains ·) &&
    (reached t).all fun w => w.isEmpty || (reachedWords.map Word.letters).contains w

/-- A character that every piece can follow. -/
def isHard (c : Char) : Bool := !isInner c && c ≠ '.' && c ≠ '-'

def endsHard (t : List Char) : Bool := t.getLast?.any isHard

def startsHard (t : List Char) : Bool := t.head?.any fun c => !isInner c

/-- A fixed part that can stand between two slots. -/
def isJoint (t : List Char) : Bool := isPlain t && startsHard t && endsHard t

/-! ### Sound templates -/

/-- The names that a template may use. -/
structure Vocabulary where
  names : List String
  parameter : String

def Vocabulary.Proper (v : Vocabulary) : Prop :=
  (∀ n ∈ v.names, isWord n.toList = true) ∧ isWord v.parameter.toList = true

namespace Piece

/-- The piece can stand after a character: no word goes on, and no number looks like part of something else. -/
def Follows (before : Char) : Piece → Prop
  | fixed t => Breaks [before] t.toList
  | name _ | parameter _ => isInner before = false
  | number .. => isHard before = true

def Proper (v : Vocabulary) : Piece → Prop
  | fixed t => isPlain t.toList = true
  | name n => n ∈ v.names
  | parameter p => p = v.parameter
  | number type n suffix => type.Holds n ∧ (suffix = "" ∨ suffix = type.suffix)

end Piece

variable {v : Vocabulary}

def SoundAfter (v : Vocabulary) (before : Char) : List Piece → Prop
  | [] => True
  | p :: ps => p.Follows before ∧ p.Proper v ∧ SoundAfter v (p.text.toList.getLastD before) ps

/-- A template that can be read word by word, wherever it stands after a hard character. -/
def Sound (v : Vocabulary) (ps : List Piece) : Prop := ∀ before, isHard before = true → SoundAfter v before ps

open Piece

section Compose

variable {ps qs : List Piece} {before : Char} {t : List Char}

theorem getLastD_append (a b : List Char) : (a ++ b).getLastD before = b.getLastD (a.getLastD before) := by
  rw [List.getLastD_eq_getLast?, List.getLastD_eq_getLast?, List.getLastD_eq_getLast?, List.getLast?_append]
  cases b.getLast? <;> rfl

theorem soundAfter_append : SoundAfter v before (ps ++ qs) ↔
    SoundAfter v before ps ∧ SoundAfter v ((render ps).toList.getLastD before) qs := by
  induction ps generalizing before with
  | nil => exact (true_and _).to_iff.symm
  | cons p ps ih =>
    rw [List.cons_append, SoundAfter, SoundAfter, ih, render_cons, String.toList_append, getLastD_append, and_assoc,
      and_assoc]

theorem isInner_of_isHard {c : Char} (h : isHard c = true) : isInner c = false := by
  simp [isHard] at h
  exact h.1.1

theorem isHard_getLastD (h : endsHard t = true) : isHard (t.getLastD before) = true := by
  unfold endsHard at h
  cases hlast : t.getLast? with
  | none =>
    rw [hlast] at h
    cases h
  | some c =>
    rw [hlast] at h
    rw [List.getLastD_eq_getLast?, hlast]
    exact h

/-- A text that begins with no word can stand anywhere. -/
theorem breaks_of_startsHard (h : startsHard t = true) (a : List Char) : Breaks a t := by
  intro _ _ c hc _
  rw [startsHard, hc] at h
  simpa using h

theorem sound_nil : Sound v [] := fun _ _ => trivial

theorem sound_name {n : String} (h : n ∈ v.names) : Sound v [name n] :=
  fun _ hbefore => ⟨isInner_of_isHard hbefore, h, trivial⟩

theorem sound_parameter : Sound v [parameter v.parameter] :=
  fun _ hbefore => ⟨isInner_of_isHard hbefore, rfl, trivial⟩

theorem sound_number {type : Integer} {n : Int} {suffix : String} (h : type.Holds n)
    (hsuffix : suffix = "" ∨ suffix = type.suffix) : Sound v [number type n suffix] :=
  fun _ hbefore => ⟨hbefore, ⟨h, hsuffix⟩, trivial⟩

theorem soundAfter_fixed_cons (h : isPlain t = true) (hbefore : Breaks [before] t)
    (hps : SoundAfter v (t.getLastD before) ps) : SoundAfter v before (fixed (String.ofList t) :: ps) := by
  refine ⟨?_, ?_, ?_⟩
  · rwa [Follows, String.toList_ofList]
  · rwa [Proper, String.toList_ofList]
  · rwa [text, String.toList_ofList]

theorem sound_fixed (h : isPlain t = true) : Sound v [fixed (String.ofList t)] :=
  fun _ hbefore => soundAfter_fixed_cons h (breaks_of_not_inner (isInner_of_isHard hbefore) t) trivial

theorem Sound.fixed_cons (hps : Sound v ps) (h : (isPlain t && endsHard t) = true) :
    Sound v (fixed (String.ofList t) :: ps) := by
  rw [Bool.and_eq_true] at h
  exact fun _ hbefore => soundAfter_fixed_cons h.1 (breaks_of_not_inner (isInner_of_isHard hbefore) t)
    (hps _ (isHard_getLastD h.2))

theorem Sound.append_fixed (hps : Sound v ps) (h : isJoint t = true) (hqs : Sound v qs) :
    Sound v (ps ++ fixed (String.ofList t) :: qs) := by
  simp only [isJoint, Bool.and_eq_true] at h
  exact fun _ hbefore => soundAfter_append.mpr ⟨hps _ hbefore,
    soundAfter_fixed_cons h.1.1 (breaks_of_startsHard h.1.2 _) (hqs _ (isHard_getLastD h.2))⟩

/-- A member, which follows a dot. -/
theorem sound_member {n : String} (hn : n ∈ v.names) (h : isPlain t = true) (hend : t.getLast? = some '.') :
    Sound v [fixed (String.ofList t), name n] := by
  intro before hbefore
  refine soundAfter_fixed_cons h (breaks_of_not_inner (isInner_of_isHard hbefore) t) ⟨?_, hn, trivial⟩
  change isInner (t.getLastD before) = false
  rw [List.getLastD_eq_getLast?, hend]
  rfl

end Compose

/-! ### The words of a template -/

section Words

variable {ps : List Piece} {before : Char}

/-- The words that a piece looks up. -/
def Piece.bare : Piece → List (List Char)
  | fixed _ => fixedWords.map Word.letters
  | name n => [(identifier n).toList]
  | parameter p => [p.toList]
  | number .. => []

/-- A piece that stands where it can has its own number, and looks up its own words. -/
theorem reads_piece (hv : v.Proper) {p : Piece} (hfollows : p.Follows before) (hp : p.Proper v) :
    numbersAfter before p.text.toList = p.number?.toList ∧ ∀ w ∈ bareAfter before p.text.toList, w ∈ p.bare := by
  cases p with
  | fixed t =>
    simp only [Piece.Proper, isPlain, Bool.and_eq_true, List.all_eq_true, List.isEmpty_iff] at hp
    obtain ⟨⟨⟨-, hnumbers⟩, hbare⟩, -⟩ := hp
    exact ⟨numbersAfter_eq_nil hnumbers hfollows,
      fun w hw => List.contains_iff_mem.mp (hbare w (mem_bareAfter hfollows hw))⟩
  | name n => exact (isTerm_identifier (hv.1 n hp)).reads hfollows
  | parameter p =>
    obtain rfl : p = v.parameter := hp
    exact (isTerm_of_isWord hv.2).reads hfollows
  | number type n suffix =>
    have hbefore : isHard before = true := hfollows
    have hsuffix : suffix.toList.all isInner = true := by
      rcases hp.2 with rfl | rfl
      · rfl
      · cases type <;> decide
    simp only [isHard, Bool.and_eq_true, Bool.not_eq_true', decide_eq_true_eq] at hbefore
    obtain ⟨hnumbers, hbare⟩ := wordsAfter_number n (List.all_eq_true.mp hsuffix) hbefore.1.1 hbefore.1.2 hbefore.2
    rw [text, String.toList_append]
    exact ⟨hnumbers, fun w hw => by rw [hbare] at hw; cases hw⟩

theorem Piece.Proper.text_ne_nil (hv : v.Proper) {p : Piece} (hp : p.Proper v) : p.text.toList ≠ [] := by
  cases p with
  | fixed t =>
    simp only [Piece.Proper, isPlain, Bool.and_eq_true] at hp
    simpa [text] using hp.1.1.1
  | name n => exact (isTerm_identifier (hv.1 n hp)).nonempty
  | parameter p =>
    obtain rfl : p = v.parameter := hp
    exact (isTerm_of_isWord hv.2).nonempty
  | number type n suffix =>
    obtain ⟨sign, c, digits, htext, -⟩ := toList_toString n
    rw [text, String.toList_append, htext]
    simp

/-- What stands after a piece begins with no word that goes on. -/
theorem breaks_of_soundAfter (hv : v.Proper) {a : List Char} (h : SoundAfter v (a.getLastD before) ps) :
    Breaks a (render ps).toList := by
  intro c hc d hd hinner
  cases ps with
  | nil => cases hd
  | cons p ps =>
    obtain ⟨hfollows, hp, -⟩ := h
    rw [List.getLastD_eq_getLast?, hc] at hfollows
    have hhead : d ∈ p.text.toList.head? := by
      rw [render_cons, String.toList_append] at hd
      rwa [List.head?_append_of_ne_nil _ (hp.text_ne_nil hv)] at hd
    cases p with
    | fixed t => exact hfollows c rfl d hhead hinner
    | name n | parameter p =>
      have hinner' : isInner c = false := hfollows
      exact absurd hinner (by simp [hinner'])
    | number type n suffix =>
      have hinner' : isInner c = false := isInner_of_isHard hfollows
      exact absurd hinner (by simp [hinner'])

theorem reads_of_soundAfter (hv : v.Proper) (h : SoundAfter v before ps) :
    numbersAfter before (render ps).toList = ps.filterMap Piece.number? ∧
      ∀ w ∈ bareAfter before (render ps).toList, ∃ p ∈ ps, w ∈ p.bare := by
  induction ps generalizing before with
  | nil => exact ⟨rfl, nofun⟩
  | cons p ps ih =>
    obtain ⟨hfollows, hp, hps⟩ := h
    obtain ⟨hnumbers, hbare⟩ := reads_piece hv hfollows hp
    obtain ⟨ihnumbers, ihbare⟩ := ih hps
    unfold numbersAfter bareAfter at *
    rw [render_cons, String.toList_append, wordsAfter_append (breaks_of_soundAfter hv hps), List.filterMap_append,
      List.filterMap_append, hnumbers, ihnumbers]
    refine ⟨?_, fun w hw => ?_⟩
    · cases hnumber : p.number? <;> simp [hnumber]
    · rcases List.mem_append.mp hw with hw | hw
      · exact ⟨p, List.mem_cons_self, hbare w hw⟩
      · obtain ⟨q, hq, hw⟩ := ihbare w hw
        exact ⟨q, List.mem_cons_of_mem p hq, hw⟩

/-- The numbers of a line are those of its template. -/
theorem numbers_render (hv : v.Proper) (h : Sound v ps) : numbers (render ps) = ps.filterMap Piece.number? :=
  (reads_of_soundAfter hv (h ' ' (by decide))).1

/-- Every word that a line looks up is one that a piece of its template looks up. -/
theorem exists_piece_of_mem_bareWords (hv : v.Proper) (h : Sound v ps) {w : List Char}
    (hw : w ∈ bareWords (render ps)) : ∃ p ∈ ps, w ∈ p.bare :=
  (reads_of_soundAfter hv (h ' ' (by decide))).2 w hw

theorem SoundAfter.proper (h : SoundAfter v before ps) : ∀ p ∈ ps, p.Proper v := by
  induction ps generalizing before with
  | nil => nofun
  | cons p ps ih => exact List.forall_mem_cons.mpr ⟨h.2.1, ih h.2.2⟩

theorem Sound.proper (h : Sound v ps) : ∀ p ∈ ps, p.Proper v := (h ' ' (by decide)).proper

end Words

end XdrSchema.Rust
