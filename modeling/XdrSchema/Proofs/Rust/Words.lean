import Mathlib.Data.List.Basic
import XdrSchema.Proofs.Rust.Union
import XdrSchema.Rust.Identifier

/-! The words of generated text. A word is told apart by the character before it: a number by its sign, a name
that is looked up as it stands from a later part of a path. Texts joined where no word goes on have the words
of both. -/
namespace XdrSchema.Rust

/-- A character of a word. The number sign is one because of raw identifiers. -/
def isInner (c : Char) : Bool := Text.isWordChar c || c = '#'

/-- The words of a text that stands after a character, each with the character before it. -/
def wordsAfter (before : Char) : List Char → List (Char × List Char)
  | [] => []
  | c :: rest =>
    (if isInner c && !isInner before then [(before, c :: rest.takeWhile isInner)] else []) ++
      wordsAfter c rest

/-- A word that is a number, with its sign. After a dot it is the place of a member. -/
def number? (x : Char × List Char) : Option (List Char) :=
  if x.2.head?.any Char.isDigit && x.1 ≠ '.' then some (if x.1 = '-' then '-' :: x.2 else x.2) else none

/-- A word that is looked up as it stands: no number, no later part of a path, no member, no lifetime and no
variable of a macro. -/
def bare? (x : Char × List Char) : Option (List Char) :=
  if x.2.head?.any Char.isDigit || x.1 ∈ [':', '.', '\'', '$'] then none else some x.2

def numbersAfter (before : Char) (text : List Char) : List (List Char) :=
  (wordsAfter before text).filterMap number?

def bareAfter (before : Char) (text : List Char) : List (List Char) :=
  (wordsAfter before text).filterMap bare?

/-- The numbers in a line. -/
def numbers (line : String) : List (List Char) := numbersAfter ' ' line.toList

/-- The words of a line that are looked up as they stand. -/
def bareWords (line : String) : List (List Char) := bareAfter ' ' line.toList

/-! ### Joined texts -/

/-- No word goes on from the one text into the other. -/
def Breaks (a b : List Char) : Prop :=
  ∀ c ∈ a.getLast?, ∀ d ∈ b.head?, isInner c = true → isInner d = false

variable {a b w : List Char} {before : Char}

theorem Breaks.of_cons {c : Char} (h : Breaks (c :: a) b) : Breaks a b := by
  intro d hd
  refine h d ?_
  cases a with
  | nil => cases hd
  | cons e a => rwa [List.getLast?_cons_cons]

/-- A word that begins in the first text ends there. -/
theorem takeWhile_of_breaks {c : Char} (hc : isInner c = true) (h : Breaks (c :: a) b) :
    (a ++ b).takeWhile isInner = a.takeWhile isInner := by
  rw [List.takeWhile_append]
  split
  · next hlength =>
    have hall : a.takeWhile isInner = a := (List.takeWhile_prefix isInner).eq_of_length hlength
    have hlast : ∀ d ∈ (c :: a).getLast?, isInner d = true := by
      intro d hd
      rcases List.mem_cons.mp (List.mem_of_getLast? hd) with rfl | hd
      · exact hc
      · exact List.takeWhile_eq_self_iff.mp hall d hd
    have hnone : b.takeWhile isInner = [] := by
      cases b with
      | nil => rfl
      | cons d b =>
        obtain ⟨e, he⟩ := Option.isSome_iff_exists.mp (List.getLast?_isSome.mpr (List.cons_ne_nil c a))
        exact List.takeWhile_cons_of_neg (by simp [h e he d rfl (hlast e he)])
    rw [hnone, hall, List.append_nil]
  · rfl

theorem wordsAfter_append (h : Breaks a b) (before : Char) :
    wordsAfter before (a ++ b) = wordsAfter before a ++ wordsAfter (a.getLastD before) b := by
  induction a generalizing before with
  | nil => rfl
  | cons c a ih =>
    rw [List.cons_append, wordsAfter, wordsAfter, ih h.of_cons, List.getLastD_cons, List.append_assoc]
    split
    · next hc => rw [takeWhile_of_breaks (Bool.and_eq_true_iff.mp hc).1 h]
    · rfl

theorem breaks_of_not_inner (h : isInner before = false) (a : List Char) : Breaks [before] a := by
  rintro c hc - - hinner
  obtain rfl : before = c := Option.some.inj hc
  exact absurd hinner (by simp [h])

/-- Where no word goes on, one begins if the text begins with one. -/
theorem wordsAfter_cons {c : Char} (h : Breaks [before] (c :: a)) : wordsAfter before (c :: a) =
    (if isInner c then [(before, c :: a.takeWhile isInner)] else []) ++ wordsAfter c a := by
  rw [wordsAfter]
  cases hbefore : isInner before with
  | false => rw [Bool.not_false, Bool.and_true]
  | true => rw [h before rfl c rfl hbefore, Bool.false_and]

theorem wordsAfter_inner (hw : ∀ c ∈ w, isInner c = true) (hbefore : isInner before = true) :
    wordsAfter before w = [] := by
  induction w generalizing before with
  | nil => rfl
  | cons c w ih =>
    rw [List.forall_mem_cons] at hw
    rw [wordsAfter, ih hw.2 hw.1, hbefore, Bool.not_true, Bool.and_false]
    rfl

/-- What consists of such characters is one word. -/
theorem wordsAfter_word (hw : ∀ c ∈ w, isInner c = true) (hne : w ≠ []) (hbefore : isInner before = false) :
    wordsAfter before w = [(before, w)] := by
  cases w with
  | nil => exact absurd rfl hne
  | cons c w =>
    rw [List.forall_mem_cons] at hw
    rw [wordsAfter_cons (breaks_of_not_inner hbefore _), if_pos hw.1, wordsAfter_inner hw.2 hw.1,
      List.takeWhile_eq_self_iff.mpr hw.2]
    rfl

/-! ### Words in another place -/

/-- A text without numbers has none wherever it stands. -/
theorem numbersAfter_eq_nil (h : numbersAfter ' ' a = []) (hbefore : Breaks [before] a) :
    numbersAfter before a = [] := by
  cases a with
  | nil => rfl
  | cons c a =>
    unfold numbersAfter at h ⊢
    rw [wordsAfter_cons (breaks_of_not_inner (by decide) _), List.filterMap_append, List.append_eq_nil_iff] at h
    rw [wordsAfter_cons hbefore, List.filterMap_append, h.2, List.append_nil]
    obtain ⟨h, -⟩ := h
    split at h
    · next hc =>
      have hdigit : c.isDigit = false := by
        by_contra hdigit
        simp [number?, hdigit] at h
      simp [hc, number?, hdigit]
    · next hc => rw [if_neg hc]; rfl

theorem bare?_imp (h : bare? (before, w) = some a) : bare? (' ', w) = some a := by
  unfold bare? at h ⊢
  split at h
  · cases h
  · next hbare =>
    rw [if_neg fun hdigit => hbare ?_]
    · exact h
    · simpa using .inl (by simpa using hdigit)

/-- What a text looks up, it looks up at the start of a line. -/
theorem mem_bareAfter (hbefore : Breaks [before] a) (h : w ∈ bareAfter before a) : w ∈ bareAfter ' ' a := by
  cases a with
  | nil => cases h
  | cons c a =>
    unfold bareAfter at h ⊢
    rw [wordsAfter_cons hbefore, List.filterMap_append, List.mem_append] at h
    rw [wordsAfter_cons (breaks_of_not_inner (by decide) _), List.filterMap_append, List.mem_append]
    refine h.imp_left fun h => ?_
    split at h
    · next hc =>
      rw [if_pos hc]
      obtain ⟨x, hx, hw⟩ := List.mem_filterMap.mp h
      obtain rfl := List.mem_singleton.mp hx
      exact List.mem_filterMap.mpr ⟨_, List.mem_singleton.mpr rfl, bare?_imp hw⟩
    · cases h

/-! ### Names -/

/-- The text is a single word and no number. -/
structure IsTerm (w : List Char) : Prop where
  inner : ∀ c ∈ w, isInner c = true
  nonempty : w ≠ []
  letter : w.head?.any Char.isDigit = false

theorem isTerm_of_isWord (h : isWord w = true) : IsTerm w := by
  cases w with
  | nil => cases h
  | cons c rest =>
    simp only [isWord, Bool.and_eq_true, Bool.not_eq_true', List.all_eq_true] at h
    refine ⟨List.forall_mem_cons.mpr ⟨?_, fun d hd => ?_⟩, List.cons_ne_nil c rest, h.1.2⟩
    · simp [isInner, h.1.1]
    · simp [isInner, h.2 d hd]

theorem isTerm_identifier {n : String} (h : isWord n.toList = true) : IsTerm (identifier n).toList := by
  unfold identifier
  split
  · rw [String.toList_append]
    have hraw : "r#".toList.all isInner = true := by decide
    exact ⟨List.forall_mem_append.mpr ⟨List.all_eq_true.mp hraw, (isTerm_of_isWord h).inner⟩, by simp, by simp⟩
  · exact isTerm_of_isWord h

theorem IsTerm.reads (h : IsTerm w) (hbefore : isInner before = false) :
    numbersAfter before w = [] ∧ ∀ a ∈ bareAfter before w, a ∈ [w] := by
  rw [numbersAfter, bareAfter, wordsAfter_word h.inner h.nonempty hbefore]
  refine ⟨by simp [number?, h.letter], fun a ha => ?_⟩
  obtain ⟨x, hx, ha⟩ := List.mem_filterMap.mp ha
  obtain rfl := List.mem_singleton.mp hx
  unfold bare? at ha
  split at ha
  · cases ha
  · exact List.mem_singleton.mpr (Option.some.inj ha).symm

/-! ### Numbers -/

theorem isInner_of_isDigit {c : Char} (h : c.isDigit = true) : isInner c = true := by
  simp [isInner, Text.isWordChar, Char.isAlphanum, h]

/-- A number is a row of digits, after a sign if it is negative. -/
theorem toList_toString (n : Int) : ∃ sign c digits, (toString n).toList = sign ++ c :: digits ∧
    (sign = [] ∨ sign = ['-']) ∧ c.isDigit = true ∧ ∀ d ∈ digits, d.isDigit = true := by
  have hdigits (k : Nat) : ∃ c digits, k.repr.toList = c :: digits ∧ c.isDigit = true ∧
      ∀ d ∈ digits, d.isDigit = true := by
    have hall : ∀ c ∈ k.repr.toList, c.isDigit = true := fun c hc => isDigit_of_mem_repr hc
    cases hrepr : k.repr.toList with
    | nil =>
      rw [Nat.toList_repr] at hrepr
      exact absurd hrepr Nat.toDigits_ne_nil
    | cons c digits =>
      rw [hrepr, List.forall_mem_cons] at hall
      exact ⟨c, digits, rfl, hall⟩
  rw [Int.toString_eq_repr, Int.repr_eq_if]
  split
  · obtain ⟨c, digits, hrepr, h⟩ := hdigits n.toNat
    exact ⟨[], c, digits, hrepr, .inl rfl, h⟩
  · obtain ⟨c, digits, hrepr, h⟩ := hdigits (-n).toNat
    refine ⟨['-'], c, digits, ?_, .inr rfl, h⟩
    rw [String.toList_append, hrepr]
    rfl

/-- A number with its suffix is one word, after its sign. -/
theorem wordsAfter_number (n : Int) {suffix : List Char} (hsuffix : ∀ c ∈ suffix, isInner c = true)
    (hbefore : isInner before = false) (hdot : before ≠ '.') (hsign : before ≠ '-') :
    numbersAfter before ((toString n).toList ++ suffix) = [(toString n).toList ++ suffix] ∧
      bareAfter before ((toString n).toList ++ suffix) = [] := by
  obtain ⟨sign, c, digits, htext, hcases, hc, hdigits⟩ := toList_toString n
  have hword : ∀ d ∈ c :: (digits ++ suffix), isInner d = true := by
    refine List.forall_mem_cons.mpr ⟨isInner_of_isDigit hc, List.forall_mem_append.mpr ⟨?_, hsuffix⟩⟩
    exact fun d hd => isInner_of_isDigit (hdigits d hd)
  unfold numbersAfter bareAfter
  rw [htext, List.append_assoc, List.cons_append]
  rcases hcases with rfl | rfl
  · rw [List.nil_append, wordsAfter_word hword (List.cons_ne_nil c _) hbefore]
    simp [number?, bare?, hc, hdot, hsign]
  · rw [List.singleton_append, wordsAfter_cons (breaks_of_not_inner hbefore _),
      wordsAfter_word hword (List.cons_ne_nil c _) (by decide), if_neg (by decide), List.nil_append]
    simp [number?, bare?, hc]

end XdrSchema.Rust
