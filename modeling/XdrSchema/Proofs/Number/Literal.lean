import Mathlib.Data.List.Forall2
import Mathlib.Data.Nat.Digits.Defs
import Mathlib.Tactic.IntervalCases
import Mathlib.Tactic.Ring
import XdrSchema.Proofs.Text.Lines
import XdrSchema.Spec.OfTree

/-! What integer literals denote: a number in one of three bases by the places of its digits, or its negative. No
text is two literals, and a text that is none is refused. A decimal literal of too many digits is not read. Main
statement: `literal_denotes`. -/
namespace XdrSchema.Number

variable {base : Nat} {c : Char} {d n : Nat} {cs : List Char} {ds : List Nat}

/-! ### Digits -/

/-- The digits of the bases up to sixteen, with small letters. -/
def smallDigits : List Char := ['0', '1', '2', '3', '4', '5', '6', '7', '8', '9', 'a', 'b', 'c', 'd', 'e', 'f']

/-- The same with capital letters. -/
def capitalDigits : List Char := ['0', '1', '2', '3', '4', '5', '6', '7', '8', '9', 'A', 'B', 'C', 'D', 'E', 'F']

/-- The character is a digit of the base, and stands for `d`. -/
def IsDigit (base : Nat) (c : Char) (d : Nat) : Prop :=
  d < base ∧ (smallDigits[d]? = some c ∨ capitalDigits[d]? = some c)

instance : Decidable (IsDigit base c d) := instDecidableAnd

theorem IsDigit.ne {x : Char} (h : IsDigit base c d) (hx : x ∉ smallDigits ++ capitalDigits) : c ≠ x := by
  rintro rfl
  exact hx (List.mem_append.mpr (h.2.imp List.mem_of_getElem? List.mem_of_getElem?))

theorem exists_ofNat_of_le {a b : Char} (ha : a ≤ c) (hb : c ≤ b) :
    ∃ k, a.toNat ≤ k ∧ k ≤ b.toNat ∧ c = Char.ofNat k :=
  ⟨c.toNat, ha, hb, (Char.ofNat_toNat c).symm⟩

theorem digit?_eq_some_iff (hbase : base ≤ 16) : digit? base c = some d ↔ IsDigit base c d := by
  constructor
  · intro h
    simp only [digit?, Option.ite_none_right_eq_some, Option.some.injEq, Bool.and_eq_true, decide_eq_true_eq] at h
    obtain ⟨hlt, rfl⟩ := h
    refine ⟨hlt, ?_⟩
    -- each of the three ranges is gone through digit by digit
    split
    · next h =>
      obtain ⟨k, hlow, hhigh, rfl⟩ := exists_ofNat_of_le h.1 h.2
      change 48 ≤ k at hlow
      change k ≤ 57 at hhigh
      interval_cases k <;> decide
    · split
      · next h =>
        obtain ⟨k, hlow, hhigh, rfl⟩ := exists_ofNat_of_le h.1 h.2
        change 97 ≤ k at hlow
        change k ≤ 102 at hhigh
        interval_cases k <;> decide
      · split
        · next h =>
          obtain ⟨k, hlow, hhigh, rfl⟩ := exists_ofNat_of_le h.1 h.2
          change 65 ≤ k at hlow
          change k ≤ 70 at hhigh
          interval_cases k <;> decide
        · next hnumeric hsmall hcapital =>
          rw [if_neg hnumeric, if_neg hsmall, if_neg hcapital] at hlt
          exact (Nat.lt_irrefl _ hlt).elim
  · rintro ⟨hlt, h⟩
    have hd : d < 16 := by omega
    interval_cases d <;> rcases h with h | h <;> cases h <;> simp [digit?, hlt]

theorem IsDigit.unique {d' : Nat} (hbase : base ≤ 16) (h : IsDigit base c d) (h' : IsDigit base c d') : d = d' :=
  Option.some.inj (((digit?_eq_some_iff hbase).mpr h).symm.trans ((digit?_eq_some_iff hbase).mpr h'))

/-! ### Rows of digits -/

/-- The characters are digits of the base, one or more, and stand for the digits `ds`. -/
def IsRow (base : Nat) (cs : List Char) (ds : List Nat) : Prop := ds ≠ [] ∧ List.Forall₂ (IsDigit base) cs ds

/-- The number that digits stand for by their places, of which the last one counts once. -/
def placeValue (base : Nat) (ds : List Nat) : Nat := Nat.ofDigits base ds.reverse

theorem placeValue_cons (base d : Nat) (ds : List Nat) :
    placeValue base (d :: ds) = d * base ^ ds.length + placeValue base ds := by
  unfold placeValue
  rw [List.reverse_cons, Nat.ofDigits_append, Nat.ofDigits_singleton, List.length_reverse, Nat.add_comm, Nat.mul_comm]

/-- What was read before counts for as many places as digits follow. -/
theorem digitsFrom?_eq_some_iff (hbase : base ≤ 16) {high : Nat} : digitsFrom? base high cs = some n ↔
    ∃ ds, List.Forall₂ (IsDigit base) cs ds ∧ high * base ^ ds.length + placeValue base ds = n := by
  induction cs generalizing high with
  | nil => simp [digitsFrom?, placeValue]
  | cons c cs ih =>
    have hstep (d : Nat) (ds : List Nat) : (high * base + d) * base ^ ds.length + placeValue base ds =
        high * base ^ (d :: ds).length + placeValue base (d :: ds) := by
      rw [placeValue_cons, List.length_cons, Nat.pow_succ]
      ring
    rw [digitsFrom?, Option.bind_eq_bind, Option.bind_eq_some_iff]
    constructor
    · rintro ⟨d, hd, h⟩
      obtain ⟨ds, hds, rfl⟩ := ih.mp h
      exact ⟨d :: ds, .cons ((digit?_eq_some_iff hbase).mp hd) hds, (hstep d ds).symm⟩
    · rintro ⟨_, hrow, rfl⟩
      obtain ⟨d, ds, hd, hds, rfl⟩ := List.forall₂_cons_left_iff.mp hrow
      exact ⟨d, (digit?_eq_some_iff hbase).mpr hd, ih.mpr ⟨ds, hds, hstep d ds⟩⟩

theorem digits?_eq_some_iff (hbase : base ≤ 16) :
    digits? base cs = some n ↔ ∃ ds, IsRow base cs ds ∧ placeValue base ds = n := by
  cases cs with
  | nil => simp [digits?, IsRow]
  | cons c cs =>
    change digitsFrom? base 0 (c :: cs) = some n ↔ _
    rw [digitsFrom?_eq_some_iff hbase]
    apply exists_congr
    intro ds
    rw [Nat.zero_mul, Nat.zero_add, IsRow, and_assoc]
    constructor
    · rintro ⟨hrow, hn⟩
      refine ⟨?_, hrow, hn⟩
      rintro rfl
      cases hrow
    · rintro ⟨-, hrow, hn⟩
      exact ⟨hrow, hn⟩

theorem IsRow.unique {ds' : List Nat} (hbase : base ≤ 16) (h : IsRow base cs ds) (h' : IsRow base cs ds') : ds = ds' :=
  List.right_unique_forall₂' (fun _ _ _ hd hd' => hd.unique hbase hd') h.2 h'.2

theorem IsRow.exists_cons (h : IsRow base cs ds) : ∃ c rest d, cs = c :: rest ∧ IsDigit base c d := by
  obtain ⟨hne, hrow⟩ := h
  cases hrow with
  | nil => exact (hne rfl).elim
  | cons hd _ => exact ⟨_, _, _, rfl, hd⟩

theorem IsRow.not_mem {x : Char} (h : IsRow base cs ds) (hx : x ∉ smallDigits ++ capitalDigits) : x ∉ cs := by
  obtain ⟨-, hrow⟩ := h
  induction hrow with
  | nil => exact List.not_mem_nil
  | cons hd _ ih => exact List.not_mem_cons_of_ne_of_not_mem (hd.ne hx).symm ih

/-! ### Numbers -/

/-- A number as it is written: by its digits in one of three bases, or as a zero alone. -/
inductive Numeral
  | hexadecimal (ds : List Nat)
  | octal (ds : List Nat)
  | zero
  | decimal (ds : List Nat)

namespace Numeral

def value : Numeral → Nat
  | hexadecimal ds => placeValue 16 ds
  | octal ds => placeValue 8 ds
  | zero => 0
  | decimal ds => placeValue 10 ds

/-- The number of digits, if they are decimal and too many to be read. -/
def excess? : Numeral → Option Nat
  | decimal ds => if digitLimit < ds.length then some ds.length else none
  | _ => none

/-- How a number is spelled. A decimal number does not start with a zero. -/
inductive Spelled : Numeral → List Char → Prop
  | hexadecimal {x : Char} {cs : List Char} {ds : List Nat} (hx : x = 'x' ∨ x = 'X') (h : IsRow 16 cs ds) :
    Spelled (.hexadecimal ds) ('0' :: x :: cs)
  | octal {cs : List Char} {ds : List Nat} (h : IsRow 8 cs ds) : Spelled (.octal ds) ('0' :: cs)
  | zero : Spelled .zero ['0']
  | decimal {c : Char} {cs : List Char} {ds : List Nat} (hc : c ≠ '0') (h : IsRow 10 (c :: cs) ds) :
    Spelled (.decimal ds) (c :: cs)

variable {m m' : Numeral}

/-- An octal number is not taken for a hexadecimal one. -/
theorem not_isRow_octal {x : Char} (hx : x = 'x' ∨ x = 'X') : ¬ IsRow 8 (x :: cs) ds := by
  intro h
  refine h.not_mem (x := x) ?_ List.mem_cons_self
  rcases hx with rfl | rfl <;> decide

theorem Spelled.unique (h : m.Spelled cs) (h' : m'.Spelled cs) : m = m' := by
  cases h with
  | hexadecimal hx h =>
    cases h' with
    | hexadecimal _ h' => exact congrArg _ (h.unique (by decide) h')
    | octal h' => exact (not_isRow_octal hx h').elim
    | decimal hc => exact (hc rfl).elim
  | octal h =>
    cases h' with
    | hexadecimal hx => exact (not_isRow_octal hx h).elim
    | octal h' => exact congrArg _ (h.unique (by decide) h')
    | zero => obtain ⟨_, _, _, ⟨⟩, _⟩ := h.exists_cons
    | decimal hc => exact (hc rfl).elim
  | zero =>
    cases h' with
    | octal h' => obtain ⟨_, _, _, ⟨⟩, _⟩ := h'.exists_cons
    | zero => rfl
    | decimal hc => exact (hc rfl).elim
  | decimal hc h =>
    cases h' with
    | decimal _ h' => exact congrArg _ (h.unique (by decide) h')
    | _ => exact (hc rfl).elim

theorem Spelled.not_mem {x : Char} (h : m.Spelled cs) (hx : x ∉ ['x', 'X'] ++ smallDigits ++ capitalDigits) :
    x ∉ cs := by
  rw [List.append_assoc, List.mem_append, not_or] at hx
  obtain ⟨hmark, hdigit⟩ := hx
  have hzero : x ≠ '0' := by
    rintro rfl
    exact hdigit (by decide)
  cases h with
  | hexadecimal hy h =>
    have hne : x ≠ _ := fun heq => hmark (by simpa [heq] using hy)
    exact List.not_mem_cons_of_ne_of_not_mem hzero (List.not_mem_cons_of_ne_of_not_mem hne (h.not_mem hdigit))
  | octal h => exact List.not_mem_cons_of_ne_of_not_mem hzero (h.not_mem hdigit)
  | zero => exact List.not_mem_cons_of_ne_of_not_mem hzero List.not_mem_nil
  | decimal _ h => exact h.not_mem hdigit

/-! The forms of a number are told apart by its first two characters. -/

theorem magnitude?_octal (hx : c ≠ 'x') (hX : c ≠ 'X') : magnitude? ('0' :: c :: cs) = digits? 8 (c :: cs) := by
  rw [magnitude?]
  · exact nofun
  · rintro _ ⟨⟩
    exact hx rfl
  · rintro _ ⟨⟩
    exact hX rfl

theorem magnitude?_decimal (hc : c ≠ '0') :
    magnitude? (c :: cs) = if (c :: cs).length ≤ digitLimit then digits? 10 (c :: cs) else none := by
  rw [magnitude?]
  · rintro ⟨⟩
    exact hc rfl
  all_goals
    rintro _ ⟨⟩
    exact hc rfl

theorem excess?_decimal (h : IsRow 10 cs ds) : (Numeral.decimal ds).excess? = none ↔ cs.length ≤ digitLimit := by
  rw [excess?, h.2.length_eq, ite_eq_right_iff, ← Nat.not_lt]
  exact forall_congr' fun _ => ⟨nofun, False.elim⟩

theorem magnitude?_eq_some_iff :
    magnitude? cs = some n ↔ ∃ m : Numeral, m.Spelled cs ∧ m.excess? = none ∧ m.value = n := by
  constructor
  · intro h
    unfold magnitude? at h
    split at h
    · exact ⟨.zero, .zero, rfl, Option.some.inj h⟩
    · obtain ⟨ds, hrow, rfl⟩ := (digits?_eq_some_iff (by decide)).mp h
      exact ⟨.hexadecimal ds, .hexadecimal (.inl rfl) hrow, rfl, rfl⟩
    · obtain ⟨ds, hrow, rfl⟩ := (digits?_eq_some_iff (by decide)).mp h
      exact ⟨.hexadecimal ds, .hexadecimal (.inr rfl) hrow, rfl, rfl⟩
    · obtain ⟨ds, hrow, rfl⟩ := (digits?_eq_some_iff (by decide)).mp h
      exact ⟨.octal ds, .octal hrow, rfl, rfl⟩
    · next hzero =>
      obtain ⟨hlength, h⟩ := Option.ite_none_right_eq_some.mp h
      obtain ⟨ds, hrow, rfl⟩ := (digits?_eq_some_iff (by decide)).mp h
      obtain ⟨c, rest, d, rfl, -⟩ := hrow.exists_cons
      exact ⟨.decimal ds, .decimal (fun hc => hzero rest (hc ▸ rfl)) hrow, (excess?_decimal hrow).mpr hlength, rfl⟩
  · rintro ⟨m, h, hshort, rfl⟩
    cases h with
    | hexadecimal hx h =>
      rcases hx with rfl | rfl <;> exact (digits?_eq_some_iff (by decide)).mpr ⟨_, h, rfl⟩
    | octal h =>
      obtain ⟨c, rest, d, rfl, hd⟩ := h.exists_cons
      rw [magnitude?_octal (hd.ne (by decide)) (hd.ne (by decide))]
      exact (digits?_eq_some_iff (by decide)).mpr ⟨_, h, rfl⟩
    | zero => rfl
    | decimal hc h =>
      rw [magnitude?_decimal hc, if_pos ((excess?_decimal h).mp hshort)]
      exact (digits?_eq_some_iff (by decide)).mpr ⟨_, h, rfl⟩

theorem exists_excess?_iff {k : Nat} : (∃ m : Numeral, m.Spelled cs ∧ m.excess? = some k) ↔
    (digitLimit < cs.length ∧ cs.head? ≠ some '0' ∧ (digits? 10 cs).isSome) ∧ cs.length = k := by
  constructor
  · rintro ⟨m, hm, hk⟩
    cases hm with
    | decimal hc h =>
      obtain ⟨hlong, hk⟩ := Option.ite_none_right_eq_some.mp hk
      rw [← h.2.length_eq] at hlong hk
      rw [(digits?_eq_some_iff (by decide)).mpr ⟨_, h, rfl⟩]
      exact ⟨⟨hlong, fun hhead => hc (Option.some.inj hhead), rfl⟩, Option.some.inj hk⟩
    | _ => cases hk
  · rintro ⟨⟨hlong, hhead, hdigits⟩, rfl⟩
    obtain ⟨n, hn⟩ := Option.isSome_iff_exists.mp hdigits
    obtain ⟨ds, hrow, -⟩ := (digits?_eq_some_iff (by decide)).mp hn
    obtain ⟨c, rest, d, rfl, -⟩ := hrow.exists_cons
    refine ⟨.decimal ds, .decimal (fun hc => hhead (hc ▸ rfl)) hrow, ?_⟩
    rw [excess?, ← hrow.2.length_eq, if_pos hlong]

end Numeral

/-! ### Literals -/

/-- A number, or its negative. -/
structure Literal where
  negative : Bool
  numeral : Numeral

namespace Literal

def value (l : Literal) : Int := if l.negative then -(l.numeral.value : Int) else l.numeral.value

inductive Spelled : Literal → List Char → Prop
  | positive {m : Numeral} {cs : List Char} (h : m.Spelled cs) : Spelled ⟨false, m⟩ cs
  | negative {m : Numeral} {cs : List Char} (h : m.Spelled cs) : Spelled ⟨true, m⟩ ('-' :: cs)

/-- The text is the literal, and one line feed may follow. -/
def Reads (l : Literal) (text : List Char) : Prop := ∃ cs, l.Spelled cs ∧ (text = cs ∨ text = cs ++ ['\n'])

variable {l l' : Literal} {text : List Char}

theorem not_spelled_minus {m : Numeral} : ¬ m.Spelled ('-' :: cs) :=
  fun h => h.not_mem (x := '-') (by decide) List.mem_cons_self

theorem Spelled.unique (h : l.Spelled cs) (h' : l'.Spelled cs) : l = l' := by
  cases h with
  | positive h =>
    cases h' with
    | positive h' => exact congrArg _ (h.unique h')
    | negative => exact (not_spelled_minus h).elim
  | negative h =>
    cases h' with
    | positive h' => exact (not_spelled_minus h').elim
    | negative h' => exact congrArg _ (h.unique h')

theorem Spelled.not_mem_newline (h : l.Spelled cs) : '\n' ∉ cs := by
  cases h with
  | positive h => exact h.not_mem (by decide)
  | negative h => exact List.not_mem_cons_of_ne_of_not_mem (by decide) (h.not_mem (by decide))

theorem reads_iff : l.Reads text ↔ l.Spelled (Text.dropFinalNewline text) := by
  have hiff {cs : List Char} (h : l.Spelled cs) :
      Text.dropFinalNewline text = cs ↔ text = cs ∨ text = cs ++ ['\n'] :=
    Text.dropFinalNewline_eq_iff fun hlast => h.not_mem_newline (List.mem_of_getLast? hlast)
  constructor
  · rintro ⟨cs, hcs, htext⟩
    rwa [(hiff hcs).mpr htext]
  · intro h
    exact ⟨_, h, (hiff h).mp rfl⟩

theorem Reads.unique (h : l.Reads text) (h' : l'.Reads text) : l = l' :=
  (reads_iff.mp h).unique (reads_iff.mp h')

/-- Up to its sign, a literal is spelled as its number is. -/
theorem exists_spelled_iff {P : Numeral → Prop} :
    (∃ l : Literal, l.Spelled cs ∧ P l.numeral) ↔ ∃ m : Numeral, m.Spelled (dropMinus cs) ∧ P m := by
  constructor
  · rintro ⟨l, hl, hp⟩
    cases hl with
    | positive hm =>
      refine ⟨_, ?_, hp⟩
      unfold dropMinus
      split
      · exact (not_spelled_minus hm).elim
      · exact hm
    | negative hm => exact ⟨_, hm, hp⟩
  · rintro ⟨m, hm, hp⟩
    unfold dropMinus at hm
    split at hm
    · exact ⟨⟨true, m⟩, .negative hm, hp⟩
    · exact ⟨⟨false, m⟩, .positive hm, hp⟩

theorem literal?_eq_some_iff {n : Int} :
    literal? text = some n ↔ ∃ l : Literal, l.Reads text ∧ l.numeral.excess? = none ∧ l.value = n := by
  have hcast (k? : Option Nat) (f : Int → Int) :
      Option.map f (do let k ← k?; pure (k : Int)) = k?.map fun k : Nat => f k := by
    cases k? <;> rfl
  simp only [reads_iff]
  unfold literal?
  generalize Text.dropFinalNewline text = cs
  split
  · next rest =>
    rw [hcast, Option.map_eq_some_iff]
    constructor
    · rintro ⟨k, hk, rfl⟩
      obtain ⟨m, hm, hshort, rfl⟩ := Numeral.magnitude?_eq_some_iff.mp hk
      exact ⟨⟨true, m⟩, .negative hm, hshort, rfl⟩
    · rintro ⟨l, hl, hshort, rfl⟩
      cases hl with
      | positive hm => exact (not_spelled_minus hm).elim
      | negative hm => exact ⟨_, Numeral.magnitude?_eq_some_iff.mpr ⟨_, hm, hshort, rfl⟩, rfl⟩
  · next hminus =>
    rw [hcast, Option.map_eq_some_iff]
    constructor
    · rintro ⟨k, hk, rfl⟩
      obtain ⟨m, hm, hshort, rfl⟩ := Numeral.magnitude?_eq_some_iff.mp hk
      exact ⟨⟨false, m⟩, .positive hm, hshort, rfl⟩
    · rintro ⟨l, hl, hshort, rfl⟩
      cases hl with
      | positive hm => exact ⟨_, Numeral.magnitude?_eq_some_iff.mpr ⟨_, hm, hshort, rfl⟩, rfl⟩
      | negative => exact (hminus _ rfl).elim

theorem excess?_eq_some_iff {k : Nat} :
    Number.excess? text = some k ↔ ∃ l : Literal, l.Reads text ∧ l.numeral.excess? = some k := by
  simp only [reads_iff, exists_spelled_iff (P := fun m => m.excess? = some k), Numeral.exists_excess?_iff]
  simp only [Number.excess?, Option.ite_none_right_eq_some, Option.some.injEq, Bool.and_eq_true, decide_eq_true_eq,
    and_assoc]

theorem isSome_literal?_iff :
    (literal? text).isSome ↔ ∃ l : Literal, l.Reads text ∧ l.numeral.excess? = none := by
  simp only [Option.isSome_iff_exists, literal?_eq_some_iff]
  exact ⟨fun ⟨_, l, hl, hshort, _⟩ => ⟨l, hl, hshort⟩, fun ⟨l, hl, hshort⟩ => ⟨_, l, hl, hshort, rfl⟩⟩

theorem literal?_eq_none_of_excess? {k : Nat} (h : Number.excess? text = some k) : literal? text = none := by
  obtain ⟨l, hl, hlong⟩ := excess?_eq_some_iff.mp h
  rw [Option.eq_none_iff_forall_ne_some]
  intro n hn
  obtain ⟨l', hl', hshort, -⟩ := literal?_eq_some_iff.mp hn
  cases hl.unique hl'
  cases hlong.symm.trans hshort

theorem valueOf_of_excess? {w : Concrete.Word} {k : Nat} (h : Number.excess? w.text.toList = some k) :
    ∃ e : SpecError, Spec.valueOf (.number w) = .error e ∧ e.fault.overlong? = some (.reading k) := by
  rw [Spec.valueOf, literal?_eq_none_of_excess? h, h]
  exact ⟨_, rfl, rfl⟩

theorem forall_not_reads_iff : (∀ l : Literal, ¬ l.Reads text) ↔ literal? text = none ∧ Number.excess? text = none := by
  constructor
  · intro hnone
    refine ⟨?_, ?_⟩ <;> rw [Option.eq_none_iff_forall_ne_some] <;> intro n hn
    · obtain ⟨l, hl, -⟩ := literal?_eq_some_iff.mp hn
      exact hnone l hl
    · obtain ⟨l, hl, -⟩ := excess?_eq_some_iff.mp hn
      exact hnone l hl
  · rintro ⟨hvalue, hexcess⟩ l hl
    cases hlong : l.numeral.excess? with
    | none => cases hvalue.symm.trans (literal?_eq_some_iff.mpr ⟨l, hl, hlong, rfl⟩)
    | some k => cases hexcess.symm.trans (excess?_eq_some_iff.mpr ⟨l, hl, hlong⟩)

end Literal

/-- A number in a specification has a value exactly if its text is a literal, of which there is but one, and not a
decimal one of too many digits; the value is what that denotes. A literal of too many digits is not reported: the work
ends by itself. Any other text is a malformed literal. -/
theorem literal_denotes (w : Concrete.Word) :
    (∀ l l' : Literal, l.Reads w.text.toList → l'.Reads w.text.toList → l = l') ∧
      (∀ n, literal? w.text.toList = some n ↔
        ∃ l : Literal, l.Reads w.text.toList ∧ l.numeral.excess? = none ∧ l.value = n) ∧
      (∀ l : Literal, l.Reads w.text.toList → l.numeral.excess? = none →
        Spec.valueOf (.number w) = .ok (.literal l.value w.text w.span)) ∧
      (∀ (l : Literal) k, l.Reads w.text.toList → l.numeral.excess? = some k → ∃ e : SpecError,
        Spec.valueOf (.number w) = .error e ∧ e.fault.overlong? = some (.reading k)) ∧
      ((∀ l : Literal, ¬ l.Reads w.text.toList) →
        Spec.valueOf (.number w) = .error ⟨.malformedLiteral w.text, some w.span⟩ ∧
          (Fault.malformedLiteral w.text).overlong? = none) := by
  refine ⟨fun l l' hl hl' => hl.unique hl', fun n => Literal.literal?_eq_some_iff, fun l hl hshort => ?_,
    fun l k hl hlong => ?_, fun hnone => ⟨?_, rfl⟩⟩
  · have hvalue : literal? w.text.toList = some l.value := Literal.literal?_eq_some_iff.mpr ⟨l, hl, hshort, rfl⟩
    rw [Spec.valueOf, hvalue]
    rfl
  · exact Literal.valueOf_of_excess? (Literal.excess?_eq_some_iff.mpr ⟨l, hl, hlong⟩)
  · obtain ⟨hvalue, hexcess⟩ := Literal.forall_not_reads_iff.mp hnone
    rw [Spec.valueOf, hvalue, hexcess]
    rfl

theorem literal_denotes_hexadecimal :
    (Literal.mk true (.hexadecimal [1, 15])).Reads "-0x1F".toList ∧
      Spec.valueOf (.number ⟨"-0x1F", ⟨1, 11, 1, 16⟩⟩) = .ok (.literal (-31) "-0x1F" ⟨1, 11, 1, 16⟩) ∧
      (∀ l : Literal, ¬ l.Reads "08".toList) ∧
      Spec.valueOf (.number ⟨"08", ⟨1, 11, 1, 13⟩⟩) = .error ⟨.malformedLiteral "08", some ⟨1, 11, 1, 13⟩⟩ := by
  have hrow : IsRow 16 ['1', 'F'] [1, 15] := ⟨List.cons_ne_nil _ _, .cons (by decide) (.cons (by decide) .nil)⟩
  have hreads : (Literal.mk true (.hexadecimal [1, 15])).Reads "-0x1F".toList :=
    ⟨_, .negative (.hexadecimal (.inl rfl) hrow), .inl rfl⟩
  have hnone : ∀ l : Literal, ¬ l.Reads "08".toList := Literal.forall_not_reads_iff.mpr ⟨rfl, rfl⟩
  exact ⟨hreads, (literal_denotes ⟨"-0x1F", _⟩).2.2.1 _ hreads rfl, hnone,
    ((literal_denotes ⟨"08", _⟩).2.2.2.2 hnone).1⟩

theorem isRow_replicate {k : Nat} (hd : IsDigit base c d) (hk : k ≠ 0) :
    IsRow base (List.replicate k c) (List.replicate k d) := by
  refine ⟨by simpa using hk, ?_⟩
  clear hk
  induction k with
  | zero => exact .nil
  | succ k ih => exact .cons hd ih

/-- A literal of ones. -/
theorem reads_ones {k : Nat} (hk : k ≠ 0) :
    (Literal.mk false (.decimal (List.replicate k 1))).Reads (String.ofList (List.replicate k '1')).toList := by
  rw [String.toList_ofList]
  have hrow : IsRow 10 (List.replicate k '1') (List.replicate k 1) := isRow_replicate (by decide) hk
  obtain ⟨k, rfl⟩ := Nat.exists_eq_succ_of_ne_zero hk
  exact ⟨_, .positive (.decimal (by decide) hrow), .inl rfl⟩

theorem valueOf_ones {k : Nat} (hk : digitLimit < k) (span : Span) : ∃ e : SpecError,
    Spec.valueOf (.number ⟨String.ofList (List.replicate k '1'), span⟩) = .error e ∧
      e.fault.overlong? = some (.reading k) := by
  refine Literal.valueOf_of_excess? (Literal.excess?_eq_some_iff.mpr ⟨_, reads_ones (Nat.ne_zero_of_lt hk), ?_⟩)
  rw [Numeral.excess?, List.length_replicate, if_pos hk]

/-- A literal of 4301 ones has no value, and is not reported as malformed. -/
theorem exists_literal_without_value : ∃ (w : Concrete.Word) (l : Literal), l.Reads w.text.toList ∧
    ∃ e : SpecError, Spec.valueOf (.number w) = .error e ∧ e.fault.overlong? = some (.reading 4301) :=
  ⟨⟨_, ⟨1, 11, 1, 4312⟩⟩, _, reads_ones (by decide), valueOf_ones (by decide) _⟩

end XdrSchema.Number
