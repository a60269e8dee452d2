import Mathlib.Data.List.Forall2
import XdrSchema.Proofs.Concrete.Pattern
import XdrSchema.Proofs.Concrete.Splitting

/-! Writing words out. A text is printed from a row of words with any gaps between them that keep each word
from going on into the next; it splits into tokens of those words. Whether a pattern derives such tokens
depends on the words only. -/
namespace XdrSchema.Concrete

open Pattern

/-- A token apart from its place. -/
abbrev Lexeme := Terminal × String

def Token.lexeme (t : Token) : Lexeme := (t.terminal, t.text)

/-- Texts of a row of words. -/
inductive Printed : List Lexeme → List Char → Prop
  | nil : Printed [] []
  | gap {w : List Lexeme} {cs rest : List Char} (hgap : Gap cs rest) (h : Printed w rest) : Printed w (cs ++ rest)
  | word {l : Lexeme} {w : List Lexeme} {rest : List Char} (hends : ∀ c ∈ rest.head?, l.1.goesOn c = false)
    (h : Printed w rest) : Printed (l :: w) (l.2.toList ++ rest)

/-- Words that are spelled as tokens are read back from any text that is printed from them. -/
theorem Printed.splits {w : List Lexeme} {cs : List Char} (h : Printed w cs) (hw : ∀ l ∈ w, Spelled l.1 l.2.toList)
    (p : Position) : ∃ ts, Splits p cs ts ∧ ts.map Token.lexeme = w := by
  induction h generalizing p with
  | nil => exact ⟨[], .nil, rfl⟩
  | @gap w cs rest hgap _ ih =>
    obtain ⟨ts, hts, hlexemes⟩ := ih hw (p.afterAll cs)
    exact ⟨ts, .gap hgap hts, hlexemes⟩
  | @word l w rest hends _ ih =>
    rw [List.forall_mem_cons] at hw
    obtain ⟨ts, hts, hlexemes⟩ := ih hw.2 (p.afterAll l.2.toList)
    refine ⟨_, .token hw.1 hends hts, ?_⟩
    rw [List.map_cons, hlexemes]
    exact congrArg (fun text => (l.1, text) :: w) (String.ofList_toList)

theorem Splits.printed {p : Position} {cs : List Char} {ts : List Token} (h : Splits p cs ts) :
    Printed (ts.map Token.lexeme) cs := by
  induction h with
  | nil => exact .nil
  | gap hgap _ ih => exact .gap hgap ih
  | @token p terminal cs rest ts _ hends _ ih =>
    have hword := Printed.word (l := (terminal, String.ofList cs)) hends ih
    rwa [String.toList_ofList] at hword

/-- A blank after each word keeps them apart. -/
theorem exists_printed (w : List Lexeme) : ∃ cs, Printed w cs := by
  induction w with
  | nil => exact ⟨[], .nil⟩
  | cons l w ih =>
    obtain ⟨cs, hcs⟩ := ih
    have hgap : Gap [' '] cs := .blank (List.cons_ne_nil _ _) (List.all_eq_true.mp rfl)
    refine ⟨_, .word (fun c hc => ?_) (.gap hgap hcs)⟩
    obtain rfl : ' ' = c := Option.some.inj hc
    cases l.1 <;> rfl

/-! ### Derivations of words -/

/-- Tokens of the given words have a derivation, with some property. -/
def Prints (p : Pattern) (P : p.Tree → Prop) (w : List Lexeme) : Prop :=
  ∀ ts : List Token, ts.map Token.lexeme = w → ∃ d : p.Tree, d.yield = ts ∧ P d

section Prints

variable {p q : Pattern} {P P' : p.Tree → Prop} {Q : q.Tree → Prop} {v w : List Lexeme}

theorem prints_empty : Prints .empty (fun _ => True) [] := by
  intro ts hts
  rw [List.map_eq_nil_iff] at hts
  exact ⟨(), hts.symm, trivial⟩

theorem prints_token (terminal : Terminal) (text : String) :
    Prints (.token terminal) (fun t => t.val.text = text) [(terminal, text)] := by
  intro ts hts
  obtain ⟨t, rfl, ht⟩ := List.map_eq_singleton_iff.mp hts
  obtain ⟨hterminal, htext⟩ := Prod.mk.inj ht
  exact ⟨⟨t, hterminal⟩, rfl, htext⟩

theorem Prints.mono (h : Prints p P w) (hP : ∀ d, P d → P' d) : Prints p P' w := fun ts hts =>
  (h ts hts).imp fun d hd => ⟨hd.1, hP d hd.2⟩

theorem Prints.of_forall (h : Prints p P w) (hP : ∀ d, P' d) : Prints p P' w := h.mono fun d _ => hP d

theorem Prints.seq (hp : Prints p P w) (hq : Prints q Q v) :
    Prints (p.seq q) (fun d => P d.1 ∧ Q d.2) (w ++ v) := by
  intro ts hts
  obtain ⟨front, back, rfl, hfront, hback⟩ := List.map_eq_append_iff.mp hts
  obtain ⟨d, rfl, hd⟩ := hp front hfront
  obtain ⟨e, rfl, he⟩ := hq back hback
  exact ⟨(d, e), rfl, hd, he⟩

theorem Prints.inl {R : (p.alt q).Tree → Prop} (h : Prints p (fun d => R (.inl d)) w) : Prints (p.alt q) R w := by
  intro ts hts
  obtain ⟨d, rfl, hd⟩ := h ts hts
  exact ⟨.inl d, rfl, hd⟩

theorem Prints.inr {R : (p.alt q).Tree → Prop} (h : Prints q (fun e => R (.inr e)) w) : Prints (p.alt q) R w := by
  intro ts hts
  obtain ⟨e, rfl, he⟩ := h ts hts
  exact ⟨.inr e, rfl, he⟩

theorem Prints.cons {R : p.many.Tree → Prop} (hp : Prints p P w) (hq : Prints p.many R v) :
    Prints p.many (fun ds => ∃ d ds', ds = d :: ds' ∧ P d ∧ R ds') (w ++ v) := by
  intro ts hts
  obtain ⟨front, back, rfl, hfront, hback⟩ := List.map_eq_append_iff.mp hts
  obtain ⟨d, rfl, hd⟩ := hp front hfront
  obtain ⟨ds, rfl, hds⟩ := hq back hback
  exact ⟨d :: ds, rfl, d, ds, rfl, hd, hds⟩

theorem prints_many_nil {R : p.many.Tree → Prop} (h : R []) : Prints p.many R [] := by
  intro ts hts
  rw [List.map_eq_nil_iff] at hts
  exact ⟨[], hts.symm, h⟩

theorem Prints.many {α : Type} {R : α → p.Tree → Prop} {as : List α} {ws : List (List Lexeme)}
    (h : List.Forall₂ (fun a w => Prints p (R a) w) as ws) :
    Prints p.many (fun ds => List.Forall₂ R as ds) ws.flatten := by
  induction h with
  | nil => exact prints_many_nil .nil
  | cons ha _ ih =>
    refine (ha.cons ih).mono ?_
    rintro _ ⟨d, ds, rfl, hd, hds⟩
    exact .cons hd hds

/-- Where there are words there is a first derivation. -/
theorem Prints.some {R : p.many.Tree → Prop} (h : Prints p.many R w) (hw : w ≠ []) :
    Prints p.some (fun d => R (d.1 :: d.2)) w := by
  intro ts hts
  obtain ⟨ds, rfl, hds⟩ := h ts hts
  cases ds with
  | nil => exact (hw hts.symm).elim
  | cons d ds => exact ⟨(d, ds), rfl, hds⟩

end Prints

end XdrSchema.Concrete
