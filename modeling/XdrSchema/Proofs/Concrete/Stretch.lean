import Mathlib.Data.Prod.Lex
import XdrSchema.Proofs.Concrete.Place

/-! The text of a span. Places are ordered by their lines and, within a line, by their columns; each character moves
on. Main statements: `stretch_between`, `Splits.ordered`. -/
namespace XdrSchema

/-! ### The order of places -/

namespace Position

/-- Places are compared by their lines first. -/
def key (p : Position) : Int ×ₗ Int := toLex (p.line, p.column)

theorem key_lt_after (p : Position) (c : Char) : p.key < (p.after c).key := by
  unfold after
  rw [Prod.Lex.lt_iff]
  split
  · exact .inl (Int.ofNat_lt.mpr (Nat.lt_succ_self p.line))
  · exact .inr ⟨rfl, Int.ofNat_lt.mpr (Nat.lt_succ_self p.column)⟩

theorem key_le_afterAll (p : Position) (cs : List Char) : p.key ≤ (p.afterAll cs).key := by
  induction cs generalizing p with
  | nil => exact le_refl _
  | cons c cs ih => exact (p.key_lt_after c).le.trans (ih (p.after c))

end Position

namespace Span

def start (s : Span) : Int ×ₗ Int := toLex (s.line, s.column)

def stop (s : Span) : Int ×ₗ Int := toLex (s.endLine, s.endColumn)

def Inside (s t : Span) : Prop := t.start ≤ s.start ∧ s.stop ≤ t.stop

/-- The first has ended where the second starts. -/
def Before (s t : Span) : Prop := s.stop ≤ t.start

end Span

/-! ### The text of a span -/

/-- The characters that a span covers in a text whose first character stands at `p`. -/
def stretchFrom (p : Position) (s : Span) : List Char → List Char
  | [] => []
  | c :: cs =>
    if s.start ≤ p.key ∧ p.key < s.stop then c :: stretchFrom (p.after c) s cs else stretchFrom (p.after c) s cs

/-- The text between the start and the end of a span. -/
def stretch (text : String) (s : Span) : String := .ofList (stretchFrom .start s text.toList)

section Stretch

variable {p : Position} {s : Span} {cs : List Char}

theorem stretchFrom_append (ds : List Char) :
    stretchFrom p s (cs ++ ds) = stretchFrom p s cs ++ stretchFrom (p.afterAll cs) s ds := by
  induction cs generalizing p with
  | nil => rfl
  | cons c cs ih =>
    have hrest : stretchFrom (p.after c) s (cs ++ ds) = _ := ih
    rw [List.cons_append, stretchFrom, stretchFrom, hrest]
    split <;> rfl

theorem stretchFrom_of_le_start (h : (p.afterAll cs).key ≤ s.start) : stretchFrom p s cs = [] := by
  induction cs generalizing p with
  | nil => rfl
  | cons c cs ih =>
    have hlt : p.key < s.start := ((p.key_lt_after c).trans_le ((p.after c).key_le_afterAll cs)).trans_le h
    rw [stretchFrom, if_neg fun hcovers => hlt.not_ge hcovers.1]
    exact ih h

theorem stretchFrom_of_stop_le (h : s.stop ≤ p.key) : stretchFrom p s cs = [] := by
  induction cs generalizing p with
  | nil => rfl
  | cons c cs ih =>
    rw [stretchFrom, if_neg fun hcovers => h.not_gt hcovers.2]
    exact ih (h.trans (p.key_lt_after c).le)

theorem stretchFrom_of_covers (hstart : s.start ≤ p.key) (hstop : (p.afterAll cs).key ≤ s.stop) :
    stretchFrom p s cs = cs := by
  induction cs generalizing p with
  | nil => rfl
  | cons c cs ih =>
    have hlt : p.key < s.stop := ((p.key_lt_after c).trans_le ((p.after c).key_le_afterAll cs)).trans_le hstop
    rw [stretchFrom, if_pos ⟨hstart, hlt⟩, ih (hstart.trans (p.key_lt_after c).le) hstop]

theorem stretch_between {text : String} {front mid rest : List Char} (h : text.toList = front ++ (mid ++ rest)) :
    stretch text (.between (Position.start.afterAll front) (Position.start.afterAll (front ++ mid))) =
      String.ofList mid := by
  rw [stretch, h, stretchFrom_append, stretchFrom_append, stretchFrom_of_le_start (le_refl _), Concrete.afterAll_append,
    stretchFrom_of_covers (le_refl _) (le_refl _), stretchFrom_of_stop_le (le_refl _), List.append_nil, List.nil_append]

example : stretch "const A = 5;\nenum E { B = A };" ⟨2, 6, 2, 7⟩ = "E" := by decide

end Stretch

namespace Concrete

theorem Stands.stretch {text : String} {front rest : List Char} {t : Token}
    (h : Stands .start text.toList front t rest) : stretch text t.span = t.text := by
  rw [h.span_eq, stretch_between h.text_eq, String.ofList_toList]

/-! ### Rows of tokens -/

/-- The tokens stand one after the other. -/
structure Ordered (ts : List Token) : Prop where
  proper : ∀ t ∈ ts, t.span.start ≤ t.span.stop
  row : ts.Pairwise fun t u => t.span.Before u.span

theorem Ordered.sublist {ts us : List Token} (h : Ordered ts) (hus : us.Sublist ts) : Ordered us :=
  ⟨fun t ht => h.proper t (hus.subset ht), h.row.sublist hus⟩

theorem Ordered.le_start {ts : List Token} (h : Ordered ts) {first t : Token} (hfirst : first ∈ ts.head?)
    (ht : t ∈ ts) : first.span.start ≤ t.span.start := by
  cases ts with
  | nil => cases ht
  | cons u ts =>
    cases hfirst
    rcases List.mem_cons.mp ht with rfl | ht
    · exact le_refl _
    · exact (h.proper _ List.mem_cons_self).trans (List.rel_of_pairwise_cons h.row ht)

theorem Ordered.stop_le {ts : List Token} (h : Ordered ts) {last t : Token} (hlast : last ∈ ts.getLast?) (ht : t ∈ ts) :
    t.span.stop ≤ last.span.stop := by
  obtain ⟨us, rfl⟩ := List.getLast?_eq_some_iff.mp hlast
  rcases List.mem_append.mp ht with ht | ht
  · have hbefore : t.span.stop ≤ last.span.start := (List.pairwise_append.mp h.row).2.2 t ht last (by simp)
    exact hbefore.trans (h.proper _ (by simp))
  · rw [List.mem_singleton.mp ht]

theorem Splits.le_start {p : Position} {cs : List Char} {ts : List Token} (h : Splits p cs ts) :
    ∀ t ∈ ts, p.key ≤ t.span.start := by
  induction h with
  | nil => exact nofun
  | gap _ _ ih => exact fun t ht => (Position.key_le_afterAll _ _).trans (ih t ht)
  | token _ _ _ ih =>
    exact List.forall_mem_cons.mpr ⟨le_refl _, fun t ht => (Position.key_le_afterAll _ _).trans (ih t ht)⟩

theorem Splits.ordered {p : Position} {cs : List Char} {ts : List Token} (h : Splits p cs ts) : Ordered ts := by
  induction h with
  | nil => exact ⟨nofun, .nil⟩
  | gap _ _ ih => exact ih
  | token _ _ htail ih =>
    exact ⟨List.forall_mem_cons.mpr ⟨Position.key_le_afterAll _ _, ih.proper⟩, .cons htail.le_start ih.row⟩

end Concrete

end XdrSchema
