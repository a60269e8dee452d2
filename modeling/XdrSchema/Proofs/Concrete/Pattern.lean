import XdrSchema.Concrete.Token

/-! Patterns of tokens and their derivation trees. A tree holds the tokens that it derives, so that its
yield is read off it. A pattern is determined by what may follow it: given that the next token is such a
one, a row of tokens starts with the yield of at most one tree. -/
namespace XdrSchema.Concrete

inductive Pattern
  | empty
  | token (terminal : Terminal)
  | seq (first second : Pattern)
  | alt (left right : Pattern)
  | many (p : Pattern)

namespace Pattern

def opt (p : Pattern) : Pattern := p.alt empty

/-- One or more. -/
def some (p : Pattern) : Pattern := p.seq p.many

def Tree : Pattern → Type
  | empty => Unit
  | token terminal => { t : Token // t.terminal = terminal }
  | seq p q => p.Tree × q.Tree
  | alt p q => p.Tree ⊕ q.Tree
  | many p => List p.Tree

/-- The tokens of a tree, from left to right. -/
def Tree.yield : {p : Pattern} → p.Tree → List Token
  | empty, _ => []
  | token _, t => [t.val]
  | seq _ _, d => yield d.1 ++ yield d.2
  | alt _ _, .inl d => yield d
  | alt _ _, .inr d => yield d
  | many _, ds => List.flatMap yield ds

def nullable : Pattern → Bool
  | empty => true
  | token _ => false
  | seq p q => p.nullable && q.nullable
  | alt p q => p.nullable || q.nullable
  | many _ => true

/-- The terminals that a yield can start with. -/
def starts : Pattern → List Terminal
  | empty => []
  | token terminal => [terminal]
  | seq p q => if p.nullable then p.starts ++ q.starts else p.starts
  | alt p q => p.starts ++ q.starts
  | many p => p.starts

end Pattern

open Pattern

/-- The terminal that comes next. -/
def next : List Token → Terminal
  | [] => .endOfInput
  | t :: _ => t.terminal

/-- The next token is one of the given. -/
def Opens (ks : List Terminal) : List Token → Prop
  | [] => False
  | t :: _ => t.terminal ∈ ks

variable {p q s : Pattern} {F G H : Terminal → Prop}

theorem opens_append {ks : List Terminal} {ts : List Token} (h : Opens ks ts) (rest : List Token) :
    Opens ks (ts ++ rest) := by
  cases ts with
  | nil => cases h
  | cons t ts => exact h

theorem Opens.next_mem {ks : List Terminal} {ts : List Token} (h : Opens ks ts) : next ts ∈ ks := by
  cases ts with
  | nil => cases h
  | cons t ts => exact h

theorem Opens.mono {ks ls : List Terminal} {ts : List Token} (h : Opens ks ts) (hsub : ∀ k ∈ ks, k ∈ ls) :
    Opens ls ts := by
  cases ts with
  | nil => cases h
  | cons t ts => exact hsub _ h

/-! ### How a yield starts -/

theorem yield_starts (d : p.Tree) : Opens p.starts d.yield ∨ p.nullable ∧ d.yield = [] := by
  induction p with
  | empty => exact .inr ⟨rfl, rfl⟩
  | token terminal => exact .inl (List.mem_singleton.mpr d.property)
  | seq p q ihp ihq =>
    obtain ⟨d, e⟩ := d
    change Opens (if p.nullable then p.starts ++ q.starts else p.starts) (d.yield ++ e.yield) ∨
      (p.nullable && q.nullable) = true ∧ d.yield ++ e.yield = []
    rcases ihp d with hd | ⟨hnull, hd⟩
    · refine .inl ((opens_append hd _).mono fun k hk => ?_)
      split
      · exact List.mem_append_left _ hk
      · exact hk
    · rw [if_pos hnull, hd, hnull]
      refine (ihq e).imp (fun he => he.mono fun k hk => List.mem_append_right _ hk) fun he => ?_
      exact ⟨he.1, he.2⟩
  | alt p q ihp ihq =>
    have hleft (k : Terminal) (hk : k ∈ p.starts) : k ∈ (p.alt q).starts := List.mem_append_left _ hk
    have hright (k : Terminal) (hk : k ∈ q.starts) : k ∈ (p.alt q).starts := List.mem_append_right _ hk
    cases d with
    | inl d => exact (ihp d).imp (·.mono hleft) (And.imp_left (Bool.or_eq_true_iff.mpr <| .inl ·))
    | inr d => exact (ihq d).imp (·.mono hright) (And.imp_left (Bool.or_eq_true_iff.mpr <| .inr ·))
  | many p ih =>
    induction d with
    | nil => exact .inr ⟨rfl, rfl⟩
    | cons d ds ihds =>
      rcases ih d with hd | ⟨-, hd⟩
      · exact .inl (opens_append hd _)
      · change Opens p.starts (d.yield ++ Tree.yield (p := p.many) ds) ∨
          true = true ∧ d.yield ++ Tree.yield (p := p.many) ds = []
        rw [hd]
        exact ihds

theorem yield_opens (hp : p.nullable = false) (d : p.Tree) (rest : List Token) :
    Opens p.starts (d.yield ++ rest) := by
  rcases yield_starts d with hd | ⟨hnull, -⟩
  · exact opens_append hd rest
  · cases hp.symm.trans hnull

theorem yield_length_pos (hp : p.nullable = false) (d : p.Tree) : 0 < d.yield.length := by
  have hopens := yield_opens hp d []
  cases hd : d.yield with
  | nil =>
    rw [hd] at hopens
    cases hopens
  | cons t ts => exact Nat.succ_pos _

/-- A yield of `p` before what `F` allows is what `G` allows. -/
def Leads (p : Pattern) (F G : Terminal → Prop) : Prop :=
  ∀ (d : p.Tree) rest, F (next rest) → G (next (d.yield ++ rest))

theorem leads_of_starts (hstarts : ∀ k ∈ p.starts, G k) (hrest : ∀ k, F k → G k) : Leads p F G := by
  intro d rest hF
  rcases yield_starts d with hd | ⟨-, hd⟩
  · exact hstarts _ (opens_append hd rest).next_mem
  · rw [hd]
    exact hrest _ hF

theorem leads_of_opens (hp : p.nullable = false) (hstarts : ∀ k ∈ p.starts, G k) : Leads p F G :=
  fun d rest _ => hstarts _ (yield_opens hp d rest).next_mem

/-- Anything may come. -/
abbrev Any (_ : Terminal) : Prop := True

theorem leads_any : Leads p F Any := fun _ _ _ => trivial

/-! ### Trees that are determined by their yield -/

/-- Where what follows is as `F` allows, a row of tokens starts with the yield of one tree. -/
def Determined (p : Pattern) (F : Terminal → Prop) : Prop :=
  ∀ (d d' : p.Tree) rest rest', d.yield ++ rest = d'.yield ++ rest' → F (next rest) → F (next rest') →
    d = d' ∧ rest = rest'

/-- Where what follows is as `F` allows, no row of tokens starts with a yield of both. -/
def Apart (p q : Pattern) (F : Terminal → Prop) : Prop :=
  ∀ (d : p.Tree) (e : q.Tree) rest rest', d.yield ++ rest = e.yield ++ rest' → F (next rest) →
    F (next rest') → False

theorem Determined.mono (h : Determined p F) (hG : ∀ k, G k → F k) : Determined p G :=
  fun d d' rest rest' heq hrest hrest' => h d d' rest rest' heq (hG _ hrest) (hG _ hrest')

theorem determined_empty : Determined .empty F := fun _ _ _ _ heq _ _ => ⟨rfl, heq⟩

theorem determined_token (terminal : Terminal) : Determined (.token terminal) F := by
  intro d d' rest rest' heq _ _
  obtain ⟨ht, hrest⟩ := List.cons.inj heq
  exact ⟨Subtype.ext ht, hrest⟩

theorem Determined.seq (hp : Determined p G) (hq : Determined q F) (hlead : Leads q F G) :
    Determined (p.seq q) F := by
  rintro ⟨d, e⟩ ⟨d', e'⟩ rest rest' heq hrest hrest'
  have heq' : d.yield ++ (e.yield ++ rest) = d'.yield ++ (e'.yield ++ rest') := by
    rw [← List.append_assoc, ← List.append_assoc]
    exact heq
  obtain ⟨rfl, htail⟩ := hp d d' _ _ heq' (hlead e rest hrest) (hlead e' rest' hrest')
  obtain ⟨rfl, rfl⟩ := hq e e' rest rest' htail hrest hrest'
  exact ⟨rfl, rfl⟩

theorem Determined.alt (hp : Determined p F) (hq : Determined q F) (hapart : Apart p q F) :
    Determined (p.alt q) F := by
  intro d d' rest rest' heq hrest hrest'
  cases d with
  | inl d =>
    cases d' with
    | inl d' =>
      obtain ⟨rfl, rfl⟩ := hp d d' rest rest' heq hrest hrest'
      exact ⟨rfl, rfl⟩
    | inr e' => exact (hapart d e' rest rest' heq hrest hrest').elim
  | inr e =>
    cases d' with
    | inl d' => exact (hapart d' e rest' rest heq.symm hrest' hrest).elim
    | inr e' =>
      obtain ⟨rfl, rfl⟩ := hq e e' rest rest' heq hrest hrest'
      exact ⟨rfl, rfl⟩

theorem Determined.many (hp : Determined p Any) (hnull : p.nullable = false) (hF : ∀ k ∈ p.starts, ¬ F k) :
    Determined p.many F := by
  have hstop {d : p.Tree} {rest rest' : List Token} (heq : d.yield ++ rest = rest') (hrest : F (next rest')) :
      False := hF _ (yield_opens hnull d rest).next_mem (heq ▸ hrest)
  intro ds
  induction ds with
  | nil =>
    intro ds' rest rest' heq hrest hrest'
    cases ds' with
    | nil => exact ⟨rfl, heq⟩
    | cons d' ds' => exact (hstop ((List.append_assoc _ _ _).symm.trans heq.symm) hrest).elim
  | cons d ds ih =>
    intro ds' rest rest' heq hrest hrest'
    cases ds' with
    | nil => exact (hstop ((List.append_assoc _ _ _).symm.trans heq) hrest').elim
    | cons d' ds' =>
      have heq' : d.yield ++ (Tree.yield (p := p.many) ds ++ rest) =
          d'.yield ++ (Tree.yield (p := p.many) ds' ++ rest') := by
        rw [← List.append_assoc, ← List.append_assoc]
        exact heq
      obtain ⟨rfl, htail⟩ := hp d d' _ _ heq' trivial trivial
      obtain ⟨rfl, rfl⟩ := ih ds' rest rest' htail hrest hrest'
      exact ⟨rfl, rfl⟩

theorem apart_of_starts (hp : p.nullable = false) (hq : q.nullable = false)
    (h : ∀ k ∈ p.starts, k ∉ q.starts) : Apart p q F := by
  intro d e rest rest' heq _ _
  have hd := (yield_opens hp d rest).next_mem
  rw [heq] at hd
  exact h _ hd (yield_opens hq e rest').next_mem

/-- Alternatives that start with different tokens. -/
theorem Determined.alt_of_starts (hp : Determined p F) (hq : Determined q F) (hpnull : p.nullable = false)
    (hqnull : q.nullable = false) (h : ∀ k ∈ p.starts, k ∉ q.starts) : Determined (p.alt q) F :=
  hp.alt hq (apart_of_starts hpnull hqnull h)

theorem Determined.opt (hp : Determined p F) (hnull : p.nullable = false) (hF : ∀ k ∈ p.starts, ¬ F k) :
    Determined p.opt F := by
  refine hp.alt determined_empty ?_
  intro d e rest rest' heq _ hrest'
  exact hF _ (yield_opens hnull d rest).next_mem (heq ▸ hrest')

end XdrSchema.Concrete
