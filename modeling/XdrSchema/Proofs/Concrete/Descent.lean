import XdrSchema.Concrete.Reader
import XdrSchema.Proofs.Concrete.Pattern

/-! Reading by descent against a pattern. A reader reads a pattern when it ends well exactly on the tokens
that start with a yield of the pattern, followed by what the reader asks for, and then returns the meaning
of that derivation and the rest. -/
namespace XdrSchema.Concrete

open Pattern

section Combinators

variable {α β : Type} {p q s : Pattern} {F G : Terminal → Prop} {ts : List Token}

/-- On the tokens `ts`, `r` returns what `f` makes of the derivation of `p` that they start with; what
comes after it is as `F` allows. -/
def ReadsAt (r : Reader α) (p : Pattern) (f : p.Tree → α) (F : Terminal → Prop) (ts : List Token) : Prop :=
  ∀ a rest, r ts = .ok (a, rest) ↔ ∃ d : p.Tree, ts = d.yield ++ rest ∧ f d = a ∧ F (next rest)

def Reads (r : Reader α) (p : Pattern) (f : p.Tree → α) (F : Terminal → Prop) : Prop :=
  ∀ ts, ReadsAt r p f F ts

theorem ReadsAt.of_eq {r r' : Reader α} {f : p.Tree → α} (h : ReadsAt r' p f F ts) (heq : r ts = r' ts) :
    ReadsAt r p f F ts := fun a rest => heq ▸ h a rest

theorem reader_bind_eq_ok_iff {r : Reader α} {k : α → Reader β} {b : β} {rest : List Token} :
    (r >>= k) ts = .ok (b, rest) ↔ ∃ a mid, r ts = .ok (a, mid) ∧ k a mid = .ok (b, rest) := by
  change (r ts >>= fun x => k x.1 x.2) = .ok (b, rest) ↔ _
  cases r ts with
  | error e =>
    constructor
    · intro h
      cases h
    · rintro ⟨_, _, h, -⟩
      cases h
  | ok x =>
    constructor
    · exact fun h => ⟨x.1, x.2, rfl, h⟩
    · rintro ⟨a, mid, h, hk⟩
      cases h
      exact hk

/-! ### Single steps -/

theorem require_bind {ks : List Terminal} {k : Unit → Reader β} (h : next ts ∈ ks) :
    (Reader.require ks >>= k) ts = k () ts := by
  have hrequire : Reader.require ks ts = (if next ts ∈ ks then pure () else Reader.stop ks : Reader Unit) ts := by
    cases ts <;> rfl
  rw [if_pos h] at hrequire
  change (Reader.require ks ts >>= fun x => k x.1 x.2) = _
  rw [hrequire]
  rfl

theorem not_ok_of_require {ks : List Terminal} {k : Unit → Reader β} (h : next ts ∉ ks) (b : β)
    (rest : List Token) : (Reader.require ks >>= k) ts ≠ .ok (b, rest) := by
  have hrequire : Reader.require ks ts = (if next ts ∈ ks then pure () else Reader.stop ks : Reader Unit) ts := by
    cases ts <;> rfl
  rw [if_neg h] at hrequire
  change (Reader.require ks ts >>= fun x => k x.1 x.2) ≠ _
  rw [hrequire]
  intro h
  cases h

theorem peek_bind {k : Terminal → Reader β} : (Reader.peek >>= k) ts = k (next ts) ts := by
  cases ts <;> rfl

theorem take_bind {ks : List Terminal} {k : Token → Reader β} {t : Token} (h : t.terminal ∈ ks) :
    (Reader.take ks >>= k) (t :: ts) = k t ts := by
  have htake : Reader.take ks (t :: ts) =
      (if t.terminal ∈ ks then set ts >>= fun _ => pure t else Reader.stop ks : Reader Token) (t :: ts) := rfl
  rw [if_pos h] at htake
  change (Reader.take ks (t :: ts) >>= fun x => k x.1 x.2) = _
  rw [htake]
  rfl

theorem not_ok_of_take {ks : List Terminal} {k : Token → Reader β} (h : ¬ Opens ks ts) (b : β)
    (rest : List Token) : (Reader.take ks >>= k) ts ≠ .ok (b, rest) := by
  cases ts with
  | nil =>
    intro h
    cases h
  | cons t ts =>
    have htake : Reader.take ks (t :: ts) =
      (if t.terminal ∈ ks then set ts >>= fun _ => pure t else Reader.stop ks : Reader Token) (t :: ts) := rfl
    rw [if_neg (show t.terminal ∉ ks from h)] at htake
    change (Reader.take ks (t :: ts) >>= fun x => k x.1 x.2) ≠ _
    rw [htake]
    intro h
    cases h

theorem require_take (ks : List Terminal) (k : Token → Reader β) :
    (Reader.require ks >>= fun _ => Reader.take ks >>= k) = Reader.take ks >>= k := by
  funext ts
  cases ts with
  | nil =>
    change ((if Terminal.endOfInput ∈ ks then pure () else Reader.stop ks : Reader Unit) >>= fun _ =>
      Reader.take ks >>= k) [] = _
    split <;> rfl
  | cons t ts =>
    by_cases ht : t.terminal ∈ ks
    · rw [require_bind ht]
    · have hrequire : Reader.require ks (t :: ts) = Reader.stop ks (t :: ts) := by
        change (if t.terminal ∈ ks then pure () else Reader.stop ks : Reader Unit) (t :: ts) = _
        rw [if_neg ht]
      have htake : Reader.take ks (t :: ts) = Reader.stop ks (t :: ts) := by
        change (if t.terminal ∈ ks then set ts >>= fun _ => pure t else Reader.stop ks : Reader Token) (t :: ts) = _
        rw [if_neg ht]
      change (Reader.require ks (t :: ts) >>= fun _ => _) = (Reader.take ks (t :: ts) >>= fun _ => _)
      rw [hrequire, htake]
      rfl

/-! ### Sequences -/

theorem reads_pure {a : α} {f : Pattern.empty.Tree → α} (ha : f () = a) : Reads (pure a) .empty f Any := by
  subst ha
  intro ts a rest
  constructor
  · intro h
    cases h
    exact ⟨(), rfl, rfl, trivial⟩
  · rintro ⟨d, rfl, rfl, -⟩
    rfl

theorem Reads.bind {r : Reader α} {g : p.Tree → α} {k : α → Reader β} {f : (p.seq q).Tree → β}
    (hp : Reads r p g G) (hq : ∀ d, Reads (k (g d)) q (fun e => f (d, e)) F) (hlead : Leads q F G) :
    Reads (r >>= k) (p.seq q) f F := by
  intro ts b rest
  rw [reader_bind_eq_ok_iff]
  constructor
  · rintro ⟨a, mid, hr, hk⟩
    obtain ⟨d, rfl, rfl, -⟩ := (hp ts a mid).mp hr
    obtain ⟨e, rfl, rfl, hrest⟩ := (hq d mid b rest).mp hk
    exact ⟨(d, e), (List.append_assoc _ _ _).symm, rfl, hrest⟩
  · rintro ⟨⟨d, e⟩, rfl, rfl, hrest⟩
    refine ⟨g d, e.yield ++ rest, (hp _ _ _).mpr ⟨d, List.append_assoc _ _ _, rfl, hlead e rest hrest⟩, ?_⟩
    exact (hq d _ _ _).mpr ⟨e, rfl, rfl, hrest⟩

theorem reads_require_bind {ks : List Terminal} {k : Unit → Reader α} {f : p.Tree → α}
    (h : Reads (k ()) p f F) (hlead : Leads p F (· ∈ ks)) : Reads (Reader.require ks >>= k) p f F := by
  intro ts a rest
  by_cases hts : next ts ∈ ks
  · rw [require_bind hts]
    exact h ts a rest
  · refine iff_of_false (not_ok_of_require hts a rest) ?_
    rintro ⟨d, rfl, -, hrest⟩
    exact hts (hlead d rest hrest)

theorem reads_require {ks : List Terminal} {a : α} {f : Pattern.empty.Tree → α} (ha : f () = a) :
    Reads (do Reader.require ks; pure a) .empty f (· ∈ ks) := by
  subst ha
  intro ts a rest
  by_cases hts : next ts ∈ ks
  · rw [require_bind hts]
    constructor
    · intro h
      cases h
      exact ⟨(), rfl, rfl, hts⟩
    · rintro ⟨d, rfl, rfl, -⟩
      rfl
  · refine iff_of_false (not_ok_of_require hts a rest) ?_
    rintro ⟨d, rfl, -, hrest⟩
    exact hts hrest

/-! ### Other patterns of the same meaning -/

/-- The derivations of both patterns have the same yields and meanings. -/
def Same (f : p.Tree → α) (g : q.Tree → α) : Prop :=
  (∀ d, ∃ e, Tree.yield e = d.yield ∧ g e = f d) ∧ ∀ e, ∃ d, d.yield = Tree.yield e ∧ f d = g e

theorem ReadsAt.of_same {r : Reader α} {f : p.Tree → α} {g : q.Tree → α} (h : ReadsAt r q g F ts)
    (hsame : Same f g) : ReadsAt r p f F ts := by
  intro a rest
  rw [h a rest]
  constructor
  · rintro ⟨e, rfl, rfl, hrest⟩
    obtain ⟨d, hyield, hmeaning⟩ := hsame.2 e
    exact ⟨d, by rw [hyield], hmeaning, hrest⟩
  · rintro ⟨d, rfl, rfl, hrest⟩
    obtain ⟨e, hyield, hmeaning⟩ := hsame.1 d
    exact ⟨e, by rw [hyield], hmeaning, hrest⟩

theorem Reads.of_same {r : Reader α} {f : p.Tree → α} {g : q.Tree → α} (h : Reads r q g F)
    (hsame : Same f g) : Reads r p f F := fun ts => (h ts).of_same hsame

theorem same_seq_empty (f : p.Tree → α) : Same (q := p.seq .empty) f (fun d => f d.1) :=
  ⟨fun d => ⟨(d, ()), List.append_nil _, rfl⟩, fun d => ⟨d.1, (List.append_nil _).symm, rfl⟩⟩

theorem Reads.map {r : Reader α} {g : p.Tree → α} {h : α → β} {f : p.Tree → β} (hp : Reads r p g F)
    (heq : ∀ d, h (g d) = f d) : Reads (r >>= fun a => pure (h a)) p f F := by
  intro ts b rest
  rw [reader_bind_eq_ok_iff]
  constructor
  · rintro ⟨a, mid, hr, hk⟩
    obtain ⟨d, rfl, rfl, hrest⟩ := (hp ts a mid).mp hr
    cases hk
    exact ⟨d, rfl, (heq d).symm, hrest⟩
  · rintro ⟨d, rfl, rfl, hrest⟩
    exact ⟨g d, rest, (hp _ _ _).mpr ⟨d, rfl, rfl, hrest⟩, by rw [heq]; rfl⟩

/-- What reads no more tokens may still ask for what follows. -/
theorem Reads.bind_empty {r : Reader α} {g : p.Tree → α} {k : α → Reader β} {f : p.Tree → β}
    (hp : Reads r p g Any) (hk : ∀ d, Reads (k (g d)) .empty (fun _ => f d) F) : Reads (r >>= k) p f F := by
  have hseq : Reads (r >>= k) (p.seq .empty) (fun d => f d.1) F := hp.bind hk leads_any
  exact hseq.of_same (same_seq_empty f)

/-! ### Alternatives -/

theorem readsAt_inl {r : Reader α} {f : (p.alt q).Tree → α} (h : ReadsAt r p (fun d => f (.inl d)) F ts)
    (hq : ∀ (e : q.Tree) rest, ts = e.yield ++ rest → ¬ F (next rest)) : ReadsAt r (p.alt q) f F ts := by
  intro a rest
  rw [h a rest]
  constructor
  · rintro ⟨d, hts, hd, hrest⟩
    exact ⟨.inl d, hts, hd, hrest⟩
  · rintro ⟨d | e, hts, hd, hrest⟩
    · exact ⟨d, hts, hd, hrest⟩
    · exact (hq e rest hts hrest).elim

theorem readsAt_inr {r : Reader α} {f : (p.alt q).Tree → α} (h : ReadsAt r q (fun e => f (.inr e)) F ts)
    (hp : ∀ (d : p.Tree) rest, ts = d.yield ++ rest → ¬ F (next rest)) : ReadsAt r (p.alt q) f F ts := by
  intro a rest
  rw [h a rest]
  constructor
  · rintro ⟨e, hts, he, hrest⟩
    exact ⟨.inr e, hts, he, hrest⟩
  · rintro ⟨d | e, hts, he, hrest⟩
    · exact (hp d rest hts hrest).elim
    · exact ⟨e, hts, he, hrest⟩

theorem not_follows (hp : p.nullable = false) (hts : ¬ Opens p.starts ts) (d : p.Tree) (rest : List Token)
    (heq : ts = d.yield ++ rest) : ¬ F (next rest) :=
  fun _ => hts (heq ▸ yield_opens hp d rest)

theorem not_follows_of_leads (h : Leads p F G) (hts : ¬ G (next ts)) (d : p.Tree) (rest : List Token)
    (heq : ts = d.yield ++ rest) : ¬ F (next rest) :=
  fun hrest => hts (heq ▸ h d rest hrest)

theorem Opens.disjoint {ks ls : List Terminal} (h : Opens ks ts) (hdisjoint : ∀ k ∈ ks, k ∉ ls) : ¬ Opens ls ts := by
  cases ts with
  | nil => cases h
  | cons t ts => exact hdisjoint _ h

/-- On what a pattern can start with. -/
def ReadsOpen (r : Reader α) (p : Pattern) (f : p.Tree → α) (F : Terminal → Prop) : Prop :=
  ∀ ts, Opens p.starts ts → ReadsAt r p f F ts

theorem ReadsOpen.alt {r : Reader α} {f : (p.alt q).Tree → α} (hp : ReadsOpen r p (fun d => f (.inl d)) F)
    (hq : ReadsOpen r q (fun e => f (.inr e)) F) (hpnull : p.nullable = false) (hqnull : q.nullable = false)
    (hdisjoint : ∀ k ∈ p.starts, k ∉ q.starts) : ReadsOpen r (p.alt q) f F := by
  intro ts hts
  by_cases hopen : Opens p.starts ts
  · exact readsAt_inl (hp ts hopen) (not_follows hqnull (hopen.disjoint hdisjoint))
  · have hq' : Opens q.starts ts := by
      cases ts with
      | nil => cases hts
      | cons t ts => exact (List.mem_append.mp hts).resolve_left hopen
    exact readsAt_inr (hq ts hq') (not_follows hpnull hopen)

theorem ReadsOpen.reads {r : Reader α} {f : p.Tree → α} (h : ReadsOpen r p f F) (hp : p.nullable = false)
    (hr : ∀ ts, ¬ Opens p.starts ts → ∀ a rest, r ts ≠ .ok (a, rest)) : Reads r p f F := by
  intro ts a rest
  by_cases hts : Opens p.starts ts
  · exact h ts hts a rest
  · refine iff_of_false (hr ts hts a rest) ?_
    rintro ⟨d, heq, -, hrest⟩
    exact not_follows hp hts d rest heq hrest

theorem readsOpen_take {ks : List Terminal} {terminal : Terminal} {k : Token → Reader α}
    {f : ((Pattern.token terminal).seq q).Tree → α} (hmem : terminal ∈ ks)
    (h : ∀ d, Reads (k d.val) q (fun e => f (d, e)) F) :
    ReadsOpen (Reader.take ks >>= k) ((Pattern.token terminal).seq q) f F := by
  intro ts hts
  cases ts with
  | nil => cases hts
  | cons t ts =>
    obtain rfl : t.terminal = terminal := List.mem_singleton.mp hts
    intro a rest
    rw [take_bind hmem, h ⟨t, rfl⟩ ts a rest]
    constructor
    · rintro ⟨e, rfl, rfl, hrest⟩
      exact ⟨(⟨t, rfl⟩, e), rfl, rfl, hrest⟩
    · rintro ⟨⟨⟨t', ht'⟩, e⟩, heq, rfl, hrest⟩
      obtain ⟨rfl, rfl⟩ := List.cons.inj heq
      exact ⟨e, rfl, rfl, hrest⟩

/-- The same where the token is all that the pattern has. -/
theorem readsOpen_token {ks : List Terminal} {terminal : Terminal} {k : Token → Reader α}
    {f : (Pattern.token terminal).Tree → α} (hmem : terminal ∈ ks)
    (h : ∀ d, Reads (k d.val) .empty (fun _ => f d) F) : ReadsOpen (Reader.take ks >>= k) (.token terminal) f F :=
  fun ts hts => (readsOpen_take hmem h ts hts).of_same (same_seq_empty f)

/-- The reader that takes a token and goes on with any of several. -/
theorem ReadsOpen.reads_take {ks : List Terminal} {k : Token → Reader α} {f : p.Tree → α}
    (h : ReadsOpen (Reader.take ks >>= k) p f F) (hp : p.nullable = false)
    (hks : ∀ terminal ∈ ks, terminal ∈ p.starts) : Reads (Reader.take ks >>= k) p f F :=
  h.reads hp fun _ hts => not_ok_of_take fun hopens => hts (hopens.mono hks)

theorem reads_token (terminal : Terminal) :
    Reads (Reader.take [terminal]) (.token terminal) (fun t => t.val) Any := by
  have htake : ReadsOpen (Reader.take [terminal] >>= pure) (.token terminal) (fun t => t.val) Any :=
    readsOpen_token List.mem_cons_self fun _ => reads_pure rfl
  have htoken := htake.reads_take rfl fun _ h => h
  rwa [bind_pure] at htoken

theorem readsAt_peek {k : Terminal → Reader α} {f : p.Tree → α} (h : ReadsAt (k (next ts)) p f F ts) :
    ReadsAt (Reader.peek >>= k) p f F ts := by
  intro a rest
  rw [peek_bind]
  exact h a rest

theorem same_opt_seq (f : (p.opt.seq q).Tree → α) : Same (q := (p.seq q).alt q) f
    (Sum.elim (fun d => f (.inl d.1, d.2)) (fun e => f (.inr (), e))) := by
  constructor
  · rintro ⟨d | u, e⟩
    · exact ⟨.inl (d, e), rfl, rfl⟩
    · exact ⟨.inr e, rfl, rfl⟩
  · rintro (⟨d, e⟩ | e)
    · exact ⟨(.inl d, e), rfl, rfl⟩
    · exact ⟨(.inr (), e), rfl, rfl⟩

/-! ### Lists -/

/-- Says whether another item follows, when it is an item or one of `S` that comes next. -/
def Continues (continues : Reader Bool) (p : Pattern) (S : Terminal → Prop) : Prop :=
  ∀ ts, (Opens p.starts ts → continues ts = .ok (true, ts)) ∧
    (¬ Opens p.starts ts → ∀ go rest, continues ts = .ok (go, rest) ↔ go = false ∧ rest = ts ∧ S (next ts))

theorem readsAt_itemsUpTo {continues : Reader Bool} {item : Reader α} {f : p.Tree → α}
    (hcontinues : Continues continues p F) (hitem : Reads item p f G) (hp : p.nullable = false)
    (hstarts : ∀ k ∈ p.starts, G k) (hF : ∀ k, F k → G k) (hdisjoint : ∀ k ∈ p.starts, ¬ F k)
    (n : Nat) (hn : ts.length < n) :
    ReadsAt (Reader.itemsUpTo continues item n) p.many (List.map f) F ts := by
  induction n generalizing ts with
  | zero => omega
  | succ n ih =>
    intro as rest
    rw [Reader.itemsUpTo, reader_bind_eq_ok_iff]
    by_cases hts : Opens p.starts ts
    · rw [(hcontinues ts).1 hts]
      constructor
      · rintro ⟨go, mid, hgo, h⟩
        cases hgo
        obtain ⟨a, mid, hr, h⟩ := reader_bind_eq_ok_iff.mp h
        obtain ⟨d, rfl, rfl, -⟩ := (hitem ts a mid).mp hr
        obtain ⟨as, end', has, h⟩ := reader_bind_eq_ok_iff.mp h
        cases h
        have hshorter : mid.length < n := by
          have := yield_length_pos hp d
          rw [List.length_append] at hn
          omega
        obtain ⟨ds, rfl, rfl, hrest⟩ := (ih hshorter as rest).mp has
        exact ⟨d :: ds, (List.append_assoc _ _ _).symm, rfl, hrest⟩
      · rintro ⟨ds, rfl, rfl, hrest⟩
        cases ds with
        | nil => exact (hdisjoint _ hts.next_mem hrest).elim
        | cons d ds =>
          have hassoc : Tree.yield (p := p.many) (d :: ds) ++ rest = d.yield ++ (Tree.yield (p := p.many) ds ++ rest) :=
            List.append_assoc _ _ _
          have hshorter : (Tree.yield (p := p.many) ds ++ rest).length < n := by
            have := yield_length_pos hp d
            rw [hassoc, List.length_append] at hn
            omega
          have hnext := leads_of_starts (p := p.many) hstarts hF ds rest hrest
          have hfirst := (hitem _ _ _).mpr ⟨d, hassoc, rfl, hnext⟩
          have hothers := (ih hshorter _ _).mpr ⟨ds, rfl, rfl, hrest⟩
          exact ⟨true, _, rfl, reader_bind_eq_ok_iff.mpr ⟨f d, _, hfirst,
            reader_bind_eq_ok_iff.mpr ⟨ds.map f, rest, hothers, rfl⟩⟩⟩
    · constructor
      · rintro ⟨go, mid, hgo, h⟩
        obtain ⟨rfl, rfl, hrest⟩ := (((hcontinues ts).2 hts) go mid).mp hgo
        cases h
        exact ⟨[], rfl, rfl, hrest⟩
      · rintro ⟨ds, rfl, rfl, hrest⟩
        cases ds with
        | nil => exact ⟨false, rest, (((hcontinues _).2 hts) _ _).mpr ⟨rfl, rfl, hrest⟩, rfl⟩
        | cons d ds =>
          refine (hts ?_).elim
          change Opens p.starts (d.yield ++ Tree.yield (p := p.many) ds ++ rest)
          rw [List.append_assoc]
          exact yield_opens hp d _

theorem reads_items {continues : Reader Bool} {item : Reader α} {f : p.Tree → α}
    (hcontinues : Continues continues p F) (hitem : Reads item p f G) (hp : p.nullable = false)
    (hstarts : ∀ k ∈ p.starts, G k) (hF : ∀ k, F k → G k) (hdisjoint : ∀ k ∈ p.starts, ¬ F k) :
    Reads (Reader.items continues item) p.many (List.map f) F := fun ts =>
  readsAt_itemsUpTo hcontinues hitem hp hstarts hF hdisjoint (ts.length + 1) (Nat.lt_succ_self _)

/-- Going on is decided by the next token, which is an item's first or one of those that end the list. -/
theorem continues_peek {ks : List Terminal} {c : Terminal → Bool} (hstarts : ∀ k ∈ p.starts, k ∈ ks ∧ c k)
    (hstop : ∀ k ∈ ks, k ∉ p.starts → c k = false) (hend : .endOfInput ∉ p.starts) :
    Continues (do Reader.require ks; return c (← Reader.peek)) p (fun k => k ∈ ks ∧ k ∉ p.starts) := by
  intro ts
  constructor
  · intro hopens
    obtain ⟨hks, hc⟩ := hstarts _ hopens.next_mem
    rw [require_bind hks, peek_bind, hc]
    rfl
  · intro hopens go rest
    have hnext : next ts ∉ p.starts := by
      cases ts with
      | nil => exact hend
      | cons t ts => exact hopens
    by_cases hks : next ts ∈ ks
    · rw [require_bind hks, peek_bind, hstop _ hks hnext]
      constructor
      · intro h
        cases h
        exact ⟨rfl, rfl, hks, hnext⟩
      · rintro ⟨rfl, rfl, -⟩
        rfl
    · exact iff_of_false (not_ok_of_require hks go rest) fun h => hks h.2.2.1

/-- A list whose end is seen from the next token. -/
theorem reads_itemsPeek {ks : List Terminal} {c : Terminal → Bool} {item : Reader α} {f : p.Tree → α}
    (hitem : Reads item p f G) (hp : p.nullable = false) (hG : ∀ k ∈ ks, G k)
    (hstarts : ∀ k ∈ p.starts, k ∈ ks ∧ c k) (hstop : ∀ k ∈ ks, k ∉ p.starts → c k = false)
    (hend : .endOfInput ∉ p.starts) :
    Reads (Reader.items (do Reader.require ks; return c (← Reader.peek)) item) p.many (List.map f)
      (fun k => k ∈ ks ∧ k ∉ p.starts) :=
  reads_items (continues_peek hstarts hstop hend) hitem hp (fun k hk => hG k (hstarts k hk).1)
    (fun k hk => hG k hk.1) (fun _ hk hstop => hstop.2 hk)

end Combinators

end XdrSchema.Concrete
