import XdrSchema.Proofs.Concrete.Derivation

/-! Where readers stop. The tokens before that place begin a yield of the pattern that the reader reads, and
nothing that goes on with the token there is read. Main statement: `stops_specification`. -/
namespace XdrSchema.Concrete

open Pattern Grammar

/-! ### Beginnings of yields -/

/-- Some yield of the pattern begins with these tokens. -/
def Begins (p : Pattern) (before : List Token) : Prop := ∃ (d : p.Tree) (more : List Token), d.yield = before ++ more

section Begins

variable {α : Type} {p q : Pattern} {before : List Token}

theorem nonempty_tree (p : Pattern) : Nonempty p.Tree := by
  induction p with
  | empty => exact ⟨()⟩
  | token terminal => exact ⟨⟨terminal, "", Span.point Position.start⟩, rfl⟩
  | seq p q ihp ihq => exact ihp.elim fun d => ihq.elim fun e => ⟨(d, e)⟩
  | alt p q ihp _ => exact ihp.elim fun d => ⟨.inl d⟩
  | many p _ => exact ⟨([] : List p.Tree)⟩

theorem begins_nil : Begins p [] := (nonempty_tree p).elim fun d => ⟨d, d.yield, rfl⟩

theorem begins_empty_iff : Begins .empty before ↔ before = [] := by
  constructor
  · rintro ⟨d, more, h⟩
    exact (List.append_eq_nil_iff.mp h.symm).1
  · rintro rfl
    exact begins_nil

theorem Begins.first (h : Begins p before) : Begins (p.seq q) before := by
  obtain ⟨d, more, h⟩ := h
  obtain ⟨e⟩ := nonempty_tree q
  refine ⟨(d, e), more ++ e.yield, ?_⟩
  rw [← List.append_assoc, ← h]
  rfl

theorem Begins.second (d : p.Tree) (h : Begins q before) : Begins (p.seq q) (d.yield ++ before) := by
  obtain ⟨e, more, h⟩ := h
  refine ⟨(d, e), more, ?_⟩
  rw [List.append_assoc, ← h]
  rfl

theorem Begins.inl (h : Begins p before) : Begins (p.alt q) before := h.imp' .inl fun _ h => h

theorem Begins.inr (h : Begins q before) : Begins (p.alt q) before := h.imp' .inr fun _ h => h

theorem Begins.item (h : Begins p before) : Begins p.many before := by
  obtain ⟨d, more, h⟩ := h
  exact ⟨([d] : List p.Tree), more, (List.append_nil _).trans h⟩

theorem Begins.others (d : p.Tree) (h : Begins p.many before) : Begins p.many (d.yield ++ before) := by
  obtain ⟨ds, more, h⟩ := h
  refine ⟨(d :: ds : List p.Tree), more, ?_⟩
  rw [List.append_assoc, ← h]
  rfl

theorem Begins.of_same {f : p.Tree → α} {g : q.Tree → α} (h : Begins q before) (hsame : Same f g) :
    Begins p before := by
  obtain ⟨e, more, h⟩ := h
  obtain ⟨d, hyield, -⟩ := hsame.2 e
  exact ⟨d, more, hyield.trans h⟩

end Begins

/-! ### Rows that go on alike -/

/-- Both start with the same terminal, or both are at their end. -/
def Alike (ts us : List Token) : Prop := ts.head?.map Token.terminal = us.head?.map Token.terminal

section Alike

variable {ts us : List Token}

theorem Alike.append (h : Alike ts us) (before : List Token) : Alike (before ++ ts) (before ++ us) := by
  cases before with
  | nil => exact h
  | cons t before => rfl

theorem Alike.next (h : Alike ts us) : next ts = next us := by
  have hnext (vs : List Token) : Concrete.next vs = (vs.head?.map Token.terminal).getD .endOfInput := by
    cases vs <;> rfl
  rw [hnext, hnext, h]

theorem Alike.opens {ks : List Terminal} (h : Alike ts us) : Opens ks ts ↔ Opens ks us := by
  have hopens (vs : List Token) : Opens ks vs ↔ ∃ k ∈ vs.head?.map Token.terminal, k ∈ ks := by
    cases vs <;> simp [Opens]
  rw [hopens, hopens, h]

end Alike

/-! ### Stopping -/

section Combinators

variable {α β : Type} {p q : Pattern} {G F : Terminal → Prop} {ts : List Token}

/-- Where `r` stops on the tokens `ts`, those before begin a yield of `p`, and with what comes there they have no
continuation that `r` reads. -/
def StopsAt (r : Reader α) (p : Pattern) (ts : List Token) : Prop :=
  ∀ s, r ts = .error s → ∃ before, ts = before ++ s.rest ∧ Begins p before ∧
    ∀ more, Alike more s.rest → ∀ a rest, r (before ++ more) ≠ .ok (a, rest)

def Stops (r : Reader α) (p : Pattern) : Prop := ∀ ts, StopsAt r p ts

theorem reader_bind_eq_error_iff {r : Reader α} {k : α → Reader β} {s : Stop} :
    (r >>= k) ts = .error s ↔ r ts = .error s ∨ ∃ a mid, r ts = .ok (a, mid) ∧ k a mid = .error s := by
  change (r ts >>= fun x => k x.1 x.2) = .error s ↔ _
  cases r ts with
  | error e =>
    constructor
    · intro h
      cases h
      exact .inl rfl
    · rintro (h | ⟨_, _, h, -⟩) <;> cases h
      rfl
  | ok x =>
    refine ⟨fun h => .inr ⟨x.1, x.2, rfl, h⟩, ?_⟩
    rintro (h | ⟨_, _, h, hk⟩)
    · cases h
    · cases h
      exact hk

theorem StopsAt.mono {r : Reader α} (h : StopsAt r p ts) (hbegins : ∀ before, Begins p before → Begins q before) :
    StopsAt r q ts := by
  intro s hs
  obtain ⟨before, hts, hbefore, hstuck⟩ := h s hs
  exact ⟨before, hts, hbegins before hbefore, hstuck⟩

theorem StopsAt.of_same {γ : Type} {r : Reader α} {f : p.Tree → γ} {g : q.Tree → γ} (h : StopsAt r q ts)
    (hsame : Same f g) : StopsAt r p ts := h.mono fun _ hbefore => hbefore.of_same hsame

/-- A reader that does what `r'` does on all that starts alike. -/
theorem StopsAt.of_eq {r r' : Reader α} (h : StopsAt r' p ts) (heq : ∀ us, Alike us ts → r us = r' us) :
    StopsAt r p ts := by
  intro s hs
  obtain ⟨before, rfl, hbefore, hstuck⟩ := h s ((heq ts rfl).symm.trans hs)
  refine ⟨before, rfl, hbefore, fun more hmore a rest => ?_⟩
  rw [heq _ (hmore.append before)]
  exact hstuck more hmore a rest

/-- A reader that stops at the first token. -/
theorem stopsAt_first {r : Reader α} (hrest : ∀ s, r ts = .error s → s.rest = ts)
    (hstuck : ∀ us, Alike us ts → ∀ a rest, r us ≠ .ok (a, rest)) : StopsAt r p ts := by
  intro s hs
  obtain rfl := hrest s hs
  exact ⟨[], rfl, begins_nil, hstuck⟩

/-- A reader that passes a token and does what `r'` does on the others. -/
theorem stopsAt_cons {r r' : Reader α} {t : Token} (heq : ∀ us, r (t :: us) = r' us) (h : StopsAt r' q ts)
    (hbegins : ∀ before, Begins q before → Begins p (t :: before)) : StopsAt r p (t :: ts) := by
  intro s hs
  obtain ⟨before, rfl, hbefore, hstuck⟩ := h s ((heq ts).symm.trans hs)
  refine ⟨t :: before, rfl, hbegins before hbefore, fun more hmore a rest => ?_⟩
  rw [List.cons_append, heq]
  exact hstuck more hmore a rest

/-! ### Single steps -/

theorem rest_of_require {ks : List Terminal} {k : Unit → Reader α} {s : Stop} (h : next ts ∉ ks)
    (hs : (Reader.require ks >>= k) ts = .error s) : s.rest = ts := by
  have hrequire : Reader.require ks ts = (if next ts ∈ ks then pure () else Reader.stop ks : Reader Unit) ts := by
    cases ts <;> rfl
  rw [if_neg h] at hrequire
  rcases reader_bind_eq_error_iff.mp hs with hs | ⟨_, _, hs, -⟩
  · cases hrequire.symm.trans hs
    rfl
  · cases hrequire.symm.trans hs

theorem rest_of_take {ks : List Terminal} {k : Token → Reader α} {s : Stop} (h : ¬ Opens ks ts)
    (hs : (Reader.take ks >>= k) ts = .error s) : s.rest = ts := by
  have htake : Reader.take ks ts = .error ⟨ks, ts⟩ := by
    cases ts with
    | nil => rfl
    | cons t ts =>
      change (if t.terminal ∈ ks then set ts >>= fun _ => pure t else Reader.stop ks : Reader Token) (t :: ts) = _
      rw [if_neg (show t.terminal ∉ ks from h)]
      rfl
  rcases reader_bind_eq_error_iff.mp hs with hs | ⟨_, _, hs, -⟩
  · cases htake.symm.trans hs
    rfl
  · cases htake.symm.trans hs

theorem stops_pure {a : α} : Stops (pure a) p := nofun

theorem stopsAt_require_bind {ks : List Terminal} {k : Unit → Reader α} (h : next ts ∈ ks → StopsAt (k ()) p ts) :
    StopsAt (Reader.require ks >>= k) p ts := by
  by_cases hts : next ts ∈ ks
  · exact (h hts).of_eq fun us hus => require_bind (hus.next ▸ hts)
  · exact stopsAt_first (fun s => rest_of_require hts) fun us hus => not_ok_of_require (hus.next ▸ hts)

theorem stops_require_bind {ks : List Terminal} {k : Unit → Reader α} (h : Stops (k ()) p) :
    Stops (Reader.require ks >>= k) p := fun ts => stopsAt_require_bind fun _ => h ts

theorem stops_require {ks : List Terminal} {a : α} : Stops (do Reader.require ks; pure a) p :=
  stops_require_bind stops_pure

theorem stopsAt_peek {k : Terminal → Reader α} (h : StopsAt (k (next ts)) p ts) :
    StopsAt (Reader.peek >>= k) p ts :=
  h.of_eq fun us hus => by rw [peek_bind, hus.next]

/-! ### Sequences -/

theorem Stops.bind {r : Reader α} {g : p.Tree → α} {k : α → Reader β} (hp : Stops r p) (hr : Reads r p g G)
    (hq : ∀ d, Stops (k (g d)) q) : Stops (r >>= k) (p.seq q) := by
  intro ts s hs
  rcases reader_bind_eq_error_iff.mp hs with hs | ⟨a, mid, hok, hs⟩
  · obtain ⟨before, rfl, hbefore, hstuck⟩ := hp ts s hs
    refine ⟨before, rfl, hbefore.first, fun more hmore b rest hb => ?_⟩
    obtain ⟨a, mid, ha, -⟩ := reader_bind_eq_ok_iff.mp hb
    exact hstuck more hmore a mid ha
  · obtain ⟨d, rfl, rfl, hmid⟩ := (hr ts a mid).mp hok
    obtain ⟨before, rfl, hbefore, hstuck⟩ := hq d mid s hs
    refine ⟨d.yield ++ before, (List.append_assoc _ _ _).symm, hbefore.second d, fun more hmore b rest hb => ?_⟩
    -- The reader reads the same tree before what follows now, as its next token is the one that came then.
    have hsame : r (d.yield ++ before ++ more) = .ok (g d, before ++ more) :=
      (hr _ _ _).mpr ⟨d, List.append_assoc _ _ _, rfl, (hmore.append before).next ▸ hmid⟩
    obtain ⟨a, mid, ha, hb⟩ := reader_bind_eq_ok_iff.mp hb
    cases hsame.symm.trans ha
    exact hstuck more hmore b rest hb

theorem Stops.map {r : Reader α} {f : α → β} (h : Stops r p) : Stops (r >>= fun a => pure (f a)) p := by
  intro ts s hs
  rcases reader_bind_eq_error_iff.mp hs with hs | ⟨_, _, -, hs⟩
  · obtain ⟨before, rfl, hbefore, hstuck⟩ := h ts s hs
    refine ⟨before, rfl, hbefore, fun more hmore b rest hb => ?_⟩
    obtain ⟨a, mid, ha, -⟩ := reader_bind_eq_ok_iff.mp hb
    exact hstuck more hmore a mid ha
  · cases hs

theorem Stops.bind_empty {r : Reader α} {g : p.Tree → α} {k : α → Reader β} (hp : Stops r p) (hr : Reads r p g G)
    (hk : ∀ d, Stops (k (g d)) .empty) : Stops (r >>= k) p := fun ts =>
  (hp.bind hr hk ts).of_same (same_seq_empty g)

/-! ### Alternatives -/

/-- On what the pattern can start with. -/
def StopsOpen (r : Reader α) (p : Pattern) : Prop := ∀ ts, Opens p.starts ts → StopsAt r p ts

theorem StopsOpen.alt {r : Reader α} (hp : StopsOpen r p) (hq : StopsOpen r q) : StopsOpen r (p.alt q) := by
  intro ts hts
  by_cases hopen : Opens p.starts ts
  · exact (hp ts hopen).mono fun _ => Begins.inl
  · refine (hq ts ?_).mono fun _ => Begins.inr
    cases ts with
    | nil => cases hts
    | cons t ts => exact (List.mem_append.mp hts).resolve_left hopen

theorem stopsOpen_take {ks : List Terminal} {terminal : Terminal} {k : Token → Reader α} (hmem : terminal ∈ ks)
    (h : ∀ d : (Pattern.token terminal).Tree, Stops (k d.val) q) :
    StopsOpen (Reader.take ks >>= k) ((Pattern.token terminal).seq q) := by
  intro ts hts
  cases ts with
  | nil => cases hts
  | cons t ts =>
    obtain rfl : t.terminal = terminal := List.mem_singleton.mp hts
    exact stopsAt_cons (fun us => take_bind hmem) (h ⟨t, rfl⟩ ts) fun _ hbefore =>
      hbefore.second (p := .token t.terminal) ⟨t, rfl⟩

theorem stopsOpen_token {ks : List Terminal} {terminal : Terminal} {k : Token → Reader α} (hmem : terminal ∈ ks)
    (h : ∀ d : (Pattern.token terminal).Tree, Stops (k d.val) .empty) :
    StopsOpen (Reader.take ks >>= k) (.token terminal) := fun ts hts =>
  (stopsOpen_take hmem h ts hts).of_same (same_seq_empty Tree.yield)

theorem StopsOpen.stops_take {ks : List Terminal} {k : Token → Reader α} (h : StopsOpen (Reader.take ks >>= k) p)
    (hks : ∀ terminal ∈ ks, terminal ∈ p.starts) : Stops (Reader.take ks >>= k) p := by
  intro ts
  by_cases hts : Opens p.starts ts
  · exact h ts hts
  · have hclosed : ¬ Opens ks ts := fun hopens => hts (hopens.mono hks)
    exact stopsAt_first (fun s => rest_of_take hclosed) fun us hus => not_ok_of_take (mt hus.opens.mp hclosed)

theorem stops_token (terminal : Terminal) : Stops (Reader.take [terminal]) (.token terminal) := by
  have htake : StopsOpen (Reader.take [terminal] >>= pure) (.token terminal) :=
    stopsOpen_token List.mem_cons_self fun _ => stops_pure
  have htoken := htake.stops_take fun _ h => h
  rwa [bind_pure] at htoken

/-! ### Lists -/

theorem itemsUpTo_open {continues : Reader Bool} {item : Reader α} (hcontinues : Continues continues p F) (n : Nat)
    (hts : Opens p.starts ts) : Reader.itemsUpTo continues item (n + 1) ts =
      (item >>= fun first => Reader.itemsUpTo continues item n >>= fun others => pure (first :: others)) ts := by
  rw [Reader.itemsUpTo]
  change (continues ts >>= fun x => (if x.1 then _ else _ : Reader (List α)) x.2) = _
  rw [(hcontinues ts).1 hts]
  rfl

/-- Where nothing opens an item, the list is at its end or stops. -/
theorem itemsUpTo_closed {continues : Reader Bool} {item : Reader α} (hcontinues : Continues continues p F)
    (hend : Stops continues .empty) {n : Nat} {s : Stop} (hts : ¬ Opens p.starts ts)
    (hs : Reader.itemsUpTo continues item (n + 1) ts = .error s) :
    s.rest = ts ∧ ∀ more, Alike more ts → ∀ go rest, continues more ≠ .ok (go, rest) := by
  rw [Reader.itemsUpTo] at hs
  rcases reader_bind_eq_error_iff.mp hs with hstop | ⟨go, mid, hgo, hstop⟩
  · obtain ⟨before, rfl, hbefore, hstuck⟩ := hend ts s hstop
    obtain rfl := begins_empty_iff.mp hbefore
    exact ⟨rfl, hstuck⟩
  · obtain ⟨rfl, -, -⟩ := ((hcontinues ts).2 hts go mid).mp hgo
    cases hstop

/-- The number of steps that are left plays no part, as long as there are more than tokens. -/
theorem itemsUpTo_stops {continues : Reader Bool} {item : Reader α} {f : p.Tree → α}
    (hcontinues : Continues continues p F) (hend : Stops continues .empty) (hr : Reads item p f G)
    (hitem : Stops item p) (hp : p.nullable = false) {n : Nat} (hn : ts.length < n) {s : Stop}
    (hs : Reader.itemsUpTo continues item n ts = .error s) : ∃ before, ts = before ++ s.rest ∧ Begins p.many before ∧
      ∀ more, Alike more s.rest → ∀ n, (before ++ more).length < n + 1 → ∀ as rest,
        Reader.itemsUpTo continues item (n + 1) (before ++ more) ≠ .ok (as, rest) := by
  induction n generalizing ts with
  | zero => omega
  | succ n ih =>
    by_cases hts : Opens p.starts ts
    · rw [itemsUpTo_open hcontinues n hts] at hs
      rcases reader_bind_eq_error_iff.mp hs with hs | ⟨a, mid, ha, hs⟩
      · obtain ⟨before, rfl, hbefore, hstuck⟩ := hitem ts s hs
        refine ⟨before, rfl, hbefore.item, fun more hmore n _ as rest hok => ?_⟩
        rw [itemsUpTo_open hcontinues n ((hmore.append before).opens.mpr hts)] at hok
        obtain ⟨a, mid, ha, -⟩ := reader_bind_eq_ok_iff.mp hok
        exact hstuck more hmore a mid ha
      · obtain ⟨d, rfl, rfl, hmid⟩ := (hr ts a mid).mp ha
        have hpos := yield_length_pos hp d
        have hothers : Reader.itemsUpTo continues item n mid = .error s :=
          (reader_bind_eq_error_iff.mp hs).resolve_right fun ⟨_, _, _, h⟩ => nomatch h
        obtain ⟨before, rfl, hbefore, hstuck⟩ := ih (by rw [List.length_append] at hn; omega) hothers
        refine ⟨d.yield ++ before, (List.append_assoc _ _ _).symm, hbefore.others d,
          fun more hmore m hm as rest hok => ?_⟩
        rw [List.append_assoc] at hok hm
        rw [itemsUpTo_open hcontinues m (((hmore.append before).append d.yield).opens.mpr hts)] at hok
        have hsame : item (d.yield ++ (before ++ more)) = .ok (f d, before ++ more) :=
          (hr _ _ _).mpr ⟨d, rfl, rfl, (hmore.append before).next ▸ hmid⟩
        obtain ⟨a, mid, ha, hok⟩ := reader_bind_eq_ok_iff.mp hok
        cases hsame.symm.trans ha
        obtain ⟨as, end', has, -⟩ := reader_bind_eq_ok_iff.mp hok
        rw [List.length_append] at hm
        obtain ⟨m, rfl⟩ := Nat.exists_eq_succ_of_ne_zero (show m ≠ 0 by omega)
        exact hstuck more hmore m (by omega) as end' has
    · obtain ⟨rfl, hstuck⟩ := itemsUpTo_closed hcontinues hend hts hs
      refine ⟨[], rfl, begins_nil, fun more hmore n _ as rest hok => ?_⟩
      rw [Reader.itemsUpTo] at hok
      obtain ⟨go, mid, hgo, -⟩ := reader_bind_eq_ok_iff.mp hok
      exact hstuck more hmore go mid hgo

theorem stops_items {continues : Reader Bool} {item : Reader α} {f : p.Tree → α}
    (hcontinues : Continues continues p F) (hend : Stops continues .empty) (hr : Reads item p f G)
    (hitem : Stops item p) (hp : p.nullable = false) : Stops (Reader.items continues item) p.many := by
  intro ts s hs
  obtain ⟨before, rfl, hbefore, hstuck⟩ :=
    itemsUpTo_stops hcontinues hend hr hitem hp (Nat.lt_succ_self _) (hs : Reader.itemsUpTo _ _ _ ts = _)
  exact ⟨before, rfl, hbefore, fun more hmore => hstuck more hmore _ (Nat.lt_succ_self _)⟩

/-- A list whose end is seen from the next token. -/
theorem stops_itemsPeek {ks : List Terminal} {c : Terminal → Bool} {item : Reader α} {f : p.Tree → α}
    (hr : Reads item p f G) (hitem : Stops item p) (hp : p.nullable = false)
    (hstarts : ∀ k ∈ p.starts, k ∈ ks ∧ c k) (hstop : ∀ k ∈ ks, k ∉ p.starts → c k = false)
    (hend : .endOfInput ∉ p.starts) :
    Stops (Reader.items (do Reader.require ks; return c (← Reader.peek)) item) p.many :=
  stops_items (continues_peek hstarts hstop hend)
    (stops_require_bind fun ts => stopsAt_peek (stops_pure ts)) hr hitem hp

end Combinators

/-! ### Values and types -/

theorem stops_mark (m : Mark) : Stops (Reader.mark m) (Grammar.mark m) := stops_token _

theorem stops_keyword (k : Keyword) : Stops (Reader.keyword k) (Grammar.keyword k) := stops_token _

theorem stops_word : Stops Reader.word Grammar.name := (stops_token _).map

theorem stops_value : Stops value Grammar.value :=
  ((stopsOpen_token (by decide) fun _ => stops_require).alt
    (stopsOpen_token (by decide) fun _ => stops_require)).stops_take (by decide)

theorem stops_valueAnd (close : Mark) : Stops (valueAnd close) (Grammar.value.seq (Grammar.mark close)) :=
  stops_value.bind reads_value fun _ => (stops_mark close).map

theorem stops_bound : Stops bound (Grammar.value.opt.seq (Grammar.mark .greater)) := by
  refine stops_require_bind fun ts => stopsAt_peek (StopsAt.of_same ?_ (same_opt_seq Tree.yield))
  by_cases hclose : next ts = .mark .greater
  · rw [if_pos hclose]
    exact ((stops_mark .greater).map ts).mono fun _ => .inr
  · rw [if_neg hclose]
    exact ((stops_valueAnd .greater).map ts).mono fun _ => .inl

theorem stops_unsigned (t : Token) :
    Stops (do let p ← unsignedWidth; Reader.require typeEnd; return (t, (.primitive p : Base String)))
      ((Grammar.keyword .int).alt ((Grammar.keyword .hyper).alt .empty)) := by
  rw [unsignedWidth, bind_assoc]
  refine stops_require_bind ?_
  rw [bind_assoc]
  refine fun ts => stopsAt_peek ?_
  split
  · simp only [bind_assoc, pure_bind]
    exact ((stops_keyword .int).bind_empty (reads_keyword .int) (fun _ => stops_require) ts).mono fun _ => .inl
  · simp only [bind_assoc, pure_bind]
    exact ((stops_keyword .hyper).bind_empty (reads_keyword .hyper) (fun _ => stops_require) ts).mono
      fun _ h => h.inl.inr
  · rw [pure_bind]
    exact stops_require ts

theorem begins_typed {t : Token} {b : Base String} (ht : t.terminal ∈ typeStart) (hb : baseFrom t = pure b) :
    Begins typeSpecifier [t] := by
  let x : Token := ⟨.name, "", t.span⟩
  have hread : typed (t :: [x]) = .ok ((t, b), [x]) := (typed_scalar ht hb).mpr ⟨rfl, rfl, List.mem_cons_self⟩
  obtain ⟨d, heq, -⟩ := exists_of_typed hread
  exact ⟨d, [], (List.append_cancel_right (heq : [t] ++ [x] = _)).symm⟩

theorem begins_unsigned {t : Token} (ht : t.terminal = .keyword .unsigned) {before : List Token}
    (h : Begins ((Grammar.keyword .int).alt ((Grammar.keyword .hyper).alt .empty)) before) :
    Begins typeSpecifier (t :: before) := by
  obtain ⟨d | d | d, more, h⟩ := h
  · exact ⟨.inr (.inl (.inl (⟨t, ht⟩, .inl d))), more, congrArg (t :: ·) h⟩
  · exact ⟨.inr (.inr (.inr (.inl (.inl (⟨t, ht⟩, d))))), more, congrArg (t :: ·) h⟩
  · exact ⟨.inr (.inl (.inl (⟨t, ht⟩, .inr ()))), more, congrArg (t :: ·) h⟩

theorem stops_typed : Stops typed typeSpecifier := by
  intro ts
  by_cases hts : Opens typeStart ts
  · cases ts with
    | nil => cases hts
    | cons t ts =>
      have ht : t.terminal ∈ typeStart := hts
      by_cases hunsigned : t.terminal = .keyword .unsigned
      · exact stopsAt_cons (fun _ => typed_unsigned hunsigned) (stops_unsigned t ts) fun _ => begins_unsigned hunsigned
      · have hscalar : ∃ b, baseFrom t = pure b := by
          unfold baseFrom
          split
          · next heq => exact (hunsigned heq).elim
          · exact ⟨_, rfl⟩
          · exact ⟨_, rfl⟩
        obtain ⟨b, hb⟩ := hscalar
        have heq (us : List Token) : typed (t :: us) = (do Reader.require typeEnd; pure (t, b) : Reader _) us := by
          rw [typed, take_bind ht, hb, pure_bind]
        refine stopsAt_cons (q := .empty) heq (stops_require ts) fun before hbefore => ?_
        rw [begins_empty_iff.mp hbefore]
        exact begins_typed ht hb
  · exact stopsAt_first (fun s => rest_of_take hts) fun us hus => not_ok_of_take (mt hus.opens.mp hts)

/-! ### Declarations -/

section Declarations

variable (first : Token) (name : Word)

theorem stops_declared (last : Token) (type : TypeExpr Value String) : Stops (declared first last name type) .empty :=
  stops_require

theorem stops_lengthSuffix (type : Value → TypeExpr Value String) :
    Stops (do
        let _ ← Reader.mark .openBracket
        let (n, close) ← valueAnd .closeBracket
        declared first close name (type n))
      lengthSuffix :=
  (stops_mark _).bind (reads_mark _) fun _ =>
    (stops_valueAnd .closeBracket).bind_empty (reads_valueAnd .closeBracket (by decide)) fun d =>
      stops_declared first name d.2.val _

theorem stops_boundSuffix (type : Option Value → TypeExpr Value String) :
    Stops (do
        let _ ← Reader.mark .less
        let (n, close) ← bound
        declared first close name (type n))
      boundSuffix :=
  (stops_mark _).bind (reads_mark _) fun _ =>
    stops_bound.bind_empty reads_bound fun d => stops_declared first name d.2.val _

theorem stops_stringFrom : Stops (stringFrom first) (Grammar.name.seq boundSuffix) :=
  stops_word.bind reads_word fun d => stops_boundSuffix first (wordOf d.val) _

theorem stops_bytesFrom : Stops (bytesFrom first) bytesDeclarator := by
  refine stops_word.bind reads_word fun d => StopsOpen.stops_take (.alt ?_ ?_) (by decide)
  · refine stopsOpen_take (by decide) fun t => ?_
    rw [if_pos t.property]
    exact stops_bound.bind_empty reads_bound fun e => stops_declared first (wordOf d.val) e.2.val _
  · refine stopsOpen_take (by decide) fun t => ?_
    rw [if_neg (by rw [t.property]; decide)]
    exact (stops_valueAnd .closeBracket).bind_empty (reads_valueAnd .closeBracket (by decide)) fun e =>
      stops_declared first (wordOf d.val) e.2.val _

theorem stops_itemTail (base : Base String) : Stops (itemTail first base) declarator := by
  refine StopsOpen.stops_take (.alt ?_ ?_) (by decide)
  · refine stopsOpen_take (by decide) fun t => ?_
    rw [if_pos t.property]
    exact (stops_token .name).bind_empty (reads_token .name) fun d => stops_declared first (wordOf d.val) d.val _
  · refine stopsOpen_take (by decide) fun t => ?_
    rw [if_neg (by rw [t.property]; decide)]
    refine stops_require_bind fun ts => stopsAt_peek ?_
    split
    · exact (stops_lengthSuffix first (wordOf t.val) (.array base) ts).mono fun _ => .inl
    · exact (stops_boundSuffix first (wordOf t.val) (.vector base) ts).mono fun _ h => h.inl.inr
    · exact (stops_declared first (wordOf t.val) t.val (.plain base) ts).mono fun _ h => h.inr.inr

theorem stops_declaration : Stops declaration Grammar.declaration := by
  have hany : StopsOpen declaration anyDeclaration := by
    refine .alt ?_ (.alt ?_ (.alt ?_ ?_))
    · refine stopsOpen_token (by decide) fun t => ?_
      rw [t.property]
      exact stops_require
    · refine stopsOpen_take (by decide) fun t => ?_
      rw [t.property]
      exact stops_bytesFrom t.val
    · refine stopsOpen_take (by decide) fun t => ?_
      rw [t.property]
      exact stops_stringFrom t.val
    · intro ts hts
      have htail (d : typeSpecifier.Tree) : Stops (itemTail (typeToken d) (baseOf d)) declarator := stops_itemTail _ _
      have hstart {us : List Token} (hus : Alike us ts) : Opens typeStart us :=
        (hus.opens.mpr hts).mono (by decide)
      have htyped : Stops (typed >>= fun x => itemTail x.1 x.2) (typeSpecifier.seq declarator) :=
        stops_typed.bind reads_typed htail
      exact (htyped ts).of_eq fun us hus => declaration_of_typed (hstart hus)
  exact fun ts => (hany.stops_take (by decide) ts).of_same same_anyDeclaration

end Declarations

/-! ### Definitions -/

theorem stops_field : Stops field Grammar.field :=
  stops_declaration.bind reads_declaration fun _ => (stops_mark .semicolon).map

theorem stops_fields : Stops fields Grammar.field.some :=
  stops_field.bind reads_field fun _ =>
    (stops_itemsPeek reads_field stops_field rfl (by decide) (by decide) (by decide)).map

theorem stops_member : Stops member enumMember :=
  stops_word.bind reads_word fun _ => (stops_mark .equals).bind (reads_mark .equals) fun _ => stops_value.map

theorem stops_labelValue : Stops labelValue (Grammar.value.seq (Grammar.mark .colon)) :=
  stops_value.bind reads_value fun _ => (stops_mark .colon).map

theorem stops_moreLabels : Stops moreLabels caseLabel.many := by
  have hreads : Reads (do let _ ← Reader.keyword .case; labelValue) caseLabel labelOf Any :=
    (reads_keyword .case).bind (fun _ => reads_labelValue) leads_any
  have hlabel : Stops (do let _ ← Reader.keyword .case; labelValue) caseLabel :=
    (stops_keyword .case).bind (reads_keyword .case) fun _ => stops_labelValue
  exact stops_itemsPeek hreads hlabel rfl (by decide) (by decide) (by decide)

theorem stops_arm : Stops arm Grammar.arm := by
  have hany : StopsOpen arm anyArm := by
    refine .alt ?_ ?_
    · refine stopsOpen_take (by decide) fun first => ?_
      rw [if_pos first.property]
      refine stops_labelValue.bind reads_labelValue fun _ => stops_moreLabels.bind reads_moreLabels fun _ => ?_
      exact stops_declaration.bind reads_declaration fun _ => (stops_mark .semicolon).map
    · refine stopsOpen_take (by decide) fun first => ?_
      rw [if_neg (by rw [first.property]; decide)]
      refine (stops_mark .colon).bind (reads_mark .colon) fun _ => ?_
      exact stops_declaration.bind reads_declaration fun _ => (stops_mark .semicolon).map
  exact fun ts => (hany.stops_take (by decide) ts).of_same same_anyArm

theorem stops_arms : Stops arms Grammar.arm.some :=
  stops_arm.bind reads_arm fun _ => (stops_itemsPeek reads_arm stops_arm rfl (by decide) (by decide) (by decide)).map

theorem stops_enumBody : Stops (do
      let _ ← Reader.mark .openBrace
      let ms ← members
      let _ ← Reader.mark .closeBrace
      return ms) enumBody := by
  have hreads : Reads (do let _ ← Reader.mark .comma; member) ((Grammar.mark .comma).seq enumMember)
      (fun d => memberOf d.2) (· ∈ valueEnd) :=
    (reads_mark .comma).bind (fun _ => reads_member) leads_any
  have hmember : Stops (do let _ ← Reader.mark .comma; member) ((Grammar.mark .comma).seq enumMember) :=
    (stops_mark .comma).bind (reads_mark .comma) fun _ => stops_member
  refine (stops_mark .openBrace).bind (reads_mark .openBrace) fun _ => ?_
  rw [members, bind_assoc]
  refine stops_member.bind reads_member fun _ => ?_
  rw [bind_assoc]
  refine (stops_itemsPeek hreads hmember rfl (by decide) (by decide) (by decide)).bind
    (reads_itemsPeek hreads rfl (by decide) (by decide) (by decide) (by decide)) fun _ => ?_
  rw [pure_bind]
  exact (stops_mark .closeBrace).map

theorem stops_structBody : Stops (do
      let _ ← Reader.mark .openBrace
      let ds ← fields
      let _ ← Reader.mark .closeBrace
      return ds) structBody :=
  (stops_mark .openBrace).bind (reads_mark .openBrace) fun _ =>
    stops_fields.bind reads_fields fun _ => (stops_mark .closeBrace).map

theorem stops_unionBody (name : Token) : Stops (do
      let _ ← Reader.keyword .switch
      let _ ← Reader.mark .openParen
      let switch ← declaration
      let _ ← Reader.mark .closeParen
      let _ ← Reader.mark .openBrace
      let arms ← arms
      let _ ← Reader.mark .closeBrace
      return Body.union (wordOf name) switch arms) unionBody := by
  refine (stops_keyword .switch).bind (reads_keyword .switch) fun _ => ?_
  refine (stops_mark .openParen).bind (reads_mark .openParen) fun _ => ?_
  refine stops_declaration.bind reads_declaration fun _ => ?_
  refine (stops_mark .closeParen).bind (reads_mark .closeParen) fun _ => ?_
  refine (stops_mark .openBrace).bind (reads_mark .openBrace) fun _ => ?_
  exact stops_arms.bind reads_arms fun _ => (stops_mark .closeBrace).map

theorem stops_ended {α : Type} {p : Pattern} {r : Reader α} {g : p.Tree → α} {F : Terminal → Prop} (hr : Reads r p g F)
    (h : Stops r p) (first : Token) (body : α → Body) :
    Stops (do
        let a ← r
        let last ← Reader.mark .semicolon
        return (⟨body a, first.span.cover last.span⟩ : Definition))
      (p.seq (Grammar.mark .semicolon)) :=
  h.bind hr fun _ => (stops_mark .semicolon).map

theorem stops_definition : Stops definition Grammar.definition := by
  refine StopsOpen.stops_take (.alt ?_ (.alt ?_ (.alt ?_ (.alt ?_ ?_)))) (by decide)
  all_goals
    refine stopsOpen_take (by decide) fun first => ?_
    rw [first.property]
    simp only [bodyOf, bind_assoc, pure_bind]
  · refine stops_word.bind reads_word fun name => (stops_mark .equals).bind (reads_mark .equals) fun _ => ?_
    exact stops_ended reads_value stops_value first.val (.const (wordOf name.val))
  · exact stops_ended reads_declaration stops_declaration first.val .typedef
  · refine stops_word.bind reads_word fun name => ?_
    have hbody := stops_ended reads_enumBody stops_enumBody first.val (.enum (wordOf name.val))
    simp only [bind_assoc, pure_bind] at hbody
    exact hbody
  · refine stops_word.bind reads_word fun name => ?_
    have hbody := stops_ended reads_structBody stops_structBody first.val (.struct (wordOf name.val))
    simp only [bind_assoc, pure_bind] at hbody
    exact hbody
  · refine stops_word.bind reads_word fun name => ?_
    have hbody := stops_ended (reads_unionBody name.val) (stops_unionBody name.val) first.val fun body => body
    simp only [bind_assoc, pure_bind] at hbody
    exact hbody

theorem stops_specification : Stops specification Grammar.specification :=
  stops_itemsPeek reads_definition stops_definition rfl (by decide) (by decide) (by decide)

end XdrSchema.Concrete
