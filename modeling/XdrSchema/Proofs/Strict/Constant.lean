import XdrSchema.Proofs.Strict.Table

/-! Strict evaluation of constants. The value of a name is computed once and kept; a name whose value is
not known is either in progress, which closes a cycle, or one whose definition says what it is. The truth
values are known from the start. Strict evaluation agrees with following each name to the end of its chain,
and afterwards the value of every constant is known. -/
namespace XdrSchema.Constant

open Schema (Table Work Follows follows_pure follows_raise)
open Schema.Work (raise breach settle)
open XdrSchema.Symbol (find?)

/-- Keeps the value of a name, whose definition is at `span`. -/
def keep (name : String) (span : Option Span) (n : Int) : Work Int :=
  if isSigned64 n then do
    settle name n
    return n
  else raise ⟨.notConstant name .wide, span⟩

/-- The value of a name. `fresh` are the symbols that are not in progress and `path` the names of those
that are. -/
def strictValueOf (symbols fresh : List Symbol) (path : List String) (name : String)
    (span : Option Span) : Work Int := do
  match find? symbols name with
  | none => raise ⟨.undefined name, span⟩
  | some s =>
    match s.kind with
    | .type k => raise ⟨.notConstant name (.names name (.type k)), span⟩
    | _ =>
      match (← get).values.lookup name with
      | some n => return n
      | none =>
        if _h : name ∈ fresh.map (·.name) then
          match s.meaning.value? with
          | none => breach (.assertion "the node of a value is a constant or a label")
          | some v =>
            let n ← match v with
              | .literal n _ _ => pure n
              | .constant next place =>
                strictValueOf symbols (fresh.eraseP (·.name = name)) (path ++ [name]) next (some place)
            keep name s.span n
        else if name ∈ path then raise ⟨.cyclic (cycleAt path name), span⟩
        else breach (.assertion "a name in progress is on the path")
termination_by fresh.length
decreasing_by exact length_eraseP_key_lt _h

def strictEvaluate (symbols : List Symbol) : Spec.Value → Work Int
  | .literal n _ _ => return n
  | .constant name span => strictValueOf symbols symbols [] name (some span)

/-- A bound has to be a number that a length word can hold. -/
def strictBound (symbols : List Symbol) (v : Spec.Value) : Work Nat := do
  let n ← strictEvaluate symbols v
  if isUnsigned32 n then return n.toNat
  else raise ⟨.notConstant v.text (.bound n), some v.span⟩

def strictCheckAll (symbols : List Symbol) : Work Unit :=
  symbols.forM fun s =>
    match s.kind with
    | .type _ => return ()
    | _ => do let _ ← strictValueOf symbols symbols [] s.name s.span

/-! ### Values that are known -/

/-- What a name is defined as has a value, given those that were known before. -/
def StandsFor (values : List (String × Int)) (n : Int) : Spec.Value → Prop
  | .literal k _ _ => k = n
  | .constant next _ => values.lookup next = some n

def Stands (values : List (String × Int)) (n : Int) : Meaning → Prop
  | .builtin k => k = n
  | .constant v | .label _ v => StandsFor values n v
  | .type .. => False

/-- Values that became known one after another. -/
inductive Evaluated (symbols : List Symbol) : List (String × Int) → Prop
  | nil : Evaluated symbols []
  | cons {name : String} {n : Int} {values : List (String × Int)} {s : Symbol}
      (find : find? symbols name = some s) (new : name ∉ values.map (·.1))
      (fits : isSigned64 n = true) (stands : Stands values n s.meaning)
      (rest : Evaluated symbols values) : Evaluated symbols ((name, n) :: values)

variable {symbols : List Symbol} {values : List (String × Int)}

theorem Evaluated.fits_of_lookup (h : Evaluated symbols values) {name : String} {n : Int}
    (hn : values.lookup name = some n) : isSigned64 n = true := by
  induction h with
  | nil => cases hn
  | cons find new fits stands rest ih =>
    rw [List.lookup_cons] at hn
    split at hn
    · cases hn
      exact fits
    · exact ih hn

/-- A name that is defined as a value is followed once. -/
theorem follow_eq_of_value? {fresh : List Symbol} {path : List String} {name : String}
    {span : Option Span} {s : Symbol} {v : Spec.Value} (hfind : find? symbols name = some s) :
    s.meaning.value? = some v → follow symbols fresh path name span =
      if name ∈ fresh.map (·.name) then
        match v with
        | .literal n _ _ =>
          if isSigned64 n then return n else throw ⟨.notConstant name .wide, s.span⟩
        | .constant next place =>
          follow symbols (fresh.eraseP (·.name = name)) (path ++ [name]) next (some place)
      else throw ⟨.cyclic (cycleAt path name), span⟩ := by
  intro hvalue
  obtain ⟨sname, sspan, meaning⟩ := s
  have hmem : name ∈ fresh.map (·.name) ↔ (fresh.find? (·.name = name)).isSome := by
    simp [List.find?_isSome]
  rw [follow, hfind]
  cases meaning with
  | builtin k | type k d => cases hvalue
  | constant w | label owner w =>
    cases hvalue
    dsimp only
    split
    · next hnone => rw [if_neg (by simp [hmem, hnone])]
    · next x hx =>
      rw [if_pos (by simp [hmem, hx])]
      cases v <;> rfl

theorem stands_iff {n : Int} {m : Meaning} :
    Stands values n m ↔ m = .builtin n ∨ ∃ v, m.value? = some v ∧ StandsFor values n v := by
  cases m <;> simp [Stands, Meaning.value?]

/-- Names other than the one that is begun stay fresh. -/
theorem mem_eraseP_of_new {fresh : List Symbol} {name : String} (hnew : name ∉ values.map (·.1))
    (hfresh : ∀ x ∈ values.map (·.1), x ∈ fresh.map (·.name)) :
    ∀ x ∈ values.map (·.1), x ∈ (fresh.eraseP (·.name = name)).map (·.name) := by
  intro x hx
  have hne : x ≠ name := by
    rintro rfl
    exact hnew hx
  rw [map_eraseP_key Symbol.name]
  exact (List.mem_erase_of_ne hne).mpr (hfresh x hx)

/-- What is known of a name is what it leads to, as long as nothing known is in progress. -/
theorem Evaluated.follow_eq (h : Evaluated symbols values) {fresh : List Symbol}
    (hfresh : ∀ x ∈ values.map (·.1), x ∈ fresh.map (·.name)) {path : List String} {name : String}
    {span : Option Span} {n : Int} (hn : values.lookup name = some n) :
    follow symbols fresh path name span = .ok n := by
  induction h generalizing fresh path name span n with
  | nil => cases hn
  | @cons other k values s find new fits stands rest ih =>
    rw [List.map_cons, List.forall_mem_cons] at hfresh
    rw [List.lookup_cons] at hn
    split at hn
    · next heq =>
      cases hn
      obtain rfl : name = other := by simpa using heq
      rcases stands_iff.mp stands with hbuiltin | ⟨v, hvalue, hv⟩
      · exact (follow_of_no_value? find (by rw [hbuiltin]; rfl)).mpr hbuiltin
      · rw [follow_eq_of_value? find hvalue, if_pos hfresh.1]
        cases v with
        | literal m text place =>
          obtain rfl : m = k := hv
          exact if_pos fits
        | constant next place => exact ih (mem_eraseP_of_new new hfresh.2) hv
    · exact ih hfresh.2 hn

/-! ### Strict evaluation -/

/-- A table between two steps of evaluation. Nothing that is known is in progress, and the truth values are
known. -/
structure Ready (symbols fresh : List Symbol) (t : Table) : Prop where
  evaluated : Evaluated symbols t.values
  fresh : ∀ x ∈ t.values.map (·.1), x ∈ fresh.map (·.name)
  builtins : ∀ name s n, find? symbols name = some s → s.meaning = .builtin n → name ∈ t.values.map (·.1)

/-- What evaluating a name adds to the table. -/
structure Adds (symbols fresh : List Symbol) (name : String) (t : Table) (n : Int) (t' : Table) : Prop where
  evaluated : Evaluated symbols t'.values
  suffix : t.values <:+ t'.values
  known : t'.values.lookup name = some n
  fresh : ∀ x ∈ t'.values.map (·.1), x ∈ t.values.map (·.1) ∨ x ∈ fresh.map (·.name)

theorem follow_of_type {fresh : List Symbol} {path : List String} {name : String} {span : Option Span}
    {s : Symbol} {k : TypeKind} (hfind : find? symbols name = some s) (hk : s.kind = .type k) :
    follow symbols fresh path name span = throw ⟨.notConstant name (.names name (.type k)), span⟩ := by
  obtain ⟨sname, sspan, meaning⟩ := s
  rw [follow, hfind]
  cases meaning <;> cases hk
  rfl

theorem meaning_of_not_type {s : Symbol} (hkind : ∀ k, s.kind ≠ .type k) :
    (∃ n, s.meaning = .builtin n) ∨ ∃ v, s.meaning.value? = some v := by
  obtain ⟨name, span, meaning⟩ := s
  cases meaning with
  | builtin n => exact .inl ⟨n, rfl⟩
  | constant v | label _ v => exact .inr ⟨v, rfl⟩
  | type k d => exact absurd rfl (hkind k)

/-- Once the definition of a name is evaluated, its value is kept. -/
theorem follows_keep {fresh : List Symbol} {name : String} {s : Symbol} {n : Int} {t t' : Table}
    (hfind : find? symbols name = some s) (hmem : name ∈ fresh.map (·.name))
    (hevaluated : Evaluated symbols t'.values) (hsuffix : t.values <:+ t'.values)
    (hold : ∀ x ∈ t'.values.map (·.1), x ∈ t.values.map (·.1) ∨ x ∈ fresh.map (·.name))
    (hnew : name ∉ t'.values.map (·.1)) (hfits : isSigned64 n = true)
    (hstands : Stands t'.values n s.meaning) :
    Follows t' (keep name s.span n) (pure n) (Adds symbols fresh name t) := by
  rw [keep, if_pos hfits]
  refine Schema.follows_settle ⟨.cons hfind hnew hfits hstands hevaluated,
    hsuffix.trans (List.suffix_cons _ _), by simp, ?_⟩
  rw [List.map_cons, List.forall_mem_cons]
  exact ⟨.inr hmem, hold⟩

/-- A value at hand. -/
theorem follows_literal {fresh : List Symbol} {name : String} {s : Symbol} {n : Int} {t : Table}
    (hfind : find? symbols name = some s) (hmem : name ∈ fresh.map (·.name))
    (hevaluated : Evaluated symbols t.values) (hnew : name ∉ t.values.map (·.1))
    (hstands : Stands t.values n s.meaning) :
    Follows t (keep name s.span n)
      (Schema.Resolve.lift (if isSigned64 n then return n else throw ⟨.notConstant name .wide, s.span⟩))
      (Adds symbols fresh name t) := by
  split
  · next hfits =>
    exact follows_keep hfind hmem hevaluated List.suffix_rfl (fun x hx => .inl hx) hnew hfits hstands
  · next hwide =>
    rw [keep, if_neg hwide]
    exact follows_raise trivial

/-- A name that leads to another has the value of that one. -/
theorem follows_next {fresh : List Symbol} (hdistinct : (fresh.map (·.name)).Nodup) {name next : String}
    {s : Symbol} {place : Span} {t : Table} (hfind : find? symbols name = some s)
    (hvalue : s.meaning.value? = some (.constant next place)) (hmem : name ∈ fresh.map (·.name))
    (hnew : name ∉ t.values.map (·.1)) {x' : Work Int} {x : Except SpecError Int}
    (hnext : Follows t x' (Schema.Resolve.lift x) (Adds symbols (fresh.eraseP (·.name = name)) next t)) :
    Follows t (x' >>= keep name s.span) (Schema.Resolve.lift x) (Adds symbols fresh name t) := by
  rw [← bind_pure (Schema.Resolve.lift x)]
  refine hnext.bind fun n t' hadds _ => ?_
  have hold : ∀ y ∈ t'.values.map (·.1), y ∈ t.values.map (·.1) ∨ y ∈ (fresh.map (·.name)).erase name :=
    fun y hy => map_eraseP_key Symbol.name fresh name ▸ hadds.fresh y hy
  exact follows_keep hfind hmem hadds.evaluated hadds.suffix
    (fun y hy => (hold y hy).imp_right List.mem_of_mem_erase)
    (fun hin => (hold name hin).elim hnew hdistinct.not_mem_erase)
    (hadds.evaluated.fits_of_lookup hadds.known) (stands_iff.mpr (.inr ⟨_, hvalue, hadds.known⟩))

theorem follows_valueOf (fresh : List Symbol) (hdistinct : (fresh.map (·.name)).Nodup)
    (path : List String) (name : String) (span : Option Span)
    (hplaced : ∀ s ∈ symbols, s.name ∈ fresh.map (·.name) ∨ s.name ∈ path) {t : Table}
    (ht : Ready symbols fresh t) :
    Follows t (strictValueOf symbols fresh path name span)
      (Schema.Resolve.lift (follow symbols fresh path name span)) (Adds symbols fresh name t) := by
  rw [strictValueOf]
  cases hfind : find? symbols name with
  | none =>
    rw [follow, hfind]
    exact follows_raise trivial
  | some s =>
    have hs := List.mem_of_find?_eq_some hfind
    have hname : s.name = name := by simpa using List.find?_some hfind
    dsimp only
    split
    · next k hk =>
      rw [follow_of_type hfind hk]
      exact follows_raise trivial
    · next hkind =>
      apply Schema.follows_get_bind
      cases hlookup : t.values.lookup name with
      | some n =>
        rw [ht.evaluated.follow_eq ht.fresh hlookup]
        exact follows_pure ⟨ht.evaluated, List.suffix_rfl, hlookup, fun x hx => .inl hx⟩
      | none =>
        have hunknown : name ∉ t.values.map (·.1) := by
          rw [← lookup_isSome_iff_mem, hlookup]
          exact Bool.false_ne_true
        dsimp only
        rcases meaning_of_not_type hkind with ⟨n, hn⟩ | ⟨v, hvalue⟩
        · exact absurd (ht.builtins name s n hfind hn) hunknown
        rw [follow_eq_of_value? hfind hvalue, hvalue]
        by_cases hmem : name ∈ fresh.map (·.name)
        · rw [dif_pos hmem, if_pos hmem]
          cases v with
          | literal n text place =>
            exact follows_literal hfind hmem ht.evaluated hunknown (stands_iff.mpr (.inr ⟨_, hvalue, rfl⟩))
          | constant next place =>
            have hready : Ready symbols (fresh.eraseP (·.name = name)) t :=
              ⟨ht.evaluated, mem_eraseP_of_new hunknown ht.fresh, ht.builtins⟩
            have hplaced' : ∀ x ∈ symbols, x.name ∈ (fresh.eraseP (·.name = name)).map (·.name) ∨
                x.name ∈ path ++ [name] := fun x hx => mem_eraseP_key_or_append (hplaced x hx)
            have hdistinct' := map_eraseP_key Symbol.name fresh name ▸ hdistinct.erase name
            exact follows_next hdistinct hfind hvalue hmem hunknown
              (follows_valueOf _ hdistinct' (path ++ [name]) next (some place) hplaced' hready)
        · rw [dif_neg hmem, if_neg hmem, if_pos ((hname ▸ hplaced s hs).resolve_left hmem)]
          exact follows_raise trivial
termination_by fresh.length
decreasing_by exact length_eraseP_key_lt hmem

/-! ### All constants -/

/-- The truth values, which are known from the start. -/
def builtinValues : List (String × Int) :=
  Symbol.builtins.filterMap fun s =>
    match s.meaning with
    | .builtin n => some (s.name, n)
    | _ => none

/-- Values of all names that stand for values. -/
structure Complete (symbols : List Symbol) (values : List (String × Int)) : Prop where
  evaluated : Evaluated symbols values
  all : ∀ s ∈ symbols, (∀ k, s.kind ≠ .type k) → s.name ∈ values.map (·.1)

theorem Evaluated.mem_symbols (h : Evaluated symbols values) :
    ∀ x ∈ values.map (·.1), x ∈ symbols.map (·.name) := by
  induction h with
  | nil => nofun
  | @cons name n values s find new fits stands rest ih =>
    have hname : s.name = name := by simpa using List.find?_some find
    rw [List.map_cons, List.forall_mem_cons]
    exact ⟨List.mem_map.mpr ⟨s, List.mem_of_find?_eq_some find, hname⟩, ih⟩

theorem ready_builtinValues (spec : Spec) (progress : Schema.Progress) :
    Ready (Symbol.ofSpec spec) (Symbol.ofSpec spec) ⟨builtinValues, progress⟩ := by
  have hevaluated : Evaluated (Symbol.ofSpec spec) builtinValues :=
    .cons (s := ⟨"TRUE", none, .builtin 1⟩) rfl (by decide) (by decide) rfl
      (.cons (s := ⟨"FALSE", none, .builtin 0⟩) rfl (by decide) (by decide) rfl .nil)
  refine ⟨hevaluated, hevaluated.mem_symbols, fun name s n hfind hn => ?_⟩
  have hname : s.name = name := by simpa using List.find?_some hfind
  subst hname
  rcases List.mem_append.mp (List.mem_of_find?_eq_some hfind) with hs | hs
  · simp only [Symbol.builtins, List.mem_cons, List.not_mem_nil, or_false] at hs
    rcases hs with rfl | rfl <;> simp [builtinValues, Symbol.builtins]
  · obtain ⟨⟨name, body, span, nameSpan⟩, -, hs⟩ := List.mem_flatMap.mp hs
    cases body <;> simp [Symbol.ofDefinition] at hs <;> rcases hs with rfl | ⟨m, -, rfl⟩ <;> cases hn

/-- Every value is computed that was not known before. -/
theorem follows_checkAll (hdistinct : (symbols.map (·.name)).Nodup) {t : Table}
    (ht : Ready symbols symbols t) :
    Follows t (strictCheckAll symbols) (Schema.Resolve.lift (checkAll symbols))
      fun _ t' => Complete symbols t'.values := by
  refine (Schema.follows_forM (I := Ready symbols symbols)
    (R := fun s t => (∀ k, s.kind ≠ .type k) → s.name ∈ t.values.map (·.1)) (fun s t ht => ?_) symbols
    ht).mono fun _ t' h => ⟨h.1.evaluated, h.2.1⟩
  cases hkind : s.kind with
  | type k => exact follows_pure ⟨ht, fun h => absurd rfl (h k), fun _ h => h⟩
  | constant | label =>
    dsimp only
    rw [Schema.lift_bind]
    refine (follows_valueOf symbols hdistinct [] s.name s.span
      (fun x hx => .inl (List.mem_map_of_mem hx)) ht).bind fun n t' hadds _ => follows_pure ?_
    have hkept := (hadds.suffix.map (·.1)).subset
    have hready : Ready symbols symbols t' := ⟨hadds.evaluated, hadds.evaluated.mem_symbols,
      fun name x n hx hn => hkept (ht.builtins name x n hx hn)⟩
    exact ⟨hready, fun _ => lookup_isSome_iff_mem.mp (by rw [hadds.known]; rfl),
      fun _ hx hkind => hkept (hx hkind)⟩

/-- When all values are known, evaluating finds nothing new. -/
theorem follows_valueOf_of_complete {t : Table} (ht : Complete symbols t.values) (name : String)
    (span : Option Span) :
    Follows t (strictValueOf symbols symbols [] name span)
      (Schema.Resolve.lift (valueOf symbols name span)) fun _ t' => t' = t := by
  rw [valueOf, strictValueOf]
  cases hfind : find? symbols name with
  | none =>
    rw [follow, hfind]
    exact follows_raise trivial
  | some s =>
    have hs := List.mem_of_find?_eq_some hfind
    have hname : s.name = name := by simpa using List.find?_some hfind
    dsimp only
    split
    · next k hk =>
      rw [follow_of_type hfind hk]
      exact follows_raise trivial
    · next hkind =>
      apply Schema.follows_get_bind
      obtain ⟨n, hn⟩ := Option.isSome_iff_exists.mp (lookup_isSome_iff_mem.mpr (hname ▸ ht.all s hs hkind))
      rw [hn, ht.evaluated.follow_eq ht.evaluated.mem_symbols hn]
      exact follows_pure rfl

theorem follows_evaluate {t : Table} (ht : Complete symbols t.values) (v : Spec.Value) :
    Follows t (strictEvaluate symbols v) (Schema.Resolve.lift (evaluate symbols v)) fun _ t' => t' = t := by
  cases v with
  | literal n text span => exact follows_pure rfl
  | constant name span => exact follows_valueOf_of_complete ht name (some span)

theorem follows_bound {t : Table} (ht : Complete symbols t.values) (v : Spec.Value) :
    Follows t (strictBound symbols v) (Schema.Resolve.lift (bound symbols v)) fun _ t' => t' = t := by
  unfold strictBound bound
  rw [Schema.lift_bind]
  refine (follows_evaluate ht v).bind fun n t' heq _ => ?_
  split
  · exact follows_pure heq
  · exact follows_raise trivial

/-! ### The constants of a module -/

/-- The constants that definitions introduce, with the values that are known of them. -/
def knownConstants (symbols : List Symbol) (values : List (String × Int)) : List (String × Int) :=
  symbols.filterMap fun s =>
    match s.meaning with
    | .constant _ => (values.lookup s.name).map fun n => (s.name, n)
    | _ => none

theorem Stands.cons {name : String} {n k : Int} {m : Meaning} (h : Stands values n m)
    (hnew : name ∉ values.map (·.1)) : Stands ((name, k) :: values) n m := by
  rcases stands_iff.mp h with hbuiltin | ⟨v, hvalue, hv⟩
  · exact stands_iff.mpr (.inl hbuiltin)
  · refine stands_iff.mpr (.inr ⟨v, hvalue, ?_⟩)
    cases v with
    | literal j text span => exact hv
    | constant next span =>
      have hne : next ≠ name := by
        rintro rfl
        exact hnew (lookup_isSome_iff_mem.mp (by rw [show values.lookup next = some n from hv]; rfl))
      change ((name, k) :: values).lookup next = some n
      rw [List.lookup_cons, beq_eq_false_iff_ne.mpr hne]
      exact hv

theorem Evaluated.stands (h : Evaluated symbols values) {name : String} {n : Int} {s : Symbol}
    (hfind : find? symbols name = some s) (hn : values.lookup name = some n) :
    Stands values n s.meaning := by
  induction h with
  | nil => cases hn
  | cons find new fits stands rest ih =>
    rw [List.lookup_cons] at hn
    split at hn
    · next heq =>
      cases hn
      rw [beq_iff_eq] at heq
      subst heq
      obtain rfl := Option.some.inj (find.symm.trans hfind)
      exact stands.cons new
    · exact (ih hn).cons new

theorem knownConstants_eq (hdistinct : (symbols.map (·.name)).Nodup) (h : Complete symbols values) :
    knownConstants symbols values = Symbol.constants symbols := by
  refine List.filterMap_congr fun s hs => ?_
  obtain ⟨name, span, meaning⟩ := s
  cases meaning with
  | constant v =>
    have hfind : find? symbols name = some ⟨name, span, .constant v⟩ :=
      (find?_eq_some_iff_of_nodup hdistinct).mpr ⟨hs, rfl⟩
    obtain ⟨n, hn⟩ := Option.isSome_iff_exists.mp (lookup_isSome_iff_mem.mpr (h.all _ hs nofun))
    have hv : StandsFor values n v := h.evaluated.stands hfind hn
    have heval : evaluate symbols v = .ok n := by
      cases v with
      | literal k text span => exact congrArg Except.ok hv
      | constant next span => exact h.evaluated.follow_eq h.evaluated.mem_symbols hv
    dsimp only at hn ⊢
    rw [hn, heval]
    rfl
  | _ => rfl

end XdrSchema.Constant
