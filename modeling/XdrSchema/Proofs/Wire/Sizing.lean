import Mathlib.Data.Set.Basic
import XdrSchema.Proofs.Chain
import XdrSchema.Proofs.Schema.Resolve
import XdrSchema.Proofs.Wire.Unbounded
import XdrSchema.Wire.Sizing

/-! Sizes by need are those of the table, whatever was asked before. A size that rests on definitions
that were met again has no greatest size, and that is right, for such a definition lies on a cycle;
its least size may be wrong only if it holds one of them directly, which no definition does of
itself. So a size that rests on its own definition alone is exact, and others are not kept. -/
namespace XdrSchema.Wire.Sizing

open Schema (Ty Definition)
open SizeTable (ofType ofPart ofDefinition ofSchema total askPart)

variable {s : Schema} {stack : List String} {α β : Type}

/-- The sizes that are kept are those of types, and the same as in the table. -/
def Exact (s : Schema) (st : Sizing) : Prop :=
  ∀ name z, st.settled.lookup name = some z → name ∈ s.typeNames ∧ z = (ofSchema s).get name

/-- A size that was found when the definitions in `again` were met again, in place of `w`. The least
size can be wrong only by those of them that are held directly. -/
structure Approximates (w : Size) (holds : String → Prop) (again : Set String) (z : Size) : Prop where
  proper : z.Proper
  exact : again = ∅ → z = w
  unbounded : again.Nonempty → z.max = none ∧ w.max = none
  least : Size.SameLeast z w ∨ ∃ r ∈ again, holds r

/-- A part holds a definition directly, or holds one that does. -/
def PartHolds (s : Schema) (x : Option Ty) (name : String) : Prop :=
  ∃ t, x = some t ∧ ∃ r, t.direct? = some r ∧ Relation.ReflTransGen s.Holds r.name name

theorem approximates_exact {w : Size} (hw : w.Proper) (holds : String → Prop) :
    Approximates w holds ∅ w :=
  ⟨hw, fun _ => rfl, fun h => absurd rfl h.ne_empty, .inl ⟨rfl, rfl⟩⟩

/-- The sizes of some parts, found when the definitions in `again` were met again. -/
structure ApproximatesAll (s : Schema) (parts : List (Option Ty)) (again : Set String)
    (zs : List Size) : Prop where
  length : zs.length = parts.length
  proper : ∀ z ∈ zs, z.Proper
  exact : again = ∅ → zs = parts.map (ofPart (ofSchema s).get)
  unbounded : again.Nonempty → (∃ z ∈ zs, z.max = none) ∧
    ∃ w ∈ parts.map (ofPart (ofSchema s).get), w.max = none
  least : List.Forall₂ Size.SameLeast zs (parts.map (ofPart (ofSchema s).get)) ∨
    ∃ r ∈ again, ∃ x ∈ parts, PartHolds s x r

/-- A step that ends well in any exact state, in one that is exact again. It meets only definitions in
progress again, and what was begun after them counts as tentative. -/
def Answers (s : Schema) (stack : List String) (x : Query α) (P : Set String → α → Prop) : Prop :=
  ∀ st, Exact s st → ∃ a st' again, Ends x st a st' ∧ Exact s st' ∧ again ⊆ {n | n ∈ stack} ∧
    (∀ n ∈ stack, (n ∈ st.tentative ∨ ∃ r ∈ again, n ∈ begunAfter stack r) → n ∈ st'.tentative) ∧
    P again a

theorem answers_pure {a : α} {P : Set String → α → Prop} (h : P ∅ a) : Answers s stack (pure a) P := by
  intro st hst
  refine ⟨a, st, ∅, ends_pure.mpr ⟨rfl, rfl⟩, hst, Set.empty_subset _, ?_, h⟩
  rintro n - (hn | ⟨r, hr, -⟩)
  · exact hn
  · cases hr

theorem answers_bind {x : Query α} {f : α → Query β} {P : Set String → α → Prop}
    {Q : Set String → β → Prop} (hx : Answers s stack x P)
    (hf : ∀ again a, P again a → Answers s stack (f a) fun more b => Q (again ∪ more) b) :
    Answers s stack (x >>= f) Q := by
  intro st hst
  obtain ⟨a, st₁, again, hends, hst₁, hstack, hbegun, ha⟩ := hx st hst
  obtain ⟨b, st₂, more, hends', hst₂, hstack', hbegun', hb⟩ := hf again a ha st₁ hst₁
  refine ⟨b, st₂, again ∪ more, ends_bind.mpr ⟨a, st₁, hends, hends'⟩, hst₂,
    Set.union_subset hstack hstack', ?_, hb⟩
  rintro n hn (htentative | ⟨r, hr | hr, hafter⟩)
  · exact hbegun' n hn (.inl (hbegun n hn (.inl htentative)))
  · exact hbegun' n hn (.inl (hbegun n hn (.inr ⟨r, hr, hafter⟩)))
  · exact hbegun' n hn (.inr ⟨r, hr, hafter⟩)

/-! ### Parts -/

theorem approximates_ofType (hs : s.WellFormed) {t : Ty} {r : Schema.Ref} (hr : t.target? = some r)
    {again : Set String} {z : Size}
    (h : Approximates ((ofSchema s).get r.name) (Relation.ReflTransGen s.Holds r.name) again z) :
    Approximates (ofType (ofSchema s).get t) (PartHolds s (some t)) again (ofType (fun _ => z) t) := by
  have hproper : ∀ name, ((ofSchema s).get name).Proper := SizeTable.proper_ofSchema hs
  refine ⟨SizeTable.proper_ofType (fun _ => h.proper) t, ?_, ?_, ?_⟩
  · intro hnone
    apply SizeTable.ofType_congr
    intro r' hr'
    cases hr.symm.trans hr'
    exact h.exact hnone
  · intro hsome
    obtain ⟨hz, hr'⟩ := h.unbounded hsome
    exact ⟨(SizeTable.ofType_max_eq_none_iff fun _ => h.proper).mpr (.inr ⟨r, hr, hz⟩),
      (SizeTable.ofType_max_eq_none_iff hproper).mpr (.inr ⟨r, hr, hr'⟩)⟩
  · have hsame (hleast : t.direct? = some r → Size.SameLeast z ((ofSchema s).get r.name)) :
        Size.SameLeast (ofType (fun _ => z) t) (ofType (ofSchema s).get t) := by
      refine SizeTable.sameLeast_ofPart (x := some t) (fun _ => h.proper) hproper ?_
      intro t' ht' r' hr'
      cases ht'
      cases hr.symm.trans (TypeExpr.target?_of_direct? hr')
      exact hleast hr'
    by_cases hdirect : t.direct? = some r
    · rcases h.least with hleast | ⟨n, hn, hholds⟩
      · exact .inl (hsame fun _ => hleast)
      · exact .inr ⟨n, hn, t, rfl, r, hdirect, hholds⟩
    · exact .inl (hsame fun h => absurd h hdirect)

theorem ApproximatesAll.cons {x : Option Ty} {rest : List (Option Ty)} {again more : Set String}
    {z : Size} {zs : List Size}
    (h : Approximates (ofPart (ofSchema s).get x) (PartHolds s x) again z)
    (hrest : ApproximatesAll s rest more zs) : ApproximatesAll s (x :: rest) (again ∪ more) (z :: zs) := by
  refine ⟨?_, ?_, ?_, ?_, ?_⟩
  · rw [List.length_cons, List.length_cons, hrest.length]
  · exact List.forall_mem_cons.mpr ⟨h.proper, hrest.proper⟩
  · intro hnone
    obtain ⟨hagain, hmore⟩ := Set.union_empty_iff.mp hnone
    rw [List.map_cons, h.exact hagain, hrest.exact hmore]
  · rintro ⟨r, hr | hr⟩
    · obtain ⟨hz, hw⟩ := h.unbounded ⟨r, hr⟩
      exact ⟨⟨z, List.mem_cons_self, hz⟩, _, List.mem_cons_self, hw⟩
    · obtain ⟨⟨y, hy, hnone⟩, w, hw, hwnone⟩ := hrest.unbounded ⟨r, hr⟩
      exact ⟨⟨y, List.mem_cons_of_mem _ hy, hnone⟩, w, List.mem_cons_of_mem _ hw, hwnone⟩
  · rcases h.least with hleast | ⟨r, hr, hholds⟩
    · rcases hrest.least with hleasts | ⟨r, hr, y, hy, hholds⟩
      · exact .inl (.cons hleast hleasts)
      · exact .inr ⟨r, .inr hr, y, List.mem_cons_of_mem _ hy, hholds⟩
    · exact .inr ⟨r, .inl hr, x, List.mem_cons_self, hholds⟩

/-- The parts of a definition are looked at one after another. -/
theorem answers_parts (hs : s.WellFormed) {named : String → Query Size} {parts : List (Option Ty)}
    (h : ∀ t, some t ∈ parts → ∀ r, t.target? = some r → Answers s stack (named r.name)
      (Approximates ((ofSchema s).get r.name) (Relation.ReflTransGen s.Holds r.name))) :
    Answers s stack (parts.mapM (askPart named)) (ApproximatesAll s parts) := by
  induction parts with
  | nil =>
    rw [List.mapM_nil]
    exact answers_pure ⟨rfl, nofun, fun _ => rfl, fun h => absurd rfl h.ne_empty, .inl .nil⟩
  | cons x rest ih =>
    have hproper : (ofPart (ofSchema s).get x).Proper :=
      SizeTable.proper_ofPart (SizeTable.proper_ofSchema hs) x
    have hfirst : Answers s stack (askPart named x)
        (Approximates (ofPart (ofSchema s).get x) (PartHolds s x)) := by
      cases x with
      | none => exact answers_pure (approximates_exact hproper _)
      | some t =>
        cases hr : t.target? with
        | none =>
          rw [askPart, SizeTable.ofType_eq_pure named hr (ofSchema s).get]
          exact answers_pure (approximates_exact hproper _)
        | some r =>
          rw [askPart, SizeTable.ofType_eq_map named hr, map_eq_pure_bind]
          refine answers_bind (h t List.mem_cons_self r hr) fun again z hz => answers_pure ?_
          rw [Set.union_empty]
          exact approximates_ofType hs hr hz
    rw [List.mapM_cons]
    refine answers_bind hfirst fun again z hz => ?_
    refine answers_bind (ih fun t ht => h t (List.mem_cons_of_mem _ ht)) fun more zs hzs => ?_
    apply answers_pure
    rw [Set.union_empty]
    exact ApproximatesAll.cons hz hzs

/-! ### Definitions -/

theorem not_holds_self (hs : s.WellFormed) {name inner : String} (h : s.Holds name inner)
    (hback : Relation.ReflTransGen s.Holds inner name) : False := by
  obtain ⟨rank, -, hrank⟩ := hs.ranked
  have hle : ∀ {outer inner}, Relation.ReflTransGen s.Holds outer inner → rank inner ≤ rank outer := by
    intro outer inner hreach
    induction hreach with
    | refl => exact Nat.le_refl _
    | tail _ hholds ih => exact Nat.le_trans (Nat.le_of_lt (hrank _ _ hholds)) ih
  exact Nat.lt_irrefl _ (Nat.lt_of_lt_of_le (hrank name inner h) (hle hback))

/-- A definition does not hold itself, so that meeting it again leaves its own size exact. -/
theorem approximates_total (hs : s.WellFormed) {name : String} {d : Definition}
    (hd : s.definition? name = some d) {again : Set String} {zs : List Size}
    (h : ApproximatesAll s d.parts again zs) :
    Approximates ((ofSchema s).get name) (Relation.ReflTransGen s.Holds name) (again \ {name})
      (total d zs) := by
  have hproper := hs.proper name d hd
  have hwhole : (ofSchema s).get name = total d (d.parts.map (ofPart (ofSchema s).get)) := by
    rw [SizeTable.get_ofSchema hs hd, SizeTable.ofDefinition_eq_total]
  have hparts : ∀ w ∈ d.parts.map (ofPart (ofSchema s).get), w.Proper :=
    SizeTable.proper_parts (SizeTable.proper_ofSchema hs)
  have hmax : again.Nonempty → (total d zs).max = none ∧ ((ofSchema s).get name).max = none := by
    intro hsome
    obtain ⟨hz, hw⟩ := h.unbounded hsome
    rw [hwhole]
    exact ⟨(SizeTable.total_max_eq_none_iff hproper h.length h.proper).mpr hz,
      (SizeTable.total_max_eq_none_iff hproper (List.length_map ..) hparts).mpr hw⟩
  have hleast : Size.SameLeast (total d zs) ((ofSchema s).get name) ∨
      ∃ r ∈ again \ {name}, Relation.ReflTransGen s.Holds name r := by
    rcases h.least with hleast | ⟨r, hr, x, hx, t, rfl, target, htarget, hholds⟩
    · left
      rw [hwhole]
      exact SizeTable.sameLeast_total hproper h.length h.proper hparts hleast
    · right
      have hfirst : s.Holds name target.name :=
        ⟨d, hd, t, Definition.mem_members_iff.mpr hx, target, htarget, rfl⟩
      refine ⟨r, ⟨hr, ?_⟩, hholds.head hfirst⟩
      rintro rfl
      exact not_holds_self hs hfirst hholds
  refine ⟨SizeTable.proper_total hproper h.length h.proper, ?_, ?_, hleast⟩
  · intro hnone
    by_cases hagain : again = ∅
    · rw [h.exact hagain, hwhole]
    · obtain ⟨hz, hw⟩ := hmax (Set.nonempty_iff_ne_empty.mpr hagain)
      rcases hleast with hleast | ⟨r, hr, -⟩
      · exact hleast.eq_of_max (hz.trans hw.symm)
      · rw [hnone] at hr
        cases hr
  · rintro ⟨r, hr, -⟩
    exact hmax ⟨r, hr⟩

theorem definition_eq_ok (hs : s.WellFormed) {name : String} {d : Definition}
    (hd : s.definition? name = some d) : definition s name = .ok d := by
  obtain ⟨x, hx, -⟩ := hs.symbol name d hd
  unfold definition
  rw [hx, hd]
  rfl

/-- What is begun last was begun after all else in progress. -/
theorem begunAfter_append {r : String} (hr : r ∈ stack) (rest : List String) :
    begunAfter (stack ++ rest) r = begunAfter stack r ++ rest := by
  unfold begunAfter
  induction stack with
  | nil => cases hr
  | cons n stack ih =>
    by_cases hn : n = r
    · simp [hn]
    · have hr' : r ∈ stack := (List.mem_cons.mp hr).resolve_left (Ne.symm hn)
      simpa [hn] using ih hr'

theorem ends_finish {name : String} {z : Size} {st st' : Sizing}
    (h : st' = if name ∈ st.tentative then { st with tentative := st.tentative.filter (· ≠ name) }
      else { st with settled := (name, z) :: st.settled }) : Ends (finish name z) st () st' :=
  ends_modify.mpr h

/-- A size is kept only if nothing else in progress was met again. -/
theorem answers_finish {name : String} (hname : name ∈ s.typeNames) (hnew : name ∉ stack)
    {x : Query Size}
    (hx : Answers s (stack ++ [name]) x fun again z =>
      Approximates ((ofSchema s).get name) (Relation.ReflTransGen s.Holds name) (again \ {name}) z) :
    Answers s stack (do let z ← x; finish name z; return z)
      (Approximates ((ofSchema s).get name) (Relation.ReflTransGen s.Holds name)) := by
  intro st hst
  obtain ⟨z, st₁, again, hends, hst₁, hsub, hbegun, happrox⟩ := hx st hst
  have hends' (st₂ : Sizing) (h : Ends (finish name z) st₁ () st₂) :
      Ends (do let z ← x; finish name z; return z) st z st₂ :=
    ends_bind.mpr ⟨z, st₁, hends, ends_bind.mpr ⟨(), st₂, h, ends_pure.mpr ⟨rfl, rfl⟩⟩⟩
  have hearlier : ∀ r ∈ again \ {name}, r ∈ stack := by
    rintro r ⟨hr, hne⟩
    exact (List.mem_append.mp (hsub hr)).resolve_right fun h => hne (List.mem_singleton.mp h)
  have hkept : ∀ n ∈ stack, (n ∈ st.tentative ∨ ∃ r ∈ again \ {name}, n ∈ begunAfter stack r) →
      n ∈ st₁.tentative := by
    rintro n hn (htentative | ⟨r, hr, hafter⟩)
    · exact hbegun n (List.mem_append_left _ hn) (.inl htentative)
    · refine hbegun n (List.mem_append_left _ hn) (.inr ⟨r, hr.1, ?_⟩)
      rw [begunAfter_append (hearlier r hr)]
      exact List.mem_append_left _ hafter
  by_cases htentative : name ∈ st₁.tentative
  · refine ⟨z, _, again \ {name}, hends' _ (ends_finish (if_pos htentative).symm), hst₁, hearlier, ?_,
      happrox⟩
    intro n hn h
    have hne : n ≠ name := by
      rintro rfl
      exact hnew hn
    exact List.mem_filter.mpr ⟨hkept n hn h, by simpa using hne⟩
  · have hnone : again \ {name} = ∅ := by
      refine Set.eq_empty_of_forall_notMem fun r hr => htentative ?_
      refine hbegun name (by simp) (.inr ⟨r, hr.1, ?_⟩)
      rw [begunAfter_append (hearlier r hr)]
      exact List.mem_append_right _ (List.mem_singleton_self name)
    refine ⟨z, _, again \ {name}, hends' _ (ends_finish (if_neg htentative).symm), ?_, hearlier, hkept,
      happrox⟩
    intro n w hn
    rw [List.lookup_cons] at hn
    split at hn
    · next heq =>
      cases hn
      obtain rfl : n = name := by simpa using heq
      exact ⟨hname, happrox.exact hnone⟩
    · exact hst₁ n w hn

/-- A size that is asked for while the definitions on the stack are in progress. -/
theorem answers_sizeOf (hs : s.WellFormed) (stack : List String) (name : String)
    (hname : name ∈ s.typeNames) (hstack : ∀ n ∈ stack, Relation.TransGen s.Mentions n name) :
    Answers s stack (sizeOf s stack name)
      (Approximates ((ofSchema s).get name) (Relation.ReflTransGen s.Holds name)) := by
  induction stack, name using sizeOf.induct s with
  | case1 stack name ih =>
    intro st hst
    rw [sizeOf]
    cases hlookup : st.settled.lookup name with
    | some z =>
      obtain ⟨-, rfl⟩ := hst name z hlookup
      refine ⟨_, st, ∅, ?_, hst, Set.empty_subset _, ?_,
        approximates_exact (SizeTable.proper_ofSchema hs name) _⟩
      · refine ends_bind.mpr ⟨st, st, ends_get.mpr ⟨rfl, rfl⟩, ?_⟩
        rw [hlookup]
        exact ends_pure.mpr ⟨rfl, rfl⟩
      · rintro n - (hn | ⟨r, hr, -⟩)
        · exact hn
        · cases hr
    | none =>
      by_cases hmem : name ∈ stack
      · have hopen : ((ofSchema s).get name).max = none :=
          (SizeTable.max_ofSchema_eq_none_iff hs hname).mpr ⟨name, .refl, .inr (hstack name hmem)⟩
        refine ⟨Size.unknown, { st with tentative := st.tentative ++ begunAfter stack name }, {name},
          ?_, hst, Set.singleton_subset_iff.mpr hmem, ?_, ?_⟩
        · refine ends_bind.mpr ⟨st, st, ends_get.mpr ⟨rfl, rfl⟩, ?_⟩
          simp only [hlookup, dif_pos hmem]
          exact ends_bind.mpr ⟨(), _, ends_modify.mpr rfl, ends_pure.mpr ⟨rfl, rfl⟩⟩
        · rintro n - (hn | ⟨r, rfl, hn⟩)
          · exact List.mem_append_left _ hn
          · exact List.mem_append_right _ hn
        · exact ⟨Size.proper_unknown, fun h => absurd h (Set.singleton_ne_empty name),
            fun _ => ⟨rfl, hopen⟩, .inr ⟨name, rfl, .refl⟩⟩
      · obtain ⟨d, hd⟩ := Schema.mem_typeNames_iff.mp hname
        have hok := definition_eq_ok hs hd
        have hinner : Answers s (stack ++ [name])
            (Size.ofDefinition (fun n => sizeOf s (stack ++ [name]) n) d) fun again z =>
              Approximates ((ofSchema s).get name) (Relation.ReflTransGen s.Holds name)
                (again \ {name}) z := by
          rw [SizeTable.ofDefinition_eq_map, map_eq_pure_bind]
          refine answers_bind (answers_parts hs fun t ht r hr => ?_) fun again zs hzs =>
            answers_pure (by rw [Set.union_empty]; exact approximates_total hs hd hzs)
          have hmentions : s.Mentions name r.name :=
            ⟨d, hd, t, Definition.mem_members_iff.mpr ht, r, hr, rfl⟩
          apply ih hmem d hok r.name (hs.mem_of_mentions hmentions)
          intro n hn
          rcases List.mem_append.mp hn with hn | hn
          · exact (hstack n hn).tail hmentions
          · obtain rfl := List.mem_singleton.mp hn
            exact .single hmentions
        obtain ⟨z, st', again, hends, hrest⟩ := answers_finish hname hmem hinner st hst
        refine ⟨z, st', again, ends_bind.mpr ⟨st, st, ends_get.mpr ⟨rfl, rfl⟩, ?_⟩, hrest⟩
        simp only [hlookup, dif_neg hmem]
        split
        · next e he => cases hok.symm.trans he
        · next d' hd' =>
          cases hok.symm.trans hd'
          exact hends

/-! ### Questions -/

theorem exact_empty (s : Schema) : Exact s empty := nofun

/-- What the answer to a question is, by the table. -/
def declared (s : Schema) (name : String) : Except NoSize Size :=
  (definition s name).map fun _ => (ofSchema s).get name

theorem run_get_bind (f : Sizing → Query α) (st : Sizing) :
    (get >>= f : Query α).run.run st = (f st).run.run st := rfl

theorem ask_eq (hs : s.WellFormed) (name : String) {known : Sizing} (h : Exact s known) :
    (ask s name known).1 = declared s name ∧ Exact s (ask s name known).2 := by
  by_cases hname : name ∈ s.typeNames
  · obtain ⟨z, st, again, hends, hst, hsub, -, happrox⟩ :=
      answers_sizeOf hs [] name hname nofun known h
    obtain ⟨d, hd⟩ := Schema.mem_typeNames_iff.mp hname
    have hnone : again = ∅ := Set.eq_empty_of_forall_notMem fun r hr => by cases hsub hr
    have hask : ask s name known = (.ok z, st) := hends
    rw [hask, declared, definition_eq_ok hs hd, happrox.exact hnone]
    exact ⟨rfl, hst⟩
  · have hlookup : known.settled.lookup name = none := by
      cases hlookup : known.settled.lookup name with
      | none => rfl
      | some z => exact absurd (h name z hlookup).1 hname
    cases hd : definition s name with
    | ok d => exact absurd (mem_typeNames_of_definition hd) hname
    | error e =>
      have hask : ask s name known = (.error e, known) := by
        rw [ask, sizeOf, run_get_bind]
        simp only [hlookup, List.not_mem_nil, dif_neg, not_false_iff]
        split
        · next e' he =>
          cases hd.symm.trans he
          rfl
        · next d hok => cases hd.symm.trans hok
      rw [hask, declared, hd]
      exact ⟨rfl, h⟩

theorem answers_eq (hs : s.WellFormed) (names : List String) {known : Sizing} (h : Exact s known) :
    answers s names known = names.map (declared s) := by
  induction names generalizing known with
  | nil => rfl
  | cons name rest ih =>
    obtain ⟨hanswer, hknown⟩ := ask_eq hs name h
    rw [List.map_cons, ← hanswer, ← ih hknown]
    rfl

theorem size?_eq (hs : s.WellFormed) (name : String) : size? s name = declared s name :=
  (ask_eq hs name (exact_empty s)).1

/-- Each answer is the one that a first question would get, and the declared one. -/
theorem answers_independent {source : String} (h : (Schema.analyzeText source).result = .ok s)
    (names : List String) :
    answers s names empty = names.map (size? s) ∧ SizeTable.Declares s (ofSchema s).get ∧
      ∀ name, size? s name = (definition s name).map fun _ => (ofSchema s).get name := by
  have hs := Schema.wellFormed_of_analyzeText h
  refine ⟨?_, SizeTable.declares_ofSchema hs, size?_eq hs⟩
  rw [answers_eq hs names (exact_empty s)]
  exact List.map_congr_left fun name _ => (size?_eq hs name).symm

/-- Names of types, of a constant and of nothing, one of them twice. -/
theorem answers_independent_sample :
    answers Schema.sampleSchema ["L", "N", "U", "Nothing", "L", "Blob"] empty =
        ["L", "N", "U", "Nothing", "L", "Blob"].map (size? Schema.sampleSchema) ∧
      SizeTable.Declares Schema.sampleSchema (ofSchema Schema.sampleSchema).get ∧
        ∀ name, size? Schema.sampleSchema name =
          (definition Schema.sampleSchema name).map fun _ => (ofSchema Schema.sampleSchema).get name :=
  answers_independent Schema.analyzeText_sampleText ["L", "N", "U", "Nothing", "L", "Blob"]

end XdrSchema.Wire.Sizing
