import Mathlib.Data.Fintype.Card
import Mathlib.Data.Set.Finite.List
import Mathlib.Logic.Relation
import XdrSchema.Proofs.Wire.SizeTable

/-! What the settled table says. A type has no greatest size if and only if an item without a bound or a
cycle of references is reached from it; the least sizes are those that follow the direct references
down. -/
namespace XdrSchema

namespace Schema

/-- Following references, the one definition leads to the other. -/
def Reaches (s : Schema) : String → String → Prop := Relation.ReflTransGen s.Mentions

/-- References lead from the definition back to itself. -/
def Cyclic (s : Schema) (name : String) : Prop := Relation.TransGen s.Mentions name name

/-- A member of the definition has no bound. -/
def HasOpenMember (s : Schema) (name : String) : Prop :=
  ∃ d, s.definition? name = some d ∧ ∃ t ∈ d.members, t.isOpen = true

/-- An item without a bound or a cycle of references is reached from the name. -/
def Unbounded (s : Schema) (name : String) : Prop :=
  ∃ other, s.Reaches name other ∧ (s.HasOpenMember other ∨ s.Cyclic other)

theorem Holds.mentions {s : Schema} {outer inner : String} (h : s.Holds outer inner) :
    s.Mentions outer inner := by
  obtain ⟨d, hd, t, ht, r, hr, hname⟩ := h
  exact ⟨d, hd, t, ht, r, TypeExpr.target?_of_direct? hr, hname⟩

theorem Unbounded.of_mentions {s : Schema} {outer inner : String} (h : s.Mentions outer inner)
    (hinner : s.Unbounded inner) : s.Unbounded outer := by
  obtain ⟨other, hreach, hother⟩ := hinner
  exact ⟨other, hreach.head h, hother⟩

theorem WellFormed.mem_of_mentions {s : Schema} (hs : s.WellFormed) {outer inner : String}
    (h : s.Mentions outer inner) : inner ∈ s.typeNames := by
  obtain ⟨d, hd, t, ht, r, hr, rfl⟩ := h
  obtain ⟨e, he, -⟩ := (hs.resolved outer d hd t ht).target r hr
  exact mem_typeNames_iff.mpr ⟨e, he⟩

end Schema

namespace Wire.SizeTable

open Schema (Ty Definition)

variable {s : Schema} {name : String} {j : Nat} (hs : s.WellFormed)

include hs

theorem max_eq_none_of_cyclic (h : s.Cyclic name) : ((rounds s.types j).get name).max = none := by
  induction j generalizing name with
  | zero => rfl
  | succ j ih =>
    obtain ⟨next, hnext, hback⟩ := Relation.TransGen.head'_iff.mp h
    obtain ⟨d, hd, t, ht, r, hr, rfl⟩ := hnext
    have hcyclic : s.Cyclic r.name :=
      Relation.TransGen.tail' hback ⟨d, hd, t, ht, r, hr, rfl⟩
    rw [get_rounds_of_definition j hd,
      ofDefinition_max_eq_none_iff (hs.proper name d hd) (proper_rounds hs j)]
    exact ⟨t, ht, .inr ⟨r, hr, ih hcyclic⟩⟩

theorem max_eq_none_iff (hname : name ∈ s.typeNames) :
    ((ofSchema s).get name).max = none ↔
      s.HasOpenMember name ∨ ∃ r, s.Mentions name r ∧ ((ofSchema s).get r).max = none := by
  obtain ⟨d, hd⟩ := Schema.mem_typeNames_iff.mp hname
  rw [get_ofSchema hs hd, ofDefinition_max_eq_none_iff (hs.proper name d hd) (proper_ofSchema hs)]
  constructor
  · rintro ⟨t, ht, hopen | ⟨r, hr, hnone⟩⟩
    · exact .inl ⟨d, hd, t, ht, hopen⟩
    · exact .inr ⟨r.name, ⟨d, hd, t, ht, r, hr, rfl⟩, hnone⟩
  · rintro (⟨e, he, t, ht, hopen⟩ | ⟨_, ⟨e, he, t, ht, r, hr, rfl⟩, hnone⟩)
    · cases hd.symm.trans he
      exact ⟨t, ht, .inl hopen⟩
    · cases hd.symm.trans he
      exact ⟨t, ht, .inr ⟨r, hr, hnone⟩⟩

theorem max_eq_none_of_unbounded (h : s.Unbounded name) : ((ofSchema s).get name).max = none := by
  obtain ⟨other, hreach, hother⟩ := h
  induction hreach using Relation.ReflTransGen.head_induction_on with
  | refl =>
    rcases hother with ⟨d, hd, hopen⟩ | hcyclic
    · exact (max_eq_none_iff hs (Schema.mem_typeNames_iff.mpr ⟨d, hd⟩)).mpr (.inl ⟨d, hd, hopen⟩)
    · exact max_eq_none_of_cyclic hs hcyclic
  | head hmentions _ ih =>
    obtain ⟨d, hd, -⟩ := id hmentions
    exact (max_eq_none_iff hs (Schema.mem_typeNames_iff.mpr ⟨d, hd⟩)).mpr (.inr ⟨_, hmentions, ih⟩)

omit hs in
/-- Away from cycles, references lead down. -/
theorem wellFounded_bounded :
    WellFounded fun inner outer : {n // n ∈ s.typeNames ∧ ¬ s.Unbounded n} =>
      Relation.TransGen s.Mentions outer.1 inner.1 :=
  wellFounded_of_finite (s := {n | n ∈ s.typeNames ∧ ¬ s.Unbounded n})
    ((List.finite_toSet s.typeNames).subset fun _ h => h.1).to_subtype
    fun n hn hcyclic => hn.2 ⟨n, .refl, .inr hcyclic⟩

/-- A type has a greatest size if and only if nothing reached from it is open or cyclic. -/
theorem max_ofSchema_eq_none_iff (hname : name ∈ s.typeNames) :
    ((ofSchema s).get name).max = none ↔ s.Unbounded name := by
  constructor
  · intro hnone
    by_contra hbounded
    have hclaim : ∀ x : {n // n ∈ s.typeNames ∧ ¬ s.Unbounded n}, ((ofSchema s).get x.1).max ≠ none := by
      intro x
      induction x using (wellFounded_bounded (s := s)).induction with
      | _ x ih =>
        intro hx
        rcases (max_eq_none_iff hs x.2.1).mp hx with hopen | ⟨r, hmentions, hr⟩
        · exact x.2.2 ⟨x.1, .refl, .inl hopen⟩
        · have hbelow : r ∈ s.typeNames ∧ ¬ s.Unbounded r :=
            ⟨hs.mem_of_mentions hmentions, fun h => x.2.2 (h.of_mentions hmentions)⟩
          exact ih ⟨r, hbelow⟩ (.single hmentions) hr
    exact hclaim ⟨name, hname, hbounded⟩ hnone
  · exact max_eq_none_of_unbounded hs

/-! ### Least sizes -/

omit hs

open Classical in
/-- The least size of a definition, from those of the definitions that it holds directly. -/
noncomputable def least (s : Schema) (hw : WellFounded fun inner outer => s.Holds outer inner) :
    String → Size :=
  hw.fix fun name below =>
    match s.definition? name with
    | some d => ofDefinition (fun r => if h : s.Holds name r then below r h else Size.unknown) d
    | none => Size.unknown

theorem wellFounded_holds (hs : s.WellFormed) :
    WellFounded fun inner outer => s.Holds outer inner := by
  obtain ⟨rank, -, hrank⟩ := hs.ranked
  exact Subrelation.wf (fun h => hrank _ _ h) (measure rank).wf

open Classical in
theorem least_eq (hw : WellFounded fun inner outer => s.Holds outer inner) {d : Definition}
    (hd : s.definition? name = some d) :
    least s hw name = ofDefinition (fun r => if s.Holds name r then least s hw r else Size.unknown) d := by
  rw [least, hw.fix_eq, hd]
  rfl

theorem proper_least (hs : s.WellFormed) (hw : WellFounded fun inner outer => s.Holds outer inner)
    (name : String) : (least s hw name).Proper := by
  induction name using hw.induction with
  | _ name ih =>
    cases hd : s.definition? name with
    | none =>
      rw [least, hw.fix_eq, hd]
      exact Size.proper_unknown
    | some d =>
      rw [least_eq hw hd]
      apply proper_ofDefinition (hs.proper name d hd)
      intro r
      split
      · next h => exact ih r h
      · exact Size.proper_unknown

/-- The least sizes of the table are those. -/
theorem sameLeast_ofSchema (hs : s.WellFormed) (hw : WellFounded fun inner outer => s.Holds outer inner)
    (name : String) : Size.SameLeast ((ofSchema s).get name) (least s hw name) := by
  induction name using hw.induction with
  | _ name ih =>
    cases hd : s.definition? name with
    | none =>
      have hname : name ∉ s.typeNames := fun h => by
        obtain ⟨d, hd'⟩ := Schema.mem_typeNames_iff.mp h
        rw [hd] at hd'
        cases hd'
      rw [least, hw.fix_eq, hd, ofSchema, get_rounds_of_not_mem _ hname]
      exact ⟨rfl, rfl⟩
    | some d =>
      rw [least_eq hw hd, get_ofSchema hs hd]
      refine sameLeast_ofDefinition (hs.proper name d hd) (proper_ofSchema hs) ?_ ?_
      · intro r
        split
        · exact proper_least hs hw r
        · exact Size.proper_unknown
      · intro t ht r hr
        have hholds : s.Holds name r.name := ⟨d, hd, t, ht, r, hr, rfl⟩
        rw [if_pos hholds]
        exact ih r.name hholds

/-- The sizes of the types of a schema: those that follow from the sizes of the types referred to,
the least ones by way of direct references alone, without a greatest one where there is no bound. -/
structure Declares (s : Schema) (g : String → Size) : Prop where
  arithmetic : ∀ name d, s.definition? name = some d → g name = ofDefinition g d
  least : ∃ hw : WellFounded fun inner outer => s.Holds outer inner,
    ∀ name ∈ s.typeNames, Size.SameLeast (g name) (least s hw name)
  unbounded : ∀ name ∈ s.typeNames, (g name).max = none ↔ s.Unbounded name

theorem declares_ofSchema (hs : s.WellFormed) : Declares s (ofSchema s).get where
  arithmetic _ _ hd := get_ofSchema hs hd
  least := ⟨wellFounded_holds hs, fun name _ => sameLeast_ofSchema hs (wellFounded_holds hs) name⟩
  unbounded _ hname := max_ofSchema_eq_none_iff hs hname

/-- There are no other sizes like this. -/
theorem Declares.unique (hs : s.WellFormed) {f g : String → Size} (hf : Declares s f) (hg : Declares s g)
    (hname : name ∈ s.typeNames) : f name = g name := by
  by_cases hunbounded : s.Unbounded name
  · obtain ⟨_, hleast⟩ := hf.least
    obtain ⟨_, hleast'⟩ := hg.least
    have hmin := (hleast name hname).1.trans (hleast' name hname).1.symm
    have hfixed := (hleast name hname).2.trans (hleast' name hname).2.symm
    apply Size.SameLeast.eq_of_max ⟨hmin, hfixed⟩
    rw [(hf.unbounded name hname).mpr hunbounded, (hg.unbounded name hname).mpr hunbounded]
  · have hclaim : ∀ x : {n // n ∈ s.typeNames ∧ ¬ s.Unbounded n}, f x.1 = g x.1 := by
      intro x
      induction x using (wellFounded_bounded (s := s)).induction with
      | _ x ih =>
        obtain ⟨d, hd⟩ := Schema.mem_typeNames_iff.mp x.2.1
        rw [hf.arithmetic x.1 d hd, hg.arithmetic x.1 d hd]
        apply ofDefinition_congr
        intro t ht r hr
        have hmentions : s.Mentions x.1 r.name := ⟨d, hd, t, ht, r, hr, rfl⟩
        have hbelow : r.name ∈ s.typeNames ∧ ¬ s.Unbounded r.name :=
          ⟨hs.mem_of_mentions hmentions, fun h => x.2.2 (h.of_mentions hmentions)⟩
        exact ih ⟨r.name, hbelow⟩ (.single hmentions)
    exact hclaim ⟨name, hname, hunbounded⟩

end Wire.SizeTable

end XdrSchema
