import XdrSchema.Proofs.Spec.Records

/-! The order of the definitions. Specifications with the same definitions in another order are well
formed alike. -/
namespace XdrSchema.Spec

open Schema (Selector)

variable {spec spec' : Spec}

/-- The same definitions, maybe at other places and in another order. -/
def Reorders (spec' spec : Spec) : Prop :=
  (spec'.definitions.map Definition.unplaced).Perm (spec.definitions.map Definition.unplaced)

namespace Reorders

theorem symm (h : Reorders spec' spec) : Reorders spec spec' := List.Perm.symm h

theorem exists_definition (h : Reorders spec' spec) {d : Definition} (hd : d ∈ spec.definitions) :
    ∃ d' ∈ spec'.definitions, d'.unplaced = d.unplaced :=
  List.mem_map.mp (h.mem_iff.mpr (List.mem_map_of_mem hd))

theorem shares (h : Reorders spec' spec) : Shares spec spec' fun _ => True where
  shared _ hd _ := h.exists_definition hd
  closed := fun _ _ _ _ _ _ _ _ => trivial

theorem names_perm (h : Reorders spec' spec) : spec'.names.Perm spec.names := by
  have hnames (spec : Spec) : spec.names = "TRUE" :: "FALSE" ::
      (spec.definitions.map Definition.unplaced).flatMap Definition.introduces := by
    simp only [names, List.flatMap_map, introduces_unplaced]
    rfl
  rw [hnames, hnames]
  exact ((h.flatMap_right _).cons _).cons _

variable (h : Reorders spec' spec)

include h

/-! ### Well formed alike -/

theorem denotes {name : String} {n : Int} (hn : spec.Denotes name n) : spec'.Denotes name n :=
  h.shares.denotes (fun _ _ _ => trivial) hn

theorem fits {t t' : Ty} (heq : Ty.unplaced t' = Ty.unplaced t) (ht : spec.Fits t) : spec'.Fits t' := by
  constructor
  · intro name hname
    have htarget : t.target? = some name := by
      rw [← hname, ← TypeExpr.target?_mapBound Value.unplaced t, ← TypeExpr.target?_mapBound Value.unplaced t']
      exact congrArg _ heq.symm
    exact h.shares.isType (fun _ _ _ => trivial) (ht.target name htarget)
  · intro v' hv'
    have hmap : t.bound?.map Value.unplaced = t'.bound?.map Value.unplaced := by
      rw [← TypeExpr.bound?_mapBound, ← TypeExpr.bound?_mapBound]
      exact congrArg _ heq.symm
    rw [Option.mem_def.mp hv', Option.map_some, Option.map_eq_some_iff] at hmap
    obtain ⟨v, hv, hunplaced⟩ := hmap
    obtain ⟨n, hn⟩ := ht.bound v hv
    exact ⟨n, h.shares.bounds hunplaced.symm (fun _ _ _ _ _ => trivial) hn⟩

theorem enumerates {members members' : List Member}
    (heq : members'.map Member.unplaced = members.map Member.unplaced) (hm : spec.Enumerates members) :
    spec'.Enumerates members' := by
  obtain ⟨values, hvalues, hfits, hnodup⟩ := hm
  refine ⟨values, ?_, hfits, hnodup⟩
  have hnames : members'.map (·.name) = members.map (·.name) := by
    have hname (members : List Member) :
        (members.map Member.unplaced).map (·.name) = members.map (·.name) := List.map_map
    rw [← hname, heq, hname]
  have hdenotes := List.forall₂_map_left_iff.mpr (hvalues.imp fun _ _ hn => h.denotes hn)
  rw [← hnames] at hdenotes
  exact List.forall₂_map_left_iff.mp hdenotes

theorem distinctCases (hdistinct : spec.names.Nodup) {selector : Selector} {labels labels' : List Value}
    (heq : labels'.map Value.unplaced = labels.map Value.unplaced)
    (hl : spec.DistinctCases selector labels) : spec'.DistinctCases selector labels' := by
  obtain ⟨values, hvalues, hbelongs, hnodup⟩ := hl
  refine ⟨values, ?_, fun n hn => ?_, hnodup⟩
  · have hunplaced (spec : Spec) (labels : List Value) :
        List.Forall₂ spec.Evaluates (labels.map Value.unplaced) values ↔
          List.Forall₂ spec.Evaluates labels values := by
      simp only [List.forall₂_map_left_iff, evaluates_unplaced]
    rw [← hunplaced, heq, hunplaced]
    exact hvalues.imp fun v n hn => h.shares.evaluates rfl (fun _ _ _ _ _ => trivial) hn
  · exact h.shares.belongs hdistinct (fun _ _ _ _ _ => trivial) (hbelongs n hn)

theorem switches (hdistinct : spec.names.Nodup) {u u' : Union} (heq : u'.unplaced = u.unplaced)
    (hu : spec.Switches u) : spec'.Switches u' := by
  obtain ⟨selector, hselects, hcases⟩ := hu
  have htype : u'.discriminant.type = u.discriminant.type := by
    obtain ⟨hdiscriminant, -⟩ := Union.mk.inj heq
    exact (Field.mk.inj hdiscriminant).2.1
  have hlabels : u'.labels.map Value.unplaced = u.labels.map Value.unplaced := by
    rw [← labels_unplaced, heq, labels_unplaced]
  refine ⟨selector, ?_, h.distinctCases hdistinct hlabels hcases⟩
  rw [htype]
  exact h.shares.selects hselects fun _ _ _ _ _ => trivial

theorem admits (hdistinct : spec.names.Nodup) {d d' : Definition} (heq : d'.unplaced = d.unplaced)
    (hd : spec.Admits d) : spec'.Admits d' := by
  have hbody := body_eq_of_unplaced heq
  constructor
  · intro t' ht'
    have hmem : Ty.unplaced t' ∈ d.body.types.map Ty.unplaced := by
      rw [← types_unplaced, ← hbody, types_unplaced]
      exact List.mem_map_of_mem ht'
    obtain ⟨t, ht, hunplaced⟩ := List.mem_map.mp hmem
    exact h.fits hunplaced.symm (hd.types t ht)
  · refine h.enumerates ?_ hd.members
    rw [← members_unplaced, hbody, members_unplaced]
  · intro u' hu'
    rw [hu'] at hbody
    obtain ⟨u, hu, hunplaced⟩ := exists_union_of_unplaced hbody.symm
    exact h.switches hdistinct hunplaced.symm (hd.cases u hu)

theorem holds {outer inner : String} (hholds : spec.Holds outer inner) : spec'.Holds outer inner := by
  obtain ⟨d, hd, rfl, t, ht, hdirect⟩ := hholds
  obtain ⟨d', hd', heq⟩ := h.exists_definition hd
  have hmem : Ty.unplaced t ∈ d'.body.types.map Ty.unplaced := by
    rw [← types_unplaced, body_eq_of_unplaced heq, types_unplaced]
    exact List.mem_map_of_mem ht
  obtain ⟨t', ht', hunplaced⟩ := List.mem_map.mp hmem
  refine ⟨d', hd', name_eq_of_unplaced heq, t', ht', ?_⟩
  rw [← hdirect, ← TypeExpr.direct?_mapBound Value.unplaced t', ← TypeExpr.direct?_mapBound Value.unplaced t]
  exact congrArg _ hunplaced

theorem wellFormed (hspec : spec.WellFormed) : spec'.WellFormed where
  distinct := h.names_perm.nodup_iff.mpr hspec.distinct
  constants name v hv := by
    obtain ⟨v', hv', -⟩ := h.symm.shares.assigns (fun _ _ _ => trivial) hv
    obtain ⟨n, hn⟩ := hspec.constants name v' hv'
    exact ⟨n, h.denotes hn⟩
  definitions d' hd' := by
    obtain ⟨d, hd, heq⟩ := h.symm.exists_definition hd'
    exact h.admits hspec.distinct heq.symm (hspec.definitions d hd)
  acyclic name hcyclic :=
    hspec.acyclic name (Relation.TransGen.mono (fun _ _ hholds => h.symm.holds hholds) _ _ hcyclic)

end Reorders

end XdrSchema.Spec
