import XdrSchema.Proofs.Chain
import XdrSchema.Proofs.Concrete.Reading
import XdrSchema.Spec.OfTree

/-! A specification that was read from a text is proper: the fields of a struct have distinct names,
an enumeration has a member, a union has an arm and every case arm has a label. -/
namespace XdrSchema.Spec

structure Union.Proper (u : Union) : Prop where
  arms : u.arms ≠ [] ∨ u.default.isSome
  labels : ∀ a ∈ u.arms, a.labels ≠ []

def Definition.Proper (d : Definition) : Prop :=
  match d.body with
  | .struct fields => (fields.map (·.name)).Nodup
  | .enum members => members ≠ []
  | .union u => u.Proper
  | _ => True

theorem fieldsOf_distinct {owner : String} {ds : List Concrete.Declaration} {seen : List String}
    {fields : List (Field Ty)} (h : fieldsOf owner seen ds = .ok fields) :
    (fields.map (·.name)).Nodup ∧ ∀ f ∈ fields, f.name ∉ seen := by
  induction ds generalizing seen fields with
  | nil => cases h; simp
  | cons d rest ih =>
    obtain ⟨p, -, h⟩ := bind_eq_ok_iff.mp h
    cases p with
    | void span => cases h
    | field f =>
      dsimp only at h
      split at h
      · cases h
      · next hseen =>
        obtain ⟨others, hothers, h⟩ := bind_eq_ok_iff.mp h
        cases h
        obtain ⟨hdistinct, hnew⟩ := ih hothers
        have hne : ∀ g ∈ others, g.name ≠ f.name :=
          fun g hg heq => hnew g hg (heq ▸ List.mem_cons_self)
        have hold : ∀ g ∈ others, g.name ∉ seen :=
          fun g hg hmem => hnew g hg (List.mem_cons_of_mem _ hmem)
        refine ⟨?_, by simpa using ⟨hseen, hold⟩⟩
        rw [List.map_cons, List.nodup_cons]
        exact ⟨by simpa using hne, hdistinct⟩

/-- Each arm comes from a case arm and has a label for each of its labels. -/
theorem armsOf_labelled {union : String} {arms : List Concrete.Arm} {default : Option Payload}
    {seen : List String} {result : List Arm × Option Payload}
    (hlabelled : ∀ a ∈ arms, a.Labelled) (h : armsOf union default seen arms = .ok result) :
    ∀ a ∈ result.1, a.labels ≠ [] := by
  induction arms generalizing default seen result with
  | nil => cases h; simp
  | cons a rest ih =>
    have hrest : ∀ a ∈ rest, a.Labelled := fun a ha => hlabelled a (List.mem_cons_of_mem _ ha)
    cases a with
    | case labels d span =>
      obtain ⟨values, hvalues, h⟩ := bind_eq_ok_iff.mp h
      obtain ⟨payload, -, h⟩ := bind_eq_ok_iff.mp h
      obtain ⟨seen', -, h⟩ := bind_eq_ok_iff.mp h
      obtain ⟨⟨others, default'⟩, hothers, h⟩ := bind_eq_ok_iff.mp h
      cases h
      have hne : labels ≠ [] := hlabelled _ List.mem_cons_self
      have hlength := (mapM_eq_ok_iff.mp hvalues).length_eq
      have hvne : values ≠ [] := by
        rintro rfl
        exact hne (List.length_eq_zero_iff.mp hlength)
      simpa using ⟨hvne, ih hrest hothers⟩
    | default d span =>
      dsimp only [armsOf] at h
      split at h
      · cases h
      · obtain ⟨payload, -, h⟩ := bind_eq_ok_iff.mp h
        obtain ⟨seen', -, h⟩ := bind_eq_ok_iff.mp h
        exact ih hrest h

theorem unionOf_proper {name : String} {switch : Concrete.Declaration} {arms : List Concrete.Arm}
    {span : Span} {u : Union} (hlabelled : ∀ a ∈ arms, a.Labelled)
    (h : unionOf name switch arms span = .ok u) : u.Proper := by
  obtain ⟨d, -, h⟩ := bind_eq_ok_iff.mp h
  obtain ⟨⟨as, default⟩, has, h⟩ := bind_eq_ok_iff.mp h
  dsimp only at h
  split at h
  · cases h
  · next hsome =>
    cases h
    refine ⟨?_, armsOf_labelled hlabelled has⟩
    simpa [Option.isSome_iff_ne_none, imp_iff_not_or] using hsome

theorem definitionOf_proper {c : Concrete.Definition} {d : Definition} (hc : c.Filled)
    (h : definitionOf c = .ok d) : d.Proper := by
  obtain ⟨body, span⟩ := c
  cases body with
  | const name v =>
    obtain ⟨v', -, h⟩ := bind_eq_ok_iff.mp h
    cases h
    trivial
  | typedef declaration =>
    obtain ⟨p, -, h⟩ := bind_eq_ok_iff.mp h
    cases p <;> cases h
    trivial
  | struct name fields =>
    obtain ⟨fs, hfs, h⟩ := bind_eq_ok_iff.mp h
    cases h
    exact (fieldsOf_distinct hfs).1
  | enum name members =>
    obtain ⟨ms, hms, h⟩ := bind_eq_ok_iff.mp h
    cases h
    have hlength := (mapM_eq_ok_iff.mp hms).length_eq
    rintro rfl
    exact hc (List.length_eq_zero_iff.mp hlength)
  | union name switch arms =>
    obtain ⟨u, hu, h⟩ := bind_eq_ok_iff.mp h
    cases h
    exact unionOf_proper hc.2 hu

theorem mapM_definitionOf_proper {tree : List Concrete.Definition} {ds : List Definition}
    (hfilled : ∀ c ∈ tree, c.Filled) (h : tree.mapM definitionOf = .ok ds) :
    ∀ d ∈ ds, d.Proper := by
  induction mapM_eq_ok_iff.mp h with
  | nil => simp
  | cons hd hrest ih =>
    rw [List.forall_mem_cons] at hfilled ⊢
    exact ⟨definitionOf_proper hfilled.1 hd, ih hfilled.2 (mapM_eq_ok_iff.mpr hrest)⟩

theorem ofTree_eq_ok_iff {tree : List Concrete.Definition} {spec : Spec} :
    ofTree tree = .ok spec ↔ tree.mapM definitionOf = .ok spec.definitions := by
  unfold ofTree
  rw [bind_eq_ok_iff]
  constructor
  · rintro ⟨ds, hds, h⟩
    cases h
    exact hds
  · intro h
    exact ⟨spec.definitions, h, rfl⟩

/-- Every definition of a specification that a text spells is proper. -/
theorem proper_of_parse {text : String} {spec : Spec} (h : parse text = .ok spec) :
    ∀ d ∈ spec.definitions, d.Proper := by
  obtain ⟨tree, htree, h⟩ := bind_eq_ok_iff.mp h
  exact mapM_definitionOf_proper (Concrete.filled_of_parse htree) (ofTree_eq_ok_iff.mp h)

end XdrSchema.Spec
