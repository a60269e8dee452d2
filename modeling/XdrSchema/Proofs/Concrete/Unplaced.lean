import XdrSchema.Proofs.Spec.Proper
import XdrSchema.Proofs.Spec.Reorder

/-! A concrete tree apart from where it is written. What it is checked for, and what is made of it, does
not depend on places, so that each definition makes its own part of a specification wherever it stands. -/
namespace XdrSchema

namespace Concrete

def Word.unplaced (w : Word) : Word := ⟨w.text, .nowhere⟩

def Value.unplaced : Value → Value
  | number w => number w.unplaced
  | reference w => reference w.unplaced

def Declaration.unplaced : Declaration → Declaration
  | void _ => void .nowhere
  | item name type _ => item name.unplaced (type.mapBound Value.unplaced) .nowhere

def Arm.unplaced : Arm → Arm
  | case labels d _ => case (labels.map Value.unplaced) d.unplaced .nowhere
  | default d _ => default d.unplaced .nowhere

def Body.unplaced : Body → Body
  | const name v => const name.unplaced v.unplaced
  | typedef d => typedef d.unplaced
  | struct name fields => struct name.unplaced (fields.map Declaration.unplaced)
  | enum name members => enum name.unplaced (members.map (Prod.map Word.unplaced Value.unplaced))
  | union name switch arms => union name.unplaced switch.unplaced (arms.map Arm.unplaced)

def Definition.unplaced (d : Definition) : Definition := ⟨d.body.unplaced, .nowhere⟩

/-- The same definitions, maybe at other places and in another order. -/
def Reorders (tree' tree : List Definition) : Prop :=
  (tree'.map Definition.unplaced).Perm (tree.map Definition.unplaced)

end Concrete

namespace Spec

/-! ### Checks that do not depend on places -/

/-- Both checks fail, or both succeed and `f` leads from the one result to the other. -/
def Alike {α β : Type} (f : α → β) (x : Checked α) (y : Checked β) : Prop := y.toOption = x.toOption.map f

variable {α β γ δ : Type} {f : α → β} {g : γ → δ} {x : Checked α} {y : Checked β}

theorem Alike.bind {k : α → Checked γ} {k' : β → Checked δ} (hx : Alike f x y)
    (hk : ∀ a, Alike g (k a) (k' (f a))) : Alike g (x >>= k) (y >>= k') := by
  cases x with
  | error e =>
    cases y with
    | error e' => rfl
    | ok b => cases hx
  | ok a =>
    cases y with
    | error e' => cases hx
    | ok b =>
      obtain rfl : b = f a := Option.some.inj hx
      exact hk a

theorem alike_ok {a : α} : Alike f (.ok a) (.ok (f a)) := rfl

theorem alike_error {e e' : SpecError} : Alike f (.error e) (.error e') := rfl

theorem alike_mapM {k : α → Checked γ} {k' : β → Checked δ} (hk : ∀ a, Alike g (k a) (k' (f a)))
    (as : List α) : Alike (List.map g) (as.mapM k) ((as.map f).mapM k') := by
  induction as with
  | nil =>
    rw [List.map_nil, List.mapM_nil, List.mapM_nil]
    exact alike_ok
  | cons a as ih =>
    rw [List.map_cons, List.mapM_cons, List.mapM_cons]
    exact (hk a).bind fun _ => ih.bind fun _ => alike_ok

theorem alike_valueOf (v : Concrete.Value) : Alike Value.unplaced (valueOf v) (valueOf v.unplaced) := by
  cases v with
  | number w =>
    unfold valueOf Concrete.Value.unplaced
    dsimp only [Concrete.Word.unplaced]
    cases Number.literal? w.text.toList with
    | some n => exact alike_ok
    | none => cases Number.excess? w.text.toList <;> exact alike_error
  | reference w => exact alike_ok

theorem alike_boundOf (v : Option Concrete.Value) :
    Alike (Option.map Value.unplaced) (boundOf v) (boundOf (v.map Concrete.Value.unplaced)) := by
  cases v with
  | none => exact alike_ok
  | some v => exact (alike_valueOf v).bind fun _ => alike_ok

theorem alike_typeOf (t : TypeExpr Concrete.Value String) :
    Alike Ty.unplaced (typeOf t) (typeOf (t.mapBound Concrete.Value.unplaced)) := by
  cases t with
  | plain b | optional b => exact alike_ok
  | array b n | fixedBytes n => exact (alike_valueOf n).bind fun _ => alike_ok
  | vector b n | bytes n | string n => exact (alike_boundOf n).bind fun _ => alike_ok

theorem alike_payloadOf (d : Concrete.Declaration) :
    Alike Payload.unplaced (payloadOf d) (payloadOf d.unplaced) := by
  cases d with
  | void span => exact alike_ok
  | item name type span => exact (alike_typeOf type).bind fun _ => alike_ok

theorem alike_fieldsOf (owner : String) (seen : List String) (ds : List Concrete.Declaration) :
    Alike (List.map (Field.unplaced Ty.unplaced)) (fieldsOf owner seen ds)
      (fieldsOf owner seen (ds.map Concrete.Declaration.unplaced)) := by
  induction ds generalizing seen with
  | nil => exact alike_ok
  | cons d rest ih =>
    refine (alike_payloadOf d).bind fun p => ?_
    cases p with
    | void span => exact alike_error
    | field f =>
      change Alike _ (if f.name ∈ seen then _ else _) (if f.name ∈ seen then _ else _)
      split
      · exact alike_error
      · exact (ih _).bind fun _ => alike_ok

theorem alike_memberOf (m : Concrete.Word × Concrete.Value) :
    Alike Member.unplaced (memberOf m) (memberOf (m.map Concrete.Word.unplaced Concrete.Value.unplaced)) :=
  (alike_valueOf m.2).bind fun _ => alike_ok

theorem alike_discriminantOf (union : String) (d : Concrete.Declaration) :
    Alike (Field.unplaced id) (discriminantOf union d) (discriminantOf union d.unplaced) := by
  cases d with
  | void span => exact alike_error
  | item name type span =>
    cases type with
    | plain b => exact alike_ok
    | _ => exact alike_error

theorem alike_checkArmName (union : String) (seen : List String) (p : Payload) :
    Alike id (checkArmName union seen p) (checkArmName union seen p.unplaced) := by
  cases p with
  | void span => exact alike_ok
  | field f =>
    change Alike _ (if f.name ∈ seen then _ else _) (if f.name ∈ seen then _ else _)
    split
    · exact alike_error
    · exact alike_ok

theorem alike_armsOf (union : String) (default : Option Payload) (seen : List String)
    (arms : List Concrete.Arm) :
    Alike (Prod.map (List.map Arm.unplaced) (Option.map Payload.unplaced)) (armsOf union default seen arms)
      (armsOf union (default.map Payload.unplaced) seen (arms.map Concrete.Arm.unplaced)) := by
  induction arms generalizing default seen with
  | nil => exact alike_ok
  | cons a rest ih =>
    cases a with
    | case labels d span =>
      exact (alike_mapM alike_valueOf labels).bind fun _ => (alike_payloadOf d).bind fun p =>
        (alike_checkArmName union seen p).bind fun seen => (ih default seen).bind fun _ => alike_ok
    | default d span =>
      change Alike _ (if default.isSome then _ else _) (if (default.map Payload.unplaced).isSome then _ else _)
      rw [Option.isSome_map]
      split
      · exact alike_error
      · exact (alike_payloadOf d).bind fun p => (alike_checkArmName union seen p).bind fun seen =>
          ih (some p) seen

theorem alike_unionOf (name : String) (switch : Concrete.Declaration) (arms : List Concrete.Arm)
    (span : Span) : Alike Union.unplaced (unionOf name switch arms span)
      (unionOf name switch.unplaced (arms.map Concrete.Arm.unplaced) .nowhere) := by
  refine (alike_discriminantOf name switch).bind fun d => (alike_armsOf name none [] arms).bind fun as => ?_
  obtain ⟨as, default⟩ := as
  change Alike _ (if as.isEmpty && default.isNone then _ else _)
    (if (as.map Arm.unplaced).isEmpty && (default.map Payload.unplaced).isNone then _ else _)
  rw [List.isEmpty_map, Option.isNone_map]
  split
  · exact alike_error
  · exact alike_ok

/-- What is made of a definition does not depend on places. -/
theorem alike_definitionOf (d : Concrete.Definition) :
    Alike Definition.unplaced (definitionOf d) (definitionOf d.unplaced) := by
  obtain ⟨body, span⟩ := d
  cases body with
  | const name v => exact (alike_valueOf v).bind fun _ => alike_ok
  | typedef declaration =>
    refine (alike_payloadOf declaration).bind fun p => ?_
    cases p with
    | void span => exact alike_error
    | field f => exact alike_ok
  | struct name fields => exact (alike_fieldsOf name.text [] fields).bind fun _ => alike_ok
  | enum name members => exact (alike_mapM alike_memberOf members).bind fun _ => alike_ok
  | union name switch arms => exact (alike_unionOf name.text switch arms span).bind fun _ => alike_ok

/-! ### Definitions in another order -/

/-- What a tree makes is, apart from places, what its definitions make one by one. -/
theorem map_unplaced_of_ofTree {tree : List Concrete.Definition} {spec : Spec} (h : ofTree tree = .ok spec) :
    spec.definitions.map Definition.unplaced =
      (tree.map Concrete.Definition.unplaced).filterMap fun c => (definitionOf c).toOption := by
  rw [ofTree_eq_ok_iff, mapM_eq_ok_iff] at h
  generalize spec.definitions = definitions at h ⊢
  induction h with
  | nil => rfl
  | @cons c d tree ds hd _ ih =>
    have hunplaced : (definitionOf c.unplaced).toOption = some d.unplaced := by
      rw [show (definitionOf c.unplaced).toOption = _ from alike_definitionOf c, hd]
      rfl
    rw [List.map_cons, List.map_cons, List.filterMap_cons, hunplaced, ih]

theorem exists_ofTree_iff {tree : List Concrete.Definition} : (∃ spec, ofTree tree = .ok spec) ↔
    ∀ c ∈ tree.map Concrete.Definition.unplaced, (definitionOf c).toOption.isSome := by
  have hsome (c : Concrete.Definition) :
      (definitionOf c.unplaced).toOption.isSome ↔ ∃ d, definitionOf c = .ok d := by
    rw [show (definitionOf c.unplaced).toOption = _ from alike_definitionOf c, Option.isSome_map,
      Option.isSome_iff_exists]
    simp only [toOption_eq_some_iff]
  rw [List.forall_mem_map]
  simp only [hsome, ← exists_mapM_eq_ok_iff, ofTree_eq_ok_iff]
  exact ⟨fun ⟨spec, h⟩ => ⟨_, h⟩, fun ⟨ds, h⟩ => ⟨⟨ds⟩, h⟩⟩

variable {tree tree' : List Concrete.Definition} (h : Concrete.Reorders tree' tree)

include h

/-- In every order the same definitions are sound by themselves. -/
theorem exists_ofTree_of_reorders : (∃ spec, ofTree tree' = .ok spec) ↔ ∃ spec, ofTree tree = .ok spec := by
  rw [exists_ofTree_iff, exists_ofTree_iff]
  exact forall_congr' fun c => imp_congr_left h.mem_iff

theorem reorders_of_ofTree {spec spec' : Spec} (hspec : ofTree tree = .ok spec)
    (hspec' : ofTree tree' = .ok spec') : Reorders spec' spec := by
  rw [Reorders, map_unplaced_of_ofTree hspec, map_unplaced_of_ofTree hspec']
  exact h.filterMap _

end Spec

end XdrSchema
