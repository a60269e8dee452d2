import XdrSchema.Proofs.Strict.Resolve
import XdrSchema.Proofs.Wire.Sizing

/-! Strict sizes by need. A definition is looked up in the table of symbols, and the least size of a union
is one of those of its arms. A strict question has every answer that a question has, so that once the table
holds a schema, its types have the sizes that they are declared with. -/
namespace XdrSchema.Wire.Sizing

open Schema (Table Definition Ty Arm)
open Outcome (breach)
open SizeTable (ofSchema)

abbrev StrictQuery := ExceptT Failure (StateM Sizing)

variable {α β : Type}

def StrictQuery.lift : Outcome α → StrictQuery α
  | .ok a => pure a
  | .error e => throw e

/-- The size of a choice between items, of which there has to be one. -/
def strictChoice (items : List Size) : Outcome Size :=
  if items.isEmpty then breach .nothingLeast else return Size.choice items

def strictDefinition (named : String → StrictQuery Size) : Definition → StrictQuery Size
  | .union u => do .lift (strictChoice (← u.allArms.mapM fun a => Size.ofArm named a))
  | d => Size.ofDefinition named d

/-- Keeps a size, unless it is tentative. -/
def strictFinish (name : String) (size : Size) : StrictQuery Unit :=
  modify fun st =>
    if name ∈ st.tentative then { st with tentative := st.tentative.filter (· ≠ name) }
    else { st with settled := (name, size) :: st.settled }

/-- The size of a name, while those on `stack` are being computed. -/
def strictSizeOf (symbols : List Symbol) (t : Table) (stack : List String) (name : String) :
    StrictQuery Size := do
  match (← get).settled.lookup name with
  | some size => return size
  | none =>
    if _hstack : name ∈ stack then
      modify fun st => { st with tentative := st.tentative ++ begunAfter stack name }
      return Size.unknown
    else
      match _hd : t.definition symbols name with
      | .error e => throw e
      | .ok d =>
        let size ← strictDefinition (fun n => strictSizeOf symbols t (stack ++ [name]) n) d
        strictFinish name size
        return size
termination_by ((Schema.Resolve.names t.progress.done).filter (· ∉ stack)).length
decreasing_by
  refine Schema.length_filter_notMem_lt (fun n => by simp) _hstack ?_
  exact lookup_isSome_iff_mem.mp (by rw [Table.done_of_definition _hd]; rfl)

/-! ### Answers of both -/

/-- A strict step that ends as another does, whenever that ends well. -/
def Extends (x' : StrictQuery α) (x : Query α) : Prop := ∀ st a st', Ends x st a st' → Ends x' st a st'

theorem extends_pure (a : α) : Extends (pure a) (pure a) :=
  fun _ _ _ hends => ends_pure.mpr (ends_pure.mp hends)

theorem extends_modify (f : Sizing → Sizing) : Extends (modify f) (modify f) :=
  fun _ _ _ hends => ends_modify.mpr (ends_modify.mp hends)

theorem Extends.bind {x' : StrictQuery α} {x : Query α} {f' : α → StrictQuery β} {f : α → Query β}
    (hx : Extends x' x) (hf : ∀ a, Extends (f' a) (f a)) : Extends (x' >>= f') (x >>= f) := by
  intro st b st' hends
  obtain ⟨a, st₁, hxa, hfb⟩ := ends_bind.mp hends
  exact ends_bind.mpr ⟨a, st₁, hx _ _ _ hxa, hf a _ _ _ hfb⟩

theorem extends_mapM {f' : α → StrictQuery β} {f : α → Query β} (h : ∀ a, Extends (f' a) (f a))
    (as : List α) : Extends (as.mapM f') (as.mapM f) := by
  induction as with
  | nil => exact extends_pure []
  | cons a as ih =>
    rw [List.mapM_cons, List.mapM_cons]
    exact (h a).bind fun _ => ih.bind fun _ => extends_pure _

theorem length_of_ends_mapM {f : α → Query β} {as : List α} {bs : List β} {st st' : Sizing}
    (h : Ends (as.mapM f) st bs st') : bs.length = as.length := by
  induction as generalizing bs st st' with
  | nil =>
    obtain ⟨rfl, -⟩ := ends_pure.mp h
    rfl
  | cons a as ih =>
    rw [List.mapM_cons] at h
    obtain ⟨b, st₁, -, hrest⟩ := ends_bind.mp h
    obtain ⟨bs', st₂, hbs, hpure⟩ := ends_bind.mp hrest
    obtain ⟨rfl, -⟩ := ends_pure.mp hpure
    rw [List.length_cons, List.length_cons, ih hbs]

section Named

variable {named' : String → StrictQuery Size} {named : String → Query Size}
  (h : ∀ n, Extends (named' n) (named n))

include h

theorem extends_ofBase (b : Base Schema.Ref) : Extends (Size.ofBase named' b) (Size.ofBase named b) := by
  cases b with
  | primitive p => exact extends_pure _
  | named r => exact h r.name

theorem extends_ofType (ty : Ty) : Extends (Size.ofType named' ty) (Size.ofType named ty) := by
  cases ty with
  | plain b => exact extends_ofBase h b
  | array b _ | vector b _ | optional b => exact (extends_ofBase h b).bind fun _ => extends_pure _
  | fixedBytes _ | bytes _ | string _ => exact extends_pure _

theorem extends_ofArm (a : Arm) : Extends (Size.ofArm named' a) (Size.ofArm named a) := by
  unfold Size.ofArm
  cases a.field with
  | none => exact extends_pure _
  | some f => exact extends_ofType h f.type

/-- A union has an arm, so that there is a least size. -/
theorem extends_ofDefinition {d : Definition} (hd : d.Proper) :
    Extends (strictDefinition named' d) (Size.ofDefinition named d) := by
  cases d with
  | typedef ty => exact extends_ofType h ty
  | struct fields => exact (extends_mapM (fun f => extends_ofType h f.type) fields).bind fun _ => extends_pure _
  | enum labels => exact extends_pure _
  | union u =>
    intro st size st' hends
    obtain ⟨sizes, st₁, hsizes, hpure⟩ := ends_bind.mp hends
    refine ends_bind.mpr ⟨sizes, st₁, extends_mapM (extends_ofArm h) u.allArms _ _ _ hsizes, ?_⟩
    have hne : sizes ≠ [] := by
      rintro rfl
      exact hd.arms (List.length_eq_zero_iff.mp (length_of_ends_mapM hsizes).symm)
    rw [strictChoice, if_neg (by simpa using hne)]
    exact ends_pure.mpr (ends_pure.mp hpure)

end Named

variable {s : Schema} {t : Table}

theorem definition?_of_definition {name : String} {d : Definition} (h : definition s name = .ok d) :
    s.definition? name = some d := by
  unfold definition at h
  split at h <;> cases h
  assumption

theorem extends_sizeOf (h : t.Holds s) (stack : List String) (name : String) :
    Extends (strictSizeOf s.symbols t stack name) (sizeOf s stack name) := by
  induction stack, name using sizeOf.induct s with
  | case1 stack name ih =>
    intro st size st' hends
    rw [sizeOf] at hends
    rw [strictSizeOf]
    rw [ends_get_bind] at hends ⊢
    cases hlookup : st.settled.lookup name with
    | some known =>
      rw [hlookup] at hends
      exact ends_pure.mpr (ends_pure.mp hends)
    | none =>
      simp only [hlookup] at hends
      dsimp only
      by_cases hmem : name ∈ stack
      · rw [dif_pos hmem] at hends ⊢
        exact (extends_modify _).bind (fun _ => extends_pure _) _ _ _ hends
      · rw [dif_neg hmem] at hends ⊢
        split at hends
        · exact (not_ends_throw hends).elim
        · next d hd =>
          have hdefined := definition?_of_definition hd
          have hok := h.definition name d hdefined
          split
          · next e he => cases hok.symm.trans he
          · next d' hd' =>
            cases hok.symm.trans hd'
            have hinner := extends_ofDefinition (fun n => ih hmem d hd n)
              (h.wellFormed.proper name d hdefined)
            exact (hinner.bind fun _ => (extends_modify _).bind fun _ => extends_pure _) _ _ _ hends

/-! ### Steps with one result -/

/-- From exact sizes a step ends with `a`, and with exact sizes. -/
def Yields (s : Schema) (x : StrictQuery α) (a : α) : Prop :=
  ∀ st, Exact s st → ∃ st', Ends x st a st' ∧ Exact s st'

theorem yields_pure (a : α) : Yields s (pure a) a := fun st hst => ⟨st, ends_pure.mpr ⟨rfl, rfl⟩, hst⟩

theorem yields_lift {x : Outcome α} {a : α} (h : x = .ok a) : Yields s (.lift x) a := by
  rw [h]
  exact yields_pure a

theorem Yields.bind {x : StrictQuery α} {a : α} {f : α → StrictQuery β} {b : β} (hx : Yields s x a)
    (hf : Yields s (f a) b) : Yields s (x >>= f) b := by
  intro st hst
  obtain ⟨st₁, hxa, hst₁⟩ := hx st hst
  obtain ⟨st₂, hfb, hst₂⟩ := hf st₁ hst₁
  exact ⟨st₂, ends_bind.mpr ⟨a, st₁, hxa, hfb⟩, hst₂⟩

theorem yields_mapM {f : α → StrictQuery β} {g : α → β} {as : List α}
    (h : ∀ a ∈ as, Yields s (f a) (g a)) : Yields s (as.mapM f) (as.map g) := by
  induction as with
  | nil => exact yields_pure []
  | cons a as ih =>
    rw [List.mapM_cons, List.map_cons]
    refine (h a List.mem_cons_self).bind ?_
    exact (ih fun a' ha' => h a' (List.mem_cons_of_mem _ ha')).bind (yields_pure _)

/-- A type has the size that it is declared with, whatever was asked before. -/
theorem yields_sizeOf (h : t.Holds s) {name : String} {d : Definition} (hd : s.definition? name = some d) :
    Yields s (strictSizeOf s.symbols t [] name) ((ofSchema s).get name) := by
  intro st hst
  obtain ⟨hanswer, hexact⟩ := ask_eq h.wellFormed name hst
  rw [declared, definition_eq_ok h.wellFormed hd] at hanswer
  exact ⟨_, extends_sizeOf h [] name _ _ _ (Prod.ext hanswer rfl), hexact⟩

end XdrSchema.Wire.Sizing
