import XdrSchema.Proofs.Schema.WellFormed
import XdrSchema.Proofs.Wire.Size
import XdrSchema.Wire.SizeTable

/-! The table of sizes is settled after as many rounds as there are definitions. By then the least
sizes agree with those of the round before, since each depends only on definitions of lower rank;
and a greatest size, once it is known, never changes again, so that a round that finds no new one
is the last that could. -/
namespace XdrSchema

namespace TypeExpr

/-- An item of any length, with no bound on it. -/
def isOpen {β ρ : Type} : TypeExpr β ρ → Bool
  | vector _ none | bytes none | string none => true
  | _ => false

end TypeExpr

namespace Schema.Definition

/-- The parts that the size of a definition is made of; nothing stands for a void arm. -/
def parts : Definition → List (Option Ty)
  | typedef t => [some t]
  | struct fields => fields.map fun f => some f.type
  | enum _ => []
  | union u => u.allArms.map fun a => a.field.map (·.type)

theorem mem_members_iff {d : Definition} {t : Ty} : t ∈ d.members ↔ some t ∈ d.parts := by
  cases d <;> simp [members, parts]

end Schema.Definition

namespace Wire.SizeTable

open Schema (Ref Ty Definition Arm)

/-- The size of a definition, given those of its parts. -/
def total (d : Definition) (parts : List Size) : Size :=
  match d with
  | .typedef _ => parts.headD (Size.exact 0)
  | .struct _ => Size.sequence parts
  | .enum _ => Size.exact 4
  | .union _ => Size.choice parts

section Monadic

variable {m : Type → Type} [Monad m] [LawfulMonad m] (named : String → m Size)

def askPart : Option Ty → m Size
  | none => pure (Size.exact 0)
  | some t => Size.ofType named t

theorem ofDefinition_eq_map (d : Definition) :
    Size.ofDefinition named d = total d <$> d.parts.mapM (askPart named) := by
  have harm (a : Arm) : Size.ofArm named a = askPart named (a.field.map (·.type)) := by
    unfold Size.ofArm askPart
    cases a.field <;> rfl
  cases d with
  | typedef t => simp [Size.ofDefinition, Definition.parts, askPart, total]
  | struct fields =>
    simp only [Size.ofDefinition, Definition.parts, List.mapM_map, bind_pure_comp]
    rfl
  | enum labels => simp [Size.ofDefinition, Definition.parts, total]
  | union u =>
    simp only [Size.ofDefinition, Definition.parts, List.mapM_map, harm, bind_pure_comp]
    rfl

end Monadic

variable {f g : String → Size} {t : Ty} {d : Definition} {z w : Size}

/-- The size of what stands alone, given those of the named types. -/
def ofBase (f : String → Size) : Base Ref → Size
  | .primitive p => Size.exact p.size
  | .named r => f r.name

/-- The size of a type, given those of the named types. -/
def ofType (f : String → Size) : Ty → Size
  | .plain b => ofBase f b
  | .array b n => (ofBase f b).times n
  | .vector b n => (ofBase f b).upTo n
  | .optional b => (ofBase f b).optional
  | .fixedBytes n => Size.exact (paddedSize n)
  | .bytes n | .string n => Size.data n

def ofPart (f : String → Size) : Option Ty → Size
  | none => Size.exact 0
  | some t => ofType f t

theorem ofDefinition_eq_total (f : String → Size) (d : Definition) :
    ofDefinition f d = total d (d.parts.map (ofPart f)) := by
  have hpart (x : Option Ty) : (askPart (fun n => (pure (f n) : Id Size)) x).run = ofPart f x := by
    rcases x with _ | t
    · rfl
    · rcases t with b | ⟨b, n⟩ | ⟨b, n⟩ | b | n | n | n <;> try rcases b with p | r
      all_goals rfl
  rw [ofDefinition, ofDefinition_eq_map, Id.run_map, List.idRun_mapM]
  simp only [hpart]

section Monadic

variable {m : Type → Type} [Monad m] [LawfulMonad m] (named : String → m Size)

theorem ofType_eq_map {r : Ref} (hr : t.target? = some r) :
    Size.ofType named t = (fun z => ofType (fun _ => z) t) <$> named r.name := by
  rcases t with (p | r) | ⟨p | r, n⟩ | ⟨p | r, n⟩ | (p | r) | n | n | n <;> cases hr
  all_goals simp [Size.ofType, Size.ofBase, ofType, ofBase]

theorem ofType_eq_pure (h : t.target? = none) (f : String → Size) :
    Size.ofType named t = pure (ofType f t) := by
  rcases t with (p | r) | ⟨p | r, n⟩ | ⟨p | r, n⟩ | (p | r) | n | n | n <;> cases h
  all_goals simp [Size.ofType, Size.ofBase, ofType, ofBase]

end Monadic

theorem ofType_congr (h : ∀ r, t.target? = some r → f r.name = g r.name) : ofType f t = ofType g t := by
  rcases t with b | ⟨b, n⟩ | ⟨b, n⟩ | b | n | n | n <;> try rcases b with p | r
  all_goals try rfl
  all_goals rw [ofType, ofType, ofBase, ofBase, h r rfl]

theorem ofDefinition_congr (h : ∀ t ∈ d.members, ∀ r, t.target? = some r → f r.name = g r.name) :
    ofDefinition f d = ofDefinition g d := by
  have hparts : d.parts.map (ofPart f) = d.parts.map (ofPart g) := by
    apply List.map_congr_left
    intro x hx
    cases x with
    | none => rfl
    | some t => exact ofType_congr (h t (Definition.mem_members_iff.mpr hx))
  rw [ofDefinition_eq_total, ofDefinition_eq_total, hparts]

/-! ### Definitions from their parts -/

theorem proper_ofType (hf : ∀ name, (f name).Proper) (t : Ty) : (ofType f t).Proper := by
  have hbase (b : Base Ref) : (ofBase f b).Proper := by
    cases b with
    | primitive p => exact Size.proper_exact (Int.natCast_nonneg _)
    | named r => exact hf r.name
  cases t with
  | plain b => exact hbase b
  | array b n => exact (hbase b).times
  | vector b n => exact (hbase b).upTo n
  | optional b => exact (hbase b).optional
  | fixedBytes n => exact Size.proper_exact (Int.natCast_nonneg _)
  | bytes n => exact Size.proper_data n
  | string n => exact Size.proper_data n

theorem proper_ofPart (hf : ∀ name, (f name).Proper) (x : Option Ty) : (ofPart f x).Proper := by
  cases x with
  | none => exact Size.proper_exact (Int.le_refl 0)
  | some t => exact proper_ofType hf t

theorem ne_nil_of_union {u : Schema.Union} {zs : List Size} (h : (Definition.union u).Proper)
    (hlen : zs.length = (Definition.union u).parts.length) : zs ≠ [] := by
  rintro rfl
  have harms : u.allArms.length = 0 := by simpa [Definition.parts] using hlen.symm
  exact h.arms (List.eq_nil_of_length_eq_zero harms)

theorem proper_total {zs : List Size} (hd : d.Proper) (hlen : zs.length = d.parts.length)
    (h : ∀ z ∈ zs, z.Proper) : (total d zs).Proper := by
  cases d with
  | typedef t =>
    obtain ⟨z, rfl⟩ := List.length_eq_one_iff.mp hlen
    exact h z (List.mem_singleton_self z)
  | struct fields => exact Size.proper_sequence h
  | enum labels => exact Size.proper_exact (by decide)
  | union u => exact Size.proper_choice (ne_nil_of_union hd hlen) h

theorem sameLeast_total {as bs : List Size} (hd : d.Proper) (hlen : as.length = d.parts.length)
    (ha : ∀ a ∈ as, a.Proper) (hb : ∀ b ∈ bs, b.Proper) (h : List.Forall₂ Size.SameLeast as bs) :
    Size.SameLeast (total d as) (total d bs) := by
  cases d with
  | typedef t =>
    obtain ⟨a, rfl⟩ := List.length_eq_one_iff.mp hlen
    obtain ⟨b, rest, hab, hrest, rfl⟩ := List.forall₂_cons_left_iff.mp h
    exact hab
  | struct fields => exact Size.sameLeast_sequence ha hb h
  | enum labels => exact ⟨rfl, rfl⟩
  | union u => exact Size.sameLeast_choice (ne_nil_of_union hd hlen) ha hb h

theorem refines_total {as bs : List Size} (hd : d.Proper) (hlen : as.length = d.parts.length)
    (ha : ∀ a ∈ as, a.Proper) (hb : ∀ b ∈ bs, b.Proper) (h : List.Forall₂ Size.Refines as bs) :
    Size.Refines (total d as) (total d bs) := by
  cases d with
  | typedef t =>
    obtain ⟨a, rfl⟩ := List.length_eq_one_iff.mp hlen
    obtain ⟨b, rest, hab, hrest, rfl⟩ := List.forall₂_cons_left_iff.mp h
    exact hab
  | struct fields => exact Size.refines_sequence ha hb h
  | enum labels => exact .inr rfl
  | union u => exact Size.refines_choice (ne_nil_of_union hd hlen) ha hb h

theorem total_max_eq_none_iff {zs : List Size} (hd : d.Proper) (hlen : zs.length = d.parts.length)
    (h : ∀ z ∈ zs, z.Proper) : (total d zs).max = none ↔ ∃ z ∈ zs, z.max = none := by
  cases d with
  | typedef t =>
    obtain ⟨z, rfl⟩ := List.length_eq_one_iff.mp hlen
    simp [total]
  | struct fields => exact Size.sequence_max_eq_none_iff h
  | enum labels =>
    obtain rfl := List.eq_nil_of_length_eq_zero hlen
    simp [total, Size.exact]
  | union u => exact Size.choice_max_eq_none_iff (ne_nil_of_union hd hlen) h

/-! ### Definitions from the named types -/

theorem sameLeast_ofPart (hf : ∀ name, (f name).Proper) (hg : ∀ name, (g name).Proper)
    {x : Option Ty} (h : ∀ t ∈ x, ∀ r, t.direct? = some r → Size.SameLeast (f r.name) (g r.name)) :
    Size.SameLeast (ofPart f x) (ofPart g x) := by
  rcases x with _ | t
  · exact ⟨rfl, rfl⟩
  · have ht := h t rfl
    rcases t with (p | r) | ⟨p | r, n⟩ | ⟨b, n⟩ | b | n | n | n
    · exact ⟨rfl, rfl⟩
    · exact ht r rfl
    · exact ⟨rfl, rfl⟩
    · exact (ht r rfl).times (hf _) (hg _)
    · exact Size.sameLeast_upTo n
    · exact Size.sameLeast_optional
    all_goals exact ⟨rfl, rfl⟩

theorem proper_parts (hf : ∀ name, (f name).Proper) : ∀ z ∈ d.parts.map (ofPart f), z.Proper := by
  intro z hz
  obtain ⟨x, -, rfl⟩ := List.mem_map.mp hz
  exact proper_ofPart hf x

theorem proper_ofDefinition (hd : d.Proper) (hf : ∀ name, (f name).Proper) :
    (ofDefinition f d).Proper := by
  rw [ofDefinition_eq_total]
  exact proper_total hd (List.length_map ..) (proper_parts hf)

/-- The least size of a definition depends on what it holds directly. -/
theorem sameLeast_ofDefinition (hd : d.Proper) (hf : ∀ name, (f name).Proper)
    (hg : ∀ name, (g name).Proper)
    (h : ∀ t ∈ d.members, ∀ r, t.direct? = some r → Size.SameLeast (f r.name) (g r.name)) :
    Size.SameLeast (ofDefinition f d) (ofDefinition g d) := by
  rw [ofDefinition_eq_total, ofDefinition_eq_total]
  apply sameLeast_total hd (List.length_map ..) (proper_parts hf) (proper_parts hg)
  rw [List.forall₂_map_left_iff, List.forall₂_map_right_iff, List.forall₂_same]
  intro x hx
  apply sameLeast_ofPart hf hg
  intro t ht
  obtain rfl : x = some t := ht
  exact h t (Definition.mem_members_iff.mpr hx)

theorem refines_ofType (hf : ∀ name, (f name).Proper) (hg : ∀ name, (g name).Proper)
    (h : ∀ name, Size.Refines (f name) (g name)) (t : Ty) : Size.Refines (ofType f t) (ofType g t) := by
  rcases t with (p | r) | ⟨p | r, n⟩ | ⟨p | r, n⟩ | (p | r) | n | n | n
  · exact .inr rfl
  · exact h r.name
  · exact .inr rfl
  · exact (h r.name).times (hf _) (hg _)
  · exact .inr rfl
  · exact (h r.name).upTo n
  · exact .inr rfl
  · exact (h r.name).optional
  all_goals exact .inr rfl

theorem refines_ofDefinition (hd : d.Proper) (hf : ∀ name, (f name).Proper)
    (hg : ∀ name, (g name).Proper) (h : ∀ name, Size.Refines (f name) (g name)) :
    Size.Refines (ofDefinition f d) (ofDefinition g d) := by
  rw [ofDefinition_eq_total, ofDefinition_eq_total]
  apply refines_total hd (List.length_map ..) (proper_parts hf) (proper_parts hg)
  rw [List.forall₂_map_left_iff, List.forall₂_map_right_iff, List.forall₂_same]
  intro x _
  cases x with
  | none => exact .inr rfl
  | some t => exact refines_ofType hf hg h t

theorem ofType_max_eq_none_iff (hf : ∀ name, (f name).Proper) :
    (ofType f t).max = none ↔ t.isOpen = true ∨ ∃ r, t.target? = some r ∧ (f r.name).max = none := by
  rcases t with (p | r) | ⟨p | r, n⟩ | ⟨p | r, _ | n⟩ | (p | r) | n | (_ | n) | (_ | n)
  all_goals
    simp [ofType, ofBase, TypeExpr.isOpen, TypeExpr.target?, Size.times_max_eq_none_iff (hf _)]

/-- A definition has no greatest size if a member has no bound or refers to a type without one. -/
theorem ofDefinition_max_eq_none_iff (hd : d.Proper) (hf : ∀ name, (f name).Proper) :
    (ofDefinition f d).max = none ↔
      ∃ t ∈ d.members, t.isOpen = true ∨ ∃ r, t.target? = some r ∧ (f r.name).max = none := by
  rw [ofDefinition_eq_total, total_max_eq_none_iff hd (List.length_map ..) (proper_parts hf)]
  constructor
  · rintro ⟨z, hz, hnone⟩
    obtain ⟨x, hx, rfl⟩ := List.mem_map.mp hz
    cases x with
    | none => cases hnone
    | some t =>
      exact ⟨t, Definition.mem_members_iff.mpr hx, (ofType_max_eq_none_iff hf).mp hnone⟩
  · rintro ⟨t, ht, hnone⟩
    exact ⟨ofType f t, List.mem_map.mpr ⟨some t, Definition.mem_members_iff.mp ht, rfl⟩,
      (ofType_max_eq_none_iff hf).mpr hnone⟩

theorem admits_struct (hg : ∀ name, (g name).Proper) {fields : List Schema.Field} {ns : List Int}
    (h : List.Forall₂ Size.Admits (fields.map fun f => ofType g f.type) ns) :
    (ofDefinition g (.struct fields)).Admits ns.sum := by
  have hparts : (Definition.struct fields).parts.map (ofPart g) = fields.map fun f => ofType g f.type :=
    List.map_map
  rw [ofDefinition_eq_total, hparts]
  refine Size.admits_sequence (fun z hz => ?_) h
  obtain ⟨f, -, rfl⟩ := List.mem_map.mp hz
  exact proper_ofType hg f.type

theorem admits_union (hg : ∀ name, (g name).Proper) {u : Schema.Union} {a : Arm} (ha : a ∈ u.allArms)
    {n : Int} (h : (ofPart g (a.field.map (·.type))).Admits n) :
    (ofDefinition g (.union u)).Admits (4 + n) := by
  rw [ofDefinition_eq_total]
  refine Size.admits_choice (proper_parts hg) (List.mem_map.mpr ⟨_, ?_, rfl⟩) h
  exact List.mem_map.mpr ⟨a, ha, rfl⟩

/-! ### Rounds -/

section Rounds

variable {s : Schema} {name : String} {j : Nat}

theorem get_rounds_succ (s : Schema) (j : Nat) (name : String) :
    (rounds s.types (j + 1)).get name =
      ((s.definition? name).map (ofDefinition (rounds s.types j).get)).getD Size.unknown := by
  have hlookup (types : List (String × Definition)) (t : SizeTable) :
      (improve types t).lookup name = (types.lookup name).map (ofDefinition t.get) := by
    induction types with
    | nil => rfl
    | cons p rest ih =>
      rw [improve, List.map_cons, List.lookup_cons, List.lookup_cons]
      split
      · rfl
      · exact ih
  rw [rounds, get, hlookup, Schema.definition?]

theorem get_rounds_of_definition (j : Nat) (hd : s.definition? name = some d) :
    (rounds s.types (j + 1)).get name = ofDefinition (rounds s.types j).get d := by
  rw [get_rounds_succ, hd, Option.map_some, Option.getD_some]

/-- Nothing is known of a name without a definition. -/
theorem get_rounds_of_not_mem (j : Nat) (h : name ∉ s.typeNames) :
    (rounds s.types j).get name = Size.unknown := by
  cases j with
  | zero => rfl
  | succ j =>
    cases hd : s.definition? name with
    | none => rw [get_rounds_succ, hd, Option.map_none, Option.getD_none]
    | some d => exact absurd (Schema.mem_typeNames_iff.mpr ⟨d, hd⟩) h

variable (hs : s.WellFormed)

include hs

theorem proper_rounds (j : Nat) (name : String) : ((rounds s.types j).get name).Proper := by
  induction j generalizing name with
  | zero => exact Size.proper_unknown
  | succ j ih =>
    cases hd : s.definition? name with
    | none =>
      rw [get_rounds_succ, hd]
      exact Size.proper_unknown
    | some d =>
      rw [get_rounds_of_definition j hd]
      exact proper_ofDefinition (hs.proper name d hd) ih

/-- A definition of some rank has its least size after the round of that number. -/
theorem sameLeast_rounds {rank : String → Nat}
    (hrank : ∀ outer inner, s.Holds outer inner → rank inner < rank outer) (h : rank name < j) :
    Size.SameLeast ((rounds s.types j).get name) ((rounds s.types (j + 1)).get name) := by
  induction j generalizing name with
  | zero => omega
  | succ j ih =>
    cases hd : s.definition? name with
    | none =>
      rw [get_rounds_succ, get_rounds_succ, hd]
      exact ⟨rfl, rfl⟩
    | some d =>
      rw [get_rounds_of_definition j hd, get_rounds_of_definition (j + 1) hd]
      refine sameLeast_ofDefinition (hs.proper name d hd) (proper_rounds hs j)
        (proper_rounds hs (j + 1)) ?_
      intro t ht r hr
      have hlt := hrank name r.name ⟨d, hd, t, ht, r, hr, rfl⟩
      exact ih (by omega)

theorem refines_rounds (j : Nat) (name : String) :
    Size.Refines ((rounds s.types j).get name) ((rounds s.types (j + 1)).get name) := by
  induction j generalizing name with
  | zero => exact .inl rfl
  | succ j ih =>
    cases hd : s.definition? name with
    | none =>
      rw [get_rounds_succ, get_rounds_succ, hd]
      exact .inr rfl
    | some d =>
      rw [get_rounds_of_definition j hd, get_rounds_of_definition (j + 1) hd]
      exact refines_ofDefinition (hs.proper name d hd) (proper_rounds hs j) (proper_rounds hs (j + 1)) ih

omit hs in
/-- A round finds no new greatest size. -/
def Settled (s : Schema) (j : Nat) : Prop :=
  ∀ name, ((rounds s.types j).get name).max = ((rounds s.types (j + 1)).get name).max

/-- After a round that finds nothing, the next one does not either. -/
theorem Settled.succ (h : Settled s j) : Settled s (j + 1) := by
  intro name
  cases hd : s.definition? name with
  | none =>
    rw [get_rounds_succ, get_rounds_succ, hd]
    rfl
  | some d =>
    have hback : Size.Refines ((rounds s.types (j + 2)).get name) ((rounds s.types (j + 1)).get name) := by
      rw [get_rounds_of_definition j hd, get_rounds_of_definition (j + 1) hd]
      exact refines_ofDefinition (hs.proper name d hd) (proper_rounds hs (j + 1)) (proper_rounds hs j)
        fun r => .inr (h r).symm
    rcases refines_rounds hs (j + 1) name with hforth | hforth
    · rcases hback with hback | hback
      · rw [hforth, hback]
      · exact hback.symm
    · exact hforth

omit hs in
/-- The types that are still open after some rounds. -/
def openNames (s : Schema) (j : Nat) : List String :=
  s.typeNames.filter fun name => ((rounds s.types j).get name).max = none

theorem settled_or_fewer (j : Nat) :
    Settled s j ∨ (openNames s (j + 1)).length < (openNames s j).length := by
  by_cases h : Settled s j
  · exact .inl h
  · right
    obtain ⟨name, hname⟩ := not_forall.mp h
    have hmem : name ∈ s.typeNames := by
      by_contra hmem
      exact hname (by rw [get_rounds_of_not_mem j hmem, get_rounds_of_not_mem (j + 1) hmem])
    have hopen := (refines_rounds hs j name).resolve_right hname
    have hfewer : openNames s (j + 1)
        = (openNames s j).filter fun name => ((rounds s.types (j + 1)).get name).max = none := by
      rw [openNames, openNames, List.filter_filter]
      apply List.filter_congr
      intro n _
      rcases refines_rounds hs j n with hn | hn <;> simp [hn]
    rw [hfewer, List.length_filter_lt_length_iff_exists]
    refine ⟨name, List.mem_filter.mpr ⟨hmem, by simpa using hopen⟩, ?_⟩
    rw [hopen] at hname
    simpa [eq_comm] using hname

/-- Each round settles everything or closes a type. -/
theorem settled_or_count (j : Nat) :
    Settled s j ∨ (openNames s j).length + j ≤ s.types.length := by
  induction j with
  | zero =>
    right
    have h := List.length_filter_le (fun n => decide (((rounds s.types 0).get n).max = none)) s.typeNames
    rw [Schema.typeNames, List.length_map] at h
    exact h
  | succ j ih =>
    rcases settled_or_fewer hs j with hsettled | hfewer
    · exact .inl (hsettled.succ hs)
    · rcases ih with hsettled | hcount
      · exact .inl (hsettled.succ hs)
      · right
        omega

theorem settled_ofSchema : Settled s s.types.length := by
  rcases settled_or_count hs s.types.length with h | h
  · exact h
  · have hempty : openNames s s.types.length = [] := List.eq_nil_of_length_eq_zero (by omega)
    intro name
    by_cases hmem : name ∈ s.typeNames
    · apply (refines_rounds hs s.types.length name).resolve_left
      intro hopen
      have hin : name ∈ openNames s s.types.length := List.mem_filter.mpr ⟨hmem, by simpa using hopen⟩
      rw [hempty] at hin
      cases hin
    · rw [get_rounds_of_not_mem _ hmem, get_rounds_of_not_mem _ hmem]

/-- Another round changes nothing. -/
theorem get_ofSchema (hd : s.definition? name = some d) :
    (ofSchema s).get name = ofDefinition (ofSchema s).get d := by
  obtain ⟨rank, hbound, hrank⟩ := hs.ranked
  have hname := hbound name (Schema.mem_typeNames_iff.mpr ⟨d, hd⟩)
  have hleast := sameLeast_rounds hs hrank hname
  rw [ofSchema, ← get_rounds_of_definition _ hd]
  exact hleast.eq_of_max (settled_ofSchema hs name)

theorem proper_ofSchema (name : String) : ((ofSchema s).get name).Proper :=
  proper_rounds hs s.types.length name

end Rounds

end Wire.SizeTable

end XdrSchema
