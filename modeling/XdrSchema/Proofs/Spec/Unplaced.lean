import XdrSchema.Proofs.Spec.Resolution

/-! A specification apart from where it is written. Moving a definition within a text, or to another
one, changes the places in it and nothing else. -/
namespace XdrSchema

/-- A place that no text has, as lines and columns start at one. -/
def Span.nowhere : Span := ⟨0, 0, 0, 0⟩

namespace TypeExpr

variable {β γ ρ : Type}

/-- The same type over other bounds. -/
def mapBound (f : β → γ) : TypeExpr β ρ → TypeExpr γ ρ
  | plain b => plain b
  | array b n => array b (f n)
  | vector b n => vector b (n.map f)
  | optional b => optional b
  | fixedBytes n => fixedBytes (f n)
  | bytes n => bytes (n.map f)
  | string n => string (n.map f)

variable (f : β → γ) (t : TypeExpr β ρ)

@[simp] theorem target?_mapBound : (t.mapBound f).target? = t.target? := by
  cases t with
  | plain b | array b n | vector b n | optional b => cases b <;> rfl
  | fixedBytes n | bytes n | string n => rfl

@[simp] theorem direct?_mapBound : (t.mapBound f).direct? = t.direct? := by
  cases t with
  | plain b | array b n => cases b <;> rfl
  | vector b n | optional b | fixedBytes n | bytes n | string n => rfl

@[simp] theorem bound?_mapBound : (t.mapBound f).bound? = t.bound?.map f := by
  cases t <;> rfl

end TypeExpr

namespace Spec

/-! ### Without places -/

def Value.unplaced : Value → Value
  | literal n text _ => literal n text .nowhere
  | constant name _ => constant name .nowhere

def Ty.unplaced (t : Ty) : Ty := t.mapBound Value.unplaced

def Field.unplaced {τ : Type} (g : τ → τ) (f : Field τ) : Field τ := ⟨f.name, g f.type, .nowhere, .nowhere⟩

def Payload.unplaced : Payload → Payload
  | void _ => void .nowhere
  | field f => field (f.unplaced Ty.unplaced)

def Member.unplaced (m : Member) : Member := ⟨m.name, m.value.unplaced, .nowhere⟩

def Arm.unplaced (a : Arm) : Arm := ⟨a.labels.map Value.unplaced, a.payload.unplaced, .nowhere⟩

def Union.unplaced (u : Union) : Union :=
  ⟨u.discriminant.unplaced id, u.arms.map Arm.unplaced, u.default.map Payload.unplaced⟩

def Body.unplaced : Body → Body
  | const v => const v.unplaced
  | typedef t => typedef (Ty.unplaced t)
  | struct fields => struct (fields.map (Field.unplaced Ty.unplaced))
  | enum members => enum (members.map Member.unplaced)
  | union u => union u.unplaced

def Definition.unplaced (d : Definition) : Definition := ⟨d.name, d.body.unplaced, .nowhere, .nowhere⟩

/-! ### What a definition introduces and mentions -/

/-- The values in a definition that are no bounds. -/
def Body.values : Body → List Value
  | const v => [v]
  | enum members => members.map (·.value)
  | union u => u.labels
  | _ => []

def Ty.mentions (t : Ty) : List String := t.target?.toList ++ (t.bound?.bind Value.name?).toList

/-- The names that a definition is made of: those of its types and of its values. -/
def Body.mentions (b : Body) : List String := b.types.flatMap Ty.mentions ++ b.values.filterMap Value.name?

/-- The name of a definition and those of its labels. -/
def Definition.introduces (d : Definition) : List String := d.name :: d.body.members.map (·.name)

theorem mem_mentions_of_type {b : Body} {t : Ty} (ht : t ∈ b.types) {name : String}
    (h : name ∈ t.mentions) : name ∈ b.mentions :=
  List.mem_append_left _ (List.mem_flatMap.mpr ⟨t, ht, h⟩)

theorem mem_mentions_of_value {b : Body} {v : Value} (hv : v ∈ b.values) {name : String}
    (h : v.name? = some name) : name ∈ b.mentions :=
  List.mem_append_right _ (List.mem_filterMap.mpr ⟨v, hv, h⟩)

theorem value_mem_values {b : Body} {m : Member} (hm : m ∈ b.members) : m.value ∈ b.values := by
  cases b with
  | enum members => exact List.mem_map_of_mem hm
  | _ => cases hm

theorem mem_mentions_of_target {t : Ty} {name : String} (h : t.target? = some name) :
    name ∈ t.mentions :=
  List.mem_append_left _ (by rw [h]; exact List.mem_singleton_self name)

theorem mem_mentions_of_bound {t : Ty} {v : Value} (hv : v ∈ t.bound?) {name : String}
    (h : v.name? = some name) : name ∈ t.mentions :=
  List.mem_append_right _ (by rw [Option.mem_def.mp hv, Option.bind_some, h]; exact List.mem_singleton_self name)

/-! ### What does not depend on places -/

variable {spec : Spec}

@[simp] theorem name?_unplaced (v : Value) : v.unplaced.name? = v.name? := by cases v <;> rfl

theorem evaluates_unplaced {v : Value} {n : Int} : spec.Evaluates v.unplaced n ↔ spec.Evaluates v n := by
  cases v <;> rfl

@[simp] theorem field?_unplaced (p : Payload) : p.unplaced.field? = p.field?.map (Field.unplaced Ty.unplaced) := by
  cases p <;> rfl

theorem payloadName?_unplaced (p : Payload) : p.unplaced.name? = p.name? := by cases p <;> rfl

@[simp] theorem members_unplaced (b : Body) : b.unplaced.members = b.members.map Member.unplaced := by
  cases b <;> rfl

theorem labels_unplaced (u : Union) : u.unplaced.labels = u.labels.map Value.unplaced := by
  simp [Union.labels, Union.unplaced, Arm.unplaced, List.map_flatMap, List.flatMap_map]

theorem payloads_unplaced (u : Union) : u.unplaced.payloads = u.payloads.map Payload.unplaced := by
  cases hdefault : u.default <;> simp [Union.payloads, Union.unplaced, Arm.unplaced, hdefault]

theorem types_unplaced (b : Body) : b.unplaced.types = b.types.map Ty.unplaced := by
  cases b with
  | const v | enum members => rfl
  | typedef t => rfl
  | struct fields => simp [Body.unplaced, Body.types, Field.unplaced]
  | union u =>
    have htype (p : Payload) :
        p.unplaced.field?.map (·.type) = (p.field?.map (·.type)).map Ty.unplaced := by
      cases p <;> rfl
    simp only [Body.unplaced, Body.types, payloads_unplaced, List.map_cons, List.filterMap_map,
      List.map_filterMap, Function.comp_def, htype]
    rfl

theorem name_eq_of_unplaced {d d' : Definition} (h : d'.unplaced = d.unplaced) : d'.name = d.name :=
  (congrArg Definition.name h :)

theorem body_eq_of_unplaced {d d' : Definition} (h : d'.unplaced = d.unplaced) :
    d'.body.unplaced = d.body.unplaced :=
  (congrArg Definition.body h :)

theorem memberName_eq_of_unplaced {m m' : Member} (h : m'.unplaced = m.unplaced) : m'.name = m.name :=
  (congrArg Member.name h :)

theorem memberValue_eq_of_unplaced {m m' : Member} (h : m'.unplaced = m.unplaced) :
    m'.value.unplaced = m.value.unplaced :=
  (congrArg Member.value h :)

theorem exists_const_of_unplaced {b : Body} {v : Value} (h : b.unplaced = (Body.const v).unplaced) :
    ∃ v', b = .const v' ∧ v'.unplaced = v.unplaced := by
  cases b with
  | const v' => exact ⟨v', rfl, Body.const.inj h⟩
  | _ => cases h

theorem exists_typedef_of_unplaced {b : Body} {t : Ty} (h : b.unplaced = (Body.typedef t).unplaced) :
    ∃ t', b = .typedef t' ∧ Ty.unplaced t' = Ty.unplaced t := by
  cases b with
  | typedef t' => exact ⟨t', rfl, Body.typedef.inj h⟩
  | _ => cases h

theorem exists_enum_of_unplaced {b : Body} {members : List Member}
    (h : b.unplaced = (Body.enum members).unplaced) :
    ∃ members', b = .enum members' ∧ members'.map Member.unplaced = members.map Member.unplaced := by
  cases b with
  | enum members' => exact ⟨members', rfl, Body.enum.inj h⟩
  | _ => cases h

theorem exists_union_of_unplaced {b : Body} {u : Union} (h : b.unplaced = (Body.union u).unplaced) :
    ∃ u', b = .union u' ∧ u'.unplaced = u.unplaced := by
  cases b with
  | union u' => exact ⟨u', rfl, Body.union.inj h⟩
  | _ => cases h

theorem eq_plain_of_unplaced {t : Ty} {b : Base String}
    (h : Ty.unplaced t = Ty.unplaced (.plain b)) : t = .plain b := by
  cases t with
  | plain b' => exact congrArg TypeExpr.plain (TypeExpr.plain.inj h)
  | _ => cases h

@[simp] theorem introduces_unplaced (d : Definition) : d.unplaced.introduces = d.introduces := by
  simp [Definition.introduces, Definition.unplaced, Member.unplaced]

@[simp] theorem kindOf?_unplaced (d : Definition) :
    Schema.Scope.kindOf? d.unplaced = Schema.Scope.kindOf? d := by
  obtain ⟨name, body, span, nameSpan⟩ := d
  cases body <;> rfl

end Spec

end XdrSchema
