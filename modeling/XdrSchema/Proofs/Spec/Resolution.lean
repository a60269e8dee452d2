import XdrSchema.Proofs.Schema.Scope
import XdrSchema.Proofs.Spec.WellFormed

/-! What the definitions of a specification resolve to: the same with the kinds of names, the numbers of
bounds and labels, and the selectors of unions. -/
namespace XdrSchema.Spec

open Schema (Ref Variant.Draft)
open Schema.Scope (kindOf?)

variable (spec : Spec)

/-- The kind of type that a name stands for. -/
def Declares (name : String) (k : TypeKind) : Prop :=
  ∃ d ∈ spec.definitions, d.name = name ∧ kindOf? d = some k

inductive BaseAs : Base String → Base Ref → Prop
  | primitive (p : Primitive) : BaseAs (.primitive p) (.primitive p)
  | named {name : String} {k : TypeKind} (h : spec.Declares name k) : BaseAs (.named name) (.named ⟨name, k⟩)

inductive TypeAs : Ty → Schema.Ty → Prop
  | plain {b : Base String} {b' : Base Ref} (hb : spec.BaseAs b b') : TypeAs (.plain b) (.plain b')
  | array {b : Base String} {b' : Base Ref} {v : Value} {n : Nat} (hb : spec.BaseAs b b')
      (hn : spec.Bounds v n) : TypeAs (.array b v) (.array b' n)
  | vector {b : Base String} {b' : Base Ref} {v : Option Value} {n : Option Nat} (hb : spec.BaseAs b b')
      (hn : Option.Rel spec.Bounds v n) : TypeAs (.vector b v) (.vector b' n)
  | optional {b : Base String} {b' : Base Ref} (hb : spec.BaseAs b b') :
      TypeAs (.optional b) (.optional b')
  | fixedBytes {v : Value} {n : Nat} (hn : spec.Bounds v n) : TypeAs (.fixedBytes v) (.fixedBytes n)
  | bytes {v : Option Value} {n : Option Nat} (hn : Option.Rel spec.Bounds v n) :
      TypeAs (.bytes v) (.bytes n)
  | string {v : Option Value} {n : Option Nat} (hn : Option.Rel spec.Bounds v n) :
      TypeAs (.string v) (.string n)

def FieldAs (f : Field Ty) (f' : Schema.Field) : Prop := f'.name = f.name ∧ spec.TypeAs f.type f'.type

def PayloadAs (p : Payload) (f : Option Schema.Field) : Prop := Option.Rel spec.FieldAs p.field? f

def MemberAs (m : Member) (l : String × Int) : Prop := l.1 = m.name ∧ spec.Denotes m.name l.2

def LabelAs (v : Value) (l : Schema.Label) : Prop := spec.Evaluates v l.value ∧ l.name = v.name?

/-- An arm before it has its name. -/
structure DraftAs (a : Arm) (d : Variant.Draft) : Prop where
  labels : List.Forall₂ spec.LabelAs a.labels d.labels
  field : d.fieldName = a.payload.name?
  span : d.span = a.span

/-- An arm under its name. -/
structure ArmAs (x : String × Variant.Draft × Arm) (a : Schema.Arm) : Prop where
  variant : a.variant = x.1
  labels : a.labels = x.2.1.labels
  payload : spec.PayloadAs x.2.2.payload a.field

structure DefaultAs (names : List String) (p : Payload) (a : Schema.Arm) : Prop where
  variant : a.variant = Schema.Variant.defaultFor names
  labels : a.labels = []
  payload : spec.PayloadAs p a.field

structure UnionAs (u : Union) (u' : Schema.Union) : Prop where
  discriminantName : u'.discriminantName = u.discriminant.name
  discriminant : spec.BaseAs u.discriminant.type u'.discriminant
  selector : spec.Selects u.discriminant.type u'.selector
  arms : ∃ drafts, List.Forall₂ spec.DraftAs u.arms drafts ∧
    List.Forall₂ spec.ArmAs
      ((Schema.Variant.assign u.default.isSome drafts).zip (drafts.zip u.arms)) u'.arms ∧
    Option.Rel (spec.DefaultAs (Schema.Variant.assign u.default.isSome drafts)) u.default u'.default

def BodyAs : Body → Schema.Definition → Prop
  | .typedef t, .typedef t' => spec.TypeAs t t'
  | .struct fields, .struct fields' => List.Forall₂ spec.FieldAs fields fields'
  | .enum members, .enum labels => List.Forall₂ spec.MemberAs members labels
  | .union u, .union u' => spec.UnionAs u u'
  | _, _ => False

variable {spec}

theorem isType_iff_kindOf? {d : Definition} : d.body.IsType ↔ ∃ k, kindOf? d = some k := by
  obtain ⟨dname, body, span, nameSpan⟩ := d
  cases body <;> simp [Body.IsType, kindOf?]

theorem isType_iff_declares {name : String} : spec.IsType name ↔ ∃ k, spec.Declares name k := by
  simp only [IsType, Declares, isType_iff_kindOf?]
  constructor
  · rintro ⟨d, hd, hname, k, hk⟩
    exact ⟨k, d, hd, hname, hk⟩
  · rintro ⟨k, d, hd, hname, hk⟩
    exact ⟨d, hd, hname, k, hk⟩

end XdrSchema.Spec
