import XdrSchema.Concrete.Parse
import XdrSchema.Number.Literal
import XdrSchema.Spec.Basic
import XdrSchema.Diagnostic.Fault

/-! From the concrete tree to a specification. Definitions are taken in order and the first fault
ends the work; within a definition, what was written first is looked at first. -/
namespace XdrSchema.Spec

open Concrete (Word)

abbrev Checked := Except SpecError

def fail {α : Type} (f : Fault) (span : Span) : Checked α := throw ⟨f, some span⟩

def valueOf : Concrete.Value → Checked Value
  | .number w =>
    match Number.literal? w.text.toList with
    | some n => return .literal n w.text w.span
    | none =>
      match Number.excess? w.text.toList with
      | some digits => fail (.overlongLiteral w.text digits) w.span
      | none => fail (.malformedLiteral w.text) w.span
  | .reference w => return .constant w.text w.span

theorem valueOf_number_eq_ok_iff {w : Word} {v : Value} : valueOf (.number w) = .ok v ↔
    ∃ n, Number.literal? w.text.toList = some n ∧ v = .literal n w.text w.span := by
  unfold valueOf
  dsimp only
  split
  · next n hn =>
    constructor
    · rintro ⟨⟩
      exact ⟨n, hn, rfl⟩
    · rintro ⟨_, hn', rfl⟩
      cases hn.symm.trans hn'
      rfl
  · next hnone =>
    constructor
    · intro h
      split at h <;> cases h
    · rintro ⟨_, hn, -⟩
      cases hnone.symm.trans hn

def boundOf : Option Concrete.Value → Checked (Option Value)
  | none => return none
  | some v => return some (← valueOf v)

def typeOf : TypeExpr Concrete.Value String → Checked Ty
  | .plain b => return .plain b
  | .array b n => return .array b (← valueOf n)
  | .vector b n => return .vector b (← boundOf n)
  | .optional b => return .optional b
  | .fixedBytes n => return .fixedBytes (← valueOf n)
  | .bytes n => return .bytes (← boundOf n)
  | .string n => return .string (← boundOf n)

def payloadOf : Concrete.Declaration → Checked Payload
  | .void span => return .void span
  | .item name type span => return .field ⟨name.text, ← typeOf type, span, name.span⟩

/-! ### Structs -/

/-- The fields of a struct, given the names of those before. -/
def fieldsOf (owner : String) (seen : List String) :
    List Concrete.Declaration → Checked (List (Field Ty))
  | [] => return []
  | d :: rest => do
    match ← payloadOf d with
    | .void span => fail (.misplacedVoid (.struct owner)) span
    | .field f =>
      if f.name ∈ seen then fail (.duplicateField f.name owner) f.nameSpan
      return f :: (← fieldsOf owner (f.name :: seen) rest)

/-! ### Enumerations -/

def memberOf (m : Word × Concrete.Value) : Checked Member :=
  return ⟨m.1.text, ← valueOf m.2, m.1.span⟩

/-! ### Unions -/

/-- The discriminant is a name with a plain type. -/
def discriminantOf (union : String) : Concrete.Declaration → Checked (Field (Base String))
  | .item name (.plain b) span => return ⟨name.text, b, span, name.span⟩
  | d => fail (.discriminantForm union) d.span

/-- The names of arms are distinct, the default arm's included. -/
def checkArmName (union : String) (seen : List String) : Payload → Checked (List String)
  | .void _ => return seen
  | .field f =>
    if f.name ∈ seen then fail (.duplicateField f.name union) f.nameSpan
    else return f.name :: seen

/-- The arms of a union, given the default arm and the names met so far. -/
def armsOf (union : String) (default : Option Payload) (seen : List String) :
    List Concrete.Arm → Checked (List Arm × Option Payload)
  | [] => return ([], default)
  | .case labels d span :: rest => do
    let labels ← labels.mapM valueOf
    let payload ← payloadOf d
    let seen ← checkArmName union seen payload
    let (arms, default) ← armsOf union default seen rest
    return (⟨labels, payload, span⟩ :: arms, default)
  | .default d span :: rest => do
    if default.isSome then fail (.duplicateDefault union) span
    let payload ← payloadOf d
    let seen ← checkArmName union seen payload
    armsOf union (some payload) seen rest

def unionOf (name : String) (switch : Concrete.Declaration) (arms : List Concrete.Arm)
    (span : Span) : Checked Union := do
  let discriminant ← discriminantOf name switch
  let (arms, default) ← armsOf name none [] arms
  if arms.isEmpty && default.isNone then fail (.noArms name) span
  return ⟨discriminant, arms, default⟩

/-! ### Definitions -/

def definitionOf (d : Concrete.Definition) : Checked Definition := do
  match d.body with
  | .const name v => return ⟨name.text, .const (← valueOf v), d.span, name.span⟩
  | .typedef declaration =>
    match ← payloadOf declaration with
    | .void _ => fail (.misplacedVoid .typedef) d.span
    | .field f => return ⟨f.name, .typedef f.type, d.span, f.nameSpan⟩
  | .struct name fields =>
    return ⟨name.text, .struct (← fieldsOf name.text [] fields), d.span, name.span⟩
  | .enum name members =>
    return ⟨name.text, .enum (← members.mapM memberOf), d.span, name.span⟩
  | .union name switch arms =>
    return ⟨name.text, .union (← unionOf name.text switch arms d.span), d.span, name.span⟩

def ofTree (definitions : List Concrete.Definition) : Checked Spec :=
  return ⟨← definitions.mapM definitionOf⟩

/-- The specification that a text spells. -/
def parse (text : String) : Checked Spec := do ofTree (← Concrete.parse text)

end XdrSchema.Spec
