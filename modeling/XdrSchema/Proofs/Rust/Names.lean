import XdrSchema.Proofs.Schema.Linked
import XdrSchema.Proofs.Spec.Source

/-! Which names a module can declare. A name is refused for what it is only, wherever it stands. -/
namespace XdrSchema.Rust

open Schema (Arm Union)

/-- A name that nothing at module level has. -/
def IsFree (name : String) : Prop := name ∉ supportItems ∧ name ∉ primitiveTypes ∧ name ∉ hardKeywords

theorem checkInner_eq_ok_iff {name : String} {span : Option Span} :
    checkInner name span = .ok () ↔ name ∉ hardKeywords := by
  unfold checkInner
  split
  · next h => exact iff_of_false nofun (not_not_intro h)
  · next h => exact iff_of_true rfl h

theorem checkItem_eq_ok_iff {name : String} {span : Option Span} :
    checkItem name span = .ok () ↔ IsFree name := by
  unfold checkItem IsFree
  split
  · next h => exact iff_of_false nofun fun hfree => hfree.1 h
  · next hsupport =>
    split
    · next h => exact iff_of_false nofun fun hfree => hfree.2.1 h
    · next hprimitive =>
      split
      · next h => exact iff_of_false nofun fun hfree => hfree.2.2 h
      · next h => exact iff_of_true rfl ⟨hsupport, hprimitive, h⟩

/-- The names of a type, of its fields and of its variants can be declared. -/
@[mk_iff] structure TypeFree (s : Schema) (name : String) (d : Spec.Definition) : Prop where
  item : IsFree name
  fields : ∀ fields, d.body = .struct fields → ∀ f ∈ fields, f.name ∉ hardKeywords
  variants : ∀ u, s.definition? name = some (.union u) → ∀ a ∈ u.allArms, a.variant ∉ hardKeywords

theorem checkVariants_eq_ok_iff {d : Option Schema.Definition} {span : Option Span} :
    (match d with
      | some (.union u) => u.allArms.forM fun a => checkInner a.variant span
      | _ => pure ()) = .ok () ↔ ∀ u, d = some (.union u) → ∀ a ∈ u.allArms, a.variant ∉ hardKeywords := by
  split
  · next u =>
    rw [forM_eq_ok_iff]
    simp only [checkInner_eq_ok_iff, Option.some.injEq, Schema.Definition.union.injEq, forall_eq']
  · next hd => exact iff_of_true rfl fun u hu => absurd hu (hd u)

theorem checkType_eq_ok_iff {s : Schema} {x : Symbol} :
    checkType s x = .ok () ↔ ∀ k d, x.type? = some (k, d) → TypeFree s x.name d := by
  unfold checkType
  cases hx : x.type? with
  | none => exact iff_of_true rfl fun _ _ h => nomatch h
  | some kd =>
    obtain ⟨k, d⟩ := kd
    dsimp only
    have hsome : (∀ k' d', some (k, d) = some (k', d') → TypeFree s x.name d') ↔ TypeFree s x.name d :=
      ⟨fun h => h k d rfl, fun h _ _ hkd => by cases hkd; exact h⟩
    rw [hsome, typeFree_iff, bind_unit_eq_ok_iff, checkItem_eq_ok_iff]
    refine and_congr_right fun _ => ?_
    split
    · next fields hbody =>
      rw [bind_unit_eq_ok_iff, forM_eq_ok_iff]
      simp only [checkInner_eq_ok_iff, hbody, Spec.Body.struct.injEq, forall_eq']
      exact and_congr_right fun _ => checkVariants_eq_ok_iff
    · next hbody =>
      rw [and_iff_right fun fields hstruct => absurd hstruct (hbody fields)]
      exact checkVariants_eq_ok_iff

/-- The name of a label or of a constant can be declared. -/
def ValueFree (x : Symbol) : Prop :=
  match x.meaning with
  | .label .. => x.name ∉ hardKeywords
  | .constant _ => IsFree x.name
  | _ => True

theorem checkValue_eq_ok_iff {x : Symbol} : checkValue x = .ok () ↔ ValueFree x := by
  obtain ⟨name, span, meaning⟩ := x
  cases meaning with
  | label owner v => exact checkInner_eq_ok_iff
  | constant v => exact checkItem_eq_ok_iff
  | builtin n => exact iff_of_true rfl trivial
  | type k d => exact iff_of_true rfl trivial

theorem checkNames_eq_ok_iff {s : Schema} : checkNames s = .ok () ↔
    (∀ x ∈ s.symbols, ∀ k d, x.type? = some (k, d) → TypeFree s x.name d) ∧
      ∀ x ∈ s.symbols, ValueFree x := by
  unfold checkNames
  rw [bind_unit_eq_ok_iff, forM_eq_ok_iff, forM_eq_ok_iff]
  simp only [checkType_eq_ok_iff, checkValue_eq_ok_iff]

/-! ### Identifiers -/

/-- A raw identifier is none of the names without a number sign, and different names have different ones. -/
theorem identifier_inj {name name' : String} (h : '#' ∉ name.toList) (h' : '#' ∉ name'.toList) :
    identifier name = identifier name' ↔ name = name' := by
  refine ⟨fun heq => ?_, fun heq => heq ▸ rfl⟩
  have hraw (m : String) : '#' ∈ ("r#" ++ m).toList := by simp
  unfold identifier at heq
  split at heq
  · split at heq
    · exact (String.append_right_inj "r#").mp heq
    · exact absurd (heq ▸ hraw name) h'
  · split at heq
    · exact absurd (heq ▸ hraw name') h
    · exact heq

theorem isWord_of_isName {name : String} (h : Spec.IsName name) : isWord name.toList = true := by
  unfold Spec.IsName at h
  cases h with
  | name h _ =>
    obtain ⟨c, rest, hname, hc, hrest⟩ := h
    have hdigit : c.isDigit = false := by
      by_contra hdigit
      rw [Concrete.not_isAlpha_of_isDigit (by simpa using hdigit)] at hc
      cases hc
    simpa [hname, isWord, Concrete.isWordChar_of_isAlpha hc, hdigit] using hrest

theorem not_mem_of_isWord {w : List Char} (h : isWord w = true) : '#' ∉ w := by
  intro hsign
  cases w with
  | nil => cases hsign
  | cons c rest =>
    simp only [isWord, Bool.and_eq_true, List.all_eq_true] at h
    rcases List.mem_cons.mp hsign with rfl | hsign
    · exact absurd h.1.1 (by decide)
    · exact absurd (h.2 _ hsign) (by decide)

theorem not_mem_of_isName {name : String} (h : Spec.IsName name) : '#' ∉ name.toList :=
  not_mem_of_isWord (isWord_of_isName h)

/-- The types of a text have names that are not raw identifiers. -/
theorem not_mem_of_analyzeText {source : String} {s : Schema} (hsource : (Schema.analyzeText source).result = .ok s)
    {name : String} (hname : name ∈ s.typeNames) : '#' ∉ name.toList := by
  obtain ⟨spec, hspec, hs⟩ := Schema.analyzeText_eq_ok_iff.mp hsource
  obtain ⟨r, hr⟩ := Schema.mem_typeNames_iff.mp hname
  obtain ⟨d, hd, rfl, -⟩ := (Schema.linked_of_analyze hspec hs).reflects name r hr
  exact not_mem_of_isName (Spec.isName_of_parse hspec hd)

end XdrSchema.Rust
