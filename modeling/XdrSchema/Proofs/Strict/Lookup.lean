import XdrSchema.Proofs.Schema.Known
import XdrSchema.Proofs.Strict.Table

/-! Strict look-ups in the table of symbols. The name has to be a symbol, and resolved. Typedefs are followed
with such look-ups in the middle of resolving another definition, when much is not resolved yet; what a
definition holds directly is, and so is what it leads to. -/
namespace XdrSchema.Schema

open Outcome (breach)

/-- One name more is avoided. -/
theorem length_filter_notMem_lt {all avoided avoided' : List String} {name : String}
    (h : ∀ n, n ∈ avoided' ↔ n ∈ avoided ∨ n = name) (hnew : name ∉ avoided) (hname : name ∈ all) :
    (all.filter (· ∉ avoided')).length < (all.filter (· ∉ avoided)).length := by
  have hfewer : all.filter (· ∉ avoided') = (all.filter (· ∉ avoided)).filter (· ≠ name) := by
    rw [List.filter_filter]
    congr 1
    funext n
    simp [h, not_or, and_comm]
  rw [hfewer, List.length_filter_lt_length_iff_exists]
  exact ⟨name, by simp [hname, hnew], by simp⟩

/-- What a symbol was resolved to. -/
inductive Record
  | constant (value : Int)
  | type (d : Definition)

namespace Table

variable (symbols : List Symbol) (t : Table)

def record (name : String) : Outcome Record :=
  match Symbol.find? symbols name with
  | none => breach (.unresolved name)
  | some s =>
    match s.kind with
    | .type _ =>
      match t.progress.done.lookup name with
      | some d => return .type d
      | none => breach (.incomplete name)
    | _ =>
      match t.values.lookup name with
      | some n => return .constant n
      | none => breach (.incomplete name)

/-- The definition of a type. -/
def definition (name : String) : Outcome Definition := do
  match ← t.record symbols name with
  | .type d => return d
  | .constant _ => breach (.unknownType name)

variable {symbols t}

theorem done_of_record {name : String} {d : Definition} (h : t.record symbols name = .ok (.type d)) :
    t.progress.done.lookup name = some d := by
  unfold record at h
  split at h
  · cases h
  · split at h
    · split at h
      · next heq =>
        cases h
        exact heq
      · cases h
    · split at h <;> cases h

theorem done_of_definition {name : String} {d : Definition} (h : t.definition symbols name = .ok d) :
    t.progress.done.lookup name = some d := by
  obtain ⟨r, hr, hd⟩ := bind_eq_ok_iff.mp h
  cases r with
  | constant n => cases hd
  | type d' =>
    cases hd
    exact done_of_record hr

theorem record_eq_ok {name : String} {d : Definition} {k : TypeKind}
    (hrefers : Resolve.Refers symbols ⟨name, k⟩) (hd : t.progress.done.lookup name = some d) :
    t.record symbols name = .ok (.type d) := by
  obtain ⟨s, hfind, hkind⟩ := hrefers
  unfold record
  rw [hfind]
  dsimp only
  rw [hkind, hd]
  rfl

theorem definition_eq_ok {name : String} {d : Definition} {k : TypeKind}
    (hrefers : Resolve.Refers symbols ⟨name, k⟩) (hd : t.progress.done.lookup name = some d) :
    t.definition symbols name = .ok d := by
  rw [definition, record_eq_ok hrefers hd]
  rfl

variable (symbols t)

/-- A type with typedefs followed, except for those in `seen`. -/
def underlying (seen : List String) : Ty → Outcome Ty
  | .plain (.named ⟨target, .typedef⟩) =>
    if _hseen : target ∈ seen then return .plain (.named ⟨target, .typedef⟩)
    else
      match _hrecord : t.record symbols target with
      | .error e => throw e
      | .ok (.type (.typedef inner)) => underlying (target :: seen) inner
      | .ok _ => breach (.assertion "the definition of a typedef is a typedef")
  | ty => return ty
termination_by ((Resolve.names t.progress.done).filter (· ∉ seen)).length
decreasing_by
  refine length_filter_notMem_lt (fun n => by rw [List.mem_cons, or_comm]) _hseen ?_
  exact lookup_isSome_iff_mem.mp (by rw [done_of_record _hrecord]; rfl)

variable {symbols t}

theorem underlying_of_ne_typedef {seen : List String} {ty : Ty}
    (h : ∀ name, ty ≠ .plain (.named ⟨name, .typedef⟩)) : t.underlying symbols seen ty = .ok ty := by
  unfold underlying
  split
  · exact absurd rfl (h _)
  · rfl

theorem underlying_typedef {seen : List String} {target : String} {inner : Ty} (hseen : target ∉ seen)
    (h : t.record symbols target = .ok (.type (.typedef inner))) :
    t.underlying symbols seen (.plain (.named ⟨target, .typedef⟩)) =
      t.underlying symbols (target :: seen) inner := by
  rw [underlying, dif_neg hseen]
  split
  · next heq => cases h.symm.trans heq
  · next heq =>
    cases h.symm.trans heq
    rfl
  · next hother heq => exact absurd (Except.ok.inj (heq.symm.trans h)) (hother inner)

/-- A name that a type is stands for a type that was done before. -/
def Anchored (symbols : List Symbol) (before : List (String × Definition)) (ty : Ty) : Prop :=
  ∀ r, ty = .plain (.named r) → Resolve.Refers symbols r ∧ r.name ∈ Resolve.names before

theorem Anchored.cons {e : String × Definition} {before : List (String × Definition)} {ty : Ty}
    (h : Anchored symbols before ty) : Anchored symbols (e :: before) ty :=
  fun r hr => (h r hr).imp_right (List.mem_cons_of_mem _)

theorem anchored_of_settled {before : List (String × Definition)} {ty : Ty}
    (h : Resolve.Settled symbols before ty) : Anchored symbols before ty := by
  rintro r rfl
  exact ⟨h.target r rfl, h.direct r rfl⟩

/-- An anchored type is followed to its end in what was done before it. -/
theorem underlying_eq_ok (hsound : Resolve.Sound symbols t.progress.done)
    {before : List (String × Definition)} (hbefore : before <:+ t.progress.done) {seen : List String}
    (hseen : ∀ n ∈ Resolve.names before, n ∉ seen) {ty : Ty} (hty : Anchored symbols before ty) :
    t.underlying symbols seen ty = .ok (Schema.underlying before ty) ∧
      Anchored symbols before (Schema.underlying before ty) := by
  induction before generalizing seen ty with
  | nil =>
    refine ⟨underlying_of_ne_typedef fun name heq => ?_, hty⟩
    exact List.not_mem_nil (hty _ heq).2
  | cons e rest ih =>
    obtain ⟨name, d⟩ := e
    by_cases htypedef : ∃ target, ty = .plain (.named ⟨target, .typedef⟩)
    · obtain ⟨target, rfl⟩ := htypedef
      obtain ⟨hrefers, htarget⟩ := hty _ rfl
      have hrest : rest <:+ t.progress.done := (List.suffix_cons _ _).trans hbefore
      have hseen' : ∀ n ∈ Resolve.names rest, n ∉ seen := fun n hn =>
        hseen n (List.mem_cons_of_mem _ hn)
      by_cases heq : name = target
      · subst heq
        cases hsound.of_suffix hbefore with
        | cons new finished _ =>
          have hlookup : t.progress.done.lookup name = some d :=
            lookup_of_suffix hbefore hsound.nodup (by simp)
          cases d with
          | typedef inner =>
            have hinner := anchored_of_settled (finished.members inner (List.mem_singleton_self inner))
            have hseen'' : ∀ n ∈ Resolve.names rest, n ∉ name :: seen := by
              rintro n hn hin
              rcases List.mem_cons.mp hin with rfl | hin
              · exact new hn
              · exact hseen' n hn hin
            obtain ⟨hok, hbelow⟩ := ih hrest hseen'' hinner
            rw [underlying_typedef (hseen name htarget) (record_eq_ok hrefers hlookup),
              Resolve.underlying_cons_self]
            exact ⟨hok, hbelow.cons⟩
          | _ => cases finished.symbol.kind_eq hrefers
      · have hmem := (List.mem_cons.mp htarget).resolve_left (Ne.symm heq)
        have hlater : Anchored symbols rest (.plain (.named ⟨target, .typedef⟩)) := by
          rintro _ ⟨⟩
          exact ⟨hrefers, hmem⟩
        obtain ⟨hok, hbelow⟩ := ih hrest hseen' hlater
        rw [Resolve.underlying_cons_of_ne heq]
        exact ⟨hok, hbelow.cons⟩
    · have hne : ∀ target, ty ≠ .plain (.named ⟨target, .typedef⟩) := fun target heq =>
        htypedef ⟨target, heq⟩
      rw [underlying_of_ne_typedef hne, Resolve.underlying_of_ne_typedef hne]
      exact ⟨rfl, hty⟩

end Table

end XdrSchema.Schema
