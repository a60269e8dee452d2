import XdrSchema.Diagnostic.Fault
import XdrSchema.Proofs.Chain

/-! Strict work spells out every check that a compiler makes of its own doing. A check that fails is a
breach, which is the fault of no text. An error, on the other hand, is reported with a message, for which
the catalogue must have an entry and the error a value for each of its fields. A strict step agrees with
another when it does the same and never ends in a breach. -/
namespace XdrSchema

/-- What a check of the compiler's own work finds. The first four have entries in the catalogue, XE0001 to
XE0004. The last two are of messages that cannot be made. -/
inductive Breach
  | unknownNode (rule : String)
  | unknownType (name : String)
  | unresolved (name : String)
  | incomplete (name : String)
  | missingPart (rule part : String)
  | assertion (claim : String)
  | nothingLeast
  | noEntry (code : String)
  | noValue (code field : String)

inductive Failure
  | reported (e : SpecError)
  | internal (b : Breach)

abbrev Outcome := Except Failure

/-! ### Messages -/

namespace Diagnostic

/-- A piece of a message. A field must have a value. -/
def Piece.worded (code : String) (values : List (String × String)) : Piece → Except Breach String
  | .plain s => return s
  | .field name =>
    match values.lookup name with
    | some v => return v
    | none => throw (.noValue code name)

/-- The message of a code, which must be in the catalogue. -/
def worded (code : String) (values : List (String × String)) : Except Breach String :=
  match entry? code with
  | some e => return String.join (← e.text.mapM (Piece.worded code values))
  | none => throw (.noEntry code)

end Diagnostic

theorem Fault.worded (f : Fault) : Diagnostic.worded f.entry.1 f.entry.2 = .ok f.message := by
  cases f <;> rfl

theorem Caution.worded (c : Caution) (span : Option Span) :
    Diagnostic.worded c.entry.1 c.entry.2 = .ok (c.diagnostic span).message := by
  cases c <;> rfl

/-! ### Errors -/

/-- The faults of texts: all but that of a union without arms, which is outside the grammar. -/
def Fault.OfText : Fault → Prop
  | .noArms _ => False
  | _ => True

/-- The codes of the errors that a compilation can end with. Neither those of internal errors are among them
nor XE1004, a union without arms. -/
def errorCodes : List String :=
  ["XE1001", "XE1002", "XE1003", "XE1005", "XE1006", "XE1007", "XE2001", "XE2002", "XE2003", "XE2004",
   "XE2005", "XE2006", "XE3001"]

theorem Fault.OfText.code {f : Fault} (h : f.OfText) : f.code ∈ errorCodes := by
  cases f with
  | noArms union => exact h.elim
  | _ => simp [Fault.code, Fault.entry, errorCodes]

/-- The fault of a text has an entry in the catalogue, which is that of an error and not of an internal one. -/
theorem Fault.OfText.catalogued {f : Fault} (h : f.OfText) :
    ∃ e, Diagnostic.entry? f.code = some e ∧ e.severity = .error ∧ e.category ≠ .internal := by
  cases f with
  | noArms union => exact h.elim
  | _ => exact ⟨_, rfl, rfl, nofun⟩

namespace Outcome

variable {α β : Type}

/-- Ends with an error, whose message is made. -/
def raise (e : SpecError) : Outcome α :=
  match Diagnostic.worded e.fault.entry.1 e.fault.entry.2 with
  | .ok _ => throw (.reported e)
  | .error b => throw (.internal b)

def breach (b : Breach) : Outcome α := throw (.internal b)

/-- Work in which there is nothing to check. -/
def report : Except SpecError α → Outcome α
  | .ok a => .ok a
  | .error e => raise e

theorem raise_eq (e : SpecError) : raise (α := α) e = .error (.reported e) := by
  unfold raise
  rw [Fault.worded]
  rfl

/-- The strict step has the same result. It reports the same error, if any, which is one of texts. -/
inductive Agrees : Outcome α → Except SpecError α → Prop
  | ok (a : α) : Agrees (.ok a) (.ok a)
  | error {e : SpecError} (h : e.fault.OfText) : Agrees (.error (.reported e)) (.error e)

theorem agrees_ok_iff {x' : Outcome α} {a : α} : Agrees x' (.ok a) ↔ x' = .ok a := by
  constructor
  · rintro ⟨⟩
    rfl
  · rintro rfl
    exact .ok a

theorem agrees_error_iff {x' : Outcome α} {e : SpecError} :
    Agrees x' (.error e) ↔ x' = .error (.reported e) ∧ e.fault.OfText := by
  constructor
  · rintro ⟨⟩
    exact ⟨rfl, ‹_›⟩
  · rintro ⟨rfl, h⟩
    exact .error h

theorem agrees_raise {e : SpecError} (h : e.fault.OfText) : Agrees (raise (α := α) e) (.error e) := by
  rw [raise_eq]
  exact .error h

theorem agrees_report {x : Except SpecError α} (h : FailsWith (·.fault.OfText) x) :
    Agrees (report x) x := by
  cases x with
  | ok a => exact .ok a
  | error e => exact agrees_raise (h e rfl)

theorem Agrees.bind {x' : Outcome α} {x : Except SpecError α} {f' : α → Outcome β}
    {f : α → Except SpecError β} (hx : Agrees x' x) (hf : ∀ a, x = .ok a → Agrees (f' a) (f a)) :
    Agrees (x' >>= f') (x >>= f) := by
  cases hx with
  | ok a => exact hf a rfl
  | error h => exact .error h

theorem agrees_mapM {γ : Type} {f' : γ → Outcome β} {f : α → Except SpecError β} {g : α → γ}
    {as : List α} (h : ∀ a ∈ as, Agrees (f' (g a)) (f a)) : Agrees ((as.map g).mapM f') (as.mapM f) := by
  induction as with
  | nil => exact .ok []
  | cons a as ih =>
    rw [List.map_cons, List.mapM_cons, List.mapM_cons]
    refine (h a List.mem_cons_self).bind fun b _ => ?_
    exact (ih fun a' ha' => h a' (List.mem_cons_of_mem _ ha')).bind fun bs _ => .ok (b :: bs)

end Outcome

end XdrSchema
