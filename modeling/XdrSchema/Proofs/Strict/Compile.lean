import XdrSchema.Compile
import XdrSchema.Proofs.Strict.Generate
import XdrSchema.Proofs.Strict.Tree

/-! The strict compiler, with every check of its own doing, from reading the text to emitting the module.
Reading a text takes the grammar only, and gives a tree in which a union has an arm; the tree gives a
specification with all its parts; resolving fills the table of symbols, and generating finds everything
there. So no check ever fails, and what a compilation ends with is a module or a fault of the text. -/
namespace XdrSchema

open Schema (Work Table Resolve Follows Analysis)
open Outcome (Agrees)

structure StrictCompilation where
  result : Outcome String
  warnings : List Diagnostic

namespace StrictCompilation

/-- The table of symbols at the start. -/
def start : Table := ⟨Constant.builtinValues, ⟨[], []⟩⟩

def work (source : String) (settings : Settings) (filename : String) : Work String := do
  let definitions ← Work.report (Concrete.parse source)
  let spec ← Work.lift (Spec.ofNode (Concrete.tree definitions))
  let s ← Schema.strictBuild spec
  let t ← get
  Work.lift (Rust.strictGenerate s.symbols t settings (Text.Path.parse filename).name)

/-- What the work on a table leads to. -/
def ofWork (x : Work String) : StrictCompilation :=
  ⟨(x.run.run start).1, (x.run.run start).2.progress.warnings⟩

end StrictCompilation

def strictCompile (source : String) (settings : Settings) (filename : String) : StrictCompilation :=
  .ofWork (StrictCompilation.work source settings filename)

/-! ### Compiling as one piece of work -/

namespace Compilation

def work (source : String) (settings : Settings) (filename : String) : Resolve String := do
  let spec ← Schema.Resolve.lift (Spec.parse source)
  let s ← Schema.build spec
  Schema.Resolve.lift (Rust.generate s settings (Text.Path.parse filename).name)

def ofWork (x : Resolve String) : Compilation :=
  ⟨(x.run.run ⟨[], []⟩).1, (x.run.run ⟨[], []⟩).2.warnings⟩

/-- A last step without a state. -/
theorem run_bind_lift {α β : Type} (x : Resolve α) (f : α → Except SpecError β) (p : Schema.Progress) :
    (x >>= fun a => Schema.Resolve.lift (f a)).run.run p =
      ((x.run.run p).1.bind f, (x.run.run p).2) := by
  rcases hrun : x.run.run p with ⟨e | a, p'⟩
  · exact run_bind_of_error hrun
  · rw [run_bind_of_ends hrun]
    cases hf : f a with
    | error e => exact Prod.ext hf.symm rfl
    | ok b => exact Prod.ext hf.symm rfl

theorem compile_eq_ofWork (source : String) (settings : Settings) (filename : String) :
    compile source settings filename = ofWork (work source settings filename) := by
  unfold compile Schema.analyzeText work
  cases Spec.parse source with
  | error e => rfl
  | ok spec =>
    change _ = ofWork (Schema.build spec >>= fun s =>
      Schema.Resolve.lift (Rust.generate s settings (Text.Path.parse filename).name))
    rw [ofWork, run_bind_lift]
    rfl

end Compilation

theorem Concrete.failsWith_parse (source : String) :
    FailsWith (·.fault.OfText) (Concrete.parse source) := by
  have hstop (s : Stop) (ts : Tokens) : (s.error ts).fault.OfText := by
    unfold Stop.error
    split <;> trivial
  unfold Concrete.parse
  dsimp only
  split
  · exact failsWith_error (hstop _ _)
  · exact failsWith_error (hstop _ _)
  · exact failsWith_ok _

theorem follows_work (source : String) (settings : Settings) (filename : String) :
    Follows StrictCompilation.start (StrictCompilation.work source settings filename)
      (Compilation.work source settings filename) fun _ _ => True := by
  unfold StrictCompilation.work Compilation.work Spec.parse
  rw [Schema.lift_bind, bind_assoc]
  refine (Schema.follows_report (P := fun definitions t => t = StrictCompilation.start ∧
    Concrete.parse source = .ok definitions) (Concrete.failsWith_parse source)
    fun _ h => ⟨rfl, h⟩).bind fun definitions t ⟨ht, hparse⟩ _ => ?_
  subst ht
  have hfilled := Concrete.filled_of_parse hparse
  refine (Schema.follows_lift (P := fun spec t => t = StrictCompilation.start ∧
    Spec.ofTree definitions = .ok spec) (Spec.agrees_ofNode hfilled)
    fun _ h => ⟨rfl, h⟩).bind fun spec t ⟨ht, hspec⟩ _ => ?_
  subst ht
  have hproper : ∀ d ∈ spec.definitions, d.Proper :=
    Spec.proper_of_parse (bind_eq_ok_iff.mpr ⟨definitions, hparse, hspec⟩)
  refine (Schema.follows_build_holds hproper).bind fun s t hs _ => Schema.follows_read ?_
  exact Schema.follows_lift (Rust.agrees_generate hs settings _) fun _ _ => trivial

/-- For every text the strict compiler ends, with the same warnings, in one of two ways: with the module, or
with a fault of the text, which has its place among the errors of the catalogue. -/
theorem ends_with_module_or_reported_fault (source : String) (settings : Settings) (filename : String) :
    (strictCompile source settings filename).warnings = (compile source settings filename).warnings ∧
      ((∃ text, (strictCompile source settings filename).result = .ok text ∧
          (compile source settings filename).result = .ok text) ∨
        ∃ e, (strictCompile source settings filename).result = .error (.reported e) ∧
          (compile source settings filename).result = .error e ∧ e.fault.code ∈ errorCodes ∧
          ∃ entry, Diagnostic.entry? e.fault.code = some entry ∧ entry.severity = .error ∧
            entry.category ≠ .internal) := by
  rw [Compilation.compile_eq_ofWork]
  have h := follows_work source settings filename
  refine ⟨congrArg Schema.Progress.warnings h.progress, ?_⟩
  have hresult : Agrees (strictCompile source settings filename).result
      (Compilation.ofWork (Compilation.work source settings filename)).result := h.result
  cases hcompile : (Compilation.ofWork (Compilation.work source settings filename)).result with
  | ok text =>
    rw [hcompile] at hresult
    exact .inl ⟨text, Outcome.agrees_ok_iff.mp hresult, rfl⟩
  | error e =>
    rw [hcompile] at hresult
    obtain ⟨hstrict, htext⟩ := Outcome.agrees_error_iff.mp hresult
    exact .inr ⟨e, hstrict, rfl, htext.code, htext.catalogued⟩

end XdrSchema
