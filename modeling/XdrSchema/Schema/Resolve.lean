import XdrSchema.Schema.CaseSet

/-! From a specification to its schema. Constants are evaluated first; then the types are resolved
depth first in the order of their definition. A definition that is met again while it is being
resolved holds itself, which no finite value can do; a reference through optional data or an array
of variable length only has to exist. -/
namespace XdrSchema.Schema

/-- The definitions resolved so far, the latest first, and the warnings in order. -/
structure Progress where
  done : List (String × Definition)
  warnings : List Diagnostic

/-- Work that may fail; what was done before a failure is kept. -/
abbrev Resolve := ExceptT SpecError (StateM Progress)

namespace Resolve

variable {α : Type}

def lift : Except SpecError α → Resolve α
  | .ok a => pure a
  | .error e => throw e

def fail (f : Fault) (span : Span) : Resolve α := throw ⟨f, some span⟩

def warn (c : Caution) (span : Option Span) : Resolve Unit :=
  modify fun p => { p with warnings := p.warnings ++ [c.diagnostic span] }

def finish (name : String) (d : Definition) : Resolve Unit :=
  modify fun p => { p with done := (name, d) :: p.done }

end Resolve

open Resolve

/-- A type with typedefs followed. A definition was resolved after those it refers to directly, so
the target of a typedef stands further on in the list. -/
def underlying : List (String × Definition) → Ty → Ty
  | [], t => t
  | (name, d) :: rest, .plain (.named ⟨target, .typedef⟩) =>
    if name = target then
      match d with
      | .typedef t => underlying rest t
      | _ => .plain (.named ⟨target, .typedef⟩)
    else underlying rest (.plain (.named ⟨target, .typedef⟩))
  | _ :: _, t => t

/-- What resolving needs of its surroundings: the symbols, and how to resolve the definition of a
type that is held directly. -/
structure Scope where
  symbols : List Symbol
  visit : String → Span → Resolve Unit

namespace Scope

variable (scope : Scope)

/-- The kind of a named type. -/
def kindOf (name : String) (span : Span) : Resolve TypeKind :=
  match Symbol.find? scope.symbols name with
  | some ⟨_, _, .type k _⟩ => return k
  | _ => fail (.undefined name) span

def bound (v : Spec.Value) : Resolve Nat := lift (Constant.bound scope.symbols v)

def bound? : Option Spec.Value → Resolve (Option Nat)
  | none => return none
  | some v => return some (← scope.bound v)

/-- A type that is held directly: its definition is resolved too. -/
def direct (b : Base String) (span : Span) : Resolve (Base Ref) :=
  match b with
  | .primitive p => return .primitive p
  | .named name => do
    let kind ← scope.kindOf name span
    scope.visit name span
    return .named ⟨name, kind⟩

/-- A type behind a link: it only has to exist. -/
def linked (b : Base String) (span : Span) : Resolve (Base Ref) :=
  match b with
  | .primitive p => return .primitive p
  | .named name => return .named ⟨name, ← scope.kindOf name span⟩

def type (t : Spec.Ty) (span : Span) : Resolve Ty :=
  match t with
  | .plain b => return .plain (← scope.direct b span)
  | .array b n => return .array (← scope.direct b span) (← scope.bound n)
  | .vector b n => return .vector (← scope.linked b span) (← scope.bound? n)
  | .optional b => return .optional (← scope.linked b span)
  | .fixedBytes n => return .fixedBytes (← scope.bound n)
  | .bytes n => return .bytes (← scope.bound? n)
  | .string n => return .string (← scope.bound? n)

def field (f : Spec.Field Spec.Ty) : Resolve Field :=
  return ⟨f.name, ← scope.type f.type f.nameSpan⟩

/-- The labels of an enumeration, given those before. -/
def labels (enum : String) (seen : List (String × Int)) :
    List Spec.Member → Resolve (List (String × Int))
  | [] => return seen
  | m :: rest => do
    let n ← lift (Constant.valueOf scope.symbols m.name (some m.span))
    if !Constant.isSigned32 n then fail (.notConstant m.name .wideLabel) m.span
    match labelOf? seen n with
    | some first => fail (.duplicateValue enum n first m.name) m.span
    | none => labels enum (seen ++ [(m.name, n)]) rest

def draft (a : Spec.Arm) : Resolve Variant.Draft := do
  let labels ← a.labels.mapM fun v => do
    return ⟨← lift (Constant.evaluate scope.symbols v), v.name?⟩
  return ⟨labels, a.payload.name?, a.span⟩

def payload (p : Spec.Payload) : Resolve (Option Field) :=
  match p with
  | .void _ => return none
  | .field f => return some (← scope.field f)

/-- The arms of a union under their names. -/
def arms : List (String × Variant.Draft × Spec.Arm) → Resolve (List Arm)
  | [] => return []
  | (variant, d, a) :: rest => do
    let field ← scope.payload a.payload
    return ⟨variant, d.labels, field⟩ :: (← arms rest)

/-- The labels of the enumeration that a selector names. -/
def enumLabels : Selector → Resolve (List (String × Int))
  | .enum name => do
    match (← get).done.lookup name with
    | some (.enum labels) => return labels
    | _ => return []
  | _ => return []

def union (name : String) (nameSpan : Span) (u : Spec.Union) : Resolve Union := do
  let d := u.discriminant
  let discriminant ← scope.direct d.type d.nameSpan
  let some selector := Selector.ofType? (underlying (← get).done (.plain discriminant))
    | fail (.caseSet name (.discriminant (d.type.text id))) d.nameSpan
  let enumLabels ← enumLabels selector
  let drafts ← u.arms.mapM scope.draft
  lift (CaseSet.check name selector enumLabels drafts)
  let names := Variant.assign u.default.isSome drafts
  let arms ← scope.arms (names.zip (drafts.zip u.arms))
  match u.default with
  | some p =>
    let default : Arm := ⟨Variant.defaultFor names, [], ← scope.payload p⟩
    return ⟨d.name, discriminant, selector, arms, some default⟩
  | none =>
    let missing := CaseSet.uncovered enumLabels (arms.flatMap Arm.values)
    if !missing.isEmpty then warn (.uncovered name missing) (some nameSpan)
    return ⟨d.name, discriminant, selector, arms, none⟩

def definition (d : Spec.Definition) : Resolve Definition :=
  match d.body with
  | .const _ => fail (.undefined d.name) d.nameSpan
  | .typedef t => return .typedef (← scope.type t d.nameSpan)
  | .struct fields => return .struct (← fields.mapM scope.field)
  | .enum members => return .enum (← scope.labels d.name [] members)
  | .union u => return .union (← scope.union d.name d.nameSpan u)

end Scope

/-- Resolves the definition of a type, unless that is done. `fresh` are the types that are not being
resolved and `path` those that are: a type is in one of them. -/
def visit (symbols : List Symbol) (fresh : List (TypeKind × Spec.Definition))
    (path : List String) (name : String) (span : Span) : Resolve Unit := do
  if ((← get).done.lookup name).isSome then return ()
  match _h : fresh.find? (·.2.name = name) with
  | none => fail (.cyclic (Constant.cycleAt path name)) span
  | some (_, d) =>
    let rest := fresh.eraseP (·.2.name = name)
    let scope : Scope := ⟨symbols, fun n s => visit symbols rest (path ++ [name]) n s⟩
    finish name (← scope.definition d)
termination_by fresh.length
decreasing_by
  have hmem := List.mem_of_find?_eq_some _h
  have hname := List.find?_some _h
  have := List.length_eraseP_of_mem (p := fun d => decide (d.2.name = name)) hmem hname
  have := List.length_pos_of_mem hmem
  omega

/-- Resolves all types in order. -/
def visitAll (symbols : List Symbol) : Resolve Unit :=
  let types := Symbol.types symbols
  types.forM fun (_, d) => visit symbols types [] d.name d.nameSpan

/-- The resolved definitions in the order of the specification. -/
def inOrder (types : List (TypeKind × Spec.Definition)) (done : List (String × Definition)) :
    List (String × Definition) :=
  types.filterMap fun (_, d) => (done.lookup d.name).map fun r => (d.name, r)

/-- What the analysis of a specification yields: its schema or the first fault, and the warnings
up to then. -/
structure Analysis where
  result : Except SpecError Schema
  warnings : List Diagnostic

def build (spec : Spec) : Resolve Schema := do
  let symbols := Symbol.ofSpec spec
  lift (Symbol.checkDistinct [] symbols)
  lift (Constant.checkAll symbols)
  visitAll symbols
  let types := Symbol.types symbols
  if types.isEmpty then warn .noTypes spec.span?
  return ⟨symbols, inOrder types (← get).done⟩

def analyze (spec : Spec) : Analysis :=
  let (result, progress) := (build spec).run.run ⟨[], []⟩
  ⟨result, progress.warnings⟩

end XdrSchema.Schema
