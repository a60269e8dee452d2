import XdrSchema.Wire.Size

/-! Sizes by need. The size of a definition is computed when it is first asked for, and kept. A
definition that is met again while its size is being computed counts as unknown; the sizes of those
in between rest on that and are not kept. -/
namespace XdrSchema.Wire

open Schema (Definition)

/-- Why a name has no size. -/
inductive NoSize
  | undefined (name : String)
  | notType (name : String)

/-- The sizes that are settled, and the definitions in progress whose size rests on an unknown
one. -/
structure Sizing where
  settled : List (String × Size)
  tentative : List String

namespace Sizing

/-- Before the first question. -/
def empty : Sizing := ⟨[], []⟩

/-- An answer, or why there is none. What was found out by then is kept. -/
abbrev Query := ExceptT NoSize (StateM Sizing)

/-- The definition of a type. -/
def definition (s : Schema) (name : String) : Except NoSize Definition :=
  match Symbol.find? s.symbols name, s.definition? name with
  | none, _ => throw (.undefined name)
  | some _, none => throw (.notType name)
  | some _, some d => return d

/-- The definitions in progress that were begun after a given one. -/
def begunAfter (stack : List String) (name : String) : List String :=
  (stack.dropWhile (· ≠ name)).tail

/-- Keeps a size, unless it is tentative. -/
def finish (name : String) (size : Size) : Query Unit :=
  modify fun st =>
    if name ∈ st.tentative then { st with tentative := st.tentative.filter (· ≠ name) }
    else { st with settled := (name, size) :: st.settled }

theorem mem_typeNames_of_definition {s : Schema} {name : String} {d : Definition}
    (h : definition s name = .ok d) : name ∈ s.typeNames := by
  unfold definition at h
  split at h
  · cases h
  · cases h
  · rename_i hd
    obtain ⟨l, r, hl, -⟩ := List.lookup_eq_some_iff.mp hd
    simp [Schema.typeNames, hl]

/-- The size of a name, while those on `stack` are being computed, the first one begun first. -/
def sizeOf (s : Schema) (stack : List String) (name : String) : Query Size := do
  match (← get).settled.lookup name with
  | some size => return size
  | none =>
    if _hs : name ∈ stack then
      modify fun st => { st with tentative := st.tentative ++ begunAfter stack name }
      return Size.unknown
    else
      match _hd : definition s name with
      | .error e => throw e
      | .ok d =>
        let size ← Size.ofDefinition (fun n => sizeOf s (stack ++ [name]) n) d
        finish name size
        return size
termination_by (s.typeNames.filter (· ∉ stack)).length
decreasing_by
  have hfewer : s.typeNames.filter (· ∉ stack ++ [name])
      = (s.typeNames.filter (· ∉ stack)).filter (· ≠ name) := by
    rw [List.filter_filter]
    congr 1
    funext n
    simp [not_or, and_comm]
  rw [hfewer, List.length_filter_lt_length_iff_exists]
  exact ⟨name, by simp [mem_typeNames_of_definition _hd, _hs], by simp⟩

/-- The answer to a question, and what is known after it. -/
def ask (s : Schema) (name : String) (known : Sizing) : Except NoSize Size × Sizing :=
  (sizeOf s [] name).run.run known

/-- The answers to questions that are asked one after another. -/
def answers (s : Schema) : List String → Sizing → List (Except NoSize Size)
  | [], _ => []
  | name :: rest, known =>
    let (answer, known) := ask s name known
    answer :: answers s rest known

end Sizing

/-- The size of a named type of a schema. -/
def size? (s : Schema) (name : String) : Except NoSize Size := (Sizing.ask s name Sizing.empty).1

end XdrSchema.Wire
