import Mathlib.Data.Set.List
import XdrSchema.Proofs.Settings.Document

/-! Strict reading of settings takes every value for what it may be. A value has to be asked of which kind it is before
it is used as one: to look into what is no table, to go through what is no array or to take what is no text for one is
misuse, and so is to fetch what is not there. Reading a document never ends in misuse: it gives settings or a fault.
Main statement: `validated`. -/
namespace XdrSchema.Settings

inductive Misuse
  | notTable (v : Toml)
  | notArray (v : Toml)
  | notText (v : Toml)
  | missing (name : String)

inductive Trouble
  | refused (f : Fault)
  | misuse (m : Misuse)

/-- Settings whose values are still of any kind. -/
structure Loose where
  annotations : Toml
  typeAnnotations : Toml
  support : Toml
  supportPath : Toml

def loose (s : Settings) : Loose where
  annotations := ofTexts s.annotations
  typeAnnotations := .table (s.typeAnnotations.map fun entry => (entry.1, ofTexts entry.2))
  support := .boolean s.support
  supportPath := .string s.supportPath

/-! ### Use of values -/

def asTable : Toml → Except Trouble (List (String × Toml))
  | .table entries => return entries
  | v => throw (.misuse (.notTable v))

def asArray : Toml → Except Trouble (List Toml)
  | .array items => return items
  | v => throw (.misuse (.notArray v))

def asText : Toml → Except Trouble String
  | .string s => return s
  | v => throw (.misuse (.notText v))

def has (v : Toml) (name : String) : Except Trouble Bool := do return ((← asTable v).lookup name).isSome

/-- What stands under a name, which has to be there. -/
def fetch (v : Toml) (name : String) : Except Trouble Toml := do
  match (← asTable v).lookup name with
  | some inner => return inner
  | none => throw (.misuse (.missing name))

/-! ### Strict steps -/

def isTable : Toml → Bool
  | .table _ => true
  | _ => false

def isArray : Toml → Bool
  | .array _ => true
  | _ => false

def isText : Toml → Bool
  | .string _ => true
  | _ => false

def isBoolean : Toml → Bool
  | .boolean _ => true
  | _ => false

/-- A value of a kind, which is not used otherwise. -/
def strictKind (isKind : Toml → Bool) (f : Fault) (v : Toml) : Except Trouble Toml :=
  if isKind v then return v else throw (.refused f)

def strictTable (v : Toml) (name path : String) : Except Trouble Toml := do
  strictKind isTable (.notTable path) (((← asTable v).lookup name).getD (.table []))

def strictTexts (list : AnnotationList) (v : Toml) : Except Trouble Toml := do
  if !isArray v then throw (.refused (.notStrings list))
  if !(← asArray v).all isText then throw (.refused (.notStrings list))
  return .array (← asArray v)

def strictValueOr (v : Toml) (name : String) (d : Toml) (readValue : Toml → Except Trouble Toml) :
    Except Trouble Toml := do
  if ← has v name then readValue (← fetch v name) else return d

def strictTypes (v : Toml) : Except Trouble Toml := do
  return .table (← (← asTable v).mapM fun (name, v) => do return (name, ← strictTexts (.type name) v))

def strictRead (document : Toml) : Except Trouble Loose := do
  let annotations ← strictTable document "annotations" "annotations"
  let generation ← strictTable document "codegen" "codegen"
  let types ← strictTable annotations "types" "annotations.types"
  let forAll ← strictValueOr annotations "default" default.loose.annotations (strictTexts .default)
  let forTypes ← strictTypes types
  let support ← strictValueOr generation "prelude" default.loose.support (strictKind isBoolean .supportKind)
  let supportPath ←
    strictValueOr generation "prelude_path" default.loose.supportPath (strictKind isText .supportPathKind)
  return ⟨forAll, forTypes, support, supportPath⟩

def strictAnnotations (list : AnnotationList) (v : Toml) : Except Trouble Unit := do
  (← asArray v).forM fun a => do
    let text ← asText a
    if isAnnotation text then pure () else throw (.refused (.notAttribute list text))

def strictCheck (s : Loose) : Except Trouble Unit := do
  let path ← asText s.supportPath
  if !Rust.isPath path.toList then throw (.refused (.supportPath path))
  strictAnnotations .default s.annotations
  (← asTable s.typeAnnotations).forM fun (name, v) => strictAnnotations (.type name) v

def strictOfToml (document : Toml) : Except Trouble Loose := do
  let s ← strictRead document
  strictCheck s
  return s

/-! ### Agreement -/

section

variable {α β γ δ : Type}

/-- What a step is when it is strict: the same but for how its results look. -/
def strictly (g : α → β) : Except Fault α → Except Trouble β
  | .ok a => .ok (g a)
  | .error f => .error (.refused f)

theorem strictly_bind {g : α → β} {h : γ → δ} {x : Except Fault α} {f : α → Except Fault γ}
    {f' : β → Except Trouble δ} (hf : ∀ a, f' (g a) = strictly h (f a)) :
    strictly g x >>= f' = strictly h (x >>= f) := by
  cases x with
  | ok a => exact hf a
  | error e => rfl

theorem strictly_mapM {g : α → β} {f : γ → Except Fault α} {f' : γ → Except Trouble β}
    (hf : ∀ c, f' c = strictly g (f c)) (cs : List γ) : cs.mapM f' = strictly (List.map g) (cs.mapM f) := by
  induction cs with
  | nil => rfl
  | cons c cs ih =>
    rw [List.mapM_cons, List.mapM_cons, hf, ih]
    exact strictly_bind fun b => strictly_bind fun bs => rfl

theorem strictly_forM {g : α → β} {f : α → Except Fault Unit} {f' : β → Except Trouble Unit}
    (hf : ∀ a, f' (g a) = strictly id (f a)) (as : List α) : (as.map g).forM f' = strictly id (as.forM f) := by
  induction as with
  | nil => rfl
  | cons a as ih =>
    change f' (g a) >>= (fun _ => (as.map g).forM f') = strictly id (f a >>= fun _ => as.forM f)
    rw [hf]
    exact strictly_bind fun _ => ih

end

variable {entries : List (String × Toml)}

theorem strictTable_eq (entries : List (String × Toml)) (name path : String) :
    strictTable (.table entries) name path = strictly .table (tableAt entries name path) := by
  change strictKind isTable (.notTable path) ((entries.lookup name).getD (.table [])) = _
  unfold tableAt
  cases entries.lookup name with
  | none => rfl
  | some v => cases v <;> rfl

theorem strictBoolean_eq (v : Toml) :
    strictKind isBoolean .supportKind v = strictly .boolean (booleanOf v) := by
  cases v <;> rfl

theorem strictText_eq (v : Toml) : strictKind isText .supportPathKind v = strictly .string (textOf v) := by
  cases v <;> rfl

theorem all_isText_iff {items : List Toml} :
    items.all isText = true ↔ ∃ found : List String, items = found.map .string := by
  have hrange : (∃ found : List String, items = found.map .string) ↔ items ∈ Set.range (List.map Toml.string) :=
    exists_congr fun _ => eq_comm
  rw [hrange, Set.range_list_map, List.all_eq_true]
  refine forall₂_congr fun v _ => ?_
  cases v with
  | string s => exact ⟨fun _ => ⟨s, rfl⟩, fun _ => rfl⟩
  | _ => exact ⟨nofun, nofun⟩

theorem strictTexts_eq (list : AnnotationList) (v : Toml) :
    strictTexts list v = strictly ofTexts (annotationsOf list v) := by
  unfold annotationsOf
  cases v with
  | array items =>
    change (if (!items.all isText) = true then Except.error (Trouble.refused (.notStrings list)) else
      .ok (Toml.array items)) = _
    cases htexts : (Toml.array items).strings? with
    | none =>
      rw [if_pos]
      · rfl
      · rw [Bool.not_eq_true', Bool.eq_false_iff, ne_eq, all_isText_iff]
        rintro ⟨found, rfl⟩
        cases (strings?_eq_some_iff.mpr rfl).symm.trans htexts
    | some found =>
      cases strings?_eq_some_iff.mp htexts
      rw [all_isText_iff.mpr ⟨found, rfl⟩]
      rfl
  | _ => rfl

theorem strictValueOr_eq {α : Type} {g : α → Toml} {readValue : Toml → Except Fault α}
    {readValue' : Toml → Except Trouble Toml} (h : ∀ v, readValue' v = strictly g (readValue v)) (name : String)
    (d : α) : strictValueOr (.table entries) name (g d) readValue' = strictly g (valueOr entries name d readValue) := by
  change (if (entries.lookup name).isSome then
    (match entries.lookup name with
      | some v => return v
      | none => throw (.misuse (.missing name))) >>= readValue' else return g d) = _
  unfold valueOr
  cases entries.lookup name with
  | none => rfl
  | some v => exact h v

theorem strictTypes_eq (entries : List (String × Toml)) :
    strictTypes (.table entries) =
      strictly (fun types => .table (types.map fun entry => (entry.1, ofTexts entry.2))) (typesOf entries) := by
  have hentry (entry : String × Toml) : (do return (entry.1, ← strictTexts (.type entry.1) entry.2)) =
      strictly (fun new : String × List String => (new.1, ofTexts new.2))
        (do return (entry.1, ← annotationsOf (.type entry.1) entry.2)) := by
    rw [strictTexts_eq]
    exact strictly_bind fun _ => rfl
  change (entries.mapM fun entry => do return (entry.1, ← strictTexts (.type entry.1) entry.2)) >>=
    (fun types => pure (Toml.table types)) = _
  rw [strictly_mapM hentry]
  unfold typesOf
  cases entries.mapM fun entry => do return (entry.1, ← annotationsOf (.type entry.1) entry.2) <;> rfl

theorem strictRead_eq (document : List (String × Toml)) :
    strictRead (.table document) = strictly loose (read document) := by
  unfold strictRead read
  rw [strictTable_eq]
  refine strictly_bind fun annotations => ?_
  rw [strictTable_eq]
  refine strictly_bind fun generation => ?_
  rw [strictTable_eq]
  refine strictly_bind fun types => ?_
  refine (congrArg (· >>= _) (strictValueOr_eq (strictTexts_eq .default) "default" default.annotations)).trans ?_
  refine strictly_bind fun forAll => ?_
  rw [strictTypes_eq]
  refine strictly_bind fun forTypes => ?_
  refine (congrArg (· >>= _) (strictValueOr_eq strictBoolean_eq "prelude" default.support)).trans ?_
  refine strictly_bind fun support => ?_
  refine (congrArg (· >>= _) (strictValueOr_eq strictText_eq "prelude_path" default.supportPath)).trans ?_
  exact strictly_bind fun supportPath => rfl

theorem strictAnnotations_eq (list : AnnotationList) (annotations : List String) :
    strictAnnotations list (ofTexts annotations) = strictly id (checkAnnotations list annotations) := by
  refine strictly_forM (fun a => ?_) annotations
  change (if isAnnotation a then _ else _) = _
  split <;> rfl

theorem strictCheck_eq (s : Settings) : strictCheck s.loose = strictly id s.check := by
  unfold check
  change (if (!Rust.isPath s.supportPath.toList) = true then _ else _) = _
  split
  · rfl
  · refine (congrArg (· >>= _) (strictAnnotations_eq .default s.annotations)).trans (strictly_bind fun _ => ?_)
    exact strictly_forM (fun entry => strictAnnotations_eq (.type entry.1) entry.2) s.typeAnnotations

theorem strictOfToml_eq (document : List (String × Toml)) :
    strictOfToml (.table document) = strictly loose (ofToml document) := by
  rw [ofToml_eq, strictOfToml, strictRead_eq]
  refine strictly_bind fun s => ?_
  rw [strictCheck_eq]
  exact strictly_bind fun _ => rfl

/-- Every document has settings or is refused for a flaw, and no value is misused on the way. The settings are what the
document says, of the form that is asked for, but that a line feed may follow the path. Without such a line feed a
document has settings just when every value is of its kind and its form. -/
theorem validated (document : List (String × Toml)) :
    ((∃ s, strictOfToml (.table document) = .ok s.loose ∧ ofToml document = .ok s ∧ Admissible s ∧ Says document s ∧
          ∀ name, Stated (typeEntries document) name (· = ofTexts (s.annotationsFor name))
            (s.annotationsFor name = s.annotations)) ∨
        ∃ f, strictOfToml (.table document) = .error (.refused f) ∧ ofToml document = .error f ∧ Flaw document f) ∧
      ((∃ s, ofToml document = .ok s ∧ Rust.IsPath s.supportPath.toList) ↔
        WellTyped document ∧ WellFormed document) := by
  refine ⟨?_, exists_isPath_iff⟩
  rw [strictOfToml_eq]
  cases hdocument : ofToml document with
  | ok s =>
    obtain ⟨-, hsaid, hadmissible⟩ := ofToml_eq_ok_iff.mp hdocument
    exact .inl ⟨s, rfl, rfl, hadmissible, hsaid, hsaid.annotationsFor⟩
  | error f => exact .inr ⟨f, rfl, rfl, flaw_of_ofToml document f hdocument⟩

def sampleDocument : List (String × Toml) :=
  [("annotations", .table [("default", .array [.string "#[derive(Debug)]"]),
      ("types", .table [("Point", .array [.string "#[derive(Debug, Clone, Copy, PartialEq, Eq)]"])])]),
    ("codegen", .table [("prelude", .boolean false), ("prelude_path", .string "crate::xdr_support")])]

def sampleSettings : Settings :=
  ⟨["#[derive(Debug)]"], [("Point", ["#[derive(Debug, Clone, Copy, PartialEq, Eq)]"])], false, "crate::xdr_support"⟩

theorem validated_sample :
    ofToml sampleDocument = .ok sampleSettings ∧ WellTyped sampleDocument ∧ WellFormed sampleDocument := by
  have hwords : ∀ word ∈ ["crate".toList, "xdr_support".toList], Rust.IsSegment word := by
    simp only [Rust.isSegment_iff]
    decide
  have hpath : Rust.IsPath sampleSettings.supportPath.toList := ⟨_, List.cons_ne_nil _ _, hwords, rfl⟩
  exact ⟨rfl, (validated sampleDocument).2.mp ⟨sampleSettings, rfl, hpath⟩⟩

/-- A path is accepted with a line feed after it, which is no path. -/
theorem accepts_path_with_line_end :
    ofToml [("codegen", .table [("prelude_path", .string "super\n")])] =
        .ok ⟨default.annotations, [], true, "super\n"⟩ ∧ ¬ Rust.IsPath "super\n".toList := by
  refine ⟨rfl, fun h => ?_⟩
  rcases h.mem '\n' (by simp) with heq | hc
  · cases heq
  · exact hc.ne (by decide) rfl

end XdrSchema.Settings
