import XdrSchema.Proofs.Chain
import XdrSchema.Proofs.Settings.Form

/-! Which documents are settings: those in which every value is of its kind and says what it may say. What is not
settings is refused for something in it, and the settings are what the document says, with the defaults where it says
nothing. Main statements: `ofToml_eq_ok_iff`, `flaw_of_ofToml`, `exists_isPath_iff`. -/
namespace XdrSchema.Settings

/-! ### Values -/

def IsTable (v : Toml) : Prop := ∃ entries, v = .table entries

/-- An array of texts. -/
def ofTexts (texts : List String) : Toml := .array (texts.map .string)

def IsTexts (v : Toml) : Prop := ∃ texts, v = ofTexts texts

def IsText (v : Toml) : Prop := ∃ s, v = .string s

def IsBoolean (v : Toml) : Prop := ∃ b, v = .boolean b

/-- What stands under a name, if anything does, has the property. -/
def Under (entries : List (String × Toml)) (name : String) (P : Toml → Prop) : Prop :=
  ∀ v, entries.lookup name = some v → P v

/-- The entries of the table under a name; none if there is no table. -/
def entriesAt (entries : List (String × Toml)) (name : String) : List (String × Toml) :=
  match entries.lookup name with
  | some (.table inner) => inner
  | _ => []

/-- The value under a name has the property `P`, or there is none and `Q` holds. -/
def Stated (entries : List (String × Toml)) (name : String) (P : Toml → Prop) (Q : Prop) : Prop :=
  match entries.lookup name with
  | some v => P v
  | none => Q

theorem mapM_string?_eq_some_iff {items : List Toml} {texts : List String} :
    items.mapM Toml.string? = some texts ↔ items = texts.map .string := by
  induction items generalizing texts with
  | nil => cases texts <;> simp
  | cons v items ih =>
    rw [List.mapM_cons, Option.bind_eq_bind, Option.bind_eq_some_iff]
    constructor
    · rintro ⟨s, hs, h⟩
      obtain ⟨rest, hrest, ⟨⟩⟩ := Option.bind_eq_some_iff.mp h
      cases v <;> cases hs
      rw [ih.mp hrest, List.map_cons]
    · intro h
      cases texts with
      | nil => cases h
      | cons s rest =>
        obtain ⟨rfl, hrest⟩ := List.cons.inj h
        exact ⟨s, rfl, Option.bind_eq_some_iff.mpr ⟨rest, ih.mpr hrest, rfl⟩⟩

theorem strings?_eq_some_iff {v : Toml} {texts : List String} :
    v.strings? = some texts ↔ v = ofTexts texts := by
  cases v with
  | array items => rw [Toml.strings?, mapM_string?_eq_some_iff, ofTexts, Toml.array.injEq]
  | _ => exact ⟨nofun, nofun⟩

theorem ofTexts_injective : Function.Injective ofTexts := fun _ _ h =>
  List.map_injective_iff.mpr (fun _ _ h => Toml.string.inj h) (Toml.array.inj h)

/-! ### Requirements -/

section

variable (document : List (String × Toml))

def annotationEntries : List (String × Toml) := entriesAt document "annotations"

def typeEntries : List (String × Toml) := entriesAt (annotationEntries document) "types"

def generationEntries : List (String × Toml) := entriesAt document "codegen"

/-- What is to be a table is one. -/
structure HasTables : Prop where
  annotations : Under document "annotations" IsTable
  generation : Under document "codegen" IsTable
  types : Under (annotationEntries document) "types" IsTable

/-- Every value that is looked at is of its kind. -/
structure WellTyped : Prop extends HasTables document where
  forAll : Under (annotationEntries document) "default" IsTexts
  forTypes : ∀ entry ∈ typeEntries document, IsTexts entry.2
  support : Under (generationEntries document) "prelude" IsBoolean
  supportPath : Under (generationEntries document) "prelude_path" IsText

/-- Every text is of its form. -/
structure WellFormed : Prop where
  supportPath : ∀ s, (generationEntries document).lookup "prelude_path" = some (.string s) → Rust.IsPath s.toList
  forAll : ∀ texts, (annotationEntries document).lookup "default" = some (ofTexts texts) → ∀ a ∈ texts, IsAttribute a
  forTypes : ∀ name texts, (name, ofTexts texts) ∈ typeEntries document → ∀ a ∈ texts, IsAttribute a

/-- What a fault is about. -/
inductive Flaw : Fault → Prop
  | annotations (h : ¬ Under document "annotations" IsTable) : Flaw (.notTable "annotations")
  | generation (h : ¬ Under document "codegen" IsTable) : Flaw (.notTable "codegen")
  | types (h : ¬ Under (annotationEntries document) "types" IsTable) : Flaw (.notTable "annotations.types")
  | forAll (h : ¬ Under (annotationEntries document) "default" IsTexts) : Flaw (.notStrings .default)
  | forType {name : String} {v : Toml} (hv : (name, v) ∈ typeEntries document) (h : ¬ IsTexts v) :
    Flaw (.notStrings (.type name))
  | support (h : ¬ Under (generationEntries document) "prelude" IsBoolean) : Flaw .supportKind
  | supportPathKind (h : ¬ Under (generationEntries document) "prelude_path" IsText) : Flaw .supportPathKind
  | supportPath {s : String} (hs : (generationEntries document).lookup "prelude_path" = some (.string s))
    (h : ¬ Rust.IsPath s.toList) : Flaw (.supportPath s)
  | notAttribute {texts : List String} {a : String}
    (htexts : (annotationEntries document).lookup "default" = some (ofTexts texts)) (ha : a ∈ texts)
    (h : ¬ IsAttribute a) : Flaw (.notAttribute .default a)
  | notTypeAttribute {name : String} {texts : List String} {a : String}
    (htexts : (name, ofTexts texts) ∈ typeEntries document) (ha : a ∈ texts) (h : ¬ IsAttribute a) :
    Flaw (.notAttribute (.type name) a)

/-- The settings are what the document says. -/
structure Says (s : Settings) : Prop where
  annotations : Stated (annotationEntries document) "default" (· = ofTexts s.annotations)
    (s.annotations = default.annotations)
  typeAnnotations : typeEntries document = s.typeAnnotations.map fun entry => (entry.1, ofTexts entry.2)
  support : Stated (generationEntries document) "prelude" (· = .boolean s.support) (s.support = default.support)
  supportPath : Stated (generationEntries document) "prelude_path" (· = .string s.supportPath)
    (s.supportPath = default.supportPath)

end

/-- Every text in the settings is of its form, but a line feed may follow the path. -/
structure Admissible (s : Settings) : Prop where
  supportPath : ∃ path, Rust.IsPath path ∧ (s.supportPath.toList = path ∨ s.supportPath.toList = path ++ ['\n'])
  annotations : ∀ a ∈ s.annotations, IsAttribute a
  typeAnnotations : ∀ entry ∈ s.typeAnnotations, ∀ a ∈ entry.2, IsAttribute a

variable {document entries : List (String × Toml)} {s : Settings} {f : Fault}

theorem Stated.under {name : String} {P R : Toml → Prop} {Q : Prop} (h : Stated entries name P Q)
    (himp : ∀ v, P v → R v) : Under entries name R := by
  intro v hv
  rw [Stated, hv] at h
  exact himp v h

theorem Stated.lookup_or {name : String} {v : Toml} {Q : Prop} (h : Stated entries name (· = v) Q) :
    entries.lookup name = some v ∨ Q := by
  unfold Stated at h
  split at h
  · next hv => exact .inl (hv.trans (congrArg some h))
  · exact .inr h

theorem Flaw.not_wellFormed (h : Flaw document f) (htyped : WellTyped document) : ¬ WellFormed document := by
  intro hformed
  cases h with
  | annotations h => exact h htyped.annotations
  | generation h => exact h htyped.generation
  | types h => exact h htyped.types
  | forAll h => exact h htyped.forAll
  | forType hv h => exact h (htyped.forTypes _ hv)
  | support h => exact h htyped.support
  | supportPathKind h => exact h htyped.supportPath
  | supportPath hs h => exact h (hformed.supportPath _ hs)
  | notAttribute htexts ha h => exact h (hformed.forAll _ htexts _ ha)
  | notTypeAttribute htexts ha h => exact h (hformed.forTypes _ _ htexts _ ha)

theorem Says.wellTyped (h : Says document s) (htables : HasTables document) : WellTyped document where
  toHasTables := htables
  forAll := h.annotations.under fun _ hv => ⟨s.annotations, hv⟩
  forTypes := by
    intro entry hentry
    rw [h.typeAnnotations] at hentry
    obtain ⟨entry, -, rfl⟩ := List.mem_map.mp hentry
    exact ⟨entry.2, rfl⟩
  support := h.support.under fun _ hv => ⟨s.support, hv⟩
  supportPath := h.supportPath.under fun _ hv => ⟨s.supportPath, hv⟩

/-- A type has the annotations that stand under its name, or else those for all. -/
theorem Says.annotationsFor (h : Says document s) (name : String) : Stated (typeEntries document) name
    (· = ofTexts (s.annotationsFor name)) (s.annotationsFor name = s.annotations) := by
  have hlookup (l : List (String × List String)) :
      (l.map fun entry => (entry.1, ofTexts entry.2)).lookup name = (l.lookup name).map ofTexts := by
    induction l with
    | nil => rfl
    | cons entry l ih =>
      rw [List.map_cons, List.lookup_cons, List.lookup_cons]
      split
      · rfl
      · exact ih
  rw [Stated, h.typeAnnotations, hlookup, Settings.annotationsFor]
  cases s.typeAnnotations.lookup name <;> rfl

/-! ### Reading -/

theorem tableAt_eq_ok_iff {name path : String} {inner : List (String × Toml)} :
    tableAt entries name path = .ok inner ↔ Under entries name IsTable ∧ inner = entriesAt entries name := by
  unfold Under tableAt entriesAt
  cases entries.lookup name with
  | none => exact ⟨fun h => ⟨nofun, (Except.ok.inj h).symm⟩, fun ⟨_, h⟩ => congrArg Except.ok h.symm⟩
  | some v =>
    cases v with
    | table found =>
      refine ⟨fun h => ⟨?_, (Except.ok.inj h).symm⟩, fun ⟨_, h⟩ => congrArg Except.ok h.symm⟩
      rintro _ ⟨⟩
      exact ⟨found, rfl⟩
    | _ => exact ⟨nofun, fun ⟨h, _⟩ => nomatch h _ rfl⟩

theorem failsWith_tableAt (entries : List (String × Toml)) (name path : String) :
    FailsWith (fun f => f = .notTable path ∧ ¬ Under entries name IsTable) (tableAt entries name path) := by
  intro f hf
  refine ⟨?_, fun h => nomatch (tableAt_eq_ok_iff.mpr ⟨h, rfl⟩).symm.trans hf⟩
  unfold tableAt at hf
  split at hf
  · cases hf
  · cases hf
  · exact (Except.error.inj hf).symm

theorem annotationsOf_eq_ok_iff {list : AnnotationList} {v : Toml} {texts : List String} :
    annotationsOf list v = .ok texts ↔ v = ofTexts texts := by
  rw [← strings?_eq_some_iff, annotationsOf]
  cases v.strings? with
  | none => exact ⟨nofun, nofun⟩
  | some texts' => exact ⟨fun h => congrArg some (Except.ok.inj h), fun h => congrArg Except.ok (Option.some.inj h)⟩

theorem failsWith_annotationsOf (list : AnnotationList) (v : Toml) :
    FailsWith (fun f => f = .notStrings list ∧ ¬ IsTexts v) (annotationsOf list v) := by
  intro f hf
  have hnone : ¬ IsTexts v := by
    rintro ⟨texts, hv⟩
    cases (annotationsOf_eq_ok_iff.mpr hv).symm.trans hf
  rw [annotationsOf] at hf
  cases hv : v.strings? with
  | none =>
    rw [hv] at hf
    exact ⟨(Except.error.inj hf).symm, hnone⟩
  | some texts => exact (hnone ⟨texts, strings?_eq_some_iff.mp hv⟩).elim

def booleanOf : Toml → Except Fault Bool
  | .boolean b => return b
  | _ => throw .supportKind

def textOf : Toml → Except Fault String
  | .string s => return s
  | _ => throw .supportPathKind

theorem booleanOf_eq_ok_iff {v : Toml} {b : Bool} : booleanOf v = .ok b ↔ v = .boolean b := by
  cases v with
  | boolean b' => exact ⟨fun h => congrArg _ (Except.ok.inj h), fun h => congrArg _ (Toml.boolean.inj h)⟩
  | _ => exact ⟨nofun, nofun⟩

theorem textOf_eq_ok_iff {v : Toml} {s : String} : textOf v = .ok s ↔ v = .string s := by
  cases v with
  | string s' => exact ⟨fun h => congrArg _ (Except.ok.inj h), fun h => congrArg _ (Toml.string.inj h)⟩
  | _ => exact ⟨nofun, nofun⟩

theorem failsWith_booleanOf (v : Toml) : FailsWith (fun f => f = .supportKind ∧ ¬ IsBoolean v) (booleanOf v) := by
  cases v with
  | boolean b => exact failsWith_ok b
  | _ => exact failsWith_error ⟨rfl, nofun⟩

theorem failsWith_textOf (v : Toml) : FailsWith (fun f => f = .supportPathKind ∧ ¬ IsText v) (textOf v) := by
  cases v with
  | string s => exact failsWith_ok s
  | _ => exact failsWith_error ⟨rfl, nofun⟩

section ValueOr

variable {α : Type} {name : String} {a d : α} {readValue : Toml → Except Fault α}

/-- What stands under a name, or a default. -/
def valueOr (entries : List (String × Toml)) (name : String) (d : α) (readValue : Toml → Except Fault α) :
    Except Fault α :=
  match entries.lookup name with
  | some v => readValue v
  | none => return d

theorem valueOr_eq_ok_iff {P : Toml → Prop} (h : ∀ v, readValue v = .ok a ↔ P v) :
    valueOr entries name d readValue = .ok a ↔ Stated entries name P (a = d) := by
  unfold valueOr Stated
  cases entries.lookup name with
  | none => exact ⟨fun h => (Except.ok.inj h).symm, fun h => congrArg Except.ok h.symm⟩
  | some v => exact h v

theorem failsWith_valueOr {R : Toml → Prop} (h : ∀ v, FailsWith (fun e => e = f ∧ ¬ R v) (readValue v)) :
    FailsWith (fun e => e = f ∧ ¬ Under entries name R) (valueOr entries name d readValue) := by
  unfold valueOr Under
  cases entries.lookup name with
  | none => exact failsWith_ok d
  | some v => exact (h v).imp fun e he => ⟨he.1, fun hunder => he.2 (hunder v rfl)⟩

end ValueOr

def typesOf (entries : List (String × Toml)) : Except Fault (List (String × List String)) :=
  entries.mapM fun (name, v) => do return (name, ← annotationsOf (.type name) v)

theorem typesOf_eq_ok_iff {forTypes : List (String × List String)} : typesOf entries = .ok forTypes ↔
    entries = forTypes.map fun entry => (entry.1, ofTexts entry.2) := by
  rw [typesOf, mapM_eq_ok_iff, ← List.forall₂_eq_eq_eq, List.forall₂_map_right_iff]
  refine iff_of_eq (congrArg (List.Forall₂ · entries forTypes) (funext₂ fun entry new => propext ?_))
  obtain ⟨name, v⟩ := entry
  obtain ⟨name', texts⟩ := new
  rw [Prod.mk.injEq, bind_eq_ok_iff]
  constructor
  · rintro ⟨_, htexts, ⟨⟩⟩
    exact ⟨rfl, annotationsOf_eq_ok_iff.mp htexts⟩
  · rintro ⟨rfl, hv⟩
    exact ⟨texts, annotationsOf_eq_ok_iff.mpr hv, rfl⟩

theorem failsWith_typesOf (entries : List (String × Toml)) :
    FailsWith (fun f => ∃ entry ∈ entries, f = .notStrings (.type entry.1) ∧ ¬ IsTexts entry.2) (typesOf entries) := by
  refine failsWith_mapM fun entry hentry => FailsWith.bind ?_ fun _ _ => failsWith_ok _
  exact (failsWith_annotationsOf (.type entry.1) entry.2).imp fun _ hf => ⟨entry, hentry, hf⟩

/-- The settings of a document, before what they say is checked. -/
def read (document : List (String × Toml)) : Except Fault Settings := do
  let annotations ← tableAt document "annotations" "annotations"
  let generation ← tableAt document "codegen" "codegen"
  let types ← tableAt annotations "types" "annotations.types"
  let forAll ← valueOr annotations "default" default.annotations (annotationsOf .default)
  let forTypes ← typesOf types
  let support ← valueOr generation "prelude" default.support booleanOf
  let supportPath ← valueOr generation "prelude_path" default.supportPath textOf
  return ⟨forAll, forTypes, support, supportPath⟩

theorem ofToml_eq (document : List (String × Toml)) :
    ofToml document = read document >>= fun s => s.check >>= fun _ => pure s := by
  simp only [ofToml, read, bind_assoc, pure_bind]
  refine bind_congr fun annotations => bind_congr fun generation => bind_congr fun types => ?_
  unfold valueOr
  cases annotations.lookup "default" <;> rcases generation.lookup "prelude" with _ | _ | _ <;>
    rcases generation.lookup "prelude_path" with _ | _ | _ <;> rfl

theorem read_eq_ok_iff : read document = .ok s ↔ HasTables document ∧ Says document s := by
  simp only [read, bind_eq_ok_iff, tableAt_eq_ok_iff, valueOr_eq_ok_iff fun _ => annotationsOf_eq_ok_iff,
    typesOf_eq_ok_iff, valueOr_eq_ok_iff fun _ => booleanOf_eq_ok_iff, valueOr_eq_ok_iff fun _ => textOf_eq_ok_iff]
  constructor
  · rintro ⟨_, ⟨hannotations, rfl⟩, _, ⟨hgeneration, rfl⟩, _, ⟨htypes, rfl⟩, _, hforAll, _, hforTypes, _, hsupport, _,
      hpath, ⟨⟩⟩
    exact ⟨⟨hannotations, hgeneration, htypes⟩, ⟨hforAll, hforTypes, hsupport, hpath⟩⟩
  · rintro ⟨htables, hsaid⟩
    exact ⟨_, ⟨htables.annotations, rfl⟩, _, ⟨htables.generation, rfl⟩, _, ⟨htables.types, rfl⟩, _, hsaid.annotations,
      _, hsaid.typeAnnotations, _, hsaid.support, _, hsaid.supportPath, rfl⟩

theorem flaw_of_read (document : List (String × Toml)) : FailsWith (Flaw document) (read document) := by
  unfold read
  refine FailsWith.bind ((failsWith_tableAt _ _ _).imp ?_) fun annotations hannotations => ?_
  · rintro _ ⟨rfl, h⟩
    exact .annotations h
  obtain ⟨-, rfl⟩ := tableAt_eq_ok_iff.mp hannotations
  refine FailsWith.bind ((failsWith_tableAt _ _ _).imp ?_) fun generation hgeneration => ?_
  · rintro _ ⟨rfl, h⟩
    exact .generation h
  obtain ⟨-, rfl⟩ := tableAt_eq_ok_iff.mp hgeneration
  refine FailsWith.bind ((failsWith_tableAt _ _ _).imp ?_) fun types htypes => ?_
  · rintro _ ⟨rfl, h⟩
    exact .types h
  obtain ⟨-, rfl⟩ := tableAt_eq_ok_iff.mp htypes
  refine FailsWith.bind ((failsWith_valueOr (failsWith_annotationsOf _)).imp ?_) fun _ _ => ?_
  · rintro _ ⟨rfl, h⟩
    exact .forAll h
  refine FailsWith.bind ((failsWith_typesOf _).imp ?_) fun _ _ => ?_
  · rintro _ ⟨entry, hentry, rfl, h⟩
    exact .forType hentry h
  refine FailsWith.bind ((failsWith_valueOr failsWith_booleanOf).imp ?_) fun _ _ => ?_
  · rintro _ ⟨rfl, h⟩
    exact .support h
  refine FailsWith.bind ((failsWith_valueOr failsWith_textOf).imp ?_) fun _ _ => failsWith_ok _
  rintro _ ⟨rfl, h⟩
  exact .supportPathKind h

/-! ### Checking -/

theorem checkAnnotations_eq_ok_iff {list : AnnotationList} {texts : List String} :
    checkAnnotations list texts = .ok () ↔ ∀ a ∈ texts, IsAttribute a := by
  rw [checkAnnotations, forM_eq_ok_iff]
  refine forall₂_congr fun a _ => ?_
  rw [← isAnnotation_iff]
  cases isAnnotation a with
  | true => exact ⟨fun _ => rfl, fun _ => rfl⟩
  | false => exact ⟨nofun, nofun⟩

theorem failsWith_checkAnnotations (list : AnnotationList) (texts : List String) :
    FailsWith (fun f => ∃ a ∈ texts, f = .notAttribute list a ∧ ¬ IsAttribute a) (checkAnnotations list texts) := by
  refine failsWith_forM fun a ha => ?_
  split
  · exact failsWith_ok ()
  · next h => exact failsWith_error ⟨a, ha, rfl, mt isAnnotation_iff.mpr h⟩

theorem check_eq_ok_iff : s.check = .ok () ↔ Admissible s := by
  rw [check, guard_eq_ok, Bool.not_eq_true, Bool.not_eq_false', Rust.isPath_iff, bind_unit_eq_ok_iff,
    checkAnnotations_eq_ok_iff, forM_eq_ok_iff]
  simp only [checkAnnotations_eq_ok_iff]
  exact ⟨fun ⟨hpath, hforAll, hforTypes⟩ => ⟨hpath, hforAll, hforTypes⟩, fun h => ⟨h.1, h.2, h.3⟩⟩

theorem default_admissible : Admissible default :=
  check_eq_ok_iff.mp rfl

/-- The defaults are of their form, so that a text that is not stands in the document. -/
theorem flaw_of_check (hsaid : Says document s) : FailsWith (Flaw document) s.check := by
  unfold check
  refine failsWith_guard (fun hpath => ?_) fun _ => FailsWith.bind ?_ fun _ _ => failsWith_forM fun entry hentry => ?_
  · rw [Bool.not_eq_true', Bool.eq_false_iff, ne_eq, Rust.isPath_iff] at hpath
    rcases hsaid.supportPath.lookup_or with hv | hdefault
    · exact .supportPath hv fun h => hpath ⟨_, h, .inl rfl⟩
    · rw [hdefault] at hpath
      exact (hpath default_admissible.supportPath).elim
  · refine (failsWith_checkAnnotations _ _).imp ?_
    rintro _ ⟨a, ha, rfl, hattribute⟩
    rcases hsaid.annotations.lookup_or with hv | hdefault
    · exact .notAttribute hv ha hattribute
    · rw [hdefault] at ha
      exact (hattribute (default_admissible.annotations a ha)).elim
  · refine (failsWith_checkAnnotations _ _).imp ?_
    rintro _ ⟨a, ha, rfl, hattribute⟩
    refine .notTypeAttribute ?_ ha hattribute
    rw [hsaid.typeAnnotations]
    exact List.mem_map_of_mem hentry

/-! ### Settings of a document -/

/-- If its tables are tables, a document has the settings that say the same and are of their form. -/
theorem ofToml_eq_ok_iff : ofToml document = .ok s ↔ HasTables document ∧ Says document s ∧ Admissible s := by
  simp only [ofToml_eq, bind_eq_ok_iff, read_eq_ok_iff]
  constructor
  · rintro ⟨s, ⟨htables, hsaid⟩, _, hcheck, ⟨⟩⟩
    exact ⟨htables, hsaid, check_eq_ok_iff.mp hcheck⟩
  · rintro ⟨htables, hsaid, hadmissible⟩
    exact ⟨s, ⟨htables, hsaid⟩, (), check_eq_ok_iff.mpr hadmissible, rfl⟩

/-- A document is refused for a flaw that it has. -/
theorem flaw_of_ofToml (document : List (String × Toml)) : FailsWith (Flaw document) (ofToml document) := by
  rw [ofToml_eq]
  refine (flaw_of_read document).bind fun s hs => ?_
  exact (flaw_of_check (read_eq_ok_iff.mp hs).2).bind fun _ _ => failsWith_ok s

theorem isPath_default : Rust.IsPath default.supportPath.toList :=
  ⟨["super".toList], List.cons_ne_nil _ _, List.forall_mem_singleton.mpr (Rust.isSegment_iff.mpr rfl), rfl⟩

theorem WellFormed.isPath (h : WellFormed document) (hsaid : Says document s) :
    Rust.IsPath s.supportPath.toList := by
  rcases hsaid.supportPath.lookup_or with hv | hdefault
  · exact h.supportPath _ hv
  · rw [hdefault]
    exact isPath_default

theorem Says.wellFormed (h : Says document s) (hadmissible : Admissible s)
    (hpath : Rust.IsPath s.supportPath.toList) : WellFormed document where
  supportPath := by
    intro path hlookup
    have hstated := h.supportPath
    rw [Stated, hlookup] at hstated
    cases hstated
    exact hpath
  forAll := by
    intro texts hlookup
    have hstated := h.annotations
    rw [Stated, hlookup] at hstated
    rw [ofTexts_injective hstated]
    exact hadmissible.annotations
  forTypes := by
    intro name texts hmem
    rw [h.typeAnnotations] at hmem
    obtain ⟨entry, hentry, heq⟩ := List.mem_map.mp hmem
    rw [← ofTexts_injective (Prod.mk.inj heq).2]
    exact hadmissible.typeAnnotations entry hentry

/-- What is of its kind and its form has settings, and but for a line feed after the path nothing else has. -/
theorem exists_isPath_iff : (∃ s, ofToml document = .ok s ∧ Rust.IsPath s.supportPath.toList) ↔
    WellTyped document ∧ WellFormed document := by
  constructor
  · rintro ⟨s, hs, hpath⟩
    obtain ⟨htables, hsaid, hadmissible⟩ := ofToml_eq_ok_iff.mp hs
    exact ⟨hsaid.wellTyped htables, hsaid.wellFormed hadmissible hpath⟩
  · rintro ⟨htyped, hformed⟩
    cases hdocument : ofToml document with
    | ok s => exact ⟨s, rfl, hformed.isPath (ofToml_eq_ok_iff.mp hdocument).2.1⟩
    | error f => exact ((flaw_of_ofToml document f hdocument).not_wellFormed htyped hformed).elim

end XdrSchema.Settings
