import XdrSchema.Cli.Command
import XdrSchema.Proofs.Cli.FileTree
import XdrSchema.Proofs.Order
import XdrSchema.Proofs.Schema.Coverage

/-! What a run of the command comes to, on whatever files. A run that fails leaves the files as they were and
prints no module; any other run delivers just what compiling the text gives. A run does not end by an exit code of its
own where the settings are there and cannot be read, where a path has a null character, and where a number has too many
digits. Main statement: `all_or_nothing`. -/
namespace XdrSchema.Cli

/-! ### Runs -/

/-- Files that can be read and written, wherever they are kept. To read changes nothing, nor does to write if it
fails. -/
structure Disk (σ : Type) where
  read : σ → String → Except FileError String
  write : σ → String → String → Except FileError σ

/-- What a run leaves behind, but for its reports. -/
structure Remains (σ : Type) where
  ending : Ending
  output : String
  files : σ

variable {σ : Type}

/-- Runs an action on a disk, after the given output. -/
def Action.runOn (d : Disk σ) (output : String) (files : σ) : Action → Remains σ
  | exit code => ⟨.exit code, output, files⟩
  | abort i => ⟨.abort i, output, files⟩
  | .output text next => next.runOn d (output ++ text) files
  | report _ next => next.runOn d output files
  | read path next => (next (d.read files path)).runOn d output files
  | write path text next =>
    match d.write files path text with
    | .ok files => (next (.ok ())).runOn d output files
    | .error e => (next (.error e)).runOn d output files

/-- Files in memory. -/
def FileTree.disk : Disk FileTree := ⟨FileTree.read, FileTree.write⟩

def Outcome.remains (r : Outcome) : Remains FileTree := ⟨r.ending, r.output, r.files⟩

theorem remains_runFrom (a : Action) (output report : String) (t : FileTree) :
    (a.runFrom output report t).remains = a.runOn FileTree.disk output t := by
  induction a generalizing output report t with
  | exit code => rfl
  | abort i => rfl
  | output text next ih => exact ih _ _ _
  | report text next ih => exact ih _ _ _
  | read path next ih => exact ih _ _ _ _
  | write path text next ih =>
    have hwrite : FileTree.disk.write t path text = t.write path text := rfl
    rw [Action.runFrom, Action.runOn, hwrite]
    cases t.write path text with
    | ok t' => exact ih _ _ _ _
    | error e => exact ih _ _ _ _

theorem remains_run (a : Action) (t : FileTree) : (a.run t).remains = a.runOn FileTree.disk "" t :=
  remains_runFrom a "" "" t

/-! ### Exit codes -/

theorem exitCode_of_error {c : Compilation} {e : SpecError} (h : c.result = .error e) :
    Diagnostic.exitCode c.diagnostics = 2 := by
  have hcount : 0 < Diagnostic.count .error c.diagnostics := by
    rw [Compilation.diagnostics, h, Diagnostic.count, List.countP_pos_iff]
    exact ⟨e.diagnostic, by simp, rfl⟩
  rw [Diagnostic.exitCode, if_pos hcount]

theorem exitCode_of_ok {c : Compilation} {text : String} (h : c.result = .ok text)
    (hwarnings : ∀ w ∈ c.warnings, w.severity = .warning) :
    Diagnostic.exitCode c.diagnostics = if c.warnings.isEmpty then 0 else 1 := by
  have herrors : Diagnostic.count .error c.warnings = 0 := by
    rw [Diagnostic.count, List.countP_eq_zero]
    intro w hw
    simp [hwarnings w hw]
  have hall : Diagnostic.count .warning c.warnings = c.warnings.length := by
    rw [Diagnostic.count, List.countP_eq_length]
    intro w hw
    simp [hwarnings w hw]
  rw [Compilation.diagnostics, h, Diagnostic.exitCode, herrors, hall, if_neg (Nat.lt_irrefl 0)]
  cases c.warnings <;> rfl

/-- An accepted text is warned about and nothing worse. -/
theorem severity_of_analyzeText {source : String} {s : Schema} (h : (Schema.analyzeText source).result = .ok s) :
    ∀ w ∈ (Schema.analyzeText source).warnings, w.severity = .warning := by
  unfold Schema.analyzeText at h ⊢
  split at h
  · cases h
  · next spec hspec =>
    intro w hw
    rw [(Schema.warnings_perm (Spec.proper_of_parse hspec) h).mem_iff, List.mem_append, List.mem_flatMap] at hw
    rcases hw with ⟨e, -, hw⟩ | hw
    · rw [Schema.cautionsOf_eq, Option.mem_toList, Option.map_eq_some_iff] at hw
      obtain ⟨gap, -, rfl⟩ := hw
      rfl
    · split at hw
      · rw [List.mem_singleton] at hw
        rw [hw]
        rfl
      · cases hw

/-! ### What is asked for -/

namespace Options

variable (o : Options)

def sourcePath : String := (Text.Path.parse o.source).text

def settingsPath : String := (Text.Path.parse o.settings).text

def outPath : String := (Text.Path.parse o.out).text

end Options

section Spec

variable (d : Disk σ) (files : σ) (o : Options)

/-- The source can be read. Line ends in it are line feeds. -/
def Reads (source : String) : Prop :=
  ∃ text, d.read files o.sourcePath = .ok text ∧ source = String.ofList (Text.unifyLineEnds true text.toList)

/-- The settings can be loaded: the default ones, if no file is given for them. -/
def Loads (s : Settings) : Prop :=
  ∃ s', (if o.settings.isEmpty then s' = Settings.default
    else ∃ text, d.read files o.settingsPath = .ok text ∧ Settings.parse text = .ok s') ∧
    s = if o.has .noSupport then { s' with support := false } else s'

/-- Why a run comes to nothing. -/
inductive Fails : Prop
  | source {e : FileError} (h : d.read files o.sourcePath = .error e)
  | settings (h : ∀ s, ¬ Loads d files o s)
  | compilation {source : String} {s : Settings} {e : SpecError} (hsource : Reads d files o source)
    (hsettings : Loads d files o s) (h : (XdrSchema.compile source s o.source).result = .error e)
  | out {source text : String} {s : Settings} {e : FileError} (hsource : Reads d files o source)
    (hsettings : Loads d files o s) (hcompile : (XdrSchema.compile source s o.source).result = .ok text)
    (hout : o.out.isEmpty = false) (h : d.write files o.outPath text = .error e)

/-- The number of too many digits that the dump of a specification would show. -/
def dumpOverlong? (source : String) : Option Number.Overlong :=
  match Spec.parse source with
  | .ok spec => if o.has .dumpSpec then Number.unwritable? spec.dumpNumbers else none
  | .error _ => none

/-- The number of too many digits at which a run ends: one in the dump of the specification, or else the one at which
the compilation ends. -/
def overlong? (source : String) (s : Settings) : Option Number.Overlong :=
  (dumpOverlong? o source).or (Compilation.overlong? source s o.source)

/-- What interrupts a run, so that it does not end by an exit code of its own. -/
inductive Escapes : Interruption → Prop
  | source (h : d.read files o.sourcePath = .error .nullCharacter) : Escapes (.file .nullCharacter o.sourcePath)
  | settings {source : String} {e : FileError} (hsource : Reads d files o source) (hgiven : o.settings.isEmpty = false)
    (h : d.read files o.settingsPath = .error e) (hthere : e.isAbsence = false) : Escapes (.file e o.settingsPath)
  | settingsNumber {source text : String} {n : Number.Overlong} (hsource : Reads d files o source)
    (hgiven : o.settings.isEmpty = false) (hread : d.read files o.settingsPath = .ok text)
    (h : Settings.parse text = .error (.overlong n)) : Escapes (.number n)
  | number {source : String} {s : Settings} {n : Number.Overlong} (hsource : Reads d files o source)
    (hsettings : Loads d files o s) (h : overlong? o source s = some n) : Escapes (.number n)
  | out {source text : String} {s : Settings} (hsource : Reads d files o source) (hsettings : Loads d files o s)
    (hnumbers : overlong? o source s = none) (hcompile : (XdrSchema.compile source s o.source).result = .ok text)
    (hout : o.out.isEmpty = false) (h : d.write files o.outPath text = .error .nullCharacter) :
    Escapes (.file .nullCharacter o.outPath)

end Spec

/-- In memory, a path interrupts a run if it has a null character, and that of the settings if it is a directory. -/
theorem escapes_file_iff {t : FileTree} {o : Options} {e : FileError} {path : String} :
    Escapes FileTree.disk t o (.file e path) ↔
      '\x00' ∈ o.sourcePath.toList ∧ e = .nullCharacter ∧ path = o.sourcePath ∨
      (∃ source, Reads FileTree.disk t o source) ∧ o.settings.isEmpty = false ∧
        t.find o.settingsPath = .ok .directory ∧ e = .isDirectory ∧ path = o.settingsPath ∨
      (∃ source s text, Reads FileTree.disk t o source ∧ Loads FileTree.disk t o s ∧ overlong? o source s = none ∧
        (XdrSchema.compile source s o.source).result = .ok text) ∧ o.out.isEmpty = false ∧
        '\x00' ∈ o.outPath.toList ∧ e = .nullCharacter ∧ path = o.outPath := by
  constructor
  · intro h
    cases h with
    | source h => exact .inl ⟨FileTree.read_eq_null_iff.mp h, rfl, rfl⟩
    | settings hsource hgiven h hthere =>
      obtain ⟨hfind, rfl⟩ := FileTree.read_eq_error_iff.mp ⟨h, hthere⟩
      exact .inr (.inl ⟨⟨_, hsource⟩, hgiven, hfind, rfl, rfl⟩)
    | out hsource hsettings hnumbers hcompile hout h =>
      exact .inr (.inr ⟨⟨_, _, _, hsource, hsettings, hnumbers, hcompile⟩, hout, FileTree.write_eq_null_iff.mp h,
        rfl, rfl⟩)
  · rintro (⟨hnull, rfl, rfl⟩ | ⟨⟨source, hsource⟩, hgiven, hfind, rfl, rfl⟩ |
      ⟨⟨source, s, text, hsource, hsettings, hnumbers, hcompile⟩, hout, hnull, rfl, rfl⟩)
    · exact .source (FileTree.read_eq_null_iff.mpr hnull)
    · obtain ⟨hread, hthere⟩ := FileTree.read_eq_error_iff.mpr ⟨hfind, rfl⟩
      exact .settings hsource hgiven hread hthere
    · exact .out hsource hsettings hnumbers hcompile hout (FileTree.write_eq_null_iff.mpr hnull)

namespace Command

/-- The dumps of a run, each as far as the run comes. -/
def dumped (o : Options) (source : String) (s : Settings) : String :=
  (match Concrete.parse source with
    | .ok tree => if o.has .dumpTree then (Concrete.outline tree).text 0 ++ "\n" else ""
    | .error _ => "") ++
  (match Spec.parse source, dumpOverlong? o source with
    | .ok spec, none => if o.has .dumpSpec then spec.dump ++ "\n\n" else ""
    | _, _ => "") ++
  match (Schema.analyzeText source).result, (XdrSchema.compile source s o.source).result, overlong? o source s with
    | .ok schema, .ok _, none => if o.has .dumpLayout then layoutText schema else ""
    | _, _, _ => ""

end Command

/-- What a run leaves behind is all or nothing. -/
structure AllOrNothing (d : Disk σ) (files : σ) (o : Options) (r : Remains σ) : Prop where
  ends : (∃ code ≤ 2, r.ending = .exit code) ∨ ∃ i, r.ending = .abort i
  escapes : ∀ i, r.ending = .abort i ↔ Escapes d files o i
  refuses : r.ending = .exit 2 ↔ Fails d files o ∧ ∀ i, ¬ Escapes d files o i
  unchanged : (Fails d files o ∨ ∃ i, Escapes d files o i) → r.files = files
  silent : (Fails d files o ∨ ∃ i, Escapes d files o i) → r.output = "" ∨
    ∃ source s, Reads d files o source ∧ Loads d files o s ∧ r.output = Command.dumped o source s
  delivers : ¬ Fails d files o → (∀ i, ¬ Escapes d files o i) →
    ∃ source s text warnings, Reads d files o source ∧ Loads d files o s ∧
      XdrSchema.compile source s o.source = ⟨.ok text, warnings⟩ ∧
      r.ending = .exit (if warnings.isEmpty then 0 else 1) ∧
      if o.out.isEmpty then r.files = files ∧ r.output = Command.dumped o source s ++ text
      else d.write files o.outPath text = .ok r.files ∧ r.output = Command.dumped o source s

/-! ### Stages -/

theorem compile_of_parse_error {source filename : String} {s : Settings} {e : SpecError}
    (h : Spec.parse source = .error e) : XdrSchema.compile source s filename = ⟨.error e, []⟩ := by
  rw [XdrSchema.compile, Schema.analyzeText, h]
  rfl

theorem compile_of_parse {source filename : String} {s : Settings} {spec : Spec} (h : Spec.parse source = .ok spec) :
    XdrSchema.compile source s filename = .ofAnalysis (Schema.analyze spec) s filename := by
  rw [XdrSchema.compile, Schema.analyzeText, h]

theorem overlong?_of_parse_error {source : String} {o : Options} {s : Settings} {e : SpecError}
    (h : Spec.parse source = .error e) : overlong? o source s = e.fault.overlong? := by
  rw [overlong?, dumpOverlong?, h, Compilation.overlong?, compile_of_parse_error h]
  rfl

theorem dumpOverlong?_of_parse {source : String} {o : Options} {spec : Spec} (h : Spec.parse source = .ok spec) :
    dumpOverlong? o source = if o.has .dumpSpec then Number.unwritable? spec.dumpNumbers else none := by
  rw [dumpOverlong?, h]

/-- No number is shown where no dump is asked for. -/
theorem dumpOverlong?_of_not_has {o : Options} (h : o.has .dumpSpec = false) (source : String) :
    dumpOverlong? o source = none := by
  unfold dumpOverlong?
  split
  · rw [if_neg (by simp [h])]
  · rfl

theorem overlong?_of_error {source : String} {o : Options} {s : Settings} {e : SpecError}
    (hdump : dumpOverlong? o source = none) (h : (XdrSchema.compile source s o.source).result = .error e) :
    overlong? o source s = e.fault.overlong? := by
  rw [overlong?, hdump, Option.none_or, Compilation.overlong?, h]

theorem overlong?_of_ok {source text : String} {o : Options} {s : Settings} {schema : Schema}
    (hdump : dumpOverlong? o source = none) (hschema : (Schema.analyzeText source).result = .ok schema)
    (h : (XdrSchema.compile source s o.source).result = .ok text) :
    overlong? o source s = Number.unwritable? (Wire.sizeNumbers schema) := by
  rw [overlong?, hdump, Option.none_or, Compilation.overlong?, h, hschema]
  rfl

namespace Command

variable (o : Options) (style : Report.Style) (d : Disk σ) (output : String) (files : σ)

@[simp] theorem runOn_refuse (message : String) :
    (refuse message).runOn d output files = ⟨.exit 2, output, files⟩ := rfl

theorem runOn_refuseFile (use path : String) (e : FileError) :
    (refuseFile use path e).runOn d output files =
      if e = .nullCharacter then ⟨.abort (.file e path), output, files⟩ else ⟨.exit 2, output, files⟩ := by
  unfold refuseFile
  split <;> rfl

@[simp] theorem runOn_unlessOverlong (n : Option Number.Overlong) (next : Action) :
    (unlessOverlong n next).runOn d output files =
      match n with
      | some n => ⟨.abort (.number n), output, files⟩
      | none => next.runOn d output files := by
  cases n <;> rfl

@[simp] theorem runOn_stage (message : String) (next : Action) :
    (stage o message next).runOn d output files = next.runOn d output files := by
  unfold stage
  split <;> rfl

@[simp] theorem runOn_dump (f : Flag) (text : String) (next : Action) :
    (dump o f text next).runOn d output files = next.runOn d (output ++ if o.has f then text else "") files := by
  unfold dump
  split
  · rfl
  · rw [String.append_empty]

@[simp] theorem runOn_conclude (source path : String) (c : Compilation) :
    (conclude style source path c).runOn d output files =
      ⟨.exit (Diagnostic.exitCode c.diagnostics), output, files⟩ := rfl

/-- What a run comes to once the text is compiled and the dumps are made. -/
def finished (source path : String) (s : Settings) : Remains σ :=
  match overlong? o source s, (XdrSchema.compile source s o.source).result with
  | some n, _ => ⟨.abort (.number n), output ++ dumped o source s, files⟩
  | none, .error _ => ⟨.exit 2, output ++ dumped o source s, files⟩
  | none, .ok text => (deliver o style source path text (XdrSchema.compile source s o.source).warnings).runOn d
      (output ++ dumped o source s) files

/-- A fault is reported, unless there is a number of too many digits in it. -/
theorem runOn_fault {source path before : String} {s : Settings} {e : SpecError} (warnings : List Diagnostic)
    (hresult : (XdrSchema.compile source s o.source).result = .error e)
    (hnumbers : overlong? o source s = e.fault.overlong?) (hbefore : before = output ++ dumped o source s) :
    (unlessOverlong e.fault.overlong? (conclude style source path ⟨.error e, warnings⟩)).runOn d before files =
      finished o style d output files source path s := by
  rw [finished, hnumbers, hresult, hbefore, runOn_unlessOverlong]
  cases e.fault.overlong? with
  | some n => rfl
  | none => rw [runOn_conclude, exitCode_of_error rfl]

/-- The stages of a run come to what compiling the text does, up to a number of too many digits. -/
theorem runOn_compile (source path : String) (s : Settings)
    (hpath : (Text.Path.parse path).name = (Text.Path.parse o.source).name) :
    (compile o style source path s).runOn d output files = finished o style d output files source path s := by
  unfold compile
  rw [runOn_stage]
  -- the cases are the stages at which a run can stop; what was dumped before is kept
  cases hparse : Concrete.parse source with
  | error e =>
    have hspec : Spec.parse source = .error e := by
      rw [Spec.parse, hparse]
      rfl
    refine runOn_fault o style d output files _ ?_ (overlong?_of_parse_error hspec) ?_
    · rw [compile_of_parse_error hspec]
    · simp [dumped, hparse, hspec, compile_of_parse_error hspec]
  | ok tree =>
    have hspec := Spec.parse_of_tree hparse
    dsimp only
    rw [runOn_dump]
    cases htree : Spec.ofTree tree with
    | error e =>
      rw [htree] at hspec
      refine runOn_fault o style d output files _ ?_ (overlong?_of_parse_error hspec) ?_
      · rw [compile_of_parse_error hspec]
      · simp [dumped, hparse, hspec, compile_of_parse_error hspec]
    | ok spec =>
      rw [htree] at hspec
      have hcompile : XdrSchema.compile source s o.source =
          ⟨(Schema.analyze spec).result.bind fun schema => Rust.generate schema s (Text.Path.parse path).name,
            (Schema.analyze spec).warnings⟩ := by
        rw [compile_of_parse hspec, Compilation.ofAnalysis, hpath]
      have hanalysis : Schema.analyzeText source = Schema.analyze spec := by rw [Schema.analyzeText, hspec]
      dsimp only
      rw [runOn_unlessOverlong, ← dumpOverlong?_of_parse hspec]
      cases hdump : dumpOverlong? o source with
      | some n =>
        have hnumbers : overlong? o source s = some n := by rw [overlong?, hdump, Option.some_or]
        simp [finished, dumped, hparse, hdump, hnumbers]
      | none =>
        dsimp only
        rw [runOn_dump, runOn_stage]
        cases hschema : (Schema.analyze spec).result with
        | error e =>
          have hresult : (XdrSchema.compile source s o.source).result = .error e := by
            rw [hcompile, hschema]
            rfl
          refine runOn_fault o style d output files _ hresult (overlong?_of_error hdump hresult) ?_
          simp [dumped, hparse, hspec, hdump, hresult, String.append_assoc]
        | ok schema =>
          dsimp only
          rw [runOn_stage]
          cases hmodule : Rust.generate schema s (Text.Path.parse path).name with
          | error e =>
            have hresult : (XdrSchema.compile source s o.source).result = .error e := by
              rw [hcompile, hschema]
              exact hmodule
            refine runOn_fault o style d output files _ hresult (overlong?_of_error hdump hresult) ?_
            simp [dumped, hparse, hspec, hdump, hresult, String.append_assoc]
          | ok module =>
            have hresult : (XdrSchema.compile source s o.source).result = .ok module := by
              rw [hcompile, hschema]
              exact hmodule
            have hwarnings : (XdrSchema.compile source s o.source).warnings = (Schema.analyze spec).warnings := by
              rw [hcompile]
            have hnumbers := overlong?_of_ok hdump (hanalysis ▸ hschema) hresult
            cases hsizes : Number.unwritable? (Wire.sizeNumbers schema) <;> rw [hsizes] at hnumbers <;>
              simp [finished, dumped, hparse, hspec, hdump, hnumbers, hresult, hanalysis, hschema, hwarnings,
                String.append_assoc]

theorem runOn_deliver (source path text : String) (warnings : List Diagnostic)
    (hwarnings : ∀ w ∈ warnings, w.severity = .warning) :
    (deliver o style source path text warnings).runOn d output files =
      if o.out.isEmpty then ⟨.exit (if warnings.isEmpty then 0 else 1), output ++ text, files⟩
      else match d.write files o.outPath text with
        | .ok files => ⟨.exit (if warnings.isEmpty then 0 else 1), output, files⟩
        | .error e =>
          if e = .nullCharacter then ⟨.abort (.file e o.outPath), output, files⟩ else ⟨.exit 2, output, files⟩ := by
  have hexit := exitCode_of_ok (c := ⟨.ok text, warnings⟩) rfl hwarnings
  unfold deliver
  dsimp only
  split
  · change (conclude style source path _).runOn d (output ++ text) files = _
    rw [runOn_conclude, hexit]
  · have hout : (Text.Path.parse o.out).text = o.outPath := rfl
    rw [hout, Action.runOn]
    cases d.write files o.outPath text with
    | ok files' =>
      dsimp only
      rw [runOn_stage, runOn_conclude, hexit]
    | error e => exact runOn_refuseFile d output files "write" o.outPath e

end Command

/-! ### Settings -/

section Settings

variable {d : Disk σ} {files : σ} {o : Options}

theorem Reads.unique {source source' : String} (h : Reads d files o source) (h' : Reads d files o source') :
    source = source' := by
  obtain ⟨text, hread, rfl⟩ := h
  obtain ⟨text', hread', rfl⟩ := h'
  cases hread.symm.trans hread'
  rfl

theorem Loads.unique {s s' : Settings} (h : Loads d files o s) (h' : Loads d files o s') : s = s' := by
  obtain ⟨loaded, hloaded, rfl⟩ := h
  obtain ⟨loaded', hloaded', rfl⟩ := h'
  split at hloaded
  · next hempty =>
    rw [if_pos hempty] at hloaded'
    rw [hloaded, hloaded']
  · next hgiven =>
    rw [if_neg hgiven] at hloaded'
    obtain ⟨text, hread, hparse⟩ := hloaded
    obtain ⟨text', hread', hparse'⟩ := hloaded'
    cases hread.symm.trans hread'
    cases hparse.symm.trans hparse'
    rfl

theorem Reads.not_error {source : String} {e : FileError} (h : Reads d files o source) :
    d.read files o.sourcePath ≠ .error e := by
  obtain ⟨text, hread, -⟩ := h
  rw [hread]
  exact nofun

/-- Settings that are given are loaded from the text that they are read as. -/
theorem Loads.exists_text {s : Settings} (h : Loads d files o s) (hgiven : o.settings.isEmpty = false) :
    ∃ text s', d.read files o.settingsPath = .ok text ∧ Settings.parse text = .ok s' := by
  obtain ⟨s', hloaded, -⟩ := h
  rw [if_neg (by simp [hgiven])] at hloaded
  obtain ⟨text, hread, hparse⟩ := hloaded
  exact ⟨text, s', hread, hparse⟩

theorem not_loads_of_error {e : FileError} (hgiven : o.settings.isEmpty = false)
    (h : d.read files o.settingsPath = .error e) (s : Settings) : ¬ Loads d files o s := by
  intro hloads
  obtain ⟨text, s', hread, -⟩ := hloads.exists_text hgiven
  cases h.symm.trans hread

theorem not_loads_of_failure {text : String} {f : Settings.Failure} (hgiven : o.settings.isEmpty = false)
    (h : d.read files o.settingsPath = .ok text) (hf : Settings.parse text = .error f) (s : Settings) :
    ¬ Loads d files o s := by
  intro hloads
  obtain ⟨text', s', hread, hparse⟩ := hloads.exists_text hgiven
  cases h.symm.trans hread
  cases hf.symm.trans hparse

/-- With settings, a run comes to nothing at the compilation or at the writing. -/
theorem Fails.cases_of_loads {source : String} {s : Settings} (hsource : Reads d files o source)
    (hsettings : Loads d files o s) (h : Fails d files o) :
    (∃ e, (XdrSchema.compile source s o.source).result = .error e) ∨
    ∃ text e, (XdrSchema.compile source s o.source).result = .ok text ∧ o.out.isEmpty = false ∧
      d.write files o.outPath text = .error e := by
  cases h with
  | source h => exact (hsource.not_error h).elim
  | settings h => exact (h s hsettings).elim
  | compilation hsource' hsettings' hresult =>
    obtain rfl := hsource.unique hsource'
    obtain rfl := hsettings.unique hsettings'
    exact .inl ⟨_, hresult⟩
  | out hsource' hsettings' hcompile hgiven h =>
    obtain rfl := hsource.unique hsource'
    obtain rfl := hsettings.unique hsettings'
    exact .inr ⟨_, _, hcompile, hgiven, h⟩

/-- With settings, a number of too many digits interrupts a run or else the path to write to. -/
theorem Escapes.cases_of_loads {source : String} {s : Settings} {i : Interruption} (hsource : Reads d files o source)
    (hsettings : Loads d files o s) (h : Escapes d files o i) :
    (∃ n, overlong? o source s = some n ∧ i = .number n) ∨
    overlong? o source s = none ∧ i = .file .nullCharacter o.outPath ∧
      ∃ text, (XdrSchema.compile source s o.source).result = .ok text ∧ o.out.isEmpty = false ∧
        d.write files o.outPath text = .error .nullCharacter := by
  cases h with
  | source h => exact (hsource.not_error h).elim
  | settings _ hgiven h => exact (not_loads_of_error hgiven h s hsettings).elim
  | settingsNumber _ hgiven hread h => exact (not_loads_of_failure hgiven hread h s hsettings).elim
  | number hsource' hsettings' h =>
    obtain rfl := hsource.unique hsource'
    obtain rfl := hsettings.unique hsettings'
    exact .inl ⟨_, h, rfl⟩
  | out hsource' hsettings' hnumbers hcompile hgiven h =>
    obtain rfl := hsource.unique hsource'
    obtain rfl := hsettings.unique hsettings'
    exact .inr ⟨hnumbers, rfl, _, hcompile, hgiven, h⟩

/-- One thing interrupts a run. -/
theorem Escapes.unique {i i' : Interruption} (h : Escapes d files o i) (h' : Escapes d files o i') : i = i' := by
  cases h with
  | source h =>
    cases h' with
    | source => rfl
    | settings hsource | settingsNumber hsource | number hsource | out hsource => exact (hsource.not_error h).elim
  | settings hsource hgiven h =>
    cases h' with
    | source h' => exact (hsource.not_error h').elim
    | settings _ _ h' =>
      cases h.symm.trans h'
      rfl
    | settingsNumber _ _ h' => cases h.symm.trans h'
    | number _ hsettings | out _ hsettings => exact (not_loads_of_error hgiven h _ hsettings).elim
  | settingsNumber hsource hgiven hread h =>
    cases h' with
    | source h' => exact (hsource.not_error h').elim
    | settings _ _ h' => cases hread.symm.trans h'
    | settingsNumber _ _ hread' h' =>
      cases hread.symm.trans hread'
      cases h.symm.trans h'
      rfl
    | number _ hsettings | out _ hsettings => exact (not_loads_of_failure hgiven hread h _ hsettings).elim
  | number hsource hsettings h =>
    rcases h'.cases_of_loads hsource hsettings with ⟨n, hn, rfl⟩ | ⟨hnone, -⟩
    · cases h.symm.trans hn
      rfl
    · cases h.symm.trans hnone
  | out hsource hsettings hnumbers =>
    rcases h'.cases_of_loads hsource hsettings with ⟨n, hn, -⟩ | ⟨-, rfl, -⟩
    · cases hn.symm.trans hnumbers
    · rfl

/-- A run goes on with the settings that it loads, is interrupted, or comes to nothing. -/
theorem runOn_withSettings {source : String} (hsource : Reads d files o source) (next : Settings → Action)
    (output : String) :
    (∃ s, Loads d files o s ∧
      (Command.withSettings o next).runOn d output files = (next s).runOn d output files) ∨
    (∀ s, ¬ Loads d files o s) ∧ ∃ ending,
      (Command.withSettings o next).runOn d output files = ⟨ending, output, files⟩ ∧
      (ending = .exit 2 ∧ (∀ i, ¬ Escapes d files o i) ∨ ∃ i, ending = .abort i ∧ Escapes d files o i) := by
  have hpath : (Text.Path.parse o.settings).text = o.settingsPath := rfl
  unfold Command.withSettings
  dsimp only
  by_cases hempty : o.settings.isEmpty = true
  · refine .inl ⟨_, ⟨Settings.default, by rw [if_pos hempty], rfl⟩, ?_⟩
    rw [if_pos hempty]
  · have hgiven : o.settings.isEmpty = false := by simpa using hempty
    rw [if_neg hempty, hpath, Action.runOn]
    cases hread : d.read files o.settingsPath with
    | error e =>
      have hnot := not_loads_of_error hgiven hread
      dsimp only
      by_cases habsence : e.isAbsence = true
      · rw [if_pos habsence, Command.runOn_refuse]
        refine .inr ⟨hnot, _, rfl, .inl ⟨rfl, fun i h => ?_⟩⟩
        cases h with
        | source h => exact hsource.not_error h
        | settings _ _ h hthere =>
          cases hread.symm.trans h
          exact absurd habsence (by simp [hthere])
        | settingsNumber _ _ h => cases hread.symm.trans h
        | number _ hsettings | out _ hsettings => exact hnot _ hsettings
      · rw [if_neg habsence]
        exact .inr ⟨hnot, _, rfl, .inr ⟨_, rfl, .settings hsource hgiven hread (by simpa using habsence)⟩⟩
    | ok text =>
      dsimp only
      cases hparse : Settings.parse text with
      | ok s =>
        refine .inl ⟨_, ⟨s, ?_, rfl⟩, rfl⟩
        rw [if_neg hempty]
        exact ⟨text, hread, hparse⟩
      | error f =>
        have hnot := not_loads_of_failure hgiven hread hparse
        refine .inr ⟨hnot, ?_⟩
        cases f with
        | overlong n => exact ⟨_, rfl, .inr ⟨_, rfl, .settingsNumber hsource hgiven hread hparse⟩⟩
        | fault f =>
          refine ⟨.exit 2, by cases f <;> rfl, .inl ⟨rfl, fun i h => ?_⟩⟩
          cases h with
          | source h => exact hsource.not_error h
          | settings _ _ h => cases hread.symm.trans h
          | settingsNumber _ _ h hnumber =>
            cases hread.symm.trans h
            cases hparse.symm.trans hnumber
          | number _ hsettings | out _ hsettings => exact hnot _ hsettings

end Settings

/-! ### The command -/

section Command

variable {d : Disk σ} {files : σ} {o : Options} {output : String}

theorem allOrNothing_of_refused (hfails : Fails d files o) (hescapes : ∀ i, ¬ Escapes d files o i)
    (houtput : output = "" ∨
      ∃ source s, Reads d files o source ∧ Loads d files o s ∧ output = Command.dumped o source s) :
    AllOrNothing d files o ⟨.exit 2, output, files⟩ where
  ends := .inl ⟨2, Nat.le_refl 2, rfl⟩
  escapes i := iff_of_false (fun h => nomatch h) (hescapes i)
  refuses := iff_of_true rfl ⟨hfails, hescapes⟩
  unchanged _ := rfl
  silent _ := houtput
  delivers h := absurd hfails h

theorem allOrNothing_of_escapes {i : Interruption} (h : Escapes d files o i)
    (houtput : output = "" ∨
      ∃ source s, Reads d files o source ∧ Loads d files o s ∧ output = Command.dumped o source s) :
    AllOrNothing d files o ⟨.abort i, output, files⟩ where
  ends := .inr ⟨i, rfl⟩
  escapes i' := by
    constructor
    · rintro ⟨⟩
      exact h
    · intro h'
      rw [h.unique h']
  refuses := iff_of_false (fun h => nomatch h) fun h' => h'.2 i h
  unchanged _ := rfl
  silent _ := houtput
  delivers _ h' := absurd h (h' i)

/-- With settings and without a number of too many digits, only the path to write to can interrupt a run. -/
theorem not_escapes {source : String} {s : Settings} (hsource : Reads d files o source) (hsettings : Loads d files o s)
    (hnumbers : overlong? o source s = none)
    (hout : ∀ text, (XdrSchema.compile source s o.source).result = .ok text → o.out.isEmpty = false →
      d.write files o.outPath text ≠ .error .nullCharacter) (i : Interruption) : ¬ Escapes d files o i := by
  intro h
  rcases h.cases_of_loads hsource hsettings with ⟨n, hn, -⟩ | ⟨-, -, text, hcompile, hgiven, hwrite⟩
  · cases hn.symm.trans hnumbers
  · exact hout text hcompile hgiven hwrite

theorem allOrNothing_of_delivered {r : Remains σ} {source text : String} {s : Settings} {warnings : List Diagnostic}
    (hsource : Reads d files o source) (hsettings : Loads d files o s) (hnumbers : overlong? o source s = none)
    (hcompile : XdrSchema.compile source s o.source = ⟨.ok text, warnings⟩)
    (hending : r.ending = .exit (if warnings.isEmpty then 0 else 1))
    (hdelivered : if o.out.isEmpty then r.files = files ∧ r.output = Command.dumped o source s ++ text
      else d.write files o.outPath text = .ok r.files ∧ r.output = Command.dumped o source s) :
    AllOrNothing d files o r := by
  have hwritten (hgiven : o.out.isEmpty = false) : d.write files o.outPath text = .ok r.files := by
    rw [if_neg (by simp [hgiven])] at hdelivered
    exact hdelivered.1
  have hescapes : ∀ i, ¬ Escapes d files o i := by
    refine not_escapes hsource hsettings hnumbers fun text' hresult hgiven h => ?_
    rw [hcompile] at hresult
    cases hresult
    cases (hwritten hgiven).symm.trans h
  have hfails : ¬ Fails d files o := by
    intro h
    rcases h.cases_of_loads hsource hsettings with ⟨e, hresult⟩ | ⟨text', e, hresult, hgiven, hwrite⟩
    · rw [hcompile] at hresult
      cases hresult
    · rw [hcompile] at hresult
      cases hresult
      cases (hwritten hgiven).symm.trans hwrite
  have hnone : ¬ (Fails d files o ∨ ∃ i, Escapes d files o i) :=
    not_or.mpr ⟨hfails, fun ⟨i, h⟩ => hescapes i h⟩
  obtain ⟨code, hcode, hexit⟩ : ∃ code < 2, r.ending = .exit code := ⟨_, by split <;> decide, hending⟩
  exact {
    ends := .inl ⟨code, hcode.le, hexit⟩
    escapes := fun i => iff_of_false (fun h => nomatch hexit.symm.trans h) (hescapes i)
    refuses := by
      refine iff_of_false (fun h => ?_) fun h => hfails h.1
      cases hexit.symm.trans h
      exact absurd hcode (Nat.lt_irrefl 2)
    unchanged := fun h => absurd h hnone
    silent := fun h => absurd h hnone
    delivers := fun _ _ => ⟨source, s, text, warnings, hsource, hsettings, hcompile, hending, hdelivered⟩ }

/-- Once the source and the settings are there, a run is all or nothing. -/
theorem allOrNothing_finished {source path : String} {s : Settings} (style : Report.Style)
    (hsource : Reads d files o source) (hsettings : Loads d files o s) :
    AllOrNothing d files o (Command.finished o style d "" files source path s) := by
  have houtput : "" ++ Command.dumped o source s = "" ∨ ∃ source' s', Reads d files o source' ∧
      Loads d files o s' ∧ "" ++ Command.dumped o source s = Command.dumped o source' s' :=
    .inr ⟨source, s, hsource, hsettings, String.empty_append⟩
  unfold Command.finished
  cases hnumbers : overlong? o source s with
  | some n => exact allOrNothing_of_escapes (.number hsource hsettings hnumbers) houtput
  | none =>
    cases hresult : (XdrSchema.compile source s o.source).result with
    | error e =>
      refine allOrNothing_of_refused (.compilation hsource hsettings hresult) ?_ houtput
      exact not_escapes hsource hsettings hnumbers fun _ h => nomatch hresult.symm.trans h
    | ok text =>
      obtain ⟨schema, hschema, -⟩ := bind_eq_ok_iff.mp hresult
      have hcompile : XdrSchema.compile source s o.source =
          ⟨.ok text, (XdrSchema.compile source s o.source).warnings⟩ := by rw [← hresult]
      have hwarnings : ∀ w ∈ (XdrSchema.compile source s o.source).warnings, w.severity = .warning :=
        severity_of_analyzeText hschema
      dsimp only
      rw [Command.runOn_deliver o style d _ files source path text _ hwarnings]
      by_cases hout : o.out.isEmpty = true
      · rw [if_pos hout]
        refine allOrNothing_of_delivered hsource hsettings hnumbers hcompile rfl ?_
        rw [if_pos hout]
        exact ⟨rfl, by rw [String.empty_append]⟩
      · rw [if_neg hout]
        have hgiven : o.out.isEmpty = false := by simpa using hout
        cases hwrite : d.write files o.outPath text with
        | ok files' =>
          refine allOrNothing_of_delivered hsource hsettings hnumbers hcompile rfl ?_
          rw [if_neg hout]
          exact ⟨hwrite, String.empty_append⟩
        | error e =>
          dsimp only
          split
          · next hnull =>
            subst hnull
            exact allOrNothing_of_escapes (.out hsource hsettings hnumbers hresult hgiven hwrite) houtput
          · next hnull =>
            refine allOrNothing_of_refused (.out hsource hsettings hresult hgiven hwrite) ?_ houtput
            refine not_escapes hsource hsettings hnumbers fun text' h _ hwrite' => hnull ?_
            cases hresult.symm.trans h
            cases hwrite.symm.trans hwrite'
            rfl

/-- A run that is given a source is all or nothing, whatever the files. -/
theorem all_or_nothing (d : Disk σ) (files : σ) (o : Options) (style : Report.Style)
    (hsource : o.source.isEmpty = false) (hhelp : o.has .help = false) (hversion : o.has .version = false) :
    AllOrNothing d files o ((command o style).runOn d "" files) := by
  have hpath : (Text.Path.parse o.source).text = o.sourcePath := rfl
  unfold command
  rw [if_neg (by simp [hhelp]), if_neg (by simp [hversion]), if_neg (by simp [hsource])]
  dsimp only
  rw [hpath, Action.runOn]
  cases hread : d.read files o.sourcePath with
  | error e =>
    dsimp only
    rw [Command.runOn_refuseFile]
    split
    · next hnull =>
      subst hnull
      exact allOrNothing_of_escapes (.source hread) (.inl rfl)
    · next hnull =>
      refine allOrNothing_of_refused (.source hread) (fun i h => ?_) (.inl rfl)
      cases h with
      | source h =>
        cases hread.symm.trans h
        exact hnull rfl
      | settings hsource | settingsNumber hsource | number hsource | out hsource => exact hsource.not_error hread
  | ok raw =>
    have hreads : Reads d files o (String.ofList (Text.unifyLineEnds true raw.toList)) := ⟨raw, hread, rfl⟩
    dsimp only
    generalize String.ofList (Text.unifyLineEnds true raw.toList) = source at hreads
    rcases runOn_withSettings hreads (Command.compile o style source o.sourcePath) "" with
      ⟨s, hloads, hrun⟩ | ⟨hnone, ending, hrun, ⟨rfl, hescapes⟩ | ⟨i, rfl, hescapes⟩⟩
    -- only with settings is anything compiled or written
    · rw [hrun, Command.runOn_compile o style d "" files source o.sourcePath s (Text.Path.name_parse_text o.source)]
      exact allOrNothing_finished style hreads hloads
    · exact hrun ▸ allOrNothing_of_refused (.settings hnone) hescapes (.inl rfl)
    · exact hrun ▸ allOrNothing_of_escapes hescapes (.inl rfl)

def sampleText : String := "typedef unsigned int Id;"

def sampleOptions : Options := ⟨"spec.x", "spec.rs", "", []⟩

def sampleFiles : FileTree := ⟨[(["spec.x"], sampleText)]⟩

/-- A text is compiled to a file, in which the module is found afterwards. -/
theorem all_or_nothing_sample : ∃ text,
    (XdrSchema.compile sampleText Settings.default "spec.x").result = .ok text ∧
    ((command sampleOptions ⟨false, false⟩).run sampleFiles).files.read "spec.rs" = .ok text := by
  have hrun := all_or_nothing FileTree.disk sampleFiles sampleOptions ⟨false, false⟩ rfl rfl rfl
  have hreads : Reads FileTree.disk sampleFiles sampleOptions sampleText := ⟨sampleText, rfl, by decide +kernel⟩
  have hloads : Loads FileTree.disk sampleFiles sampleOptions Settings.default := ⟨Settings.default, rfl, rfl⟩
  have haccepted : ((Schema.analyzeText sampleText).result >>= Rust.checkNames) = .ok () :=
    toOption_eq_some_iff.mp (by decide +kernel)
  obtain ⟨schema, hschema, hnames⟩ := bind_eq_ok_iff.mp haccepted
  have hresult := (@compile_eq_ok_iff _ "spec.x" _ Settings.default).mpr ⟨schema, hschema, hnames, rfl⟩
  have hfails : ¬ Fails FileTree.disk sampleFiles sampleOptions := by
    intro h
    rcases h.cases_of_loads hreads hloads with ⟨e, h⟩ | ⟨text, e, -, -, h⟩
    · cases hresult.symm.trans h
    · cases h
  have hnumbers : overlong? sampleOptions sampleText Settings.default = none := by
    have hdump : dumpOverlong? sampleOptions sampleText = none := dumpOverlong?_of_not_has rfl sampleText
    have hsizes : ((Schema.analyzeText sampleText).result.map fun s =>
        (Number.unwritable? (Wire.sizeNumbers s)).isNone).toOption = some true := by decide +kernel
    rw [hschema] at hsizes
    rw [overlong?_of_ok hdump hschema hresult]
    exact Option.isNone_iff_eq_none.mp (Option.some.inj hsizes)
  have hescapes : ∀ i, ¬ Escapes FileTree.disk sampleFiles sampleOptions i :=
    not_escapes hreads hloads hnumbers fun _ _ _ h => nomatch h
  obtain ⟨source, s, text, warnings, hsource, hsettings, hcompile, -, hdelivered⟩ := hrun.delivers hfails hescapes
  obtain rfl := hreads.unique hsource
  obtain rfl := hloads.unique hsettings
  rw [← remains_run, if_neg (by decide)] at hdelivered
  exact ⟨text, congrArg Compilation.result hcompile, FileTree.read_of_write hdelivered.1⟩

/-- Where the settings are a directory, a run ends by no exit code. -/
theorem abort_of_settings_directory : ∃ o, Options.parse? ["a.x", "--config", "conf"] = some o ∧
    ((command o ⟨false, false⟩).run
      ⟨[(["a.x"], "struct Point \x7b int x; int y; \x7d;"), (["conf", "x.toml"], "")]⟩).ending =
        .abort (.file .isDirectory "conf") :=
  ⟨⟨"a.x", "", "conf", []⟩, rfl, rfl⟩

end Command

end XdrSchema.Cli
