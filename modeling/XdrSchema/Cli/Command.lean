import XdrSchema.Cli.Action
import XdrSchema.Cli.Options
import XdrSchema.Compile
import XdrSchema.Concrete.Outline
import XdrSchema.Settings.OfToml
import XdrSchema.Spec.Dump

/-! The command: it reads a specification and perhaps settings, and writes the module generated
from them. A run that fails writes nothing but what it was asked to dump up to then. What the
command has no words for interrupts a run. -/
namespace XdrSchema.Cli

variable (o : Options) (style : Report.Style)

namespace Command

/-! ### Messages -/

/-- Ends a run with a complaint. -/
def refuse (message : String) : Action := .report ("error: " ++ message ++ "\n") (.exit 2)

/-- Ends a run for a file that cannot be used. With a null character in its path the run is
interrupted. -/
def refuseFile (use path : String) (e : FileError) : Action :=
  if e = .nullCharacter then .abort (.file e path)
  else refuse (s!"cannot {use} {path}: " ++ e.message path)

/-- Goes on, unless a number has too many digits. -/
def unlessOverlong (n : Option Number.Overlong) (next : Action) : Action :=
  match n with
  | some n => .abort (.number n)
  | none => next

/-- Says what comes next, if the run is to be commented on. -/
def stage (message : String) (next : Action) : Action :=
  if o.has .verbose then .report (message ++ "\n") next else next

/-- Writes out an intermediate result, if the run is asked to. -/
def dump (f : Flag) (text : String) (next : Action) : Action :=
  if o.has f then .output text next else next

/-- Ends a run with what there is to report about the source. -/
def conclude (source path : String) (c : Compilation) : Action :=
  let report : Report := ⟨some source, path, c.diagnostics⟩
  .report (report.printed style) (.exit report.exitCode)

/-! ### Stages -/

/-- Writes the generated module, and then the warnings. -/
def deliver (source path module : String) (warnings : List Diagnostic) : Action :=
  let finish := conclude style source path ⟨.ok module, warnings⟩
  if o.out.isEmpty then .output module finish
  else
    let out := (Text.Path.parse o.out).text
    .write out module fun
      | .ok _ => stage o ("Wrote " ++ out) finish
      | .error e => refuseFile "write" out e

/-- The encoded sizes, a line each, and an empty line. -/
def layoutText (s : Schema) : String :=
  String.join ((Wire.layout s).map (· ++ "\n")) ++ "\n"

/-- Compiles a source text. -/
def compile (source path : String) (settings : Settings) : Action :=
  let fail (warnings : List Diagnostic) (e : SpecError) : Action :=
    unlessOverlong e.fault.overlong? (conclude style source path ⟨.error e, warnings⟩)
  stage o ("Parsing " ++ path) <|
  match Concrete.parse source with
  | .error e => fail [] e
  | .ok tree =>
    dump o .dumpTree ((Concrete.outline tree).text 0 ++ "\n") <|
    match Spec.ofTree tree with
    | .error e => fail [] e
    | .ok spec =>
      unlessOverlong (if o.has .dumpSpec then Number.unwritable? spec.dumpNumbers else none) <|
      dump o .dumpSpec (spec.dump ++ "\n\n") <|
      stage o "Resolving definitions" <|
      let analysis := Schema.analyze spec
      match analysis.result with
      | .error e => fail analysis.warnings e
      | .ok schema =>
        stage o "Generating Rust" <|
        match Rust.generate schema settings (Text.Path.parse path).name with
        | .error e => fail analysis.warnings e
        | .ok module =>
          unlessOverlong (Number.unwritable? (Wire.sizeNumbers schema)) <|
          dump o .dumpLayout (layoutText schema) <|
          deliver o style source path module analysis.warnings

/-- Reads the settings, if a file is given for them. -/
def withSettings (next : Settings → Action) : Action :=
  let next (s : Settings) : Action :=
    next (if o.has .noSupport then { s with support := false } else s)
  if o.settings.isEmpty then next Settings.default
  else
    let path := (Text.Path.parse o.settings).text
    .read path fun
      | .error e =>
        if e.isAbsence then refuse ("No configuration file found at " ++ path)
        else .abort (.file e path)
      | .ok text =>
        match Settings.parse text with
        | .ok s => next s
        | .error (.overlong n) => .abort (.number n)
        | .error (.fault .notToml) => refuse (path ++ ": " ++ Settings.Fault.notToml.message)
        | .error (.fault f) => refuse f.message

end Command

open Command

/-- How the command is called. -/
def usage : String :=
  "usage: xdrc [-h] [-o OUT] [--config FILE] [--no-prelude] [--dump-parse] [--dump-ast]\n"
    ++ "            [--dump-layout] [--verbose] [--version] [source]\n"

/-- The run with the given options. Line ends in a source are line feeds, whatever they are in its
file. -/
def command : Action :=
  if o.has .help then .output usage (.exit 0)
  else if o.has .version then .output ("xdrc, XDR to Rust compiler • " ++ Rust.version ++ "\n") (.exit 0)
  else if o.source.isEmpty then refuse "source file required"
  else
    let path := (Text.Path.parse o.source).text
    .read path fun
      | .error e => refuseFile "read" path e
      | .ok text =>
        let source := String.ofList (Text.unifyLineEnds true text.toList)
        withSettings o (Command.compile o style source path)

end XdrSchema.Cli
