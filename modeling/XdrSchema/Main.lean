import XdrSchema.Cli.Command

/-! The command line program: the steps of a run, carried out on the disk and the terminal. -/
namespace XdrSchema.Cli

/-- The error with a number that may be given negated, and with a wording for those that are not
among the common ones. -/
def FileError.ofCode (code : UInt32) (details : String) : FileError :=
  let number := if code.toNat < 0x80000000 then code.toNat else 0x100000000 - code.toNat
  if number = 2 then notFound
  else if number = 13 then system number "Permission denied"
  else if number = 20 then notDirectory
  else if number = 21 then isDirectory
  else system number details

def FileError.ofIO : IO.Error → FileError
  | .noFileOrDirectory .. => notFound
  | .permissionDenied _ code details | .inappropriateType _ code details
  | .otherError code details => ofCode code details
  | e => system 0 (toString e)

def attempt {α : Type} (path : String) (access : String → IO α) : IO (Except FileError α) := do
  if '\x00' ∈ path.toList then return .error .nullCharacter
  match ← (access path).toBaseIO with
  | .ok a => return .ok a
  | .error e => return .error (FileError.ofIO e)

/-- Carries out an action and returns the exit code. -/
def Action.perform : Action → IO UInt32
  | exit code => return UInt32.ofNat code
  | abort i => do
    IO.eprintln i.message
    return 1
  | output text next => do
    IO.print text
    next.perform
  | report text next => do
    IO.eprint text
    next.perform
  | read path next => do (next (← attempt path fun path => IO.FS.readFile path)).perform
  | write path text next => do
    (next (← attempt path fun path => IO.FS.writeFile path text)).perform

/-- Colours and frames are for terminals, unless the environment asks for none. -/
def terminalStyle : IO Report.Style := do
  let interactive := (← (← IO.getStderr).isTty) && (← IO.getEnv "TERM") ≠ some "dumb"
  return ⟨interactive && (← IO.getEnv "NO_COLOR").isNone,
    interactive && (← IO.getEnv "NO_UNICODE").isNone⟩

end XdrSchema.Cli

open XdrSchema.Cli

def main (arguments : List String) : IO UInt32 := do
  match Options.parse? arguments with
  | some o => (command o (← terminalStyle)).perform
  | none =>
    IO.eprint usage
    return 2
