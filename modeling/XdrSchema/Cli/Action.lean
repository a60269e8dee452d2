import XdrSchema.Number.Digits
import XdrSchema.Text.Quoted

/-! What a command does, step by step. A step that asks for something continues with what it
answers, so that a command is a value, and the same whether files are on disk or in memory. -/
namespace XdrSchema.Cli

/-- Why a file cannot be read or written: an error of the system, with its number and name, or a null
character in the path, which then leads nowhere. -/
inductive FileError
  | system (number : Nat) (reason : String)
  | nullCharacter
deriving DecidableEq

namespace FileError

def notFound : FileError := system 2 "No such file or directory"

def notDirectory : FileError := system 20 "Not a directory"

def isDirectory : FileError := system 21 "Is a directory"

/-- Nothing is there, be it for want of a directory on the way. -/
def isAbsence (e : FileError) : Bool := e = notFound || e = notDirectory || e = nullCharacter

def message (e : FileError) (path : String) : String :=
  match e with
  | system number reason => s!"[Errno {number}] {reason}: " ++ Text.quoted path
  | nullCharacter => "embedded null byte"

end FileError

/-- What the command has no words of its own for. -/
inductive Interruption
  | file (e : FileError) (path : String)
  | number (n : Number.Overlong)

def Interruption.message : Interruption → String
  | file e path => e.message path
  | number n => n.message

inductive Action
  | exit (code : Nat)
  | abort (i : Interruption)
  | output (text : String) (next : Action)
  | report (text : String) (next : Action)
  | read (path : String) (next : Except FileError String → Action)
  | write (path text : String) (next : Except FileError Unit → Action)

end XdrSchema.Cli
