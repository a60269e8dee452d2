/-! The types a declaration can give to a name. Arrays and optional data are built over a single
scalar or named type; nothing nests deeper without a name of its own. The two parameters are what
stands for a bound (`β`) and for a reference to a definition (`ρ`): names and literals as written
in a specification, numbers and kinds in a schema. -/
namespace XdrSchema

inductive Primitive
  | int | unsignedInt | hyper | unsignedHyper | float | double | bool
deriving DecidableEq

namespace Primitive

def text : Primitive → String
  | int => "int"
  | unsignedInt => "unsigned int"
  | hyper => "hyper"
  | unsignedHyper => "unsigned hyper"
  | float => "float"
  | double => "double"
  | bool => "bool"

/-- The encoded size in bytes. -/
def size : Primitive → Nat
  | int | unsignedInt | float | bool => 4
  | hyper | unsignedHyper | double => 8

end Primitive

/-- What stands alone, or is repeated in an array. -/
inductive Base (ρ : Type)
  | primitive (p : Primitive)
  | named (target : ρ)
deriving DecidableEq

inductive TypeExpr (β ρ : Type)
  | plain (base : Base ρ)
  | array (element : Base ρ) (length : β)
  | vector (element : Base ρ) (bound : Option β)
  | optional (target : Base ρ)
  | fixedBytes (length : β)
  | bytes (bound : Option β)
  | string (bound : Option β)
deriving DecidableEq

variable {β ρ : Type}

namespace Base

def text (name : ρ → String) : Base ρ → String
  | primitive p => p.text
  | named r => name r

end Base

namespace TypeExpr

/-- A type as messages write it: lengths in square brackets, bounds in angle brackets, a star after
optional data. -/
def text (bound : β → String) (name : ρ → String) : TypeExpr β ρ → String
  | plain b => b.text name
  | array b n => s!"{b.text name}[{bound n}]"
  | vector b n => s!"{b.text name}<{upTo n}>"
  | optional b => b.text name ++ "*"
  | fixedBytes n => s!"opaque[{bound n}]"
  | bytes n => s!"opaque<{upTo n}>"
  | string n => s!"string<{upTo n}>"
where
  /-- A missing bound leaves the brackets empty. -/
  upTo (n : Option β) : String := (n.map bound).getD ""

/-- The named type that a value of this type holds directly, not through optional data or an array
of variable length. -/
def direct? : TypeExpr β ρ → Option ρ
  | plain (.named r) => some r
  | array (.named r) _ => some r
  | _ => none

/-- The named type that occurs in this type, at whatever place. -/
def target? : TypeExpr β ρ → Option ρ
  | plain (.named r) | array (.named r) _ | vector (.named r) _ | optional (.named r) => some r
  | _ => none

end TypeExpr

end XdrSchema
