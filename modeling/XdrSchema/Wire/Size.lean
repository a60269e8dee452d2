import XdrSchema.Schema.Basic
import XdrSchema.Wire.Unit

/-! Ranges of encoded sizes. The arithmetic is that of integers, whatever the parts. -/
namespace XdrSchema.Wire

/-- The least and the greatest encoded size in bytes; without a greatest size the range is
unbounded. A fixed size is one that every value has. -/
structure Size where
  min : Int
  max : Option Int
  fixed : Bool
deriving DecidableEq

namespace Size

/-- Exactly `n` bytes. -/
def exact (n : Int) : Size := ⟨n, some n, true⟩

/-- From `min` to `max` bytes. -/
def range (min : Int) (max : Option Int) : Size := ⟨min, max, false⟩

/-- Nothing is known. -/
def unknown : Size := range 0 none

/-- The sum of two greatest sizes. -/
def addMax : Option Int → Option Int → Option Int
  | some a, some b => some (a + b)
  | _, _ => none

/-- One item after another. -/
def append (a b : Size) : Size := ⟨a.min + b.min, addMax a.max b.max, a.fixed && b.fixed⟩

/-- Items one after another. A fixed total is exact, whatever greatest sizes its parts have. -/
def sequence (parts : List Size) : Size :=
  let total := parts.foldl append (exact 0)
  if total.fixed then exact total.min else range total.min total.max

/-- `n` items of one size. -/
def times (n : Nat) (s : Size) : Size :=
  if s.fixed then exact (s.min * n) else range (s.min * n) (s.max.map (· * n))

/-- A length word, then up to `n` items of one size. -/
def upTo (n : Option Nat) (s : Size) : Size :=
  range 4 (match n, s.max with
    | some n, some m => some (4 + (n : Int) * m)
    | _, _ => none)

/-- A flag word, then the item if the flag is set. -/
def optional (s : Size) : Size := range 4 (addMax (some 4) s.max)

/-- A length word, then up to `n` bytes with their padding. -/
def data (n : Option Nat) : Size := range 4 (n.map fun n => 4 + (paddedSize n : Int))

/-- The greatest of some greatest sizes. -/
def greatest : List (Option Int) → Option Int
  | [] => some 0
  | none :: _ => none
  | some n :: rest => (greatest rest).map fun m => if n ≤ m then m else n

/-- The least of some sizes; 0 when there are none. -/
def least : List Int → Int
  | [] => 0
  | [n] => n
  | n :: rest => if n ≤ least rest then n else least rest

/-- A word that selects one of the items. The size is exact when every item has the same exact
size. -/
def choice (items : List Size) : Size :=
  let lo := least (items.map (·.min))
  if items.all fun s => s.fixed && s.min = lo then exact (4 + lo)
  else range (4 + lo) (addMax (some 4) (greatest (items.map (·.max))))

/-! ### Sizes of types, given those of the named ones -/

section OfType

open Schema (Ref Ty Definition Arm)

variable {m : Type → Type} [Monad m] (named : String → m Size)

def ofBase : Base Ref → m Size
  | .primitive p => return exact p.size
  | .named r => named r.name

def ofType : Ty → m Size
  | .plain b => ofBase named b
  | .array b n => return (← ofBase named b).times n
  | .vector b n => return (← ofBase named b).upTo n
  | .optional b => return (← ofBase named b).optional
  | .fixedBytes n => return exact (paddedSize n)
  | .bytes n | .string n => return data n

/-- A void arm adds nothing to the discriminant. -/
def ofArm (a : Arm) : m Size :=
  match a.field with
  | none => return exact 0
  | some f => ofType named f.type

/-- The parts are looked at in order, the default arm of a union last. -/
def ofDefinition : Definition → m Size
  | .typedef target => ofType named target
  | .struct fields => return sequence (← fields.mapM fun f => ofType named f.type)
  | .enum _ => return exact 4
  | .union u => return choice (← u.allArms.mapM fun a => ofArm named a)

end OfType

def text (s : Size) : String :=
  if s.fixed then s!"Fixed({s.min})"
  else s!"Bounded({s.min}, " ++ (match s.max with
    | some n => toString n
    | none => "unbounded") ++ ")"

/-- The numbers that the text shows. -/
def numbers (s : Size) : List Int := if s.fixed then [s.min] else s.min :: s.max.toList

end Size

end XdrSchema.Wire
