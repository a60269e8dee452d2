import XdrSchema.Rust.Module
import XdrSchema.Wire.Word

/-! What the decoders of a generated module do: the support functions as steps on a cursor, and the
generated code as a composition of them. Sizes and positions are numbers of 64 bits and floating-point
numbers their bits. A path means the decoder of a type: that of the module's own type of this name if
there is one, and otherwise that of a scalar. -/
namespace XdrSchema.Rust

/-! ### The cursor -/

inductive XdrError
  | unexpectedEof
  | invalidUnionDiscriminant (value : Int64)
  | invalidEnumValue (value : Int64)
  | lengthExceedsBound (max actual : UInt32)
  | nonZeroPadding
  | depthLimitExceeded
deriving DecidableEq

/-- Why a run comes to no value: with an error that is returned, by an overflow, at a path that names
nothing, or because it was only followed through so many calls. -/
inductive Halt
  | error (e : XdrError)
  | overflow
  | unresolved (path : String)
  | exhausted

structure Cursor where
  buf : List UInt8
  pos : UInt64
  depth : UInt32

abbrev Machine := StateT Cursor (Except Halt)

namespace Machine

variable {α : Type}

def fail (e : XdrError) : Machine α := throw (.error e)

def checkedAdd? (a b : UInt64) : Option UInt64 :=
  if a.toNat + b.toNat < UInt64.size then some (a + b) else none

/-- The bytes from one place to another, if they are in the buffer. -/
def range? (buf : List UInt8) (start stop : UInt64) : Option (List UInt8) :=
  if start ≤ stop ∧ stop.toNat ≤ buf.length then some ((buf.take stop.toNat).drop start.toNat) else none

def remaining : Machine UInt64 := do
  let c ← get
  let len := UInt64.ofNat c.buf.length
  if len < c.pos then throw .overflow
  return len - c.pos

def ensure (n : UInt64) : Machine Unit := do
  if (← remaining) < n then fail .unexpectedEof

/-- Runs one level deeper. -/
def nested (f : Machine α) : Machine α := do
  if (← get).depth = 0 then fail .depthLimitExceeded
  modify fun c => { c with depth := c.depth - 1 }
  let result ← f
  if (← get).depth = 0xffffffff then throw .overflow
  modify fun c => { c with depth := c.depth + 1 }
  return result

def take (n : UInt64) : Machine (List UInt8) := do
  let c ← get
  let some stop := checkedAdd? c.pos n | fail .unexpectedEof
  let some bytes := range? c.buf c.pos stop | fail .unexpectedEof
  set { c with pos := stop }
  return bytes

def readU32 : Machine UInt32 := return UInt32.ofNat (Wire.wordOf (← take 4))

def readU64 : Machine UInt64 := return UInt64.ofNat (Wire.wordOf (← take 8))

def readPadding (len : UInt64) : Machine Unit := do
  if (← take ((4 - len % 4) % 4)).any (· ≠ 0) then fail .nonZeroPadding

def readLength (max : UInt32) : Machine UInt64 := do
  let actual ← readU32
  if max < actual then fail (.lengthExceedsBound max actual)
  return actual.toUInt64

def readOpaque (max : UInt32) : Machine (List UInt8) := do
  let len ← readLength max
  let data ← take len
  readPadding len
  return data

def readFixedOpaque (n : UInt64) : Machine (List UInt8) := do
  let data ← take n
  readPadding n
  return data

/-! ### Arrays and optional data -/

/-- The results of running a step `n` times. -/
def pushed (f : Machine α) : Nat → Machine (List α)
  | 0 => return []
  | n + 1 => do
    let first ← f
    return first :: (← pushed f n)

/-- The bytes that are left bound the capacity of the list of items, which has no effect on them. The
list becomes an array if it has as many items. -/
def decodeFixedArray (n : UInt64) (f : Machine α) : Machine (List α) := do
  let _ ← remaining
  let items ← pushed f n.toNat
  if items.length = n.toNat then return items else fail .unexpectedEof

def decodeVarArray (max : UInt32) (f : Machine α) : Machine (List α) := do
  let len ← readLength max
  let _ ← remaining
  pushed f len.toNat

def decodeOptional (f : Machine α) : Machine (Option α) := do
  let flag ← readU32
  if flag = 0 then return none
  else if flag = 1 then return some (← f)
  else fail (.invalidUnionDiscriminant flag.toUInt64.toInt64)

end Machine

/-! ### Values -/

/-- Values of the generated types. A `slice` is borrowed from the buffer. -/
inductive Value
  | i32 (n : Int32)
  | u32 (n : UInt32)
  | i64 (n : Int64)
  | u64 (n : UInt64)
  | f32 (bits : UInt32)
  | f64 (bits : UInt64)
  | bool (b : Bool)
  | slice (bytes : List UInt8)
  | byteArray (bytes : List UInt8)
  | array (items : List Value)
  | vec (items : List Value)
  | none
  | some (v : Value)
  | newtype (type : String) (v : Value)
  | record (type : String) (fields : List (String × Value))
  | variant (type name : String) (args : List Value)

open Machine

/-- The decoders of the scalars. -/
def scalar : Primitive → Machine Value
  | .int => return .i32 (← readU32).toInt32
  | .unsignedInt => return .u32 (← readU32)
  | .hyper => return .i64 (← readU64).toInt64
  | .unsignedHyper => return .u64 (← readU64)
  | .float => return .f32 (← readU32)
  | .double => return .f64 (← readU64)
  | .bool => do
    let n ← readU32
    if n = 0 then return .bool false
    else if n = 1 then return .bool true
    else fail (.invalidEnumValue n.toUInt64.toInt64)

/-! ### Generated code -/

/-- The name that a type starts with. -/
def Syntax.head? : Syntax → Option String
  | scalar name | named name _ => some name
  | _ => none

/-- A bound as a number. -/
def maxArgument (bound : Option Nat) : UInt32 :=
  match bound with
  | none => 0xffffffff
  | some n => UInt32.ofNat n

section Code

variable (path : String → Machine Value)

def Read.run : Read → Machine Value
  | scalar p => path (scalarName p)
  | named t =>
    match t.head? with
    | some name => path name
    | none => throw (.unresolved t.text)
  | fixedArray n item => return .array (← decodeFixedArray (UInt64.ofNat n) item.run)
  | varArray n item => return .vec (← decodeVarArray (maxArgument n) item.run)
  | optional item => return (← decodeOptional item.run).elim Value.none Value.some
  | fixedOpaque n => return .byteArray (← readFixedOpaque (UInt64.ofNat n))
  | varOpaque n => return .slice (← readOpaque (maxArgument n))

/-- Fields are initialised in the order in which they are written. -/
def runFields : List (String × Read) → Machine (List (String × Value))
  | [] => return []
  | (name, r) :: rest => do
    let v ← r.run path
    return (identifier name, v) :: (← runFields rest)

/-- Builds a variant of the type `self`. -/
def Construct.run (self : String) (discriminant : Value) (c : Construct) : Machine Value := do
  let raw := if c.discriminant then [discriminant] else []
  match c.payload with
  | none => return .variant self (identifier c.variant) raw
  | some r => return .variant self (identifier c.variant) (raw ++ [← r.run path])

/-- The function from a number to the label of an enumeration. -/
def DeclBody.fromXdrValue? (body : DeclBody) (value : Int32) : Option String :=
  match body with
  | .enum labels => (labels.find? fun l => l.2 = value.toInt).map fun l => identifier l.1
  | _ => none

/-- The first arm whose pattern has the discriminant. -/
def selected (arms : List (List Int × Construct)) (default : Option Construct) (n : Int) :
    Option Construct :=
  match arms.find? fun a => n ∈ a.1 with
  | some a => some a.2
  | none => default

/-- The code of a decoder for the type `self`, which is declared as `declared`. -/
def DecodeBody.run (self : String) (declared : DeclBody) : DecodeBody → Machine Value
  | newtype r => return .newtype self (← r.run path)
  | record fields => return .record self (← runFields path fields)
  | enum => do
    let value := (← readU32).toInt32
    match declared.fromXdrValue? value with
    | some label => return .variant self label []
    | none => fail (.invalidEnumValue value.toInt64)
  | choice true arms default => do
    let disc ← readU32
    match selected arms default disc.toNat with
    | some c => c.run path self (.u32 disc)
    | none => fail (.invalidUnionDiscriminant disc.toUInt64.toInt64)
  | choice false arms default => do
    let disc := (← readU32).toInt32
    match selected arms default disc.toInt with
    | some c => c.run path self (.i32 disc)
    | none => fail (.invalidUnionDiscriminant disc.toInt64)

end Code

/-- The size constant that a decoder checks first. -/
def Declaration.minSize (d : Declaration) : UInt64 := UInt64.ofNat (min d.size.min maxSize).toNat

def Item.decode (path : String → Machine Value) (self : String) (i : Item) : Machine Value := do
  if i.decoder.ensures then ensure i.declaration.minSize
  nested (i.decoder.body.run path self i.declaration.body)

namespace Module

/-- The item of a name. -/
def item? (m : Module) (name : String) : Option Item :=
  m.items.find? fun i => i.decoder.target.head? = some name

/-- The scalar of a name. -/
def scalar? (name : String) : Option Primitive :=
  [Primitive.int, .unsignedInt, .hyper, .unsignedHyper, .float, .double, .bool].find? (scalarName · = name)

/-- Decodes the type of a name, through so many nested calls. -/
def decode (m : Module) : Nat → String → Machine Value
  | 0, _ => throw .exhausted
  | calls + 1, name =>
    match m.item? name, scalar? name with
    | some i, _ => i.decode (m.decode calls) name
    | none, some p => scalar p
    | none, none => throw (.unresolved name)

end Module

end XdrSchema.Rust
