import XdrSchema.Wire.SizeTable
import XdrSchema.Wire.Sizing
import XdrSchema.Wire.Value
import XdrSchema.Wire.Word

/-! Decoding by a schema. A definition is read only when its least size is left in the input and
when the budget for definitions inside definitions is not used up; a length is checked before any
of its items is read, and padding has to be zero. -/
namespace XdrSchema.Wire

open Schema (Ref Ty Definition Arm Union)

inductive DecodeError
  | endOfInput (needed available : Int)
  | discriminant (value : Int)
  | enumValue (value : Int)
  | tooLong (bound actual : Nat)
  | padding (offset : Int)
  | depth (limit : Int)
  | trailing (count : Int)
  | beforeInput (offset : Int) (size length : Nat)
  | notType (name : String)

def DecodeError.message : DecodeError → String
  | endOfInput needed available =>
    s!"unexpected end of XDR input: needed {needed} bytes, {available} left"
  | discriminant value => s!"invalid union discriminant {value}"
  | enumValue value => s!"invalid enum value {value}"
  | tooLong bound actual => s!"length {actual} exceeds bound {bound}"
  | padding offset => s!"non-zero XDR padding at offset {offset}"
  | depth limit => s!"XDR data nested deeper than {limit} definitions"
  | trailing count => s!"{count} bytes left after the decoded value"
  | beforeInput offset size length =>
    if 0 < offset + size then s!"not enough data to unpack {size} bytes"
    else s!"offset {offset} out of range for {length}-byte buffer"
  | notType name => s!"'{name}' is not a type defined by this spec"

/-- The numbers that the message shows. -/
def DecodeError.numbers : DecodeError → List Int
  | endOfInput needed available => [needed, available]
  | discriminant value | enumValue value => [value]
  | tooLong bound actual => [bound, actual]
  | padding offset => [offset]
  | depth limit => [limit]
  | trailing count => [count]
  | beforeInput offset size length => [offset, size, length]
  | notType _ => []

/-- The number of too many digits in the message, for which the error is not raised. -/
def DecodeError.overlong? (e : DecodeError) : Option Number.Overlong :=
  Number.unwritable? e.numbers

/-- Reads from the input at an offset and moves the offset on. -/
abbrev Decoder := ReaderT (List UInt8) (StateT Int (Except DecodeError))

/-- Bytes from one offset up to another. A negative offset counts from the end. -/
def slice (input : List UInt8) (start stop : Int) : List UInt8 :=
  let place (i : Int) : Nat := if i < 0 then (i + input.length).toNat else i.toNat
  (input.take (place stop)).drop (place start)

namespace Decoder

variable {α : Type}

/-- The number of bytes from the offset to the end. -/
def remaining : Decoder Int := do return (← read).length - (← get)

def ensure (n : Int) : Decoder Unit := do
  let left ← remaining
  if left < n then throw (.endOfInput n left)

/-- The next `n` bytes. -/
def take (n : Nat) : Decoder (List UInt8) := do
  ensure n
  let offset ← get
  set (offset + n)
  return slice (← read) offset (offset + n)

/-- The next word of `n` bytes. Before the start of the input, it has to lie within as many bytes
from the end. -/
def word (n : Nat) : Decoder Nat := do
  ensure n
  let input ← read
  let offset ← get
  if offset < 0 && (0 < offset + n || offset + input.length < 0) then
    throw (.beforeInput offset n input.length)
  let start := if offset < 0 then offset + input.length else offset
  set (offset + n)
  return wordOf ((input.drop start.toNat).take n)

/-- The zero bytes after `n` bytes of data. -/
def skipPadding (n : Nat) : Decoder Unit := do
  let offset ← get
  if (← take (padding n)).any (· ≠ 0) then throw (.padding offset)

/-- A length word within its bound. -/
def length (bound : Option Nat) : Decoder Nat := do
  let limit := bound.getD maxLength
  let actual ← word 4
  if limit < actual then throw (.tooLong limit actual)
  return actual

/-- Data of `n` bytes with its padding. -/
def data (n : Nat) : Decoder Value := do
  let bytes ← take n
  skipPadding n
  return .bytes bytes

/-- `n` items one after another. -/
def times (item : Decoder α) : Nat → Decoder (List α)
  | 0 => return []
  | n + 1 => do
    let first ← item
    return first :: (← times item n)

def primitive : Primitive → Decoder Value
  | .int => return .int (signed 4 (← word 4))
  | .unsignedInt => return .int (← word 4)
  | .hyper => return .int (signed 8 (← word 8))
  | .unsignedHyper => return .int (← word 8)
  | .float => return .float (.ofSingle (← word 4))
  | .double => return .float ⟨← word 8⟩
  | .bool => do
    let n ← word 4
    if n = 0 then return .bool false
    else if n = 1 then return .bool true
    else throw (.enumValue n)

variable (visit : String → Decoder Value)

def base : Base Ref → Decoder Value
  | .primitive p => primitive p
  | .named r => visit r.name

def type : Ty → Decoder Value
  | .plain b => base visit b
  | .array b n => return .list (← times (base visit b) n)
  | .vector b n => do
    let count ← length n
    return .list (← times (base visit b) count)
  | .optional b => do
    let flag ← word 4
    if flag = 0 then return .absent
    else if flag = 1 then base visit b
    else throw (.discriminant flag)
  | .fixedBytes n => data n
  | .bytes n | .string n => do data (← length n)

/-- The fields of a struct in order. -/
def fields : List Schema.Field → Decoder (List (String × Value))
  | [] => return []
  | f :: rest => do
    let v ← type visit f.type
    return (f.name, v) :: (← fields rest)

/-- The discriminant of a union. -/
def discriminant (u : Union) : Decoder Int := do
  let n ← word 4
  return if u.isUnsigned then n else signed 4 n

def payload (a : Arm) : Decoder Value :=
  match a.field with
  | none => return .absent
  | some f => type visit f.type

def definition (name : String) : Definition → Decoder Value
  | .typedef t => return .typedef name (← type visit t)
  | .struct fs => return .struct name (← fields visit fs)
  | .enum labels => do
    let n := signed 4 (← word 4)
    match Schema.labelOf? labels n with
    | some label => return .enum name label (.int n)
    | none => throw (.enumValue n)
  | .union u => do
    let n ← discriminant u
    match u.armFor? n with
    | some a => return .union name a.variant (.int n) (← payload visit a)
    | none => throw (.discriminant n)

end Decoder

/-- A schema with the sizes of its types, and the number of definitions that decoded data may nest.
A negative limit allows as many as 0. -/
structure Codec where
  schema : Schema
  sizes : SizeTable
  maxDepth : Int

namespace Codec

def defaultMaxDepth : Int := 128

def ofSchema (s : Schema) (maxDepth : Int) : Codec := ⟨s, SizeTable.ofSchema s, maxDepth⟩

/-- Reads a value of a named type with the given number of levels left. -/
def read (c : Codec) : Nat → String → Decoder Value
  | 0, name => do
    Decoder.ensure (c.sizes.get name).min
    throw (.depth c.maxDepth)
  | levels + 1, name => do
    Decoder.ensure (c.sizes.get name).min
    match c.schema.definition? name with
    | some d => Decoder.definition (c.read levels) name d
    | none => throw (.notType name)

/-- The value of a named type at an offset of a buffer, and the offset after it. -/
def decodeFrom (c : Codec) (name : String) (buffer : List UInt8) (offset : Int) :
    Except DecodeError (Value × Int) :=
  if (c.schema.definition? name).isSome then
    ((c.read c.maxDepth.toNat name).run buffer).run offset
  else throw (.notType name)

/-- The value that a whole buffer holds. -/
def decode (c : Codec) (name : String) (buffer : List UInt8) : Except DecodeError Value := do
  let (v, offset) ← c.decodeFrom name buffer 0
  if offset = buffer.length then return v else throw (.trailing (buffer.length - offset))

end Codec

end XdrSchema.Wire
