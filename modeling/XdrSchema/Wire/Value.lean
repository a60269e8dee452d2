import XdrSchema.Number.Shortest
import XdrSchema.Text.Quoted
import XdrSchema.Text.Record

/-! Values to encode, and decoded values. A value of a named type says which type it belongs to, so
that values of two typedefs of one type differ. Callers can also hand in shapes that no type
decodes to, such as texts and tuples. -/
namespace XdrSchema.Wire

inductive Value
  | absent
  | bool (b : Bool)
  | int (n : Int)
  | float (d : Number.Double)
  | bytes (data : List UInt8)
  | text (s : String)
  | list (items : List Value)
  | tuple (items : List Value)
  | enum (enum label : String) (value : Value)
  | struct (struct : String) (fields : List (String × Value))
  | union (union arm : String) (discriminant value : Value)
  | typedef (typedef : String) (value : Value)

namespace Value

/-- What kind of value it is, in messages. -/
def kindName : Value → String
  | absent => "NoneType"
  | bool _ => "bool"
  | int _ => "int"
  | float _ => "float"
  | bytes _ => "bytes"
  | text _ => "str"
  | list _ => "list"
  | tuple _ => "tuple"
  | enum .. => "EnumValue"
  | struct .. => "StructValue"
  | union .. => "UnionValue"
  | typedef .. => "TypedefValue"

/-- Sets a field in place, or adds it at the end. -/
def setField (fields : List (String × Value)) (name : String) (v : Value) :
    List (String × Value) :=
  if fields.any (·.1 = name) then
    fields.map fun f => if f.1 = name then (name, v) else f
  else fields ++ [(name, v)]

/-- A struct value from fields that may repeat a name; the last one counts. -/
def ofFields (name : String) (fields : List (String × Value)) : Value :=
  struct name (fields.foldl (fun done f => setField done f.1 f.2) [])

/-- Numbers are equal to an integer by value, truth values included. -/
def equalsInt (v : Value) (n : Int) : Bool :=
  match v with
  | bool b => n = if b then 1 else 0
  | int m => m = n
  | float d => d.equalsInt n
  | _ => false

/-- The integer that a value is, truth values included. -/
def int? : Value → Option Int
  | bool b => some (if b then 1 else 0)
  | int n => some n
  | _ => none

/-! ### Texts -/

mutual

/-- A value as messages show it. -/
def display : Value → String
  | absent => "None"
  | bool b => if b then "True" else "False"
  | int n => toString n
  | float d => d.text
  | bytes data => Text.quotedBytes data
  | text s => Text.quoted s
  | list items => Text.bracketed (displayAll items)
  | tuple [x] => "(" ++ display x ++ ",)"
  | tuple items => "(" ++ ", ".intercalate (displayAll items) ++ ")"
  | enum e l v =>
    Text.record "EnumValue"
      [("enum", Text.quoted e), ("label", Text.quoted l), ("value", display v)]
  | struct s fields =>
    Text.record "StructValue" [("struct", Text.quoted s),
      ("fields", "\x7b" ++ ", ".intercalate (displayFields fields) ++ "\x7d")]
  | union u a d v =>
    Text.record "UnionValue" [("union", Text.quoted u), ("arm", Text.quoted a),
      ("discriminant", display d), ("value", display v)]
  | typedef t v => Text.record "TypedefValue" [("typedef", Text.quoted t), ("value", display v)]

def displayAll : List Value → List String
  | [] => []
  | v :: rest => display v :: displayAll rest

def displayFields : List (String × Value) → List String
  | [] => []
  | (name, v) :: rest => (Text.quoted name ++ ": " ++ display v) :: displayFields rest

end

mutual

/-- The numbers that are shown of a value. -/
def numbers : Value → List Int
  | int n => [n]
  | list items | tuple items => numbersAll items
  | struct _ fields => numbersFields fields
  | enum _ _ v | typedef _ v => numbers v
  | union _ _ d v => numbers d ++ numbers v
  | _ => []

def numbersAll : List Value → List Int
  | [] => []
  | v :: rest => numbers v ++ numbersAll rest

def numbersFields : List (String × Value) → List Int
  | [] => []
  | (_, v) :: rest => numbers v ++ numbersFields rest

end

/-- A text stands for itself; all else is shown. -/
def plainText : Value → String
  | text s => s
  | v => v.display

/-! ### Equality -/

mutual

/-- Equality of values. Numbers are compared by value, so that no NaN is equal to itself; fields of
a struct are compared by name. -/
def same : Value → Value → Bool
  | absent, absent => true
  | bool a, w => w.equalsInt (if a then 1 else 0)
  | int a, w => w.equalsInt a
  | float a, float b => a.sameNumber b
  | float a, bool b => a.equalsInt (if b then 1 else 0)
  | float a, int b => a.equalsInt b
  | bytes a, bytes b => a = b
  | text a, text b => a = b
  | list a, list b => sameAll a b
  | tuple a, tuple b => sameAll a b
  | enum e l v, enum e' l' v' => e = e' && l = l' && same v v'
  | struct s fields, struct s' fields' =>
    s = s' && fields.length = fields'.length && sameFields fields fields'
  | union u a d v, union u' a' d' v' => u = u' && a = a' && same d d' && same v v'
  | typedef t v, typedef t' v' => t = t' && same v v'
  | _, _ => false

def sameAll : List Value → List Value → Bool
  | [], [] => true
  | a :: as, b :: bs => same a b && sameAll as bs
  | _, _ => false

def sameFields : List (String × Value) → List (String × Value) → Bool
  | [], _ => true
  | (name, v) :: rest, fields =>
    (match fields.lookup name with
      | some w => same v w
      | none => false) && sameFields rest fields

end

end Value

end XdrSchema.Wire
