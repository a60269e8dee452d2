import XdrSchema.Wire.Decode

/-! Encoding by a schema. A value has to have the shape of its type; some shapes are read
generously: a text stands for its bytes or for a label, an integer for a float, and the
discriminant of an arm with one label can be left out. -/
namespace XdrSchema.Wire

open Schema (Ref Ty Definition Arm Union)

inductive EncodeError
  | bool (got : Value)
  | int (type : String) (got : Value)
  | float (type : String) (got : Value)
  | bytes (type : String) (got : Value)
  | list (type : String) (got : Value)
  | named (kind : TypeKind) (name : String) (got : Value)
  | fields (struct : String) (expected got : List String)
  | unknownLabel (label enum : String)
  | noArm (union variant : String)
  | needsDiscriminant (variant union : String)
  | voidArm (variant union : String)
  | doesNotFit (value : Value)
  | tooLong (bound actual : Nat)
  | discriminant (value : Value)
  | notType (name : String)

namespace EncodeError

/-- Names in quotes, in square brackets. -/
def nameList (names : List String) : String :=
  "[" ++ ", ".intercalate (names.map Text.quoted) ++ "]"

/-- The kind of value that belongs to a named type. -/
def wrapper : TypeKind → String
  | .typedef => "TypedefValue"
  | .struct => "StructValue"
  | .union => "UnionValue"
  | .enum => "EnumValue"

def message : EncodeError → String
  | bool got => s!"expected bool, got {got.display}"
  | int type got => s!"expected int for {type}, got {got.kindName}"
  | float type got => s!"expected float for {type}, got {got.kindName}"
  | bytes type got => s!"expected bytes for {type}, got {got.kindName}"
  | list type got => s!"expected a list for {type}, got {got.kindName}"
  | named kind name got => s!"expected {wrapper kind} of '{name}', got {got.display}"
  | fields struct expected got =>
    s!"struct '{struct}' needs fields {nameList expected}, got {nameList got}"
  | unknownLabel label enum => s!"'{label}' is not a label of enum '{enum}'"
  | noArm union variant => s!"union '{union}' has no arm '{variant}'"
  | needsDiscriminant variant union =>
    s!"arm '{variant}' of '{union}' needs an explicit discriminant"
  | voidArm variant union => s!"arm '{variant}' of '{union}' is void"
  | doesNotFit value => value.display ++ " does not fit"
  | tooLong bound actual => s!"length {actual} exceeds bound {bound}"
  | discriminant value => s!"invalid union discriminant {value.plainText}"
  | notType name => s!"'{name}' is not a type defined by this spec"

/-- The numbers that the message shows. -/
def numbers : EncodeError → List Int
  | bool got | named _ _ got => got.numbers
  | doesNotFit value | discriminant value => value.numbers
  | tooLong bound actual => [bound, actual]
  | _ => []

/-- The number of too many digits in the message, for which the error is not raised. -/
def overlong? (e : EncodeError) : Option Number.Overlong := Number.unwritable? e.numbers

end EncodeError

abbrev Encoded := Except EncodeError (List UInt8)

namespace Encode

/-- The word of an integer value within a range. -/
def integer (width : Nat) (low high : Int) (v : Value) : Encoded :=
  match v.int? with
  | some n =>
    if low ≤ n && n ≤ high then return wordBytes width (unsigned width n)
    else throw (.doesNotFit v)
  | none => throw (.doesNotFit v)

def signedWord (width : Nat) : Value → Encoded :=
  integer width (-((wordCount width / 2 : Nat) : Int)) ((wordCount width / 2 : Nat) - 1)

def unsignedWord (width : Nat) : Value → Encoded :=
  integer width 0 (wordCount width - 1)

def lengthWord (n : Nat) : List UInt8 := wordBytes 4 n

/-- The double nearest to a number. -/
def double (v : Value) : Except EncodeError Number.Double :=
  match v with
  | .float d => return d
  | v =>
    match v.int?.bind Number.Double.ofInt? with
    | some d => return d
    | none => throw (.doesNotFit v)

def isNumber (v : Value) : Bool :=
  match v with
  | .float _ => true
  | v => v.int?.isSome

def primitive (p : Primitive) (v : Value) : Encoded := do
  match p with
  | .bool =>
    if v.equalsInt 1 then return wordBytes 4 1
    else if v.equalsInt 0 then return wordBytes 4 0
    else throw (.bool v)
  | .float | .double =>
    if !isNumber v then throw (.float p.text v)
    let d ← double v
    if p = .double then return wordBytes 8 d.bits
    match d.toSingle? with
    | some word => return wordBytes 4 word
    | none => throw (.doesNotFit v)
  | .int | .unsignedInt | .hyper | .unsignedHyper =>
    if v.int?.isNone then throw (.int p.text v)
    match p with
    | .int => signedWord 4 v
    | .hyper => signedWord 8 v
    | _ => unsignedWord p.size v

/-- The bytes of a byte string, or of a text where the type is a string. -/
def dataOf (t : Ty) (v : Value) : Encoded :=
  match t, v with
  | .string _, .text s => return s.toList.flatMap String.utf8EncodeChar
  | _, .bytes data => return data
  | t, v => throw (.bytes t.display v)

def padded (data : List UInt8) : List UInt8 := data ++ List.replicate (padding data.length) 0

def checkBound (bound : Option Nat) (n : Nat) : Except EncodeError Unit :=
  let limit := bound.getD maxLength
  if limit < n then throw (.tooLong limit n) else return ()

/-- The items of a list or tuple. -/
def itemsOf (t : Ty) (v : Value) : Except EncodeError (List Value) :=
  match v with
  | .list items | .tuple items => return items
  | v => throw (.list t.display v)

/-- The label that a value stands for. -/
def labelOf (enum : String) (v : Value) : Except EncodeError String :=
  match v with
  | .enum e label _ => if e = enum then return label else throw (.named .enum enum v)
  | .text s => return s
  | v => throw (.named .enum enum v)

def enum (name : String) (labels : List (String × Int)) (v : Value) : Encoded := do
  let label ← labelOf name v
  match Schema.labelValue? labels label with
  | some n => signedWord 4 (.int n)
  | none => throw (.unknownLabel label name)

/-- The arm that a discriminant value selects. -/
def armFor? (u : Union) (v : Value) : Option Arm :=
  match u.arms.find? fun a => a.values.any v.equalsInt with
  | some a => some a
  | none => u.default

/-- The arm of a variant and the discriminant to write. The discriminant has to select the arm. -/
def select (name : String) (u : Union) (variant : String) (discriminant : Value) :
    Except EncodeError (Arm × Value) := do
  let some a := u.allArms.find? (·.variant = variant) | throw (.noArm name variant)
  let d ← match discriminant, a.values with
    | .absent, [n] => pure (.int n)
    | .absent, _ => throw (.needsDiscriminant a.variant name)
    | d, _ => pure d
  match armFor? u d with
  | some b => if b.variant = a.variant then return (a, d) else throw (.discriminant d)
  | none => throw (.discriminant d)

theorem sizeOf_itemsOf {t : Ty} {v : Value} {items : List Value} (h : itemsOf t v = .ok items) :
    sizeOf items < sizeOf v := by
  unfold itemsOf at h
  split at h <;> cases h <;> simp

theorem sizeOf_lookup {fields : List (String × Value)} {name : String} {v : Value}
    (h : fields.lookup name = some v) : sizeOf v < sizeOf fields := by
  induction fields with
  | nil => simp at h
  | cons f rest ih =>
    obtain ⟨n, w⟩ := f
    rw [List.lookup_cons] at h
    split at h
    · cases h; simp; omega
    · have := ih h; simp; omega

mutual

/-- A value as a named type. -/
def named (s : Schema) (name : String) (v : Value) : Encoded :=
  match s.definition? name with
  | none => throw (.notType name)
  | some (.typedef t) =>
    match v with
    | .typedef n inner =>
      if n = name then type s t inner else throw (.named .typedef name (.typedef n inner))
    | v => throw (.named .typedef name v)
  | some (.struct fs) =>
    match v with
    | .struct n fields =>
      if n = name then
        let expected := fs.map (·.name)
        let got := fields.map (·.1)
        if got.isPerm expected then structFields s fs fields
        else throw (.fields name expected got)
      else throw (.named .struct name (.struct n fields))
    | v => throw (.named .struct name v)
  | some (.enum labels) => enum name labels v
  | some (.union u) =>
    match v with
    | .union n variant discriminant inner =>
      if n = name then do
        let (a, d) ← select name u variant discriminant
        let word ← if u.isUnsigned then unsignedWord 4 d else signedWord 4 d
        match a.field with
        | some f => return word ++ (← type s f.type inner)
        | none =>
          match inner with
          | .absent => return word
          | _ => throw (.voidArm a.variant name)
      else throw (.named .union name (.union n variant discriminant inner))
    | v => throw (.named .union name v)
termination_by (sizeOf v, 0)

def base (s : Schema) (b : Base Ref) (v : Value) : Encoded :=
  match b with
  | .primitive p => primitive p v
  | .named r => named s r.name v
termination_by (sizeOf v, 1)

/-- A value as a type. -/
def type (s : Schema) (t : Ty) (v : Value) : Encoded :=
  match t with
  | .plain b => base s b v
  | .array b n =>
    match _h : itemsOf (.array b n) v with
    | .error e => throw e
    | .ok items =>
      if items.length = n then all s b items else throw (.tooLong n items.length)
  | .vector b n =>
    match _h : itemsOf (.vector b n) v with
    | .error e => throw e
    | .ok items => do
      checkBound n items.length
      return lengthWord items.length ++ (← all s b items)
  | .optional b =>
    match v with
    | .absent => return wordBytes 4 0
    | v => do return wordBytes 4 1 ++ (← base s b v)
  | .fixedBytes n => do
    let data ← dataOf (.fixedBytes n) v
    if data.length = n then return padded data else throw (.tooLong n data.length)
  | .bytes n => do
    let data ← dataOf (.bytes n) v
    checkBound n data.length
    return lengthWord data.length ++ padded data
  | .string n => do
    let data ← dataOf (.string n) v
    checkBound n data.length
    return lengthWord data.length ++ padded data
termination_by (sizeOf v, 2)
decreasing_by
  all_goals first
    | exact Prod.Lex.right _ (by omega)
    | exact Prod.Lex.left _ _ (sizeOf_itemsOf _h)

/-- Items one after another. -/
def all (s : Schema) (b : Base Ref) (items : List Value) : Encoded :=
  match items with
  | [] => return []
  | v :: rest => do return (← base s b v) ++ (← all s b rest)
termination_by (sizeOf items, 0)

/-- The fields of a struct in the order of its definition. -/
def structFields (s : Schema) (fs : List Schema.Field) (fields : List (String × Value)) :
    Encoded :=
  match fs with
  | [] => return []
  | f :: rest =>
    match _h : fields.lookup f.name with
    | some v => do return (← type s f.type v) ++ (← structFields s rest fields)
    | none => throw (.fields "" [f.name] [])
termination_by (sizeOf fields, fs.length)
decreasing_by
  · exact Prod.Lex.left _ _ (sizeOf_lookup _h)
  · exact Prod.Lex.right _ (by simp)

end

end Encode

/-- The bytes of a value of a named type. -/
def Codec.encode (c : Codec) (name : String) (v : Value) : Encoded := Encode.named c.schema name v

end XdrSchema.Wire
