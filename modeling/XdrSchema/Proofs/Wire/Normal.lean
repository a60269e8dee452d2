import XdrSchema.Wire.Encode

/-! The normal form of a value: what its bytes are read as. It is that of the value as a certain type;
what the writer refuses may stay as it is. -/
namespace XdrSchema.Wire.Normal

open Schema (Ref Ty Definition Union)

/-- A number becomes what the type makes of it, rounded to the precision of its word. -/
def primitive (p : Primitive) (v : Value) : Value :=
  match p with
  | .bool => .bool (v.equalsInt 1)
  | .float =>
    match (Encode.double v).toOption.bind Number.Double.toSingle? with
    | some w => .float (.ofSingle w)
    | none => v
  | .double =>
    match (Encode.double v).toOption with
    | some d => .float ⟨d.bits % wordCount 8⟩
    | none => v
  | .int | .unsignedInt | .hyper | .unsignedHyper =>
    match v.int? with
    | some n => .int n
    | none => v

/-- A text becomes its bytes. -/
def data : Value → Value
  | .text s => .bytes (s.toList.flatMap String.utf8EncodeChar)
  | v => v

/-- A label becomes the value of the enumeration, with its number. -/
def enum (name : String) (labels : List (String × Int)) (v : Value) : Value :=
  match Encode.labelOf name v with
  | .ok label =>
    match Schema.labelValue? labels label with
    | some n => .enum name label (.int n)
    | none => v
  | .error _ => v

/-- A discriminant becomes an integer. -/
def discriminant (d : Value) : Value :=
  match d.int? with
  | some n => .int n
  | none => d

mutual

/-- The normal form of a value of a named type. -/
def named (s : Schema) (name : String) (v : Value) : Value :=
  match s.definition? name with
  | none => v
  | some (.typedef t) =>
    match v with
    | .typedef n inner => .typedef n (type s t inner)
    | v => v
  | some (.struct fs) =>
    match v with
    | .struct n fields => .struct n (structFields s fs fields)
    | v => v
  | some (.enum labels) => enum name labels v
  | some (.union u) =>
    match v with
    | .union n variant d inner =>
      match Encode.select name u variant d with
      | .error _ => .union n variant d inner
      | .ok (a, d) =>
        match a.field with
        | some f => .union n variant (discriminant d) (type s f.type inner)
        | none => .union n variant (discriminant d) inner
    | v => v
termination_by (sizeOf v, 0)

def base (s : Schema) (b : Base Ref) (v : Value) : Value :=
  match b with
  | .primitive p => primitive p v
  | .named r => named s r.name v
termination_by (sizeOf v, 1)

/-- The normal form of a value of a type. A tuple becomes a list. -/
def type (s : Schema) (t : Ty) (v : Value) : Value :=
  match t with
  | .plain b => base s b v
  | .array b _ | .vector b _ =>
    match v with
    | .list items => .list (all s b items)
    | .tuple items => .list (all s b items)
    | v => v
  | .optional b =>
    match v with
    | .absent => .absent
    | v => base s b v
  | .fixedBytes _ | .bytes _ | .string _ => data v
termination_by (sizeOf v, 2)

def all (s : Schema) (b : Base Ref) (items : List Value) : List Value :=
  match items with
  | [] => []
  | v :: rest => base s b v :: all s b rest
termination_by (sizeOf items, 0)

/-- The fields in the order of the definition. -/
def structFields (s : Schema) (fs : List Schema.Field) (fields : List (String × Value)) :
    List (String × Value) :=
  match fs with
  | [] => []
  | f :: rest =>
    match _h : fields.lookup f.name with
    | some v => (f.name, type s f.type v) :: structFields s rest fields
    | none => structFields s rest fields
termination_by (sizeOf fields, fs.length)
decreasing_by
  · exact Prod.Lex.left _ _ (Encode.sizeOf_lookup _h)
  · exact Prod.Lex.right _ (by simp)
  · exact Prod.Lex.right _ (by simp)

end

theorem structFields_cons {s : Schema} {f : Schema.Field} {fs : List Schema.Field} {fields : List (String × Value)}
    {v : Value} (hv : fields.lookup f.name = some v) :
    structFields s (f :: fs) fields = (f.name, type s f.type v) :: structFields s fs fields := by
  rw [structFields]
  split
  · next w hw =>
    cases hv.symm.trans hw
    rfl
  · next hnone => cases hv.symm.trans hnone

end XdrSchema.Wire.Normal
