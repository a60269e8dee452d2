/-! The notation for structured data in messages and dumps: records with named fields, and lists. -/
namespace XdrSchema.Text

/-- `Name(field=value, …)`. -/
def record (name : String) (fields : List (String × String)) : String :=
  name ++ "(" ++ ", ".intercalate (fields.map fun (field, value) => field ++ "=" ++ value) ++ ")"

/-- `[item, …]`. -/
def bracketed (items : List String) : String := "[" ++ ", ".intercalate items ++ "]"

end XdrSchema.Text
