/-! The values of a TOML document. A table keeps the order in which its keys were first written. -/
namespace XdrSchema

inductive Toml
  | boolean (b : Bool)
  | integer (n : Int)
  | float (text : String)
  | date (text : String)
  | string (s : String)
  | array (items : List Toml)
  | table (entries : List (String × Toml))
deriving Inhabited

namespace Toml

def string? : Toml → Option String
  | string s => some s
  | _ => none

/-- The texts of an array that holds texts only. -/
def strings? : Toml → Option (List String)
  | array items => items.mapM string?
  | _ => none

end Toml

end XdrSchema
