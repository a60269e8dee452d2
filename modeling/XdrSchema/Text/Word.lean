/-! The characters of words. -/
namespace XdrSchema.Text

/-- A letter or digit of ASCII, or an underscore. -/
def isWordChar (c : Char) : Bool := c.isAlphanum || c = '_'

end XdrSchema.Text
