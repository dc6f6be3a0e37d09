/-!
# Names

A name is an ASCII letter or `_`, followed by ASCII letters, digits and `_`. Tables, dimensions
and variables carry names, and expressions refer to them by names.
-/

namespace LinkedTables

namespace Text

def startsName (c : Char) : Bool := c.isAlpha || c == '_'

def continuesName (c : Char) : Bool := c.isAlphanum || c == '_'

def isName : List Char → Bool
  | [] => false
  | c :: cs => startsName c && cs.all continuesName

end Text

end LinkedTables
