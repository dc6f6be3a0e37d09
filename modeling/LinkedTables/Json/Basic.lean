/-!
# JSON values

A value as its text gives it: the fields of an object keep their order and their repetitions, and a
number keeps its spelling, so that `1`, `1.0` and `1e0` are three values. A reader of values that
cares for none of this looks at the parts it wants.
-/

namespace LinkedTables

inductive Json where
  | null
  | bool (b : Bool)
  | number (spelling : List Char)
  | text (s : String)
  /-- A text whose escapes name half of a surrogate pair, or an object with such a name for a field;
  it stands for nothing. -/
  | halved
  | list (items : List Json)
  | object (fields : List (String × Json))
  deriving Inhabited

namespace Json

def nat (n : Nat) : Json := .number (Nat.toDigits 10 n)

def texts (items : List String) : Json := .list (items.map .text)

/-- The first value of a field. -/
def field? (name : String) : Json → Option Json
  | .object fields => fields.lookup name
  | _ => none

end Json

end LinkedTables
