import LinkedTables.Json.Basic
import LinkedTables.Text.Numeral

/-!
# JSON text, written

The text has no space. In texts the quote, the backslash and the controls are escaped, five of them
by a letter and the others by four digits; every other character stands for itself.

The canonical text of a value has the fields of each object in ascending order of their names. Two
values with the same canonical text differ at most in the order of fields.
-/

namespace LinkedTables

namespace Json

def escapedChar (c : Char) : List Char :=
  match c with
  | '"' => ['\\', '"']
  | '\\' => ['\\', '\\']
  | '\x08' => ['\\', 'b']
  | '\x0c' => ['\\', 'f']
  | '\n' => ['\\', 'n']
  | '\r' => ['\\', 'r']
  | '\t' => ['\\', 't']
  | c => if c.val < 0x20 then ['\\', 'u'] ++ (Text.hex 4 c.val.toNat).toList else [c]

def writtenText (s : String) : List Char := '"' :: s.toList.flatMap escapedChar ++ ['"']

mutual

def write : Json → List Char
  | .null => "null".toList
  | .bool true => "true".toList
  | .bool false => "false".toList
  | .number spelling => spelling
  | .text s => writtenText s
  | .halved => "\"\"".toList
  | .list items => '[' :: writeItems items ++ [']']
  | .object fields => '\x7b' :: writeFields fields ++ ['\x7d']

def writeItems : List Json → List Char
  | [] => []
  | [j] => write j
  | j :: js => write j ++ ',' :: writeItems js

def writeFields : List (String × Json) → List Char
  | [] => []
  | [(name, j)] => writtenText name ++ ':' :: write j
  | (name, j) :: fs => writtenText name ++ ':' :: write j ++ ',' :: writeFields fs

end

def render (j : Json) : String := String.ofList (write j)

/-- Puts a field in front of the first one whose name is not less. -/
def insertField (f : String × Json) : List (String × Json) → List (String × Json)
  | [] => [f]
  | g :: rest => if f.1 ≤ g.1 then f :: g :: rest else g :: insertField f rest

mutual

/-- The same value with the fields of every object in ascending order. -/
def sorted : Json → Json
  | .list items => .list (sortedItems items)
  | .object fields => .object (sortedFields fields)
  | j => j

def sortedItems : List Json → List Json
  | [] => []
  | j :: js => sorted j :: sortedItems js

def sortedFields : List (String × Json) → List (String × Json)
  | [] => []
  | (name, j) :: fs => insertField (name, sorted j) (sortedFields fs)

end

/-- The text of the value with sorted fields. -/
def canonical (j : Json) : String := render (sorted j)

end Json

end LinkedTables
