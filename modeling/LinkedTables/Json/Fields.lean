import LinkedTables.Json.Basic
import LinkedTables.Text.Numeral

/-!
# Records in JSON

A record is written as an object. It is read from an object, or from a list of its values in the
order of the record. Fields that the record does not know are passed over; one that it knows stands
at most once. Whole numbers are digits alone: neither `1.0` nor `1e0` is one.
-/

namespace LinkedTables

namespace Json

/-- The values of the named fields, `none` for one that is missing. -/
def record? (names : List String) : Json → Option (List (Option Json))
  | .object fields =>
    let known := (fields.map (·.1)).filter names.contains
    if known.eraseDups.length == known.length then some (names.map fun n => fields.lookup n)
    else none
  | .list items =>
    if items.length ≤ names.length then
      some (items.map some ++ List.replicate (names.length - items.length) none)
    else none
  | _ => none

def bool? : Json → Option Bool
  | .bool b => some b
  | _ => none

def text? : Json → Option String
  | .text s => some s
  | _ => none

def listOf? {α : Type} (item : Json → Option α) : Json → Option (List α)
  | .list items => items.mapM item
  | _ => none

def nat? (bound : Nat) : Json → Option Nat
  | .number spelling => if spelling.all Char.isDigit then Text.numeral? 10 bound spelling else none
  | _ => none

def uint32? (j : Json) : Option UInt32 := (nat? Text.bound32 j).map UInt32.ofNat

def uint64? (j : Json) : Option UInt64 := (nat? Text.bound64 j).map UInt64.ofNat

/-- The name of a case without parts: the name alone, or an object from the name to `null`. -/
def caseName? : Json → Option String
  | .text s => some s
  | .object [(name, .null)] => some name
  | _ => none

end Json

end LinkedTables
