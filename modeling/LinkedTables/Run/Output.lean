import LinkedTables.Data.Coords
import LinkedTables.Data.Matrix

/-!
# Results with labels

A result is a matrix alone, a matrix whose rows and columns have labels, or a frame with an index
and named columns. Labels are added to a matrix that is already there.
-/

namespace LinkedTables

inductive OutputForm where
  | raw
  | labeled
  | frame
  deriving DecidableEq, Repr

structure Labeled where
  data : Matrix
  rowDim : Dimension
  columnDim : String
  columns : List String

structure Frame where
  data : Matrix
  index : Dimension
  columns : List String

inductive Output where
  | raw (data : Matrix)
  | labeled (l : Labeled)
  | frame (f : Frame)

namespace Labeled

/-- The entry at the first row and the first column with the labels. -/
def get? (l : Labeled) (rowLabel column : String) : Option Float := do
  let r ← l.rowDim.coords.position? rowLabel
  let c ← l.columns.idxOf? column
  return l.data.get r c

end Labeled

namespace Frame

/-- The first column with a name. -/
def column? (f : Frame) (name : String) : Option (List Float) :=
  (f.columns.idxOf? name).map f.data.column

end Frame

namespace Output

def wrap (form : OutputForm) (data : Matrix) (rows : Dimension) (columnDim : String)
    (columns : List String) : Output :=
  match form with
  | .raw => raw data
  | .labeled => labeled ⟨data, rows, columnDim, columns⟩
  | .frame => frame ⟨data, rows, columns⟩

def data : Output → Matrix
  | raw m => m
  | labeled l => l.data
  | frame f => f.data

end Output

/-- Choices and their probabilities, one of each per row. -/
structure Choices where
  choices : List Nat
  probabilities : List Float

/-- Choices by the names of the alternatives. -/
structure LabeledChoices where
  index : Dimension
  chosen : List String
  outcome : Choices

/-- An alternative without a name is called by its number. -/
def Choices.labeled (o : Choices) (index : Dimension) (alternatives : List String) :
    LabeledChoices :=
  ⟨index, o.choices.map fun c => (alternatives[c]?).getD (toString c), o⟩

end LinkedTables
