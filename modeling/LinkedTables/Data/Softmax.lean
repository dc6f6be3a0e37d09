import LinkedTables.Data.Matrix
import LinkedTables.Number.Double

/-!
# Softmax

The entries of a row become shares of one: the exponentials of their distances from the greatest
entry, divided by their sum from left to right. A NaN does not count as greatest, but it makes the
sum one. The exponential function is a parameter; `softmax` takes the one of the machine.
-/

namespace LinkedTables

namespace Matrix

def softmaxRow (exp : Float → Float) (xs : List Float) : List Float :=
  let top := Number.greatest xs
  let weights := xs.map fun x => exp (x - top)
  let sum := weights.foldl (· + ·) 0.0
  weights.map (· / sum)

/-- Softmax of every row. -/
def softmaxBy (exp : Float → Float) (m : Matrix) : Matrix :=
  let rows := ((List.range m.rows).map fun r => (softmaxRow exp (m.row r)).toArray).toArray
  ofEntries m.rows m.cols fun r c => (rows.getD r #[]).getD c 0.0

def softmax (m : Matrix) : Matrix := m.softmaxBy Float.exp

end Matrix

end LinkedTables
