import LinkedTables.Data.Matrix

/-!
# Products of a row

The values that a row leaves are multiplied with a matrix of coefficients into a buffer of sums, one
for each column. The buffer is set to zero; then each value adds its products with a whole row of
coefficients, four at a time as far as that goes and one at a time for the rest.
-/

namespace LinkedTables

/-- Four doubles that are calculated with at once. -/
structure Lanes where
  first : Float
  second : Float
  third : Float
  fourth : Float

namespace Lanes

def splat (x : Float) : Lanes := ⟨x, x, x, x⟩

instance : Add Lanes where
  add l m := ⟨l.first + m.first, l.second + m.second, l.third + m.third, l.fourth + m.fourth⟩

instance : Mul Lanes where
  mul l m := ⟨l.first * m.first, l.second * m.second, l.third * m.third, l.fourth * m.fourth⟩

/-- The four entries from an index on. -/
def load (xs : Array Float) (i : Nat) : Lanes :=
  ⟨xs.getD i 0.0, xs.getD (i + 1) 0.0, xs.getD (i + 2) 0.0, xs.getD (i + 3) 0.0⟩

/-- Written over the four entries from an index on. -/
def store (l : Lanes) (xs : Array Float) (i : Nat) : Array Float :=
  (((xs.setIfInBounds i l.first).setIfInBounds (i + 1) l.second).setIfInBounds
    (i + 2) l.third).setIfInBounds (i + 3) l.fourth

end Lanes

namespace Batch

/-- Adds the products of a value with the four coefficients of a chunk to the sums of the chunk. -/
def addChunk (v : Float) (coef sums : Array Float) (chunk : Nat) : Array Float :=
  (Lanes.load sums (4 * chunk) + .splat v * Lanes.load coef (4 * chunk)).store sums (4 * chunk)

/-- Adds the product of a value with the `j`-th coefficient to the `j`-th sum. -/
def addOne (v : Float) (coef sums : Array Float) (j : Nat) : Array Float :=
  sums.modify j (· + v * coef.getD j 0.0)

/-- Adds the products of a value with coefficients to as many sums, the chunks of four before the
remainder. -/
def addProducts (v : Float) (coef sums : Array Float) : Array Float :=
  (List.range' (4 * (coef.size / 4)) (coef.size % 4)).foldl (addOne v coef)
    ((List.range (coef.size / 4)).foldl (addChunk v coef) sums)

/-- The sums of products of values with every column of coefficients, in a buffer with an entry for
each column. What the buffer held before is overwritten. -/
def dotRow (coef : Matrix) (values : List Float) (buffer : Array Float) : Array Float :=
  values.zipIdx.foldl (fun sums (v, e) => addProducts v (coef.row e).toArray sums)
    (buffer.map fun _ => 0.0)

end Batch

end LinkedTables
