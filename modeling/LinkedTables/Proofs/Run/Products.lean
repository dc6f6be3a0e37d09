import LinkedTables.Proofs.Data.Matrices
import LinkedTables.Run.Batch

/-!
# Sums of products in lanes

Four sums calculated at once are what they are one after the other, so a value adds one product to
each sum, whatever remainder the width leaves (`Batch.getElem?_addProducts`). What a row leaves in
its buffer is therefore, in each column, the sum of products in the order of the values
(`Batch.getElem?_dotRow`).
-/

namespace LinkedTables

theorem Lanes.add_splat_mul (v : Float) (l m : Lanes) : l + .splat v * m =
    ⟨l.first + v * m.first, l.second + v * m.second, l.third + v * m.third,
      l.fourth + v * m.fourth⟩ := rfl

namespace Batch

section Steps
variable {v : Float} {coef : Array Float} {n i : Nat}

/-- A chunk of four entries is changed as its entries are one at a time. -/
theorem addChunk_same (h : i / 4 = n) (sums : Array Float) :
    (addChunk v coef sums n)[i]? = sums[i]?.map (· + v * coef.getD i 0.0) := by
  have hi : i = 4 * n ∨ i = 4 * n + 1 ∨ i = 4 * n + 2 ∨ i = 4 * n + 3 := by omega
  rw [addChunk, Lanes.add_splat_mul, Lanes.load, Lanes.load, Lanes.store]
  rcases Nat.lt_or_ge i sums.size with hlt | hge
  · rcases hi with rfl | rfl | rfl | rfl <;> simp [hlt]
  · simp [hge]

theorem addChunk_other (h : i / 4 ≠ n) (sums : Array Float) :
    (addChunk v coef sums n)[i]? = sums[i]? := by
  simp only [addChunk, Lanes.store, Array.getElem?_setIfInBounds]
  rw [if_neg (by omega), if_neg (by omega), if_neg (by omega), if_neg (by omega)]

theorem addOne_same (sums : Array Float) :
    (addOne v coef sums i)[i]? = sums[i]?.map (· + v * coef.getD i 0.0) := by
  rw [addOne, Array.getElem?_modify, if_pos rfl]

theorem addOne_other (h : n ≠ i) (sums : Array Float) :
    (addOne v coef sums n)[i]? = sums[i]? := by
  rw [addOne, Array.getElem?_modify, if_neg h]

/-- A value adds one product to each sum. The entry is in a chunk or in the remainder: the loop over
the chunks changes it once or not at all, and the loop over the remainder the other way round. -/
theorem getElem?_addProducts (hi : i < coef.size) (sums : Array Float) :
    (addProducts v coef sums)[i]? = sums[i]?.map (· + v * coef.getD i 0.0) := by
  rw [addProducts]
  rcases Nat.lt_or_ge i (4 * (coef.size / 4)) with hchunk | hrest
  · rw [getElem?_foldl_kept fun j hj => addOne_other (by have := List.mem_range'_1.1 hj; omega)]
    exact getElem?_foldl_once List.nodup_range (List.mem_range.2 (by omega)) (addChunk_same rfl)
      (fun n _ hn => addChunk_other hn.symm) sums
  · have hmem : i ∈ List.range' (4 * (coef.size / 4)) (coef.size % 4) :=
      List.mem_range'_1.2 (by omega)
    rw [getElem?_foldl_once List.nodup_range' hmem addOne_same fun j _ hj => addOne_other hj,
      getElem?_foldl_kept fun n hn => addChunk_other (by have := List.mem_range.1 hn; omega)]

theorem size_addProducts (v : Float) (coef sums : Array Float) :
    (addProducts v coef sums).size = sums.size := by
  have hchunk : ∀ sums n, (addChunk v coef sums n).size = sums.size := fun sums n => by
    simp [addChunk, Lanes.store]
  have hone : ∀ sums j, (addOne v coef sums j).size = sums.size := fun sums j => by simp [addOne]
  rw [addProducts, size_foldl hone, size_foldl hchunk]

end Steps

section Rows
variable {coef : Matrix} {buffer : Array Float} {j : Nat}

/-- The sum of products of values with one column of coefficients. -/
def utility (coef : Matrix) (values : List Float) (j : Nat) : Float :=
  Matrix.dot (values.zipIdx.map fun (v, e) => (v, coef.get e j))

theorem size_dotRow (coef : Matrix) (values : List Float) (buffer : Array Float) :
    (dotRow coef values buffer).size = buffer.size := by
  rw [dotRow, size_foldl fun sums (v, e) => size_addProducts v (coef.row e).toArray sums,
    Array.size_map]

theorem getElem?_dotRow (hj : j < coef.cols) (values : List Float) (buffer : Array Float) :
    (dotRow coef values buffer)[j]? = buffer[j]?.map fun _ => utility coef values j := by
  have hstep : ∀ t ∈ values.zipIdx, ∀ sums : Array Float,
      (addProducts t.1 (coef.row t.2).toArray sums)[j]? =
        sums[j]?.map (· + t.1 * coef.get t.2 j) := fun (v, e) _ sums => by
    rw [getElem?_addProducts (by simpa [Matrix.row] using hj)]
    simp [Matrix.row, hj]
  rw [dotRow, getElem?_foldl_all hstep, Array.getElem?_map, Option.map_map, utility, Matrix.dot,
    List.foldl_map]
  rfl

/-- In a buffer with an entry for each column every column gets its sum of products, whatever the
buffer held before. -/
theorem dotRow_eq (h : buffer.size = coef.cols) (values : List Float) :
    (dotRow coef values buffer).toList = (List.range coef.cols).map (utility coef values) := by
  refine List.ext_getElem? fun j => ?_
  rcases Nat.lt_or_ge j coef.cols with hj | hj
  · rw [Array.getElem?_toList, getElem?_dotRow hj]
    simp [hj, h]
  · rw [List.getElem?_eq_none (by simpa [size_dotRow, h]), List.getElem?_eq_none (by simpa)]

theorem utilities_eq (coef : Matrix) (values : List Float) :
    utilities coef values = (List.range coef.cols).map (utility coef values) :=
  dotRow_eq (by simp) values

end Rows

end Batch

end LinkedTables
