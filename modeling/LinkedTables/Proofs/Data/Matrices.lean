import LinkedTables.Data.Matrix
import Mathlib

/-!
# Matrices entry by entry

A matrix given by its entries has them (`get?_ofEntries`), and an array of as many rows of one length
is that matrix (`ofArray_flatten`).

What a loop over a buffer leaves of an entry is read off its steps: nothing happens to an entry that
no step touches, and one that a single step touches is changed once. So each entry of a product that
is added up in place is the sum of products of a row with a column (`mul_eq`).
-/

namespace LinkedTables

theorem map_getD_range {α : Type} (d : α) : ∀ (l : List α),
    ((List.range l.length).map fun j => l.getD j d) = l
  | [] => rfl
  | x :: l => by
    rw [List.length_cons, List.range_succ_eq_map, List.map_cons, List.map_map]
    exact congrArg (x :: ·) (map_getD_range d l)

/-- Rows of one length stand one after the other. -/
theorem getElem?_flatten_rows {α : Type} {cols c : Nat} (hc : c < cols) : ∀ {rows : List (List α)}
    (r : Nat), (∀ l ∈ rows, l.length = cols) →
      rows.flatten[r * cols + c]? = rows[r]?.bind fun l => l[c]?
  | [], r, _ => by simp
  | l :: rows, 0, h => by
    have hl : l.length = cols := h l (by simp)
    rw [List.flatten_cons, Nat.zero_mul, Nat.zero_add, List.getElem?_append_left (by omega)]
    rfl
  | l :: rows, r + 1, h => by
    have hl : l.length = cols := h l (by simp)
    rw [List.flatten_cons, List.getElem?_append_right (by rw [Nat.succ_mul]; omega),
      show (r + 1) * cols + c - l.length = r * cols + c by rw [Nat.succ_mul]; omega,
      getElem?_flatten_rows hc r fun l' hl' => h l' (List.mem_cons_of_mem l hl')]
    rfl

section Buffers
variable {α ι : Type} {step : Array α → ι → Array α} {i : Nat}

/-- An entry that no step touches is kept. -/
theorem getElem?_foldl_kept : ∀ {ns : List ι}, (∀ n ∈ ns, ∀ xs, (step xs n)[i]? = xs[i]?) →
    ∀ xs : Array α, (ns.foldl step xs)[i]? = xs[i]?
  | [], _, _ => rfl
  | n :: ns, h, xs => by
    rw [List.foldl_cons, getElem?_foldl_kept fun m hm => h m (List.mem_cons_of_mem n hm)]
    exact h n List.mem_cons_self xs

/-- An entry that every step changes holds what the changes lead to, one after the other. -/
theorem getElem?_foldl_all {f : ι → α → α} : ∀ {ns : List ι},
    (∀ n ∈ ns, ∀ xs, (step xs n)[i]? = xs[i]?.map (f n)) → ∀ xs : Array α,
      (ns.foldl step xs)[i]? = xs[i]?.map fun x => ns.foldl (fun x n => f n x) x
  | [], _, xs => by simp
  | n :: ns, h, xs => by
    rw [List.foldl_cons, getElem?_foldl_all fun m hm => h m (List.mem_cons_of_mem n hm),
      h n List.mem_cons_self, Option.map_map]
    rfl

/-- An entry that one step changes and no other step touches is changed once. -/
theorem getElem?_foldl_once {f : α → α} {ns : List ι} (hns : ns.Nodup) {n : ι} (hn : n ∈ ns)
    (hstep : ∀ xs, (step xs n)[i]? = xs[i]?.map f)
    (hkept : ∀ m ∈ ns, m ≠ n → ∀ xs, (step xs m)[i]? = xs[i]?) (xs : Array α) :
    (ns.foldl step xs)[i]? = xs[i]?.map f := by
  obtain ⟨before, after, rfl⟩ := List.append_of_mem hn
  obtain ⟨-, hafter, happart⟩ := List.nodup_append.1 hns
  have hbehind : ∀ m ∈ after, m ≠ n := fun m hm h => (List.nodup_cons.1 hafter).1 (h ▸ hm)
  have hahead : ∀ m ∈ before, m ≠ n := fun m hm => happart m hm n List.mem_cons_self
  rw [List.foldl_append, List.foldl_cons,
    getElem?_foldl_kept fun m hm => hkept m (by simp [hm]) (hbehind m hm), hstep,
    getElem?_foldl_kept fun m hm => hkept m (by simp [hm]) (hahead m hm)]

end Buffers

namespace Matrix

theorem data_ofEntries (rows cols : Nat) (entry : Nat → Nat → Float) :
    (ofEntries rows cols entry).data.toList =
      ((List.range rows).map fun r => (List.range cols).map (entry r)).flatten := by
  simp [ofEntries, ofEqualRows, Function.comp_def]

/-- A matrix has the entries that it was given. -/
theorem get?_ofEntries {rows cols r c : Nat} (hr : r < rows) (hc : c < cols)
    (entry : Nat → Nat → Float) : (ofEntries rows cols entry).get? r c = some (entry r c) := by
  have hcols : (ofEntries rows cols entry).cols = cols := rfl
  rw [get?, hcols, ← Array.getElem?_toList, data_ofEntries, getElem?_flatten_rows hc r (by simp)]
  simp [hr, hc]

/-- A flat position belongs to one row and one column. -/
theorem position_inj {cols r c r' c' : Nat} (hc : c < cols) (hc' : c' < cols)
    (h : r * cols + c = r' * cols + c') : r = r' ∧ c = c' := by
  have hrow : r = r' := by
    have hdiv := congrArg (· / cols) h
    simpa [Nat.add_comm, Nat.add_mul_div_right _ _ (Nat.zero_lt_of_lt hc), Nat.div_eq_of_lt hc,
      Nat.div_eq_of_lt hc'] using hdiv
  exact ⟨hrow, by rw [hrow] at h; omega⟩

/-- Matrices of one shape are the same if their entries are. -/
theorem ext_entries {a b : Matrix} (hrows : a.rows = b.rows) (hcols : a.cols = b.cols)
    (h : ∀ r < a.rows, ∀ c < a.cols, a.get? r c = b.get? r c) : a = b := by
  have hsize : a.data.size = b.data.size := by rw [a.size_data, b.size_data, hrows, hcols]
  have hdata : a.data = b.data := by
    refine Array.ext hsize fun i hi hi' => ?_
    have hlt : i < a.rows * a.cols := a.size_data ▸ hi
    have hpos : 0 < a.cols := Nat.pos_of_mul_pos_left (Nat.zero_lt_of_lt hlt)
    have hentry := h (i / a.cols) (Nat.div_lt_of_lt_mul (Nat.mul_comm .. ▸ hlt)) (i % a.cols)
      (Nat.mod_lt i hpos)
    rw [get?, get?, ← hcols, Nat.div_add_mod'] at hentry
    simpa [hi, hi'] using hentry
  exact Matrix.mk.injEq .. ▸ ⟨hrows, hcols, hdata⟩

theorem ofEntries_congr {rows cols : Nat} {entry entry' : Nat → Nat → Float}
    (h : ∀ r < rows, ∀ c < cols, entry r c = entry' r c) :
    ofEntries rows cols entry = ofEntries rows cols entry' :=
  ext_entries rfl rfl fun r hr c hc =>
    ((get?_ofEntries hr hc entry).trans (congrArg some (h r hr c hc))).trans
      (get?_ofEntries hr hc entry').symm

/-- Rows of one length make the matrix of their entries. -/
theorem ofArray_flatten {rows cols : Nat} {row : Nat → List Float}
    (h : ∀ r < rows, (row r).length = cols) :
    ofArray rows cols ((List.range rows).map row).flatten.toArray =
      .ok (ofEntries rows cols fun r j => (row r).getD j 0.0) := by
  have hrows : ((List.range rows).map row) =
      (List.range rows).map fun r => (List.range cols).map fun j => (row r).getD j 0.0 := by
    refine List.map_congr_left fun r hr => ?_
    rw [← h r (List.mem_range.1 hr), map_getD_range]
  have hdata : ((List.range rows).map row).flatten.toArray =
      (ofEntries rows cols fun r j => (row r).getD j 0.0).data := by
    rw [hrows, ← data_ofEntries, Array.toArray_toList]
  have hsize : (ofEntries rows cols fun r j => (row r).getD j 0.0).data.size = rows * cols :=
    (ofEntries rows cols fun r j => (row r).getD j 0.0).size_data
  rw [hdata, ofArray, dif_pos hsize]
  rfl

section Product
variable {a b : Matrix} {i j r : Nat} (sums : Array Float)

/-- The sum of products, added up from the first term to the last, starting at zero. -/
def dot (terms : List (Float × Float)) : Float := terms.foldl (fun acc (a, b) => acc + a * b) 0.0

/-- The sum of products of a row with a column. -/
def productEntry (a b : Matrix) (i j : Nat) : Float :=
  dot ((List.range a.cols).map fun k => (a.get i k, b.get k j))

theorem addScaled_same (k : Nat) (x : Float) (hj : j < b.cols) :
    (addScaled b i k x sums)[i * b.cols + j]? =
      sums[i * b.cols + j]?.map (· + x * b.get k j) := by
  refine getElem?_foldl_once List.nodup_range (List.mem_range.2 hj) (fun sums => ?_)
    (fun j' hj' hne sums => ?_) sums
  · rw [Array.getElem?_modify, if_pos rfl]
  · rw [Array.getElem?_modify, if_neg (by omega)]

theorem addScaled_other (k : Nat) (x : Float) (hj : j < b.cols) (h : r ≠ i) :
    (addScaled b i k x sums)[r * b.cols + j]? = sums[r * b.cols + j]? := by
  refine getElem?_foldl_kept (fun j' hj' sums => ?_) sums
  rw [Array.getElem?_modify, if_neg]
  exact fun hsame => h (position_inj (List.mem_range.1 hj') hj hsame).1.symm

/-- Row after row of the left matrix, its products are added to the sums of the same row. -/
theorem addProduct_same (hj : j < b.cols) : (addProduct a b sums i)[i * b.cols + j]? =
    sums[i * b.cols + j]?.map fun x =>
      (List.range a.cols).foldl (fun x k => x + a.get i k * b.get k j) x :=
  getElem?_foldl_all (fun k _ sums => addScaled_same sums k (a.get i k) hj) sums

theorem addProduct_other (hj : j < b.cols) (h : r ≠ i) :
    (addProduct a b sums i)[r * b.cols + j]? = sums[r * b.cols + j]? :=
  getElem?_foldl_kept (fun k _ sums => addScaled_other sums k (a.get i k) hj h) sums

/-- The product that is added up in place has the sums of products for its entries. -/
theorem mul_eq (h : a.cols = b.rows) :
    a.mul b = .ok (ofEntries a.rows b.cols (productEntry a b)) := by
  rw [mul, if_pos h]
  refine congrArg Except.ok (ext_entries rfl rfl fun i (hi : i < a.rows) j (hj : j < b.cols) => ?_)
  rw [get?_ofEntries hi hj]
  have hzero : (zeros a.rows b.cols).data[i * b.cols + j]? = some 0.0 := by
    have hlt : i * b.cols + j < a.rows * b.cols := Nat.lt_of_lt_of_le
      (Nat.add_lt_add_left hj _) (Nat.succ_mul i b.cols ▸ Nat.mul_le_mul_right b.cols hi)
    simp [zeros, hlt]
  calc ((List.range a.rows).foldl (addProduct a b) (zeros a.rows b.cols).data)[i * b.cols + j]?
      = (zeros a.rows b.cols).data[i * b.cols + j]?.map fun x =>
          (List.range a.cols).foldl (fun x k => x + a.get i k * b.get k j) x :=
        getElem?_foldl_once List.nodup_range (List.mem_range.2 hi)
          (fun sums => addProduct_same sums hj)
          (fun r _ hr sums => addProduct_other sums hj hr.symm) _
    _ = some (productEntry a b i j) := by
        rw [hzero, Option.map_some, productEntry, dot, List.foldl_map]

end Product

/-- An entry of a product is the sum of products of a row with a column. -/
theorem productEntry_ofEntries {rows : Nat} {row : Nat → List Float} {b : Matrix} {i : Nat}
    (hi : i < rows) (hlen : (row i).length = b.rows) (j : Nat) :
    productEntry (ofEntries rows b.rows fun r k => (row r).getD k 0.0) b i j =
      dot ((row i).zipIdx.map fun (v, k) => (v, b.get k j)) := by
  have hterms : (List.range b.rows).map (fun k =>
      ((ofEntries rows b.rows fun r k => (row r).getD k 0.0).get i k, b.get k j)) =
      (row i).zipIdx.map fun (v, k) => (v, b.get k j) := by
    refine List.ext_getElem (by simp [hlen]) fun k hk hk' => ?_
    have hk : k < b.rows := by simpa using hk
    simp [get, get?_ofEntries hi hk, hlen, hk]
  exact congrArg dot hterms

end Matrix

end LinkedTables
