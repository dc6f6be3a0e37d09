/-!
# Matrices

A rectangular array of doubles in row-major order. A product is added up in place, one entry of the
left matrix after the other; a softmax row is shifted by its greatest entry before the exponentials
are taken.
-/

namespace LinkedTables

/-- A loop whose steps keep the size keeps it. -/
theorem size_foldl {α ι : Type} {step : Array α → ι → Array α}
    (h : ∀ xs i, (step xs i).size = xs.size) :
    ∀ (is : List ι) (xs : Array α), (is.foldl step xs).size = xs.size
  | [], _ => rfl
  | i :: is, xs => (size_foldl h is (step xs i)).trans (h xs i)

structure Matrix where
  rows : Nat
  cols : Nat
  data : Array Float
  size_data : data.size = rows * cols

inductive MatrixFault where
  | badSize (values rows cols : Nat)
  | ragged (row cols expected : Nat)
  | badProduct (rows cols rows' cols' : Nat)
  deriving DecidableEq, Repr

def MatrixFault.message : MatrixFault → String
  | badSize n r c => s!"buffer of {n} values cannot be viewed as {r}x{c}"
  | ragged i n expected => s!"row {i} has {n} columns, expected {expected}"
  | badProduct rows cols moreRows moreCols =>
    s!"cannot multiply {rows}x{cols} by {moreRows}x{moreCols}"

namespace Matrix

instance : Inhabited Matrix := ⟨⟨0, 0, #[], rfl⟩⟩

def ofArray (rows cols : Nat) (data : Array Float) : Except MatrixFault Matrix :=
  if h : data.size = rows * cols then .ok ⟨rows, cols, data, h⟩
  else .error (.badSize data.size rows cols)

theorem flatten_size {cols : Nat} : ∀ (rows : List (Array Float)),
    (∀ r ∈ rows, r.size = cols) → ((rows.map Array.toList).flatten).length = rows.length * cols
  | [], _ => by simp
  | r :: rs, h => by
    have ih := flatten_size rs fun r' hr => h r' (List.mem_cons_of_mem r hr)
    have hr := h r List.mem_cons_self
    simp only [List.map_cons, List.flatten_cons, List.length_append, Array.length_toList, hr, ih,
      List.length_cons]
    rw [Nat.add_mul, Nat.one_mul, Nat.add_comm]

/-- A matrix from its rows, all of the length that is given. -/
def ofEqualRows (cols : Nat) (rows : List (Array Float)) (h : ∀ r ∈ rows, r.size = cols) : Matrix :=
  ⟨rows.length, cols, ((rows.map Array.toList).flatten).toArray, by simpa using flatten_size rows h⟩

/-- The first row, counted from a number, that has not the length wanted. -/
def raggedRow? (cols : Nat) : Nat → List (Array Float) → Option (Nat × Nat)
  | _, [] => none
  | i, r :: rs => if r.size = cols then raggedRow? cols (i + 1) rs else some (i, r.size)

/-- A matrix from its rows; the first one fixes the number of columns. -/
def ofRows (rows : List (Array Float)) : Except MatrixFault Matrix :=
  let cols := (rows.head?.map Array.size).getD 0
  if h : ∀ r ∈ rows, r.size = cols then .ok (ofEqualRows cols rows h)
  else
    match raggedRow? cols 0 rows with
    | some (i, n) => .error (.ragged i n cols)
    | none => .error (.ragged 0 0 cols)

/-- A matrix given entry by entry. -/
def ofEntries (rows cols : Nat) (entry : Nat → Nat → Float) : Matrix :=
  let data := (List.range rows).map fun r => ((List.range cols).map (entry r)).toArray
  have h : ∀ r ∈ data, r.size = cols := by
    intro r hr
    obtain ⟨i, _, rfl⟩ := List.mem_map.1 hr
    simp
  { ofEqualRows cols data h with
    rows := rows
    size_data := by simpa [data, ofEqualRows] using (ofEqualRows cols data h).size_data }

def zeros (rows cols : Nat) : Matrix := ⟨rows, cols, Array.replicate (rows * cols) 0.0, by simp⟩

/-- The entry in the flat order at `row · cols + col`. -/
def get? (m : Matrix) (row col : Nat) : Option Float := m.data[row * m.cols + col]?

def get (m : Matrix) (row col : Nat) : Float := (m.get? row col).getD 0.0

def row (m : Matrix) (r : Nat) : List Float := (List.range m.cols).map (m.get r)

def nested (m : Matrix) : List (List Float) := (List.range m.rows).map m.row

/-- Every entry whose flat position leaves the remainder `c` by the width, from the `c`-th on. -/
def column (m : Matrix) (c : Nat) : List Float :=
  (List.range m.rows).filterMap fun r => m.data[c + r * max m.cols 1]?

/-- Adds the products of a factor with row `k` to row `i` of the sums. -/
def addScaled (b : Matrix) (i k : Nat) (x : Float) (sums : Array Float) : Array Float :=
  (List.range b.cols).foldl
    (fun sums j => sums.modify (i * b.cols + j) (· + x * b.get k j)) sums

/-- Adds row `i` of a product to row `i` of the sums: each entry of the left row adds its products
with the row of the right matrix that has its number. -/
def addProduct (a b : Matrix) (sums : Array Float) (i : Nat) : Array Float :=
  (List.range a.cols).foldl (fun sums k => addScaled b i k (a.get i k) sums) sums

theorem size_addScaled (b : Matrix) (i k : Nat) (x : Float) (sums : Array Float) :
    (addScaled b i k x sums).size = sums.size :=
  size_foldl (fun _ _ => Array.size_modify) _ sums

theorem size_addProduct (a b : Matrix) (sums : Array Float) (i : Nat) :
    (addProduct a b sums i).size = sums.size :=
  size_foldl (fun sums k => size_addScaled b i k (a.get i k) sums) _ sums

/-- The product, added up in place from zeros. -/
def mul (a b : Matrix) : Except MatrixFault Matrix :=
  if a.cols = b.rows then
    let zero := zeros a.rows b.cols
    .ok { zero with
      data := (List.range a.rows).foldl (addProduct a b) zero.data
      size_data := (size_foldl (size_addProduct a b) _ _).trans zero.size_data }
  else .error (.badProduct a.rows a.cols b.rows b.cols)

end Matrix

end LinkedTables
