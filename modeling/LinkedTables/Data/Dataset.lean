import LinkedTables.Data.Coords
import LinkedTables.Text.Name
import LinkedTables.Text.Quoted

/-!
# Datasets

A dataset has dimensions in order, with distinct names, and variables in the order of their names. A
variable lies over some of the dimensions, each at most once; its values stand in row-major order,
so there are as many as the product of the sizes. The product is taken in 64 bits.

A dataset is only ever extended: a dimension is added, a variable is added or put in the place of
one of the same name. A step that fails leaves nothing behind.
-/

namespace LinkedTables

structure Variable where
  /-- Positions among the dimensions of the dataset. -/
  dims : List Nat
  values : Values
  deriving DecidableEq, Inhabited

structure Dataset where
  dims : List Dimension
  vars : List (String × Variable)
  deriving DecidableEq, Inhabited

inductive DatasetFault where
  | badName (name : String)
  | repeatedDimension (name : String)
  | unknownDimension (var dim : String)
  | dimensionTwice (var dim : String)
  | wrongCount (var : String) (found : Nat) (dims : List String) (expected : Nat)
  deriving DecidableEq, Repr

def DatasetFault.message : DatasetFault → String
  | badName name => s!"'{name}' is not a valid identifier"
  | repeatedDimension name => s!"duplicate dimension '{name}'"
  | unknownDimension v d => s!"variable '{v}' uses unknown dimension '{d}'"
  | dimensionTwice v d => s!"variable '{v}' repeats dimension '{d}'"
  | wrongCount v found dims expected =>
    s!"variable '{v}' has {found} values but dimensions {Text.quotedList dims} require {expected}"

namespace Dataset

def empty : Dataset := ⟨[], []⟩

def dimIndex? (ds : Dataset) (name : String) : Option Nat := ds.dims.findIdx? (·.name == name)

def dim? (ds : Dataset) (name : String) : Option Dimension := ds.dims.find? (·.name == name)

def var? (ds : Dataset) (name : String) : Option Variable := ds.vars.lookup name

/-- The size of the dimension at a position. -/
def dimSize (ds : Dataset) (i : Nat) : Nat := (ds.dims[i]?.map Dimension.size).getD 0

/-- The name of the dimension at a position. -/
def dimName (ds : Dataset) (i : Nat) : String := (ds.dims[i]?.map Dimension.name).getD ""

def dimNames (ds : Dataset) (dims : List Nat) : List String := dims.map ds.dimName

/-- The names of the dimensions that a variable lies over. -/
def variableDims? (ds : Dataset) (name : String) : Option (List String) :=
  (ds.var? name).map fun v => ds.dimNames v.dims

/-- The size of the leading dimension. -/
def size (ds : Dataset) : Nat := (ds.dims.head?.map Dimension.size).getD 0

def checkName (name : String) : Except DatasetFault Unit :=
  if Text.isName name.toList then .ok () else .error (.badName name)

def withDim (ds : Dataset) (name : String) (coords : Coords) : Except DatasetFault Dataset := do
  checkName name
  if (ds.dimIndex? name).isSome then throw (.repeatedDimension name)
  return { ds with dims := ds.dims ++ [⟨name, coords⟩] }

/-- The positions of dimensions, after those found before, and the product of all their sizes. -/
def layOut (ds : Dataset) (var : String) :
    List Nat → UInt64 → List String → Except DatasetFault (List Nat × UInt64)
  | found, count, [] => .ok (found, count)
  | found, count, d :: rest =>
    match ds.dimIndex? d with
    | none => .error (.unknownDimension var d)
    | some i =>
      if found.contains i then .error (.dimensionTwice var d)
      else layOut ds var (found ++ [i]) (count * UInt64.ofNat (ds.dimSize i)) rest

/-- Puts a variable in its place among the names, in the place of the one with its name. -/
def insert (name : String) (v : Variable) : List (String × Variable) → List (String × Variable)
  | [] => [(name, v)]
  | (n, w) :: rest =>
    if n == name then (name, v) :: rest
    else if name < n then (name, v) :: (n, w) :: rest
    else (n, w) :: insert name v rest

def withVariable (ds : Dataset) (name : String) (dims : List String) (values : Values) :
    Except DatasetFault Dataset := do
  checkName name
  let (indices, expected) ← ds.layOut name [] 1 dims
  if values.size != expected.toNat then
    throw (.wrongCount name values.size dims expected.toNat)
  return { ds with vars := insert name ⟨indices, values⟩ ds.vars }

/-- A dataset with one dimension and variables over it. -/
def ofTable (dim : String) (coords : Coords) (columns : List (String × Values)) :
    Except DatasetFault Dataset := do
  let ds ← empty.withDim dim coords
  columns.foldlM (fun ds (name, values) => ds.withVariable name [dim] values) ds

/-- Equal in all parts, entries being compared as numbers. -/
def agrees (a b : Dataset) : Bool :=
  decide (a.dims = b.dims) && a.vars.length == b.vars.length
    && (a.vars.zip b.vars).all fun ((n, v), (m, w)) =>
      n == m && v.dims == w.dims && v.values.agrees w.values

end Dataset

end LinkedTables
