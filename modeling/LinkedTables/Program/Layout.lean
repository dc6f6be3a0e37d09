import LinkedTables.Links.Link

/-!
# Layouts

What a program takes for granted about the data it runs on, without the data: the root table, the
columns it reads with the dimensions they lie over, the links whose labels are looked up, the
columns that must hold positions, and the sizes of dimensions that offsets were computed with.
-/

namespace LinkedTables

/-- What the rows of a run are turned into: their values, their products with coefficients, or a
choice drawn among alternatives. -/
inductive Mode where
  | load
  | dot
  | choice
  deriving DecidableEq, Repr, Inhabited

namespace Mode

def name : Mode → String
  | load => "load"
  | dot => "dot"
  | choice => "mnl_draws"

def ofName? : String → Option Mode
  | "load" => some load
  | "dot" => some dot
  | "mnl_draws" | "mnl" => some choice
  | _ => none

end Mode

structure ColumnRef where
  table : String
  var : String
  dims : List String
  deriving DecidableEq, Repr

structure TableRef where
  link : Link
  /-- The dimensions of the variable that the link starts from. -/
  dims : List String
  deriving DecidableEq, Repr

structure CheckRef where
  column : UInt32
  link : Link
  deriving DecidableEq, Repr

structure ShapeRef where
  table : String
  dim : String
  size : UInt64
  deriving DecidableEq, Repr

namespace ShapeRef

/-- The order of the shapes in a layout: by table, then by dimension, then by size. -/
def before (a b : ShapeRef) : Bool :=
  if a.table != b.table then decide (a.table < b.table)
  else if a.dim != b.dim then decide (a.dim < b.dim)
  else decide (a.size < b.size)

/-- Puts a shape in its place, once. -/
def insert (s : ShapeRef) : List ShapeRef → List ShapeRef
  | [] => [s]
  | t :: rest =>
    if s = t then t :: rest
    else if s.before t then s :: t :: rest
    else t :: insert s rest

end ShapeRef

structure Layout where
  root : String
  columns : List ColumnRef
  tables : List TableRef
  checks : List CheckRef
  shapes : List ShapeRef
  deriving DecidableEq, Repr, Inhabited

namespace Layout

def empty : Layout := ⟨"", [], [], [], []⟩

end Layout

end LinkedTables
