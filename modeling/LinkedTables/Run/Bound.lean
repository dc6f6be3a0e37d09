import LinkedTables.ErrorKind
import LinkedTables.Links.Graph
import LinkedTables.Number.Shortest
import LinkedTables.Program.Registers

/-!
# Data bound to a layout

A layout is bound to a graph by finding everything that it takes for granted: the root, the sizes,
the columns with their dimensions, the links. Columns that serve as positions are checked, and the
labels of each label link are replaced by positions once and for all, in a table beside the columns.
After that the rows can be run without looking at the graph again.

Sizes and shapes that differ are faults of shape; values that are no positions or no labels, and
labels that stand for two positions, are faults of the data.
-/

namespace LinkedTables

inductive BindFault where
  | graph (fault : GraphFault)
  | otherRoot (expected found : String)
  | rootWithoutDimensions (root : String)
  | missingTable (table : String)
  | missingDimension (table dim : String)
  | wrongSize (table dim : String) (found expected : Nat)
  | missingVariable (table var : String)
  | wrongDims (table var : String) (found expected : List String)
  | notNumeric (table var : String)
  | notPosition (link : Link) (element : Nat) (value : Float) (size : Nat)
  | otherLink (expected found : Link)
  | missingLink (link : Link)
  | unknownLabel (link : Link) (element : Nat) (label : String)
  | repeatedLabel (link : Link) (label : String)
  | kinds (link : Link) (values : ValueKind) (labels : LabelKind)
  deriving DecidableEq

namespace BindFault

def kind : BindFault → ErrorKind
  | graph _ => .graph
  | notPosition .. | unknownLabel .. | repeatedLabel .. => .domain
  | _ => .shape

def valueKindName : ValueKind → String
  | .numeric => "F64"
  | .string => "Str"

def labelKindName : LabelKind → String
  | .integer => "Int"
  | .string => "Str"

def listed (names : List String) : String := ", ".intercalate names

def message : BindFault → String
  | graph f => f.message
  | otherRoot e f => s!"kernel iterates root '{e}' but the graph's root is '{f}'"
  | rootWithoutDimensions r => s!"root '{r}' has no dimensions"
  | missingTable t => s!"node '{t}' is missing from the bound graph"
  | missingDimension t d => s!"dimension '{t}.{d}' is missing"
  | wrongSize t d n e =>
    s!"dimension '{t}.{d}' has length {n} but the kernel was compiled for {e}"
  | missingVariable t v => s!"variable '{t}.{v}' is missing"
  | wrongDims t v found expected =>
    s!"variable '{t}.{v}' has dimensions ({listed found}) "
      ++ s!"but the kernel expects ({listed expected})"
  | notNumeric t v => s!"variable '{t}.{v}' is not numeric"
  | notPosition l i v n =>
    s!"positional relationship '{l.text}': element {i} has value {Number.text v}, "
      ++ s!"not a position in 0..{n}"
  | otherLink e f =>
    s!"kernel was compiled for relationship '{e.text}' but the graph has '{f.text}'"
  | missingLink l => s!"relationship '{l.text}' is missing from the bound graph"
  | unknownLabel l i label => s!"relationship '{l.text}': element {i} has unknown label {label}"
  | repeatedLabel l label =>
    s!"relationship '{l.text}': coordinate label {label} appears more than once in "
      ++ s!"'{l.targetTable}.{l.targetDim}'"
  | kinds l v k =>
    s!"relationship '{l.text}' looks up {valueKindName v} values against "
      ++ s!"{labelKindName k} coordinates"

end BindFault

structure BoundData where
  layout : Layout
  /-- The leading dimension of the root. -/
  rowDim : Dimension
  sources : Sources
  deriving Inhabited

namespace BoundData

def rows (b : BoundData) : Nat := b.rowDim.size

section Find

def findTable (g : LinkGraph) (table : String) : Except BindFault Dataset :=
  match g.data? table with
  | some ds => .ok ds
  | none => .error (.missingTable table)

def findDim (g : LinkGraph) (table dim : String) : Except BindFault Dimension := do
  match (← findTable g table).dim? dim with
  | some d => return d
  | none => throw (.missingDimension table dim)

/-- A variable that lies over the dimensions expected. -/
def findVariable (g : LinkGraph) (table var : String) (dims : List String) :
    Except BindFault Values := do
  let ds ← findTable g table
  match ds.var? var with
  | none => throw (.missingVariable table var)
  | some v =>
    let found := ds.dimNames v.dims
    if found ≠ dims then throw (.wrongDims table var found dims)
    return v.values

def checkShape (g : LinkGraph) (s : ShapeRef) : Except BindFault Unit := do
  let d ← findDim g s.table s.dim
  if d.size ≠ s.size.toNat then throw (.wrongSize s.table s.dim d.size s.size.toNat)

def column (g : LinkGraph) (c : ColumnRef) : Except BindFault (Array Float) := do
  match ← findVariable g c.table c.var c.dims with
  | .numbers data => return data
  | .strings _ => throw (.notNumeric c.table c.var)

/-- The link is the one into its target. -/
def checkLink (g : LinkGraph) (l : Link) : Except BindFault Unit :=
  match g.incoming? l.targetTable l.targetDim with
  | some (_, found) => if found = l then .ok () else .error (.otherLink l found)
  | none => .error (.missingLink l)

end Find

section Positions

/-- Every value is a position along the target of a link. -/
def checkPositions (g : LinkGraph) (l : Link) (values : Array Float) : Except BindFault Unit := do
  let d ← findDim g l.targetTable l.targetDim
  match values.toList.zipIdx.find? fun (x, _) => !Number.isIndexBelow x d.size with
  | none => return
  | some (x, i) => throw (.notPosition l i x d.size)

/-- The first entry that stands earlier in the list as well. -/
def firstRepeated? {α : Type} [BEq α] : List α → List α → Option α
  | _, [] => none
  | seen, x :: xs => if seen.contains x then some x else firstRepeated? (x :: seen) xs

/-- The position whose label is a number: its whole part is the label, and equal to it as a double.
-/
def integerPosition? (labels : Array Int64) (x : Float) : Option Nat :=
  let key := Number.toInt64 x
  if Number.ofInt64 key == x then labels.findIdx? (· == key) else none

/-- Looks every value up, the first one without a position being a fault. -/
def lookUpAll {α : Type} (l : Link) (shown : α → String) (position? : α → Option UInt32)
    (values : Array α) : Except BindFault (Array UInt32) := do
  let found ← values.toList.zipIdx.mapM fun (x, i) =>
    match position? x with
    | some p => Except.ok p
    | none => .error (.unknownLabel l i (shown x))
  return found.toArray

/-- The positions of the labels that the values are. -/
def labelPositions (l : Link) (values : Values) (coords : Coords) :
    Except BindFault (Array UInt32) :=
  match values, coords with
  | .numbers xs, .range n =>
    lookUpAll l Number.text
      (fun x => if Number.isIndexBelow x n.toNat then some x.toUInt32 else none) xs
  | .numbers xs, .integers labels =>
    match firstRepeated? [] labels.toList with
    | some label => .error (.repeatedLabel l (toString label.toInt))
    | none =>
      lookUpAll l Number.text (fun x => (integerPosition? labels x).map UInt32.ofNat) xs
  | .strings xs, .strings labels =>
    match firstRepeated? [] labels.toList with
    | some label => .error (.repeatedLabel l (Text.quoted label))
    | none =>
      lookUpAll l Text.quoted (fun x => (labels.findIdx? (· == x)).map UInt32.ofNat) xs
  | _, _ => .error (.kinds l values.kind coords.kind)

def labelTable (g : LinkGraph) (t : TableRef) : Except BindFault (Array UInt32) := do
  checkLink g t.link
  let values ← findVariable g t.link.sourceTable t.link.sourceVar t.dims
  let d ← findDim g t.link.targetTable t.link.targetDim
  labelPositions t.link values d.coords

end Positions

section Gather

/-- The leading dimension of the root that the layout expects. -/
def findRows (g : LinkGraph) (root : String) : Except BindFault Dimension :=
  match g.checkedRoot with
  | .error f => .error (.graph f)
  | .ok t =>
    if t.name ≠ root then .error (.otherRoot root t.name)
    else
      match t.data.dims with
      | d :: _ => .ok d
      | [] => .error (.rootWithoutDimensions t.name)

/-- Everything that rows are run on. -/
def gather (g : LinkGraph) (layout : Layout) : Except BindFault (Dimension × Sources) := do
  let rowDim ← findRows g layout.root
  for s in layout.shapes do checkShape g s
  let columns ← layout.columns.mapM (column g)
  for c in layout.checks do
    checkPositions g c.link (columns.getD c.column.toNat #[])
  let tables ← layout.tables.mapM (labelTable g)
  for c in layout.checks do checkLink g c.link
  return (rowDim, ⟨columns.toArray, tables.toArray⟩)

/-- The data of a graph for a layout. -/
def bind (g : LinkGraph) (layout : Layout) : Except BindFault BoundData :=
  (gather g layout).map fun (rowDim, sources) => ⟨layout, rowDim, sources⟩

end Gather

end BoundData

end LinkedTables
