/-!
# Coordinates and values

A dimension has a name and coordinates: positions counted from zero, whole numbers, or texts. The
data of a variable are numbers or texts. A text variable is compared with text coordinates and a
numeric variable with the two others; nothing else can be looked up.
-/

namespace LinkedTables

inductive LabelKind where
  | integer
  | string
  deriving DecidableEq, Repr

inductive ValueKind where
  | numeric
  | string
  deriving DecidableEq, Repr

inductive Coords where
  /-- The positions below a count are their own labels. -/
  | range (count : UInt64)
  | integers (labels : Array Int64)
  | strings (labels : Array String)
  deriving DecidableEq, Inhabited

namespace Coords

def size : Coords → Nat
  | .range n => n.toNat
  | .integers labels => labels.size
  | .strings labels => labels.size

def kind : Coords → LabelKind
  | .range _ => .integer
  | .integers _ => .integer
  | .strings _ => .string

/-- The text of the label at a position. -/
def label? : Coords → Nat → Option String
  | .range n, i => if i < n.toNat then some (toString i) else none
  | .integers labels, i => labels[i]?.map fun l => toString l.toInt
  | .strings labels, i => labels[i]?

/-- The texts of all labels. -/
def labels (c : Coords) : List String := (List.range c.size).filterMap c.label?

/-- The first position with a label of this text. -/
def position? (c : Coords) (label : String) : Option Nat :=
  (List.range c.size).find? fun i => c.label? i == some label

end Coords

structure Dimension where
  name : String
  coords : Coords
  deriving DecidableEq, Inhabited

namespace Dimension

def size (d : Dimension) : Nat := d.coords.size

end Dimension

inductive Values where
  | numbers (data : Array Float)
  | strings (data : Array String)
  deriving DecidableEq, Inhabited

namespace Values

def size : Values → Nat
  | .numbers data => data.size
  | .strings data => data.size

def kind : Values → ValueKind
  | .numbers _ => .numeric
  | .strings _ => .string

def numbers? : Values → Option (Array Float)
  | .numbers data => some data
  | .strings _ => none

/-- Equal entries throughout; a NaN is equal to nothing, and the two zeros are equal. -/
def agrees : Values → Values → Bool
  | .numbers a, .numbers b => a == b
  | .strings a, .strings b => a == b
  | _, _ => false

end Values

namespace ValueKind

/-- Whether values of this kind can be compared with labels of a kind. -/
def fits : ValueKind → LabelKind → Bool
  | .numeric, .integer => true
  | .string, .string => true
  | _, _ => false

end ValueKind

end LinkedTables
