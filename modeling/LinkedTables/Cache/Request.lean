import LinkedTables.Analysis.Analysis
import LinkedTables.Hash.Blake3
import LinkedTables.Json.Writer

/-!
# Requests

What a compilation is asked for, apart from the data: the mode, the normal forms of the expressions,
the variables that they refer to with the links on the way, the layout, and the constants bit by
bit. Two requests that are equal are answered by the same program.

The key of a request is the hash of its canonical text, which is JSON with sorted fields. The text
tells requests apart, so keys differ unless the hash collides.
-/

namespace LinkedTables

structure Request where
  version : UInt32
  mode : Mode
  expressions : List String
  references : List Reference
  layout : Layout
  constants : List (String × UInt64)
  deriving DecidableEq

/-- The version of the stored form. -/
def Request.currentVersion : UInt32 := 2

def Request.ofAnalysis (a : Analysis) (mode : Mode) : Request :=
  ⟨currentVersion, mode, a.normalized, a.references, a.layout, a.constants⟩

def LinkMode.toJson : LinkMode → Json
  | label => .text "Label"
  | position => .text "Positional"

def Link.toJson (l : Link) : Json :=
  .object [
    ("source_node", .text l.sourceTable),
    ("source_var", .text l.sourceVar),
    ("target_node", .text l.targetTable),
    ("target_dim", .text l.targetDim),
    ("mode", l.mode.toJson)]

def Mode.toJson (m : Mode) : Json := .text m.name

def ColumnRef.toJson (c : ColumnRef) : Json :=
  .object [("node", .text c.table), ("var", .text c.var), ("dims", .texts c.dims)]

def TableRef.toJson (t : TableRef) : Json :=
  .object [("edge", t.link.toJson), ("dims", .texts t.dims)]

def CheckRef.toJson (c : CheckRef) : Json :=
  .object [("column", .nat c.column.toNat), ("edge", c.link.toJson)]

def ShapeRef.toJson (s : ShapeRef) : Json :=
  .object [("node", .text s.table), ("dim", .text s.dim), ("len", .nat s.size.toNat)]

def Layout.toJson (l : Layout) : Json :=
  .object [
    ("root", .text l.root),
    ("columns", .list (l.columns.map ColumnRef.toJson)),
    ("labels", .list (l.tables.map TableRef.toJson)),
    ("positional", .list (l.checks.map CheckRef.toJson)),
    ("shapes", .list (l.shapes.map ShapeRef.toJson))]

def Reference.toJson (r : Reference) : Json :=
  .object [
    ("node", .text r.table),
    ("var", .text r.var),
    ("dims", .texts r.dims),
    ("path", .texts r.path)]

namespace Request

def constantToJson (c : String × UInt64) : Json := .list [.text c.1, .nat c.2.toNat]

def toJson (r : Request) : Json :=
  .object [
    ("version", .nat r.version.toNat),
    ("mode", r.mode.toJson),
    ("expressions", .texts r.expressions),
    ("references", .list (r.references.map Reference.toJson)),
    ("bindings", r.layout.toJson),
    ("constants", .list (r.constants.map constantToJson))]

/-- The text that is hashed. -/
def canonical (r : Request) : String := r.toJson.canonical

/-- The key of the request. -/
def digest (r : Request) : String := Blake3.hash r.canonical.toUTF8

end Request

end LinkedTables
