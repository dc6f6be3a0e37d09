import LinkedTables.Analysis.Scope
import LinkedTables.Flow.SlotGraph
import LinkedTables.Program.Layout

/-!
# Lowering

An expression becomes a slot of the shared graph. A variable is an entry of its column at the
row-major offset of its dimensions. The position along the leading dimension of the root is the row;
the position along any other dimension comes from the one link into it: looked up in the table of
labels of the link, or read from the column of its source, in both cases at the offset of the source
variable.

All expressions of a set share the slots, the columns and the tables. Along the way the layout is
gathered: each column and each label table once, in the order of first use, every size that an
offset rests on, and every column that must hold positions.

Positions are found by going backwards along links. No table comes twice on such a walk, so their
number is fuel enough.
-/

namespace LinkedTables

structure Lowered where
  slots : SlotGraph
  columns : List ColumnRef
  tables : List TableRef
  checks : List CheckRef
  /-- In ascending order. -/
  shapes : List ShapeRef
  deriving DecidableEq

def Lowered.empty : Lowered := ⟨.empty, [], [], [], []⟩

/-- Computations that add to the shared graph and its layout. -/
abbrev Lowering := StateT Lowered (Except AnalysisFault)

namespace Lowering

/-- A step on the shared graph. -/
def slot (step : SlotGraph → SlotId × SlotGraph) : Lowering SlotId := do
  let s ← get
  let (i, slots) := step s.slots
  set { s with slots := slots }
  return i

/-- The number of the column of a variable. -/
def column (table var : String) (dims : List String) : Lowering UInt32 := do
  let s ← get
  match s.columns.findIdx? fun c => c.table == table && c.var == var with
  | some i => return UInt32.ofNat i
  | none =>
    set { s with columns := s.columns ++ [ColumnRef.mk table var dims] }
    return UInt32.ofNat s.columns.length

/-- The number of the label table of a link. -/
def labelTable (link : Link) (dims : List String) : Lowering UInt32 := do
  let s ← get
  match s.tables.findIdx? fun t => t.link == link with
  | some i => return UInt32.ofNat i
  | none =>
    set { s with tables := s.tables ++ [TableRef.mk link dims] }
    return UInt32.ofNat s.tables.length

/-- A column must hold positions along the target of a link. -/
def check (column : UInt32) (link : Link) : Lowering Unit :=
  modify fun s =>
    if s.checks.any fun c => c.link == link then s
    else { s with checks := s.checks ++ [⟨column, link⟩] }

/-- Offsets rest on the size of a dimension. -/
def shape (table : String) (dim : Dimension) : Lowering Unit :=
  modify fun s =>
    { s with shapes := ShapeRef.insert ⟨table, dim.name, UInt64.ofNat dim.size⟩ s.shapes }

/-- The offset so far, and the step of the next dimension outwards. -/
abbrev Partial := Option SlotId × UInt64

/-- The row-major offset, from the innermost dimension outwards. -/
def offset (position : Nat → Lowering SlotId) (ds : Dataset) (dims : List Nat) :
    Lowering SlotId := do
  let step := fun ((acc, step) : Partial) (d : Nat) => do
    let pos ← position d
    let acc' ← match acc with
      | none => pure pos
      | some inner => slot fun g => g.stride inner pos step
    return ((some acc', step * UInt64.ofNat (ds.dimSize d)) : Partial)
  let (acc, _) ← dims.reverse.foldlM step ((none, 1) : Partial)
  match acc with
  | some i => return i
  | none => slot fun g => g.constant 0.0

/-- The position that a link gives, from the offset of its source variable. -/
def follow (site : Site) (link : Link) (src : Dataset) (v : Variable) (dim : Dimension)
    (at_ : SlotId) : Lowering SlotId := do
  let dims := src.dimNames v.dims
  match link.mode with
  | .label =>
    if !v.values.kind.fits dim.coords.kind then
      throw (.type site (.kinds link v.values.kind dim.coords.kind))
    let table ← labelTable link dims
    slot fun g => g.label table at_
  | .position =>
    let col ← column link.sourceTable link.sourceVar dims
    check col link
    slot fun g => g.load col at_

/-- The position along a dimension of a table. -/
def position (sc : Scope) (site : Site) : Nat → String → Dataset → Nat → Lowering SlotId
  | 0, table, _, _ => throw (.tooDeep table)
  | fuel + 1, table, ds, d => do
    if table == sc.root.name && d == 0 then slot fun g => g.row
    else
      match ds.dims[d]? with
      | none => throw (.tooDeep table)
      | some dim =>
        shape table dim
        match sc.graph.incoming? table dim.name with
        | none => throw (.type site (.unfed table dim.name sc.root.name))
        | some (_, link) =>
          match sc.graph.data? link.sourceTable with
          | none => throw (.graph (.unknownTable link.sourceTable))
          | some src =>
            match src.var? link.sourceVar with
            | none => throw (.missingSource link)
            | some v =>
              let at_ ← offset (position sc site fuel link.sourceTable src) src v.dims
              follow site link src v dim at_

/-- The value of a variable. -/
def variable_ (sc : Scope) (site : Site) (table var : String) : Lowering SlotId := do
  let (ds, v) ← sc.fetch table var
  let col ← column table var (ds.dimNames v.dims)
  let at_ ← offset (position sc site sc.graph.tables.length table ds) ds v.dims
  slot fun g => g.load col at_

def lower (sc : Scope) (site : Site) : Expr → Lowering SlotId
  | .number x => slot fun g => g.constant x
  | .bool b => slot fun g => g.constant (Number.ofBool b)
  | .name table name _ => do
    match ← sc.resolve site table name with
    | .constant bits => slot fun g => g.constantBits bits
    | .variable_ t v => variable_ sc site t v
  | .unary op a _ => do
    let i ← lower sc site a
    slot fun g => g.apply (.unary op) [i]
  | .binary op a b _ => do
    let i ← lower sc site a
    let j ← lower sc site b
    slot fun g => g.apply (.binary op) [i, j]
  | .ternary op a b c _ => do
    let i ← lower sc site a
    let j ← lower sc site b
    let k ← lower sc site c
    slot fun g => g.apply (.ternary op) [i, j, k]

end Lowering

end LinkedTables
