import LinkedTables.Analysis.Analysis
import LinkedTables.Flow.Order
import LinkedTables.Text.Numeral

/-!
# Listings, written

The listing of an analysis: the header, the layout, the slots that the outputs need in an order of
evaluation, and the outputs. Slots get the numbers of their lines as registers. A constant is
followed by its decimal text as a remark, an output by the normal form of its expression.
-/

namespace LinkedTables

inductive WriteFault where
  | order (fault : OrderFault)
  | unordered (slot : SlotId)
  deriving DecidableEq, Repr

def WriteFault.message : WriteFault → String
  | order f => f.message
  | unordered i => s!"slot {i} used before it was ordered"

namespace Listing

def bracketed (dims : List String) : String := "[" ++ ",".intercalate dims ++ "]"

def writtenColumn (i : Nat) (c : ColumnRef) : String :=
  s!"column c{i} {c.table}.{c.var} {bracketed c.dims}\n"

def writtenTable (i : Nat) (t : TableRef) : String :=
  s!"table t{i} {bracketed t.dims} {t.link.text}\n"

def writtenCheck (c : CheckRef) : String := s!"check c{c.column} {c.link.text}\n"

def writtenShape (s : ShapeRef) : String := s!"shape {s.table}.{s.dim} {s.size}\n"

def writtenLayout (l : Layout) : List String :=
  [s!"root {l.root}\n"]
    ++ l.columns.zipIdx.map (fun (c, i) => writtenColumn i c)
    ++ l.tables.zipIdx.map (fun (t, i) => writtenTable i t)
    ++ l.checks.map writtenCheck
    ++ l.shapes.map writtenShape

/-- The register of a slot: its place in the order of evaluation. -/
def registerOf (order : List SlotId) (i : SlotId) : Except WriteFault String :=
  match order.idxOf? i with
  | some r => .ok s!"r{r}"
  | none => .error (.unordered i)

/-- The words after the mnemonic. -/
def writtenOperands (order : List SlotId) (s : Slot) (parents : List SlotId) :
    Except WriteFault (List String) :=
  match s.op with
  | .row => .ok []
  | .const =>
    .ok ["0x" ++ Text.hex 16 s.operand.toNat, ";", Number.text (Float.ofBits s.operand)]
  | .load => do return s!"c{s.operand}" :: (← (parents.take 1).mapM (registerOf order))
  | .label => do return s!"t{s.operand}" :: (← (parents.take 1).mapM (registerOf order))
  | .stride => do return (← (parents.take 2).mapM (registerOf order)) ++ [s!"{s.operand}"]
  | _ => parents.mapM (registerOf order)

def writtenSlot (g : SlotGraph) (order : List SlotId) (r : Nat) (i : SlotId) :
    Except WriteFault String :=
  match g.slots[i]? with
  | none => .error (.unordered i)
  | some s => do
    let operands ← writtenOperands order s (g.parents i)
    return " ".intercalate ([s!"r{r}", "=", s.op.mnemonic] ++ operands) ++ "\n"

def writtenOutput (order : List SlotId) (i : SlotId) (normal : String) :
    Except WriteFault String := do
  let r ← registerOf order i
  return s!"output {r} ; {normal}\n"

end Listing

/-- The listing of an analysis in a mode. -/
def Analysis.listing (a : Analysis) (mode : Mode) : Except WriteFault String := do
  let order ← match a.slots.order a.outputs with
    | .ok order => pure order
    | .error f => throw (.order f)
  let code ← order.zipIdx.mapM fun (i, r) => Listing.writtenSlot a.slots order r i
  let outputs ← a.outputs.zipIdx.mapM fun (i, e) =>
    Listing.writtenOutput order i ((a.normalized[e]?).getD "")
  return String.join
    ([s!"kernel mode={mode.name}\n"] ++ Listing.writtenLayout a.layout ++ code ++ outputs)

end LinkedTables
