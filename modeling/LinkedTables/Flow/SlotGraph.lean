import LinkedTables.Program.Opcode

/-!
# Graphs of shared slots

Each slot computes one value from the values of other slots. A slot is asked for by what it
computes, and the same is never computed twice: asking again gives the slot that is there. Constants
are told apart by their bit patterns. A pure operation on constants is carried out at once and gives
a constant.

A slot reads slots made before it. A slot can be rewired to read another one instead, which nothing
but the order of evaluation takes notice of; what a slot was asked for as does not change.
-/

namespace LinkedTables

/-- A slot is known by the number of slots before it. The number is a word of 32 bits, which makes no
difference to a graph whose slots words can number (`SlotGraph.WordNumbered`). -/
abbrev SlotId := Nat

/-- What a slot was asked for as. -/
structure Slot where
  op : Opcode
  args : List SlotId
  /-- The bits of a constant, the number of a column or a label table, the step of a stride. -/
  operand : UInt64
  deriving DecidableEq, Repr

structure SlotGraph where
  slots : Array Slot
  /-- The slots that each slot reads. -/
  wires : Array (List SlotId)
  deriving DecidableEq, Inhabited

namespace SlotGraph

def empty : SlotGraph := ⟨#[], #[]⟩

def size (g : SlotGraph) : Nat := g.slots.size

/-- There are words enough to number the slots. -/
def WordNumbered (g : SlotGraph) : Prop := g.size ≤ UInt32.size

instance (g : SlotGraph) : Decidable g.WordNumbered := inferInstanceAs (Decidable (_ ≤ _))

/-- The slots that a slot reads. -/
def parents (g : SlotGraph) (i : SlotId) : List SlotId := g.wires.getD i []

/-- The bits of a constant slot. -/
def constBits? (g : SlotGraph) (i : SlotId) : Option UInt64 :=
  (g.slots[i]?).bind fun s => if s.op = .const then some s.operand else none

def constant? (g : SlotGraph) (i : SlotId) : Option Float := (g.constBits? i).map Float.ofBits

/-- The slot for a request: the one that is there, or a new one at the end. -/
def intern (g : SlotGraph) (s : Slot) : SlotId × SlotGraph :=
  match g.slots.findIdx? (· == s) with
  | some i => (i, g)
  | none => (g.size, ⟨g.slots.push s, g.wires.push s.args⟩)

def row (g : SlotGraph) : SlotId × SlotGraph := g.intern ⟨.row, [], 0⟩

def constantBits (g : SlotGraph) (bits : UInt64) : SlotId × SlotGraph := g.intern ⟨.const, [], bits⟩

def constant (g : SlotGraph) (x : Float) : SlotId × SlotGraph := g.constantBits (Number.bits x)

/-- The entry of a column at an offset. -/
def load (g : SlotGraph) (column : UInt32) (offset : SlotId) : SlotId × SlotGraph :=
  g.intern ⟨.load, [offset], column.toUInt64⟩

/-- The position that a label table has at an offset. -/
def label (g : SlotGraph) (table : UInt32) (offset : SlotId) : SlotId × SlotGraph :=
  g.intern ⟨.label, [offset], table.toUInt64⟩

/-- The slot for `base + pos * step`. A step of zero and the position zero leave the base as it
is. -/
def stride (g : SlotGraph) (base pos : SlotId) (step : UInt64) : SlotId × SlotGraph :=
  if step == 0 || (g.constant? pos).any (· == 0.0) then (base, g)
  else
    match g.constBits? base, g.constBits? pos with
    | some b, some p => g.constantBits (Opcode.stride.applyBits b p step.toFloat.toBits)
    | _, _ => g.intern ⟨.stride, [base, pos], step⟩

/-- The bits of slots that are all constants. -/
def constants? (g : SlotGraph) (args : List SlotId) : Option (List UInt64) :=
  args.mapM g.constBits?

/-- An operation on slots. -/
def apply (g : SlotGraph) (op : Opcode) (args : List SlotId) : SlotId × SlotGraph :=
  match if op.isPure then g.constants? args else none with
  | some vs => g.constantBits (op.applyBits (vs.getD 0 0) (vs.getD 1 0) (vs.getD 2 0))
  | none => g.intern ⟨op, args, 0⟩

/-- Makes a slot read one other slot and nothing else. -/
def rewire (g : SlotGraph) (slot source : SlotId) : SlotGraph :=
  { g with wires := g.wires.setIfInBounds slot [source] }

end SlotGraph

end LinkedTables
