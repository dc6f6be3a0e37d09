import LinkedTables.Flow.SlotGraph

/-!
# The order of evaluation

The slots that some outputs need, each once and each after the slots that it reads. The outputs are
walked from left to right, and the slots that one of them reads in their order. The walk fails at
the first output that does not exist, and at the first slot that is met again while its own parents
are being walked.

Every slot is entered at most once, so the number of slots bounds the depth of the walk.
-/

namespace LinkedTables

inductive OrderFault where
  | missingOutput (slot : SlotId)
  | cycle (slot : SlotId)
  deriving DecidableEq, Repr

def OrderFault.message : OrderFault → String
  | missingOutput i => s!"output slot {i} does not exist"
  | cycle i => s!"Cycle detected through slot {i}"

namespace SlotGraph

/-- Adds a slot and what it needs to the slots already placed; `open_` are the slots being walked.
-/
def visit (g : SlotGraph) : Nat → List SlotId → SlotId → List SlotId →
    Except OrderFault (List SlotId)
  | 0, _, i, _ => .error (.cycle i)
  | fuel + 1, open_, i, placed =>
    if placed.contains i then .ok placed
    else if open_.contains i then .error (.cycle i)
    else do
      let placed' ← (g.parents i).foldlM (fun done j => visit g fuel (i :: open_) j done) placed
      return placed' ++ [i]

/-- The slots that the outputs need, in an order of evaluation. -/
def order (g : SlotGraph) (outputs : List SlotId) : Except OrderFault (List SlotId) :=
  outputs.foldlM (fun placed i =>
    if g.size ≤ i then .error (.missingOutput i) else visit g (g.size + 1) [] i placed) []

end SlotGraph

end LinkedTables
