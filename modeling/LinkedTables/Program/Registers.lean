import LinkedTables.Program.Program

/-!
# Running a program on one row

A run keeps one register per instruction. Constants are written once, before the first row; in a row
every other instruction writes its register in order. The columns and the label tables are read at
positions that are computed as numbers. A read outside of them has no value, and then neither has
the row.

What a sound program leaves in the registers depends on the row alone and not on the rows before.
-/

namespace LinkedTables

/-- The data that the instructions read, in the order of the layout. -/
structure Sources where
  columns : Array (Array Float)
  tables : Array (Array UInt32)
  deriving Inhabited

namespace Program

/-- The registers before the first row. -/
def initRegisters (p : Program) : Array Float :=
  p.code.map fun
    | .const bits => Float.ofBits bits
    | _ => 0.0

/-- The value of an instruction other than a constant. -/
def evalInstr (src : Sources) (row : Nat) (regs : Array Float) : Instr → Option Float
  | .row => some (Number.ofIndex row)
  | .const bits => some (Float.ofBits bits)
  | .load c r => do
    let x ← regs[r.toNat]?
    (← src.columns[c.toNat]?)[Number.toIndex x]?
  | .label t r => do
    let x ← regs[r.toNat]?
    let position ← (← src.tables[t.toNat]?)[Number.toIndex x]?
    return Number.ofIndex position.toNat
  | .stride a b step => do
    return (← regs[a.toNat]?) + (← regs[b.toNat]?) * step.toFloat
  | .unary op a => do return op.apply (← regs[a.toNat]?)
  | .binary op a b => do return op.apply (← regs[a.toNat]?) (← regs[b.toNat]?)
  | .ternary op a b c => do
    return op.apply (← regs[a.toNat]?) (← regs[b.toNat]?) (← regs[c.toNat]?)

/-- Runs one instruction; a constant leaves its register as it is. -/
def stepInstr (src : Sources) (row i : Nat) (instr : Instr) (regs : Array Float) :
    Option (Array Float) :=
  match instr with
  | .const _ => some regs
  | _ => (evalInstr src row regs instr).map fun v => regs.setIfInBounds i v

/-- Runs the instructions from number `i` on. -/
def evalCode (src : Sources) (row : Nat) : Nat → List Instr → Array Float → Option (Array Float)
  | _, [], regs => some regs
  | i, instr :: rest, regs =>
    (stepInstr src row i instr regs).bind fun regs' => evalCode src row (i + 1) rest regs'

/-- The registers after one row, from the registers that an earlier row left. -/
def evalRow (p : Program) (src : Sources) (row : Nat) (regs : Array Float) : Option (Array Float) :=
  evalCode src row 0 p.code.toList regs

/-- The values of the outputs. -/
def outputValues (p : Program) (regs : Array Float) : List Float :=
  p.outputs.map fun r => regs.getD r.toNat 0.0

end Program

end LinkedTables
