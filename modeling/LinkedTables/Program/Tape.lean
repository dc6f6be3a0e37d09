import LinkedTables.Program.Program

/-!
# Tapes

A tape is a program as it is stored: one column for each part of its instructions, where an
instruction leaves the parts that it does not use at zero. A tape that was not made from a program
may have columns of unequal lengths, or something in the unused parts.
-/

namespace LinkedTables

structure Tape where
  mode : Mode
  ops : List Opcode
  p1 : List UInt32
  p2 : List UInt32
  p3 : List UInt32
  imm : List UInt64
  outputs : List Reg
  layout : Layout
  deriving DecidableEq, Inhabited

/-- The parts of one instruction. -/
structure TapeRow where
  op : Opcode
  p1 : UInt32
  p2 : UInt32
  p3 : UInt32
  imm : UInt64
  deriving DecidableEq, Repr

def Instr.tapeRow : Instr → TapeRow
  | row => ⟨.row, 0, 0, 0, 0⟩
  | const bits => ⟨.const, 0, 0, 0, bits⟩
  | load c r => ⟨.load, c, r, 0, 0⟩
  | label t r => ⟨.label, t, r, 0, 0⟩
  | stride a b step => ⟨.stride, a, b, 0, step⟩
  | unary op a => ⟨.unary op, a, 0, 0, 0⟩
  | binary op a b => ⟨.binary op, a, b, 0, 0⟩
  | ternary op a b c => ⟨.ternary op, a, b, c, 0⟩

/-- The instruction of the used parts. -/
def TapeRow.instr (t : TapeRow) : Instr :=
  match t.op with
  | .row => .row
  | .const => .const t.imm
  | .load => .load t.p1 t.p2
  | .label => .label t.p1 t.p2
  | .stride => .stride t.p1 t.p2 t.imm
  | .unary op => .unary op t.p1
  | .binary op => .binary op t.p1 t.p2
  | .ternary op => .ternary op t.p1 t.p2 t.p3

theorem Instr.instr_tapeRow (i : Instr) : i.tapeRow.instr = i := by
  cases i <;> rfl

def Program.tape (p : Program) : Tape :=
  let rows := p.code.toList.map Instr.tapeRow
  { mode := p.mode
    ops := rows.map (·.op)
    p1 := rows.map (·.p1)
    p2 := rows.map (·.p2)
    p3 := rows.map (·.p3)
    imm := rows.map (·.imm)
    outputs := p.outputs
    layout := p.layout }

namespace Tape

def size (t : Tape) : Nat := t.ops.length

/-- The rows of columns of one length. -/
def rows : List Opcode → List UInt32 → List UInt32 → List UInt32 → List UInt64 → List TapeRow
  | op :: ops, a :: as, b :: bs, c :: cs, i :: is => ⟨op, a, b, c, i⟩ :: rows ops as bs cs is
  | _, _, _, _, _ => []

/-- The program on a tape whose columns have one length. -/
def program (t : Tape) : Except ProgramFault Program :=
  let n := t.ops.length
  if t.p1.length = n && t.p2.length = n && t.p3.length = n && t.imm.length = n then
    .ok ⟨t.mode, ((rows t.ops t.p1 t.p2 t.p3 t.imm).map TapeRow.instr).toArray, t.outputs, t.layout⟩
  else .error .unequalColumns

/-- Refuses a tape that holds no sound program. -/
def verify (t : Tape) : Except ProgramFault Unit := do
  (← t.program).verify

end Tape

end LinkedTables
