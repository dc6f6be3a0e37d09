import LinkedTables.Program.Layout
import LinkedTables.Program.Opcode

/-!
# Programs

A program is a straight line of instructions over its layout. Instruction `i` writes register `i`
once in every row, and some registers are the outputs. A program is sound if every instruction reads
only registers written before it, and columns and label tables of the layout, and if there are
outputs and all of them exist.
-/

namespace LinkedTables

/-- The number of a register. -/
abbrev Reg := UInt32

inductive Instr where
  | row
  | const (bits : UInt64)
  | load (column : UInt32) (offset : Reg)
  | label (table : UInt32) (offset : Reg)
  | stride (base pos : Reg) (step : UInt64)
  | unary (op : Op1) (a : Reg)
  | binary (op : Op2) (a b : Reg)
  | ternary (op : Op3) (a b c : Reg)
  deriving DecidableEq, Repr, Inhabited

namespace Instr

def opcode : Instr → Opcode
  | row => .row
  | const _ => .const
  | load _ _ => .load
  | label _ _ => .label
  | stride _ _ _ => .stride
  | unary op _ => .unary op
  | binary op _ _ => .binary op
  | ternary op _ _ _ => .ternary op

/-- The registers that an instruction reads, in order. -/
def reads : Instr → List Reg
  | row | const _ => []
  | load _ r | label _ r => [r]
  | stride a b _ => [a, b]
  | unary _ a => [a]
  | binary _ a b => [a, b]
  | ternary _ a b c => [a, b, c]

end Instr

structure Program where
  mode : Mode
  code : Array Instr
  outputs : List Reg
  layout : Layout
  deriving DecidableEq, Inhabited

inductive ProgramFault where
  | unequalColumns
  | noOutputs
  | unknownColumn (reg : Nat) (column : UInt32)
  | unknownTable (reg : Nat) (table : UInt32)
  | readsAhead (reg : Nat) (read : Reg)
  | missingOutput (reg : Reg)
  | unknownCheckColumn (column : UInt32)
  deriving DecidableEq, Repr

def ProgramFault.message : ProgramFault → String
  | unequalColumns => "program operand arrays have unequal lengths"
  | noOutputs => "program has no outputs"
  | unknownColumn i c => s!"r{i} loads unknown column c{c}"
  | unknownTable i t => s!"r{i} reads unknown table t{t}"
  | readsAhead i r => s!"r{i} reads r{r} before it is written"
  | missingOutput r => s!"output names missing register r{r}"
  | unknownCheckColumn c => s!"positional check names unknown column c{c}"

namespace Program

def size (p : Program) : Nat := p.code.size

/-- What an instruction takes from the layout exists there. -/
def checkSource (layout : Layout) (i : Nat) : Instr → Except ProgramFault Unit
  | .load c _ =>
    if c.toNat < layout.columns.length then .ok () else .error (.unknownColumn i c)
  | .label t _ =>
    if t.toNat < layout.tables.length then .ok () else .error (.unknownTable i t)
  | _ => .ok ()

/-- An instruction takes nothing that is not there when it runs. -/
def checkInstr (layout : Layout) (i : Nat) (instr : Instr) : Except ProgramFault Unit := do
  checkSource layout i instr
  match instr.reads.find? fun r => i ≤ r.toNat with
  | some r => throw (.readsAhead i r)
  | none => return

/-- The instructions from number `i` on. -/
def checkCode (layout : Layout) : Nat → List Instr → Except ProgramFault Unit
  | _, [] => .ok ()
  | i, instr :: rest => do
    checkInstr layout i instr
    checkCode layout (i + 1) rest

/-- Refuses a program that is not sound. -/
def verify (p : Program) : Except ProgramFault Unit := do
  if p.outputs.isEmpty then throw .noOutputs
  checkCode p.layout 0 p.code.toList
  if let some r := p.outputs.find? fun r => p.size ≤ r.toNat then throw (.missingOutput r)
  if let some c := p.layout.checks.find? fun c => p.layout.columns.length ≤ c.column.toNat then
    throw (.unknownCheckColumn c.column)

end Program

end LinkedTables
