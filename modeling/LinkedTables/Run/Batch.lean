import LinkedTables.Program.Registers
import LinkedTables.Run.Choice
import LinkedTables.Run.Products

/-!
# Batches of rows

All rows of a batch run through the same program, one after the other, and each ends in an epilogue
that makes its part of the result. A batch may be cut into blocks of consecutive rows that start
with fresh registers: since rows do not depend on each other, the result is the same.

There are three epilogues: the values of the outputs, their sums of products with each column of
coefficients, and a choice drawn from these sums.
-/

namespace LinkedTables

inductive RowFault where
  | outOfRange (row : Nat)
  | noAlternative (row : Nat)
  deriving DecidableEq, Repr

/-- How a batch is cut into blocks. -/
structure Blocks where
  parallel : Bool
  minRows : Nat
  deriving DecidableEq, Repr

namespace Batch

/-- What a row adds to the result, from its registers. -/
abbrev Epilogue := Array Float → Nat → Except RowFault (List Float)

/-- Consecutive rows from a number on, the registers of one being the start of the next. -/
def runFrom (p : Program) (src : Sources) (epilogue : Epilogue) :
    Nat → Nat → Array Float → Except RowFault (List (List Float))
  | 0, _, _ => .ok []
  | count + 1, row, regs =>
    match p.evalRow src row regs with
    | none => .error (.outOfRange row)
    | some regs' => do
      let values ← epilogue regs' row
      let rest ← runFrom p src epilogue count (row + 1) regs'
      return values :: rest

/-- A block of rows, with registers of its own. -/
def runBlock (p : Program) (src : Sources) (epilogue : Epilogue) (first count : Nat) :
    Except RowFault (List (List Float)) :=
  runFrom p src epilogue count first p.initRegisters

/-- First rows and lengths of blocks; each but the last has the size given. The number of rows is
fuel enough. -/
def cut (size : Nat) : Nat → Nat → Nat → List (Nat × Nat)
  | 0, _, _ => []
  | _ + 1, _, 0 => []
  | fuel + 1, first, rows =>
    let n := min (max size 1) rows
    (first, n) :: cut size fuel (first + n) (rows - n)

def blocks (b : Blocks) (rows : Nat) : List (Nat × Nat) :=
  if b.parallel && b.minRows < rows then cut b.minRows rows 0 rows else [(0, rows)]

/-- All rows of a batch in order. -/
def run (p : Program) (src : Sources) (b : Blocks) (rows : Nat) (epilogue : Epilogue) :
    Except RowFault (List (List Float)) := do
  let parts ← (blocks b rows).mapM fun (first, n) => runBlock p src epilogue first n
  return parts.flatten

/-- The sums of products with every column of coefficients, in a buffer of their own. -/
def utilities (coef : Matrix) (values : List Float) : List Float :=
  (dotRow coef values (.replicate coef.cols 0.0)).toList

def valueEpilogue (p : Program) : Epilogue := fun regs _ => .ok (p.outputValues regs)

def dotEpilogue (p : Program) (coef : Matrix) : Epilogue := fun regs _ =>
  .ok (utilities coef (p.outputValues regs))

/-- The number of the choice and its probability, by an exponential function. -/
def choiceEpilogueBy (exp : Float → Float) (p : Program) (coef : Matrix) (draws : Array Float) :
    Epilogue := fun regs row =>
  match Choice.chooseBy exp (utilities coef (p.outputValues regs)) (draws.getD row 0.0) with
  | some (choice, share) => .ok [Number.ofIndex choice, share]
  | none => .error (.noAlternative row)

end Batch

end LinkedTables
