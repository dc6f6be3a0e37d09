import LinkedTables.Cache.Record
import LinkedTables.Program.Trace
import LinkedTables.Run.Batch
import LinkedTables.Run.Bound
import LinkedTables.Run.Output

/-!
# Kernels

A kernel is a compiled program under the names of its expressions. Bound to data it can be run, in
the mode that it was compiled for: `run` gives the values of the expressions in every row, `runDot`
their products with coefficients, `runChoice` a choice per row among the columns of coefficients.

Data bound for one kernel serve another one with the same layout.
-/

namespace LinkedTables

structure Kernel where
  artifact : Artifact
  names : List String
  blocks : Blocks

inductive RunFault where
  | wrongMode (compiled requested : Mode)
  | wrongCoefficients (rows outputs : Nat)
  | wrongDraws (draws rows : Nat)
  | badDraw (draw : Float) (row : Nat)
  | noAlternatives
  | wrongNames (names columns : Nat)
  | otherLayout (digest : String)
  | row (fault : RowFault)
  | matrix (fault : MatrixFault)
  deriving DecidableEq

namespace RunFault

def kind : RunFault → ErrorKind
  | wrongMode _ _ => .mode
  | wrongCoefficients _ _ | wrongDraws _ _ | wrongNames _ _ | otherLayout _ | matrix _ => .shape
  | badDraw _ _ | noAlternatives | row (.noAlternative _) => .domain
  | row (.outOfRange _) => .internal

def message : RunFault → String
  | wrongMode c r => s!"Kernel was compiled for mode '{c.name}' but was run as '{r.name}'"
  | wrongCoefficients r n =>
    s!"coefficient matrix has {r} rows but the kernel has {n} expressions"
  | wrongDraws d r => s!"{d} draws supplied for {r} rows"
  | badDraw d i => s!"draw {Number.text d} at row {i} is outside [0, 1)"
  | noAlternatives => "choice model has no alternatives"
  | wrongNames n k => s!"{n} alternative names for {k} coefficient columns"
  | otherLayout d =>
    s!"bound source was prepared for a different data layout than kernel {d}"
  | row (.noAlternative i) => s!"row {i} has no available alternative"
  | row (.outOfRange i) => s!"row {i} reads outside of its data"
  | matrix f => f.message

end RunFault

/-- A kernel with data for its layout. -/
structure BoundKernel where
  kernel : Kernel
  data : BoundData
  layout_eq : data.layout = kernel.artifact.program.layout

namespace Kernel

def digest (k : Kernel) : String := k.artifact.digest

def mode (k : Kernel) : Mode := k.artifact.mode

def program (k : Kernel) : Program := k.artifact.program

def withParallel (k : Kernel) (on : Bool) : Kernel :=
  { k with blocks := { k.blocks with parallel := on } }

/-- The kernel with the data of a graph. -/
def bind (k : Kernel) (g : LinkGraph) : Except BindFault BoundKernel :=
  (BoundData.gather g k.artifact.program.layout).map fun (rowDim, sources) =>
    ⟨k, ⟨k.artifact.program.layout, rowDim, sources⟩, rfl⟩

/-- The kernel with data that were bound before. -/
def attach (k : Kernel) (data : BoundData) : Except RunFault BoundKernel :=
  if h : data.layout = k.artifact.program.layout then .ok ⟨k, data, h⟩
  else .error (.otherLayout (String.ofList (k.digest.toList.take 12)))

def trace (k : Kernel) (output : Nat) : Except TraceFault String := k.program.trace k.names output

end Kernel

namespace BoundKernel

def rows (b : BoundKernel) : Nat := b.data.rows

def program (b : BoundKernel) : Program := b.kernel.program

/-- The same kernel with the data of another graph. -/
def rebind (b : BoundKernel) (g : LinkGraph) : Except BindFault BoundKernel := b.kernel.bind g

def require (b : BoundKernel) (requested : Mode) : Except RunFault Unit :=
  if b.kernel.mode = requested then .ok () else .error (.wrongMode b.kernel.mode requested)

def checkCoefficients (b : BoundKernel) (coef : Matrix) : Except RunFault Unit :=
  if coef.rows = b.program.outputs.length then .ok ()
  else .error (.wrongCoefficients coef.rows b.program.outputs.length)

/-- Runs all rows with an epilogue that gives so many values. No row is run for the sake of no
value. -/
def runRows (b : BoundKernel) (width : Nat) (epilogue : Batch.Epilogue) :
    Except RunFault (List (List Float)) :=
  if width = 0 then .ok []
  else
    match Batch.run b.program b.data.sources b.kernel.blocks b.rows epilogue with
    | .ok rows => .ok rows
    | .error f => .error (.row f)

/-- The matrix of all rows. -/
def runMatrix (b : BoundKernel) (width : Nat) (epilogue : Batch.Epilogue) :
    Except RunFault Matrix := do
  let rows ← b.runRows width epilogue
  match Matrix.ofArray b.rows width rows.flatten.toArray with
  | .ok m => return m
  | .error f => throw (.matrix f)

/-- The values of the expressions: a row for each row of the root, a column for each expression. -/
def run (b : BoundKernel) : Except RunFault Matrix := do
  b.require .load
  b.runMatrix b.program.outputs.length (Batch.valueEpilogue b.program)

def runAs (b : BoundKernel) (form : OutputForm) : Except RunFault Output := do
  return Output.wrap form (← b.run) b.data.rowDim "expressions" b.kernel.names

/-- The values of the expressions times coefficients, without the values in between. -/
def runDot (b : BoundKernel) (coef : Matrix) : Except RunFault Matrix := do
  b.require .dot
  b.checkCoefficients coef
  b.runMatrix coef.cols (Batch.dotEpilogue b.program coef)

/-- Names of alternatives; without any they are numbered. -/
def alternativeNames (given : List String) (k : Nat) : Except RunFault (List String) :=
  if given.isEmpty then .ok ((List.range k).map toString)
  else if given.length = k then .ok given
  else .error (.wrongNames given.length k)

def runDotAs (b : BoundKernel) (coef : Matrix) (alternatives : List String) (form : OutputForm) :
    Except RunFault Output := do
  let data ← b.runDot coef
  let names ← alternativeNames alternatives coef.cols
  return Output.wrap form data b.data.rowDim "alternatives" names

/-- A draw lies in the half-open interval from zero to one. -/
def isDraw (d : Float) : Bool := decide (0.0 ≤ d) && decide (d < 1.0)

def checkDraws (b : BoundKernel) (draws : Array Float) : Except RunFault Unit := do
  if draws.size ≠ b.rows then throw (.wrongDraws draws.size b.rows)
  if let some (d, i) := draws.toList.zipIdx.find? fun (d, _) => !isDraw d then
    throw (.badDraw d i)

/-- A choice and its probability from what the epilogue of a row gives. -/
def choiceOf : List Float → Nat × Float
  | [choice, share] => (Number.toIndex choice, share)
  | _ => (0, 0.0)

/-- A simulated choice in every row, by an exponential function. -/
def runChoiceBy (b : BoundKernel) (exp : Float → Float) (coef : Matrix) (draws : Array Float) :
    Except RunFault Choices := do
  b.require .choice
  b.checkCoefficients coef
  b.checkDraws draws
  if coef.cols = 0 then throw .noAlternatives
  let rows ← b.runRows 2 (Batch.choiceEpilogueBy exp b.program coef draws)
  let picked := rows.map choiceOf
  return ⟨picked.map (·.1), picked.map (·.2)⟩

/-- A simulated choice in every row. -/
def runChoice (b : BoundKernel) (coef : Matrix) (draws : Array Float) : Except RunFault Choices :=
  b.runChoiceBy Float.exp coef draws

def runChoiceLabeled (b : BoundKernel) (coef : Matrix) (draws : Array Float)
    (alternatives : List String) : Except RunFault LabeledChoices := do
  let names ← alternativeNames alternatives coef.cols
  return (← b.runChoice coef draws).labeled b.data.rowDim names

end BoundKernel

end LinkedTables
