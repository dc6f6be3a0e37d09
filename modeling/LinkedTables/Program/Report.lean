import LinkedTables.Program.Program

/-!
# Reports on programs

How many instructions of each kind a program has, and how far back they read. A read of a constant
counts as such; of the others, one at most two instructions back is hot, one at most 64 back is
near, and the rest are far. The mean distance leaves reads of constants out.
-/

namespace LinkedTables

structure Locality where
  hot : Nat
  near : Nat
  far : Nat
  constants : Nat
  deriving DecidableEq, Repr

structure Report where
  total : Nat
  /-- Counts under mnemonics, in ascending order. -/
  counts : List (String × Nat)
  loads : Nat
  lookups : Nat
  outputs : Nat
  locality : Locality
  meanDistance : Float

namespace Report

/-- Counts one more of a name. -/
def count (name : String) : List (String × Nat) → List (String × Nat)
  | [] => [(name, 1)]
  | (n, k) :: rest =>
    if n == name then (n, k + 1) :: rest
    else if name < n then (name, 1) :: (n, k) :: rest
    else (n, k) :: count name rest

/-- One read: the distance to what is read, or none if that is a constant. -/
def distance? (p : Program) (reader : Nat) (r : Reg) : Option Nat :=
  match p.code[r.toNat]? with
  | some (.const _) => none
  | _ => some (reader - r.toNat)

/-- The distances of all reads in order. -/
def distances (p : Program) : List (Option Nat) :=
  p.code.toList.zipIdx.flatMap fun (instr, i) => instr.reads.map (distance? p i)

def Locality.ofDistances (ds : List (Option Nat)) : Locality :=
  { hot := ds.countP fun d => d.any (· ≤ 2)
    near := ds.countP fun d => d.any fun n => 3 ≤ n && n ≤ 64
    far := ds.countP fun d => d.any (64 < ·)
    constants := ds.countP Option.isNone }

/-- The mean of whole numbers; of none it is zero. -/
def mean (ns : List Nat) : Float :=
  if ns.isEmpty then 0.0 else Number.ofIndex (ns.foldl (· + ·) 0) / Number.ofIndex ns.length

end Report

def Program.report (p : Program) : Report :=
  let counts := p.code.foldl (fun cs i => Report.count i.opcode.mnemonic cs) []
  let ds := Report.distances p
  { total := p.size
    counts := counts
    loads := (counts.lookup "load").getD 0
    lookups := (counts.lookup "label").getD 0
    outputs := p.outputs.length
    locality := Report.Locality.ofDistances ds
    meanDistance := Report.mean (ds.filterMap id) }

end LinkedTables
