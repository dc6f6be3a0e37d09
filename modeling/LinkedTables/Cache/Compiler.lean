import LinkedTables.Cache.Directory
import LinkedTables.Error

/-!
# Compilers

A compiler answers requests and remembers the answers: in a table of its own, and in a directory
that it may share with others. A request that was answered before, by this compiler or by one that
stored the answer, is not compiled again, and the names of the kernel are those of the request at
hand.

What a compiler cannot store it still remembers. A request that fails changes nothing.
-/

namespace LinkedTables

structure Compiler where
  settings : Settings
  /-- The directory of the settings could be used when the compiler was made. -/
  usesDirectory : Bool
  /-- Artifacts under their keys. -/
  table : List (String × Artifact)
  /-- Whether the last request had to be compiled, if that is tracked. -/
  lastTriggered : Option Bool

/-- The answer to a request, and what there is after it. -/
structure Compiled where
  answer : Except Error Kernel
  compiler : Compiler
  directory : Directory

namespace Compiler

/-- A compiler with its directory, which is made if need be. -/
def new (settings : Settings) (dir : Directory) : Compiler × Directory :=
  let opened := if settings.cacheDir.isSome then dir.open? else none
  (⟨settings, opened.isSome, [], if settings.track then some false else none⟩, opened.getD dir)

/-- The number of artifacts in the table. -/
def size (c : Compiler) : Nat := c.table.length

def blocks (c : Compiler) : Blocks := ⟨c.settings.parallel, max c.settings.minRows.toNat 1⟩

def kernel (c : Compiler) (artifact : Artifact) (names : List String) : Kernel :=
  ⟨artifact, names, c.blocks⟩

/-- Notes whether a request had to be compiled. -/
def noting (c : Compiler) (triggered : Bool) : Compiler :=
  { c with lastTriggered := c.lastTriggered.map fun _ => triggered }

def remembering (c : Compiler) (key : String) (artifact : Artifact) : Compiler :=
  { c with table := (key, artifact) :: c.table }

/-- The artifact of an analysis, made from scratch. -/
def generate (a : Analysis) (mode : Mode) (now : UInt64) : Except Error Artifact :=
  let request := Request.ofAnalysis a mode
  match a.listing mode with
  | .error f => .error (.writing f)
  | .ok source =>
    match Listing.read source with
    | .error f => .error (.listing f)
    | .ok program => .ok ⟨request.digest, mode, now, request, source, program⟩

/-- What the directory holds under a key, if the compiler uses it. -/
def stored? (c : Compiler) (dir : Directory) (key : String) : Option Artifact :=
  if c.usesDirectory then dir.load? key else none

/-- The directory after an artifact was stored; one that cannot store it stays as it is. -/
def storing (c : Compiler) (dir : Directory) (artifact : Artifact) : Directory :=
  if c.usesDirectory then (dir.store? artifact.record).getD dir else dir

/-- Answers the request of an analysis. -/
def answer (c : Compiler) (dir : Directory) (now : UInt64) (a : Analysis) (mode : Mode) :
    Compiled :=
  let key := (Request.ofAnalysis a mode).digest
  match c.table.lookup key with
  | some artifact => ⟨.ok (c.kernel artifact a.names), c.noting false, dir⟩
  | none =>
    match c.stored? dir key with
    | some artifact =>
      ⟨.ok (c.kernel artifact a.names), (c.remembering key artifact).noting false, dir⟩
    | none =>
      match generate a mode now with
      | .error e => ⟨.error e, c, dir⟩
      | .ok artifact =>
        ⟨.ok (c.kernel artifact a.names), (c.remembering key artifact).noting true,
          c.storing dir artifact⟩

/-- Compiles a set of expressions over a graph, at a time. -/
def compile (c : Compiler) (dir : Directory) (now : UInt64) (g : LinkGraph) (set : ExprSet)
    (mode : Mode) : Compiled :=
  match analyze g set with
  | .error f => ⟨.error (.analysis f), c, dir⟩
  | .ok a => c.answer dir now a mode

end Compiler

end LinkedTables
