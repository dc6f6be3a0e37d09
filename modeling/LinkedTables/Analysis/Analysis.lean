import LinkedTables.Analysis.Lowering
import LinkedTables.Analysis.Typing

/-!
# Analyses

The analysis of a set of expressions over a graph: all expressions are read, then all are typed,
then all are lowered. The first fault of the earliest of these phases is the fault of the set.
-/

namespace LinkedTables

structure Analysis where
  root : String
  names : List String
  /-- The normal forms of the expressions. -/
  normalized : List String
  types : List Typed
  references : List Reference
  constants : List (String × UInt64)
  slots : SlotGraph
  outputs : List SlotId
  layout : Layout
  deriving DecidableEq

namespace Analysis

/-- An expression that was read. -/
structure Source where
  site : Site
  tree : Expr
  normal : String

def readSource (site : Site) : Except AnalysisFault Source :=
  match Expr.read site.text with
  | .error f => .error (.unreadable site f)
  | .ok (tree, tokens) => .ok ⟨site, tree, Token.normal tokens⟩

def sites (set : ExprSet) : List Site := set.texts.zipIdx.map fun (text, i) => ⟨i, text⟩

def scope (g : LinkGraph) (set : ExprSet) : Except AnalysisFault Scope :=
  match g.checkedRoot with
  | .error f => .error (.graph f)
  | .ok root => .ok ⟨g, root, set.constants⟩

/-- Types all expressions; the references are those of all of them. -/
def typeAll (sc : Scope) (sources : List Source) :
    Except AnalysisFault (List Typed × List Reference) :=
  (sources.mapM fun s => Typing.ofResult sc s.site s.tree).run []

/-- Lowers all expressions into one graph. -/
def lowerAll (sc : Scope) (sources : List Source) : Except AnalysisFault (List SlotId × Lowered) :=
  (sources.mapM fun s => Lowering.lower sc s.site s.tree).run .empty

def layoutOf (root : String) (l : Lowered) : Layout :=
  ⟨root, l.columns, l.tables, l.checks, l.shapes⟩

end Analysis

def analyze (g : LinkGraph) (set : ExprSet) : Except AnalysisFault Analysis := do
  let sc ← Analysis.scope g set
  if set.entries.isEmpty then throw .emptySet
  let sources ← (Analysis.sites set).mapM Analysis.readSource
  let (types, references) ← Analysis.typeAll sc sources
  let (outputs, lowered) ← Analysis.lowerAll sc sources
  return {
    root := sc.root.name
    names := set.names
    normalized := sources.map Analysis.Source.normal
    types := types
    references := references
    constants := set.constants
    slots := lowered.slots
    outputs := outputs
    layout := Analysis.layoutOf sc.root.name lowered }

end LinkedTables
