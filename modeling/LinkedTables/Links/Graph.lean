import LinkedTables.Data.Dataset
import LinkedTables.Links.Link

/-!
# Graphs of linked tables

A graph has tables under distinct names and links between them, both in the order in which they were
added. Three things hold throughout: the ends of a link exist, at most one link leads into a
dimension of a table, and no walk along links returns to its start. So a dimension that can be
reached at all is reached in one way.

One table is the root, the first one if none was chosen. It is the table whose leading dimension is
walked row by row, and no link may lead into it.

A step that fails leaves the graph as it was: it gives no graph at all.
-/

namespace LinkedTables

structure Table where
  name : String
  data : Dataset
  deriving DecidableEq, Inhabited

structure LinkGraph where
  tables : List Table
  links : List Link
  /-- The name of the root, if one was chosen. -/
  chosenRoot : Option String
  deriving DecidableEq, Inhabited

inductive GraphFault where
  | badTableName (name : String)
  | tableExists (name : String)
  | unknownTable (name : String)
  | badLink (fault : LinkFault)
  | noSourceVariable (link : Link)
  | noTargetDimension (link : Link)
  | positionsAreTexts (link : Link)
  | alreadyReached (link existing : Link)
  | rootIsTarget (link : Link)
  | cycle (link : Link)
  | rootWithoutDimensions (name : String)
  | targetAsRoot (name : String)
  | replacementTexts (table var : String)
  | replacementDropsVariable (table : String) (link : Link)
  | replacementDropsDimension (table : String) (link : Link)
  | replacementRootWithoutDimensions (name : String)
  | noTables
  | linkIntoRoot (root : String) (link : Link)
  deriving DecidableEq, Repr

def GraphFault.message : GraphFault → String
  | badTableName n => s!"'{n}' is not a valid node name"
  | tableExists n => s!"node '{n}' already exists"
  | unknownTable n => s!"unknown node '{n}'"
  | badLink f => f.message
  | noSourceVariable l => s!"'{l.text}': node '{l.sourceTable}' has no variable '{l.sourceVar}'"
  | noTargetDimension l => s!"'{l.text}': node '{l.targetTable}' has no dimension '{l.targetDim}'"
  | positionsAreTexts l => s!"'{l.text}': positional links need a numeric source variable"
  | alreadyReached l e =>
    s!"'{l.text}' is ambiguous: {l.targetTable}.{l.targetDim} is already reached through '{e.text}'"
  | rootIsTarget l =>
    s!"'{l.text}': the root node '{l.targetTable}' cannot be the target of a relationship"
  | cycle l =>
    s!"'{l.text}' would create a cycle between '{l.sourceTable}' and '{l.targetTable}'"
  | rootWithoutDimensions n => s!"root node '{n}' has no dimensions"
  | targetAsRoot n => s!"node '{n}' is the target of a relationship and cannot be the root"
  | replacementTexts t v => s!"replacement for '{t}' turns positional source '{v}' into strings"
  | replacementDropsVariable t l =>
    s!"replacement for '{t}' drops variable '{l.sourceVar}' used by '{l.text}'"
  | replacementDropsDimension t l =>
    s!"replacement for '{t}' drops dimension '{l.targetDim}' used by '{l.text}'"
  | replacementRootWithoutDimensions n => s!"replacement for root '{n}' has no dimensions"
  | noTables => "graph has no nodes"
  | linkIntoRoot r l =>
    s!"root node '{r}' is the target of '{l.text}'; call set_root with the batch node"

namespace LinkGraph

def empty : LinkGraph := ⟨[], [], none⟩

def data? (g : LinkGraph) (name : String) : Option Dataset :=
  (g.tables.find? (·.name == name)).map Table.data

def hasTable (g : LinkGraph) (name : String) : Bool := (g.data? name).isSome

/-- The data of a table that must be there. -/
def data (g : LinkGraph) (name : String) : Except GraphFault Dataset :=
  match g.data? name with
  | some ds => .ok ds
  | none => .error (.unknownTable name)

/-- The link into a dimension, with its number. -/
def incoming? (g : LinkGraph) (table dim : String) : Option (Nat × Link) :=
  (g.links.zipIdx.find? fun (l, _) => l.targetTable == table && l.targetDim == dim).map
    fun (l, i) => (i, l)

/-- The links into a table, the latest first. -/
def linksInto (g : LinkGraph) (table : String) : List Link :=
  (g.links.filter (·.targetTable == table)).reverse

/-- The links out of a table, the latest first. -/
def linksOutOf (g : LinkGraph) (table : String) : List Link :=
  (g.links.filter (·.sourceTable == table)).reverse

section Reach

/-- The tables reached so far and those that one more link leads to. -/
def widen (links : List Link) (seen : List String) : List String :=
  links.foldl
    (fun seen l =>
      if seen.contains l.sourceTable && !seen.contains l.targetTable then l.targetTable :: seen
      else seen) seen

/-- The tables reached from some tables along at most as many links as there are tables. -/
def closure (links : List Link) : Nat → List String → List String
  | 0, seen => seen
  | n + 1, seen => closure links n (widen links seen)

/-- A walk along links leads from one table to the other; the empty walk is one. -/
def leadsTo (g : LinkGraph) (source target : String) : Bool :=
  (closure g.links g.tables.length [source]).contains target

end Reach

section Root

def rootName (g : LinkGraph) : Except GraphFault String :=
  match g.chosenRoot, g.tables with
  | some r, _ => .ok r
  | none, t :: _ => .ok t.name
  | none, [] => .error .noTables

def root (g : LinkGraph) : Except GraphFault Table := do
  let name ← g.rootName
  return ⟨name, ← g.data name⟩

/-- The root, if it can be walked: no link leads into it and it has a leading dimension. -/
def checkedRoot (g : LinkGraph) : Except GraphFault Table := do
  let r ← g.root
  if let some l := (g.linksInto r.name).head? then throw (.linkIntoRoot r.name l)
  if r.data.dims.isEmpty then throw (.rootWithoutDimensions r.name)
  return r

/-- Whether a table is the root or can be reached from it. -/
def isReachable (g : LinkGraph) (table : String) : Bool :=
  match g.rootName with
  | .ok r => g.hasTable table && g.leadsTo r table
  | .error _ => false

end Root

section Steps

def addTable (g : LinkGraph) (name : String) (data : Dataset) : Except GraphFault LinkGraph :=
  if !Text.isName name.toList then .error (.badTableName name)
  else if g.hasTable name then .error (.tableExists name)
  else .ok { g with tables := g.tables ++ [⟨name, data⟩] }

/-- A link is admitted if its ends exist and it keeps dimensions reached in one way at most. -/
def checkLink (g : LinkGraph) (l : Link) : Except GraphFault Unit := do
  let source ← g.data l.sourceTable
  let target ← g.data l.targetTable
  match source.var? l.sourceVar with
  | none => throw (.noSourceVariable l)
  | some v =>
    if (target.dim? l.targetDim).isNone then throw (.noTargetDimension l)
    if l.mode = .position && v.values.kind = .string then throw (.positionsAreTexts l)
    if let some (_, existing) := g.incoming? l.targetTable l.targetDim then
      throw (.alreadyReached l existing)
    if g.chosenRoot = some l.targetTable then throw (.rootIsTarget l)
    if g.leadsTo l.targetTable l.sourceTable then throw (.cycle l)

def addLink (g : LinkGraph) (l : Link) : Except GraphFault LinkGraph := do
  g.checkLink l
  return { g with links := g.links ++ [l] }

/-- Adds the link that a text spells. -/
def addLinkText (g : LinkGraph) (spec : String) : Except GraphFault LinkGraph :=
  match Link.read spec.toList with
  | .error f => .error (.badLink f)
  | .ok l => g.addLink l

def setRoot (g : LinkGraph) (name : String) : Except GraphFault LinkGraph := do
  let ds ← g.data name
  if ds.dims.isEmpty then throw (.rootWithoutDimensions name)
  if !(g.linksInto name).isEmpty then throw (.targetAsRoot name)
  return { g with chosenRoot := some name }

/-- A table's data can be replaced by data that still have what its links use. -/
def checkReplacement (name : String) (ds : Dataset) (l : Link) : Except GraphFault Unit := do
  if l.sourceTable = name then
    match ds.var? l.sourceVar with
    | none => throw (.replacementDropsVariable name l)
    | some v =>
      if l.mode = .position && v.values.kind = .string then
        throw (.replacementTexts name l.sourceVar)
  if l.targetTable = name && (ds.dim? l.targetDim).isNone then
    throw (.replacementDropsDimension name l)

/-- The graph with other data for one table, and everything else as it was. -/
def replaceData (g : LinkGraph) (name : String) (ds : Dataset) : Except GraphFault LinkGraph := do
  let _ ← g.data name
  for l in g.linksOutOf name ++ g.linksInto name do
    checkReplacement name ds l
  if g.chosenRoot = some name && ds.dims.isEmpty then
    throw (.replacementRootWithoutDimensions name)
  return { g with
    tables := g.tables.map fun t => if t.name == name then { t with data := ds } else t }

end Steps

end LinkGraph

end LinkedTables
