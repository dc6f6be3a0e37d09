import LinkedTables.Links.Graph

/-!
# Paths to a table

The path to a table is made of all links on walks that end in it, each once, and a link comes after
all links into the table it starts from. Links into one table keep the order in which they were
added.

The walk goes backwards along links. It cannot be longer than the number of tables, because no table
comes twice on it; that number is the fuel.
-/

namespace LinkedTables

namespace LinkGraph

/-- The links into a table with their numbers, in the order in which they were added. -/
def numberedInto (g : LinkGraph) (table : String) : List (Nat × Link) :=
  (g.links.zipIdx.filter fun (l, _) => l.targetTable == table).map fun (l, i) => (i, l)

/-- Links seen so far, and those already placed on the path. -/
structure PathState where
  seen : List Nat
  path : List Nat

/-- Places the links on walks into a table. -/
def collect (g : LinkGraph) : Nat → String → PathState → PathState
  | 0, _, s => s
  | fuel + 1, table, s =>
    (g.numberedInto table).foldl (fun s (i, l) =>
      if s.seen.contains i then s
      else
        let s' := collect g fuel l.sourceTable { s with seen := i :: s.seen }
        { s' with path := s'.path ++ [i] }) s

/-- The numbers of the links on the path to a table. -/
def path (g : LinkGraph) (table : String) : Except GraphFault (List Nat) :=
  if g.hasTable table then .ok (collect g (g.tables.length + 1) table ⟨[], []⟩).path
  else .error (.unknownTable table)

/-- The links on the path to a table. -/
def pathLinks (g : LinkGraph) (table : String) : Except GraphFault (List Link) := do
  return (← g.path table).filterMap fun i => g.links[i]?

end LinkGraph

end LinkedTables
