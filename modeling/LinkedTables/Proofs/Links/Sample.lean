import LinkedTables.Analysis.Analysis
import LinkedTables.Proofs.Data.Loops
import LinkedTables.Proofs.Links.History

/-!
# Graphs made by calls

Calls one after the other on the empty graph make a graph, and so do steps on the empty dataset make
a dataset: a step that fails is passed over, so whatever is made can be built
(`GraphCall.made_built`).

The sample is a root of trips between zones. The two ends of a trip are labels of zones, and the
times lie over pairs of zones.
-/

namespace LinkedTables

namespace BuiltDataset

def empty : BuiltDataset := ⟨.empty, .empty⟩

/-- With one more dimension, if it can be added. -/
def dim (ds : BuiltDataset) (name : String) (coords : Coords) : BuiltDataset :=
  match h : ds.dataset.withDim name coords with
  | .ok ds' => ⟨ds', .withDim ds.built h⟩
  | .error _ => ds

/-- With one more variable, if it can be added. -/
def var (ds : BuiltDataset) (name : String) (dims : List String) (values : Values) : BuiltDataset :=
  match h : ds.dataset.withVariable name dims values with
  | .ok ds' => ⟨ds', .withVariable ds.built h⟩
  | .error _ => ds

end BuiltDataset

namespace GraphCall

/-- What calls make of the empty graph. -/
def made (calls : List GraphCall) : LinkGraph :=
  (run [.empty] (calls.map (0, ·))).headD .empty

theorem step_ne_nil {held : List LinkGraph} (h : held ≠ []) (i : Nat) (c : GraphCall) :
    c.step held i ≠ [] := by
  unfold step
  split
  · exact h
  split
  · exact h
  split_ifs
  · simpa using h
  · simp

theorem run_ne_nil : ∀ (calls : List (Nat × GraphCall)) {held : List LinkGraph}, held ≠ [] →
    run held calls ≠ []
  | [], _, h => h
  | (i, c) :: calls, _, h => run_ne_nil calls (step_ne_nil h i c)

/-- What calls make is held after them. -/
theorem made_mem (calls : List GraphCall) : made calls ∈ run [.empty] (calls.map (0, ·)) := by
  obtain ⟨g, gs, hrun⟩ := List.exists_cons_of_ne_nil
    (run_ne_nil (calls.map (0, ·)) (List.cons_ne_nil LinkGraph.empty []))
  rw [made, hrun]
  exact List.mem_cons_self

theorem made_built (calls : List GraphCall) : (made calls).Built :=
  run_built _ (by simp [LinkGraph.Built.empty]) _ (made_mem calls)

end GraphCall

namespace Sample

/-- Trips with labels of zones at both ends and a number each. -/
def trips (homes works : Array Float) : BuiltDataset :=
  ((BuiltDataset.empty.dim "trip" (.range (.ofNat homes.size))).var
    "home" ["trip"] (.numbers homes)).var "work" ["trip"] (.numbers works)

/-- Times between two zones, in the order of the zones. -/
def skims (times : Array Float) : BuiltDataset :=
  ((BuiltDataset.empty.dim "from" (.integers #[7, 9])).dim
    "to" (.integers #[7, 8, 9])).var "time" ["from", "to"] (.numbers times)

/-- The trips with the times between their ends. -/
def graph : LinkGraph := GraphCall.made [
  .addTable "trips" (trips #[9, 7, 9] #[8, 8, 7]),
  .addTable "skims" (skims #[1, 2, 3, 4, 5, 6]),
  .addLinkText "trips.home @ skims.from",
  .addLinkText "trips.work @ skims.to"]

theorem graph_built : graph.Built := GraphCall.made_built _

/-- Fewer trips with other ends and other times, beside a table and a variable that the other graph
does not have. -/
def regrouped : LinkGraph := GraphCall.made [
  .addTable "parks" (BuiltDataset.empty.dim "park" (.strings #["north", "south"])),
  .addTable "skims" (skims #[6, 5, 4, 3, 2, 1]),
  .addTable "trips" ((trips #[7, 9] #[9, 9]).var "mood" [] (.strings #["good"])),
  .setRoot "trips",
  .addLinkText "trips.home @ skims.from",
  .addLinkText "trips.mood @ parks.park",
  .addLinkText "trips.work @ skims.to"]

theorem regrouped_built : regrouped.Built := GraphCall.made_built _

/-- Three numbers over a dimension that may stand behind another one. -/
def series (before : BuiltDataset) : LinkGraph := GraphCall.made [
  .addTable "t" ((before.dim "a" (.range 3)).var "x" ["a"] (.numbers #[10, 20, 30]))]

theorem series_built (before : BuiltDataset) : (series before).Built := GraphCall.made_built _

def set : ExprSet := ⟨[("cost", "skims.time * rate + home")], [("rate", Float.toBits 2)]⟩

/-- The same under another name and with other blanks. -/
def respelled : ExprSet := ⟨[("fare", "skims.time*rate  + home")], [("rate", Float.toBits 2)]⟩

def homeLink : Link := ⟨"trips", "home", "skims", "from", .label⟩

def workLink : Link := ⟨"trips", "work", "skims", "to", .label⟩

/-- What both graphs give for the set that is asked of them, but for the name of the expression. -/
def analysisNamed (name : String) : Analysis where
  root := "trips"
  names := [name]
  normalized := ["skims . time * rate + home"]
  types := [⟨.number, .row⟩]
  references := [⟨"skims", "time", ["from", "to"], [homeLink.text, workLink.text]⟩,
    ⟨"trips", "home", ["trip"], []⟩]
  constants := [("rate", Float.toBits 2)]
  slots := ⟨#[⟨.row, [], 0⟩, ⟨.label, [0], 0⟩, ⟨.label, [0], 1⟩, ⟨.stride, [1, 2], 3⟩, ⟨.load, [3], 0⟩,
      ⟨.const, [], Float.toBits 2⟩, ⟨.binary .mul, [4, 5], 0⟩, ⟨.load, [0], 1⟩,
      ⟨.binary .add, [6, 7], 0⟩],
    #[[], [0], [0], [1, 2], [3], [], [4, 5], [0], [6, 7]]⟩
  outputs := [8]
  layout := {
    root := "trips"
    columns := [⟨"skims", "time", ["from", "to"]⟩, ⟨"trips", "home", ["trip"]⟩]
    tables := [⟨workLink, ["trip"]⟩, ⟨homeLink, ["trip"]⟩]
    checks := []
    shapes := [⟨"skims", "from", 2⟩, ⟨"skims", "to", 3⟩] }

theorem analyze_graph : analyze graph set = .ok (analysisNamed "cost") :=
  eq_ok_of_toOption (by decide +kernel)

theorem analyze_regrouped : analyze regrouped respelled = .ok (analysisNamed "fare") :=
  eq_ok_of_toOption (by decide +kernel)

end Sample

end LinkedTables
