import LinkedTables.Proofs.Links.Built

/-!
# Histories of graphs

Graphs are held side by side. A call on one of them changes it in place, or makes a new graph that
is held beside it: a copy, or the graph with other data for one table. A call that fails changes
none of them.

Whatever is called on whichever graph, all graphs held are valid and each finds every table under
its own name (`GraphCall.run_valid`): each was made by steps from the empty graph.
-/

namespace LinkedTables

/-- A dataset that can be made. -/
structure BuiltDataset where
  dataset : Dataset
  built : dataset.Built

/-- A call on a graph. -/
inductive GraphCall where
  | addTable (name : String) (data : BuiltDataset)
  | addLink (link : Link)
  | addLinkText (spec : String)
  | setRoot (name : String)
  | replaceData (name : String) (data : BuiltDataset)
  | copy

namespace GraphCall

/-- The graph that a call makes of a graph. -/
def result (g : LinkGraph) : GraphCall → Except GraphFault LinkGraph
  | addTable name data => g.addTable name data.dataset
  | addLink l => g.addLink l
  | addLinkText spec => g.addLinkText spec
  | setRoot name => g.setRoot name
  | replaceData name data => g.replaceData name data.dataset
  | copy => .ok g

/-- Whether the graph that a call makes takes the place of the one it was made of. -/
def inPlace : GraphCall → Bool
  | replaceData .. | copy => false
  | _ => true

/-- What becomes of the graphs held when one of them, if it is there, is called. -/
def step (held : List LinkGraph) (i : Nat) (c : GraphCall) : List LinkGraph :=
  match held[i]? with
  | none => held
  | some g =>
    match c.result g with
    | .error _ => held
    | .ok g' => if c.inPlace then held.set i g' else held ++ [g']

/-- Calls one after the other, each with the number of the graph it is made on. -/
def run (held : List LinkGraph) (calls : List (Nat × GraphCall)) : List LinkGraph :=
  calls.foldl (fun held (i, c) => c.step held i) held

theorem result_built {g g' : LinkGraph} (hg : g.Built) : ∀ {c : GraphCall}, c.result g = .ok g' →
    g'.Built
  | addTable _ data, h => .addTable hg data.built h
  | addLink _, h => .addLink hg h
  | addLinkText spec, h => by
    simp only [result, LinkGraph.addLinkText] at h
    split at h
    · cases h
    · exact .addLink hg h
  | setRoot _, h => .setRoot hg h
  | replaceData _ data, h => .replaceData hg data.built h
  | copy, h => by
    cases h
    exact hg

/-- A call keeps all graphs held such as can be built. -/
theorem step_built {held : List LinkGraph} (h : ∀ g ∈ held, g.Built) (i : Nat) (c : GraphCall) :
    ∀ g ∈ c.step held i, g.Built := by
  intro g' hg'
  unfold step at hg'
  split at hg'
  · exact h g' hg'
  · rename_i g hg
    split at hg'
    · exact h g' hg'
    · rename_i made hmade
      have hbuilt : made.Built := result_built (h g (List.mem_of_getElem? hg)) hmade
      split at hg'
      · rcases List.mem_or_eq_of_mem_set hg' with hold | rfl
        · exact h g' hold
        · exact hbuilt
      · rcases List.mem_append.1 hg' with hold | hnew
        · exact h g' hold
        · exact List.mem_singleton.1 hnew ▸ hbuilt

theorem run_built : ∀ (calls : List (Nat × GraphCall)) {held : List LinkGraph},
    (∀ g ∈ held, g.Built) → ∀ g ∈ run held calls, g.Built
  | [], _, h => h
  | (i, c) :: calls, _, h => run_built calls (step_built h i c)

end GraphCall

namespace LinkGraph

/-- Under distinct names every table is found under its own. -/
theorem data?_of_mem {g : LinkGraph} (hg : g.names.Nodup) {t : Table} (ht : t ∈ g.tables) :
    g.data? t.name = some t.data := by
  obtain ⟨ds, hds⟩ := data?_of_mem_names (List.mem_map_of_mem ht)
  obtain ⟨u, hu, hname, rfl⟩ := exists_of_data? hds
  rwa [List.inj_on_of_nodup_map hg hu ht hname] at hds

/-- Replacing the data of a table changes nothing but these data. -/
theorem replaceData_frame {g g' : LinkGraph} {name : String} {ds : Dataset}
    (h : g.replaceData name ds = .ok g') : g'.names = g.names ∧ g'.links = g.links ∧
      g'.chosenRoot = g.chosenRoot ∧ g'.data? name = some ds ∧
      ∀ other, other ≠ name → g'.data? other = g.data? other := by
  obtain ⟨⟨old, hold⟩, -, -, rfl⟩ := replaceData_ok h
  refine ⟨names_replace g name ds, rfl, rfl, ?_, fun other hother => ?_⟩
  · rw [data?_replace, if_pos rfl, hold, Option.map_some]
  · rw [data?_replace, if_neg hother]

end LinkGraph

namespace GraphCall

/-- After any calls on any of the graphs made on the way, failing ones included, every graph held
is valid and finds every table under its own name. A further call that fails leaves all graphs as
they were. One that replaces data leaves them too and adds a graph that differs in these data
only. -/
theorem run_valid (calls : List (Nat × GraphCall)) :
    (∀ g ∈ run [.empty] calls, g.Valid ∧ ∀ t ∈ g.tables, g.data? t.name = some t.data) ∧
    ∀ (i : Nat) (g : LinkGraph), (run [.empty] calls)[i]? = some g →
      (∀ (c : GraphCall) (f : GraphFault), c.result g = .error f →
        c.step (run [.empty] calls) i = run [.empty] calls) ∧
      ∀ (name : String) (data : BuiltDataset) (g' : LinkGraph),
        g.replaceData name data.dataset = .ok g' →
          (replaceData name data).step (run [.empty] calls) i = run [.empty] calls ++ [g'] ∧
          g'.names = g.names ∧ g'.links = g.links ∧ g'.chosenRoot = g.chosenRoot ∧
          g'.data? name = some data.dataset ∧ ∀ other, other ≠ name → g'.data? other = g.data? other := by
  have hbuilt : ∀ g ∈ run [.empty] calls, g.Built :=
    run_built calls (by simp [LinkGraph.Built.empty])
  refine ⟨fun g hg => ?_, fun i g hi => ⟨fun c f hfault => ?_, fun name data g' hmade => ?_⟩⟩
  · have hv := (hbuilt g hg).valid
    exact ⟨hv, fun t ht => LinkGraph.data?_of_mem hv.distinct ht⟩
  · simp [step, hi, hfault]
  · exact ⟨by simp [step, hi, result, hmade, inPlace], LinkGraph.replaceData_frame hmade⟩

end GraphCall

end LinkedTables
