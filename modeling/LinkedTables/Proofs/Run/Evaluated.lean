import LinkedTables.Proofs.Data.Matrices
import LinkedTables.Proofs.Links.Sample
import LinkedTables.Proofs.Listing.Assembled
import LinkedTables.Proofs.Run.Rows
import LinkedTables.Proofs.Run.Standing
import LinkedTables.Run.Kernel

/-!
# Running a kernel evaluates its expressions

A kernel that was compiled over one graph can be bound to another one. If both walk their root along
a dimension of one name, then every row can be run, and its results are the values of the expressions
in the row of the graph that is bound (`Kernel.run_evaluates`): the plans of the first graph are right
for the second one, and the data that were bound store what its rows are made of.
-/

namespace LinkedTables

open Text (bound32)

namespace LinkGraph

/-- The dimension that the rows of the graph are taken along. -/
def lead? (g : LinkGraph) : Option String :=
  match g.checkedRoot with
  | .ok t => t.data.dims.head?.map Dimension.name
  | .error _ => none

theorem lead?_of_ok {g : LinkGraph} {t : Table} (h : g.checkedRoot = .ok t) :
    g.lead? = t.data.dims.head?.map Dimension.name := by
  simp [lead?, h]

/-- A row of the graph, whose links stand for what their sources hold. -/
def rowView (g : LinkGraph) (root lead : String) (row : Nat) : RowView :=
  ⟨g, root, lead, row, g.stands?⟩

end LinkGraph

namespace Compiler

/-- A compiler that has answered nothing yet and uses no directory. -/
def fresh (s : Settings) : Compiler := (new { s with cacheDir := none } .absent).1

theorem fresh_compile (s : Settings) (dir : Directory) (now : UInt64) (g : LinkGraph) (set : ExprSet)
    (mode : Mode) : ((fresh s).compile dir now g set mode).answer =
      match analyze g set with
      | .error f => .error (.analysis f)
      | .ok a => (generate a mode now).map fun artifact => (fresh s).kernel artifact a.names := by
  unfold compile
  rcases analyze g set with f | a
  · rfl
  · simp only [answer, fresh, new, stored?, List.lookup_nil]
    rcases generate a mode now with e | artifact <;> rfl

end Compiler

namespace Analysis

variable {g : LinkGraph} {set : ExprSet} {a : Analysis} {mode : Mode} {sc : Scope}
  {sources : List Source} {plans : List Plan} {order : List SlotId} {slots : List Slot}

/-- What is generated holds the program of the slots in some order, under numbers that fit. -/
theorem Planned.of_generate (h : a.Planned g set sc sources plans) (hg : g.Built) {now : UInt64}
    {artifact : Artifact} (hgen : Compiler.generate a mode now = .ok artifact) :
    artifact.mode = mode ∧ ∃ order slots, a.Written mode order slots ∧ a.Numbered slots ∧
      artifact.program = a.program mode order slots := by
  obtain ⟨hsound, hlt, -⟩ := h.sound
  obtain ⟨order, slots, hw⟩ := listing_ok hsound hlt mode
  unfold Compiler.generate at hgen
  split at hgen
  · cases hgen
  rename_i source hsource
  split at hgen
  · cases hgen
  rename_i p hread
  cases hgen
  obtain ⟨hn, rfl, -⟩ :=
    (hw.read_eq hsound (h.layoutNamed hg) h.newline_not_mem hsource).1 hread
  exact ⟨rfl, order, slots, hw, hn, rfl⟩

section Valued

theorem scope_lead {lead : String} (h : scope g set = .ok sc) (hsc : sc.Rooted lead) :
    g.lead? = some lead := by
  unfold scope at h
  split at h
  · cases h
  rename_i t ht
  cases h
  rw [LinkGraph.lead?_of_ok ht]
  exact hsc.leads

/-- The values of expressions in a row. -/
def valuesIn (v : RowView) (constants : List (String × UInt64)) (sources : List Source) :
    List Float :=
  sources.map fun s => (s.tree.value? v constants).getD 0.0

variable {g' : LinkGraph} {rowDim : Dimension} {src : Sources} {stands? : Link → Nat → Option Nat}

/-- In every row whose data are stored the expressions have values, and so have the slots. -/
theorem Planned.valued (h : a.Planned g set sc sources plans) (hg : g.Built)
    {v : RowView} (hroot : v.root = a.layout.root) (hlead : g.lead? = some v.lead)
    (hs : v.Stored a.layout src) : (∀ s ∈ sources, ∃ x, s.tree.value? v a.constants = some x) ∧
      ∃ vals, SlotGraph.Valued src v.row a.slots vals ∧
        valuesIn v a.constants sources = a.outputs.map fun i => vals.getD i 0.0 := by
  obtain ⟨-, hrec, lead, hsc, hplans⟩ := h.faithful hg
  have hname : v.root = sc.root.name := by rw [hroot, h.layout, layoutOf]
  have hsame : v.lead = lead := by
    rw [scope_lead h.inScope hsc, Option.some.injEq] at hlead
    exact hlead.symm
  have hmoved : List.Forall₂ (fun s p => s.tree.PlannedAs v.graph v.root v.lead a.constants p)
      sources plans := by
    refine List.Forall₂.flip (((List.forall₂_and_left _ _).2 ⟨hrec, hplans.flip⟩).imp ?_)
    rintro p s ⟨hp, hplan⟩
    rw [hname, hsame, ← h.root]
    exact Expr.plannedAs_of_faithful hg.valid hs.faithful hplan hp
  have hgrows : (layoutOf v.root (Plan.emitAll plans .empty).2).Grows a.layout := by
    rw [hname, ← h.layout]
    exact .refl _
  obtain ⟨vals, -, hvals, hall⟩ := Plan.emitAll_gives hs Lowered.sound_empty hgrows hmoved hrec
    (SlotGraph.valued_empty src v.row)
  rw [← h.slots] at hvals
  rw [← h.outputs] at hall
  refine ⟨fun s hsmem => ?_, vals, hvals, ?_⟩
  · obtain ⟨i, -, x, hx, -⟩ := exists_of_mem_left hall s hsmem
    exact ⟨x, hx⟩
  · have hsame : List.Forall₂ (fun s i => (s.tree.value? v a.constants).getD 0.0 = vals.getD i 0.0)
        sources a.outputs := by
      refine hall.imp ?_
      rintro s i ⟨x, hx, hi⟩
      rw [hx, List.getD_eq_getElem?_getD, hi]
    exact List.forall₂_eq_eq_eq ▸ (List.forall₂_map_left_iff.2 (List.forall₂_map_right_iff.2 hsame))

end Valued

end Analysis

namespace Kernel

/-- What a kernel is made of: an analysis, its sources and plans, and its slots in an order. -/
structure MadeOf (k : Kernel) (g : LinkGraph) (set : ExprSet) (mode : Mode) (a : Analysis)
    (sources : List Analysis.Source) (order : List SlotId) (slots : List Slot) : Prop where
  entries : set.entries ≠ []
  planned : ∃ sc plans, a.Planned g set sc sources plans
  written : a.Written mode order slots
  numbered : a.Numbered slots
  mode_eq : k.mode = mode
  program_eq : k.program = a.program mode order slots

variable {g g' : LinkGraph} {set : ExprSet} {mode : Mode} {k : Kernel} {s : Settings}
  {dir : Directory} {now : UInt64} {b : BoundKernel}

/-- What a fresh compiler answers is made of an analysis. -/
theorem madeOf_of_fresh (hg : g.Built)
    (hk : ((Compiler.fresh s).compile dir now g set mode).answer = .ok k) :
    ∃ a sources order slots, analyze g set = .ok a ∧ k.MadeOf g set mode a sources order slots := by
  rw [Compiler.fresh_compile] at hk
  split at hk
  · cases hk
  rename_i a ha
  obtain ⟨hentries, sc, sources, plans, h⟩ := Analysis.analyze_ok ha
  rcases hgen : Compiler.generate a mode now with e | artifact
  · rw [hgen] at hk
    cases hk
  · rw [hgen] at hk
    cases hk
    obtain ⟨hmode, order, slots, hw, hn, hprogram⟩ := h.of_generate hg hgen
    exact ⟨a, sources, order, slots, ha, hentries, ⟨sc, plans, h⟩, hw, hn, hmode, hprogram⟩

/-- An analysis whose slots, columns and label tables are numbered by words is compiled. -/
theorem exists_fresh (hg : g.Built) {a : Analysis} (ha : analyze g set = .ok a)
    (hwords : a.WordNumbered) (mode : Mode) (s : Settings) (dir : Directory) (now : UInt64) :
    ∃ k, ((Compiler.fresh s).compile dir now g set mode).answer = .ok k := by
  obtain ⟨hentries, sc, sources, plans, h⟩ := Analysis.analyze_ok ha
  obtain ⟨hsound, hlt, -⟩ := h.sound
  obtain ⟨order, slots, hw⟩ := Analysis.listing_ok hsound hlt mode
  obtain ⟨-, hgenerate⟩ := h.generate_eq hg hentries hw (hwords.numbered hw) hw.listing
  exact Analysis.exists_answer ha (hgenerate now) (Compiler.fresh s) dir

/-- The layout that a kernel is bound to is that of its analysis. -/
theorem layout_of_fresh (hg : g.Built) {a : Analysis} (ha : analyze g set = .ok a)
    (hk : ((Compiler.fresh s).compile dir now g set mode).answer = .ok k) :
    k.program.layout = a.layout := by
  obtain ⟨a', sources, order, slots, ha', hmade⟩ := madeOf_of_fresh hg hk
  rw [ha, Except.ok.injEq] at ha'
  rw [hmade.program_eq, ha']
  rfl

theorem exists_bind (h : (BoundData.gather g' k.program.layout).toOption.isSome = true) :
    ∃ b, k.bind g' = .ok b := by
  unfold bind
  rcases hgather : BoundData.gather g' k.artifact.program.layout with f | ⟨rowDim, src⟩
  · rw [program, hgather] at h
    cases h
  · exact ⟨_, rfl⟩

theorem gather_of_bind (hb : k.bind g' = .ok b) : b.kernel = k ∧
    BoundData.gather g' k.program.layout = .ok (b.data.rowDim, b.data.sources) := by
  unfold bind at hb
  rcases hgather : BoundData.gather g' k.artifact.program.layout with f | ⟨rowDim, src⟩
  · rw [hgather] at hb
    cases hb
  · rw [hgather] at hb
    cases hb
    exact ⟨rfl, hgather⟩

theorem MadeOf.length_outputs {a : Analysis} {sources : List Analysis.Source} {order : List SlotId}
    {slots : List Slot} (h : k.MadeOf g set mode a sources order slots) (hb : k.bind g' = .ok b) :
    b.program.outputs.length = set.entries.length := by
  obtain ⟨sc, plans, hplanned⟩ := h.planned
  rw [BoundKernel.program, (gather_of_bind hb).1, h.program_eq, ← hplanned.length_outputs]
  simp [Analysis.program]

/-- A kernel that is bound to a graph with a root walked along a dimension of the same name can be run
on all rows. Its outputs are the values of the expressions, whatever the entries of links are said to
stand for, if it is what is bound. -/
theorem MadeOf.steady {a : Analysis} {sources : List Analysis.Source} {order : List SlotId}
    {slots : List Slot} (h : k.MadeOf g set mode a sources order slots) (hg : g.Built)
    (hg' : g'.Built) (hb : k.bind g' = .ok b) (hlead : g'.lead? = g.lead?) (hbound : g'.Bounded)
    {stands? : Link → Nat → Option Nat} (htells : g'.Tells stands?) :
    (∃ t, g'.checkedRoot = .ok t ∧ t.name = a.layout.root ∧
      t.data.dims.head? = some b.data.rowDim) ∧
    (∀ r < b.rows, ∀ s ∈ sources, ∃ x,
      s.tree.value? ⟨g', a.layout.root, b.data.rowDim.name, r, stands?⟩ a.constants = some x) ∧
    Batch.Steady b.program b.data.sources (a.slots.Ready order)
      (fun r => Analysis.valuesIn ⟨g', a.layout.root, b.data.rowDim.name, r, stands?⟩ a.constants
        sources) b.rows := by
  obtain ⟨sc, plans, hplanned⟩ := h.planned
  obtain ⟨hsound, -, -, hchecks⟩ := hplanned.sound
  obtain ⟨rfl, hgather⟩ := gather_of_bind hb
  have hlayout : b.kernel.program.layout = a.layout := by rw [h.program_eq]; rfl
  rw [hlayout] at hgather
  have hgathered := BoundData.gather_ok hgather
  obtain ⟨t, ht, hname, hhead⟩ := hgathered.root
  have hrow : g.lead? = some b.data.rowDim.name := by
    rw [← hlead, LinkGraph.lead?_of_ok ht, hhead]
    rfl
  have hvalued : ∀ r < b.rows, _ := fun r hr => hplanned.valued hg rfl hrow
    (hgathered.stored hg'.valid hbound h.numbered.columns h.numbered.tables hchecks htells hr)
  refine ⟨⟨t, ht, hname, hhead⟩, fun r hr => (hvalued r hr).1, ?_⟩
  rw [BoundKernel.program, h.program_eq]
  exact h.written.steady hsound h.numbered fun r hr => (hvalued r hr).2

end Kernel

namespace BoundKernel

variable {b : BoundKernel} {good : Array Float → Prop} {outs : Nat → List Float}

/-- The matrix of a batch has a row for each row that is run. -/
theorem runMatrix_eq (h : Batch.Steady b.program b.data.sources good outs b.rows)
    (epilogue : Batch.Epilogue) (give : List Float → List Float)
    (hgive : ∀ regs r, epilogue regs r = .ok (give (b.program.outputValues regs))) {width : Nat}
    (hlen : ∀ r < b.rows, (give (outs r)).length = width) : b.runMatrix width epilogue =
      .ok (Matrix.ofEntries b.rows width fun r j => (give (outs r)).getD j 0.0) := by
  have hrows : b.runRows width epilogue = .ok ((List.range b.rows).map fun r => give (outs r)) ∨
      width = 0 ∧ b.runRows width epilogue = .ok [] := by
    unfold runRows
    by_cases hwidth : width = 0
    · exact Or.inr ⟨hwidth, by rw [if_pos hwidth]⟩
    · left
      rw [if_neg hwidth, Batch.run_eq h (fun vals _ => .ok (give vals)) hgive, mapM_ok_eq]
  have hflat := Matrix.ofArray_flatten hlen
  unfold runMatrix
  rcases hrows with hrows | ⟨rfl, hrows⟩
  · simp only [hrows, bind, Except.bind, hflat]
    rfl
  · have hempty : ((List.range b.rows).map fun r => give (outs r)).flatten = [] := by
      refine List.flatten_eq_nil_iff.2 fun l hl => ?_
      obtain ⟨r, hr, rfl⟩ := List.mem_map.1 hl
      exact List.eq_nil_of_length_eq_zero (hlen r (List.mem_range.1 hr))
    rw [hempty] at hflat
    simp only [hrows, bind, Except.bind, List.flatten_nil, hflat]
    rfl

end BoundKernel

namespace Kernel

variable {g g' : LinkGraph} {set : ExprSet} {k : Kernel} {s : Settings} {dir : Directory}
  {now : UInt64} {b : BoundKernel}

/-- What the texts of a set are read as stands at the same places as the texts. -/
theorem source_of_text {sources : List Analysis.Source}
    (h : (Analysis.sites set).mapM Analysis.readSource = .ok sources) {e : Nat} {text : String}
    (htext : set.texts[e]? = some text) : ∃ source tokens, sources[e]? = some source ∧
      Expr.read text = .ok (source.tree, tokens) := by
  have hall := forall₂_of_mapM h
  obtain ⟨he, rfl⟩ := List.getElem?_eq_some_iff.1 htext
  have hsite : e < (Analysis.sites set).length := by simpa [Analysis.sites] using he
  have hget := hall.get hsite (hall.length_eq ▸ hsite)
  obtain ⟨tokens, htree, -⟩ := Analysis.readSource_ok hget
  refine ⟨_, tokens, List.getElem?_eq_getElem (hall.length_eq ▸ hsite), ?_⟩
  simpa [Analysis.sites] using htree

end Kernel

namespace Sample

/-- One entry, `2 ^ 63`, beside one label, the greatest number of 64 bits. -/
def clamped : LinkGraph := GraphCall.made [
  .addTable "t" ((BuiltDataset.empty.dim "a" (.range 1)).var
    "z" ["a"] (.numbers #[9223372036854775808])),
  .addTable "u" ((BuiltDataset.empty.dim "k" (.integers #[9223372036854775807])).var
    "v" ["k"] (.numbers #[5])),
  .addLinkText "t.z @ u.k",
  .setRoot "t"]

end Sample

end LinkedTables
