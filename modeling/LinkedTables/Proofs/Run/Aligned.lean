import LinkedTables.Proofs.Analysis.Kept
import LinkedTables.Proofs.Run.Evaluated

/-!
# Bound data are in line with the rows

A plan walks the root along its leading dimension and no other one, so every column of the root that
a layout names lies over this dimension alone, or over none (`Planned.rooted`). A kernel that is bound
to a graph whose root is walked along a dimension of the same name has columns as long as there are
rows, and no run of it reads outside of its data, in whatever mode (`Kernel.bind_aligned`).

The name of the dimension is not among the things that are looked at when data are bound. Under
another name the rows are those of a dimension that no column lies over
(`Kernel.bind_misaligned`).
-/

namespace LinkedTables

variable {g : LinkGraph} {lead : String}

/-- The columns of the root lie over its leading dimension alone, or over none. -/
theorem Analysis.Planned.rooted {set : ExprSet} {a : Analysis} {sc : Scope}
    {sources : List Source} {plans : List Plan} (h : a.Planned g set sc sources plans) (hg : g.Built)
    (hlead : g.lead? = some lead) :
    ∀ c ∈ a.layout.columns, c.table = a.layout.root → c.dims ≠ [] → c.dims = [lead] := by
  obtain ⟨-, -, lead', hsc, -⟩ := h.faithful hg
  rw [scope_lead h.inScope hsc, Option.some.injEq] at hlead
  subst hlead
  have hwalked := h.walked hg hsc
  rw [h.layout] at hwalked ⊢
  exact hwalked.columns

namespace BoundKernel

variable {b : BoundKernel} {good : Array Float → Prop} {outs : Nat → List Float}

/-- A batch fails only where its epilogue fails. -/
theorem runRows_error (h : Batch.Steady b.program b.data.sources good outs b.rows)
    {epilogue : Batch.Epilogue} (give : List Float → Nat → Except RowFault (List Float))
    (hgive : ∀ regs r, epilogue regs r = give (b.program.outputValues regs) r) {width : Nat}
    {f : RunFault} (hf : b.runRows width epilogue = .error f) :
    ∃ r fault, give (outs r) r = .error fault ∧ f = .row fault := by
  unfold runRows at hf
  split_ifs at hf
  rw [Batch.run_eq h give hgive] at hf
  split at hf
  · cases hf
  · rename_i fault hfault
    cases hf
    obtain ⟨r, -, hr⟩ := exists_error_of_mapM hfault
    exact ⟨r, fault, hr, rfl⟩

theorem runMatrix_in_range (h : Batch.Steady b.program b.data.sources good outs b.rows)
    (epilogue : Batch.Epilogue) (give : List Float → List Float)
    (hgive : ∀ regs r, epilogue regs r = .ok (give (b.program.outputValues regs))) {width : Nat}
    (row : Nat) : b.runMatrix width epilogue ≠ .error (.row (.outOfRange row)) := by
  intro hf
  rcases bind_eq_error hf with hfault | ⟨rows, -, hmatrix⟩
  · obtain ⟨r, fault, hr, -⟩ := runRows_error h (fun vals _ => .ok (give vals)) hgive hfault
    cases hr
  · split at hmatrix <;> cases hmatrix

theorem require_ne_row (m : Mode) (fault : RowFault) : b.require m ≠ .error (.row fault) := by
  unfold require
  split_ifs <;> simp

theorem checkCoefficients_ne_row (coef : Matrix) (fault : RowFault) :
    b.checkCoefficients coef ≠ .error (.row fault) := by
  unfold checkCoefficients
  split_ifs <;> simp

theorem checkDraws_ne_row (draws : Array Float) (fault : RowFault) :
    b.checkDraws draws ≠ .error (.row fault) := by
  simp only [checkDraws, bind, Except.bind, throw, throwThe, MonadExceptOf.throw, pure, Except.pure]
  repeat' split
  all_goals simp_all

/-- No run of a kernel whose rows can be run reads outside of its data. -/
theorem runs_in_range (h : Batch.Steady b.program b.data.sources good outs b.rows) (row : Nat) :
    b.run ≠ .error (.row (.outOfRange row)) ∧
    (∀ coef, b.runDot coef ≠ .error (.row (.outOfRange row))) ∧
    ∀ coef draws, b.runChoice coef draws ≠ .error (.row (.outOfRange row)) := by
  refine ⟨fun hf => ?_, fun coef hf => ?_, fun coef draws hf => ?_⟩
  · rcases bind_eq_error hf with hf | ⟨-, -, hf⟩
    · exact require_ne_row _ _ hf
    · exact runMatrix_in_range h (Batch.valueEpilogue b.program) id (fun _ _ => rfl) row hf
  · rcases bind_eq_error hf with hf | ⟨-, -, hf⟩
    · exact require_ne_row _ _ hf
    rcases bind_eq_error hf with hf | ⟨-, -, hf⟩
    · exact checkCoefficients_ne_row _ _ hf
    · exact runMatrix_in_range h (Batch.dotEpilogue b.program coef) (Batch.utilities coef)
        (fun _ _ => rfl) row hf
  · rcases bind_eq_error hf with hf | ⟨-, -, hf⟩
    · exact require_ne_row _ _ hf
    rcases bind_eq_error hf with hf | ⟨-, -, hf⟩
    · exact checkCoefficients_ne_row _ _ hf
    rcases bind_eq_error hf with hf | ⟨-, -, hf⟩
    · exact checkDraws_ne_row _ _ hf
    split_ifs at hf
    · cases hf
    rcases bind_eq_error hf with hf | ⟨_, -, hf⟩
    · -- the epilogue of a choice fails for want of an alternative only
      obtain ⟨r, fault, hr, hrow⟩ := runRows_error h (fun vals r =>
        (Choice.choose (Batch.utilities coef vals) (draws.getD r 0.0)).elim
          (.error (.noAlternative r)) fun x => .ok [Number.ofIndex x.1, x.2]) (fun regs r => by
            unfold Batch.choiceEpilogueBy Choice.choose
            rcases Choice.chooseBy _ _ _ with _ | x <;> rfl) hf
      cases hrow
      rcases hchoice : Choice.choose (Batch.utilities coef (outs r)) (draws.getD r 0.0) with _ | x <;>
        rw [hchoice] at hr <;> cases hr
    · cases hf

end BoundKernel

namespace Kernel

variable {g g' : LinkGraph} {set : ExprSet} {mode : Mode} {k : Kernel} {s : Settings}
  {dir : Directory} {now : UInt64} {b : BoundKernel}

/-- A kernel that is bound to a graph with a root walked along a dimension of the same name. There are
as many rows as this dimension has positions. Every variable of the root that the kernel reads lies
over this dimension alone, with an entry for every row, or over none. No run of the kernel reads
outside of its data. -/
theorem bind_aligned (hg : g.Built) (hg' : g'.Built)
    (hk : ((Compiler.fresh s).compile dir now g set mode).answer = .ok k)
    (hlead : g'.lead? = g.lead?) (hbound : g'.Bounded) (hb : k.bind g' = .ok b) :
    ∃ (root : Table) (lead : Dimension), g'.checkedRoot = .ok root ∧
      root.data.dims.head? = some lead ∧ b.rows = lead.size ∧
      (∀ (i : Nat) (c : ColumnRef), b.program.layout.columns[i]? = some c → c.table = root.name →
        c.dims ≠ [] → c.dims = [lead.name] ∧
          ∃ data, b.data.sources.columns[i]? = some data ∧ data.size = b.rows) ∧
      (∀ r < b.rows, ∃ regs,
        b.program.evalRow b.data.sources r b.program.initRegisters = some regs) ∧
      ∀ row, b.run ≠ .error (.row (.outOfRange row)) ∧
        (∀ coef, b.runDot coef ≠ .error (.row (.outOfRange row))) ∧
        ∀ coef draws, b.runChoice coef draws ≠ .error (.row (.outOfRange row)) := by
  obtain ⟨a, sources, order, slots, -, hmade⟩ := madeOf_of_fresh hg hk
  obtain ⟨sc, plans, hplanned⟩ := hmade.planned
  obtain ⟨⟨root, hroot, hname, hhead⟩, -, hsteady⟩ :=
    hmade.steady hg hg' hb hlead hbound LinkGraph.tells_tabled
  obtain ⟨hkernel, hgather⟩ := gather_of_bind hb
  have hlayout : b.program.layout = a.layout := by
    rw [BoundKernel.program, hkernel, hmade.program_eq]
    rfl
  rw [hmade.program_eq] at hgather
  have hgathered := BoundData.gather_ok hgather
  have hrow : g.lead? = some b.data.rowDim.name := by
    rw [← hlead, LinkGraph.lead?_of_ok hroot, hhead]
    rfl
  refine ⟨root, b.data.rowDim, hroot, hhead, rfl, fun i c hc htable hne => ?_, fun r hr => ?_,
    BoundKernel.runs_in_range hsteady⟩
  · rw [hlayout] at hc
    rw [hname] at htable
    have hdims := hplanned.rooted hg hrow c (List.mem_of_getElem? hc) htable hne
    obtain ⟨data, hdata, hover, hvalues⟩ := hgathered.column hc
    have hsize : data.size = g'.extent c.table c.dims :=
      LinkGraph.size_values hg'.valid hbound hover hvalues
    refine ⟨hdims, data, hdata, ?_⟩
    rw [hsize, htable, hdims, LinkGraph.extent_cons, LinkGraph.extent_nil, Nat.mul_one]
    exact hgathered.sizeOf_lead hg'.valid
  · obtain ⟨regs, hregs, -⟩ := hsteady.row r hr _ hsteady.init
    exact ⟨regs, hregs⟩

/-- The kernel of one sample, bound to the other one in the mode of choices: two rows, and two zones
that the trips start in. -/
theorem bind_aligned_regrouped : ∃ k b,
    ((Compiler.fresh .default).compile .absent 0 Sample.graph Sample.set .choice).answer = .ok k ∧
    k.bind Sample.regrouped = .ok b ∧ Sample.regrouped.lead? = Sample.graph.lead? ∧
    Sample.regrouped.Bounded ∧ b.rows = 2 ∧
    (∃ data, b.data.sources.columns[1]? = some data ∧ data.size = 2) ∧
    ∀ coef draws row, b.runChoice coef draws ≠ .error (.row (.outOfRange row)) := by
  have hbound : Sample.regrouped.Bounded := by decide +kernel
  have hlead : Sample.regrouped.lead? = Sample.graph.lead? := by decide +kernel
  have hwords : (Sample.analysisNamed "cost").WordNumbered := by constructor <;> decide
  obtain ⟨k, hk⟩ :=
    exists_fresh Sample.graph_built Sample.analyze_graph hwords .choice .default .absent 0
  have hlayout := layout_of_fresh Sample.graph_built Sample.analyze_graph hk
  obtain ⟨b, hb⟩ : ∃ b, k.bind Sample.regrouped = .ok b := by
    refine exists_bind ?_
    rw [hlayout]
    decide +kernel
  obtain ⟨root, lead, hroot, hhead, hrows, hcolumns, -, hruns⟩ :=
    bind_aligned Sample.graph_built Sample.regrouped_built hk hlead hbound hb
  have hstart : Sample.regrouped.checkedRoot.toOption.map (fun t => (t.name, t.data.dims.head?)) =
      some ("trips", some ⟨"trip", .range 2⟩) := by decide +kernel
  rw [hroot, Except.toOption, Option.map_some, hhead] at hstart
  simp only [Option.some.injEq, Prod.mk.injEq] at hstart
  obtain ⟨hname, rfl⟩ := hstart
  have hcolumn : b.program.layout.columns[1]? = some ⟨"trips", "home", ["trip"]⟩ := by
    rw [BoundKernel.program, (gather_of_bind hb).1, hlayout]
    rfl
  obtain ⟨-, data, hdata, hsize⟩ := hcolumns 1 _ hcolumn hname.symm (by simp)
  exact ⟨k, b, hk, hb, hlead, hbound, hrows, ⟨data, hdata, hsize.trans hrows⟩,
    fun coef draws row => (hruns row).2.2 coef draws⟩

end Kernel

namespace Sample

/-- The kernel of the numbers over their dimension alone. -/
def seriesKernel? : Option Kernel :=
  ((Compiler.fresh .default).compile .absent 0 (series .empty) ⟨[("x", "x")], []⟩ .load).answer.toOption

/-- The kernel bound to the numbers behind another dimension with some positions. -/
def seriesBehind? (n : UInt64) : Option BoundKernel :=
  seriesKernel?.bind fun k => (k.bind (series (BuiltDataset.empty.dim "b" (.range n)))).toOption

end Sample

/-- The kernel is bound although the rows are those of the other dimension: two rows for three numbers,
of which the last one is lost, or five rows, of which the fourth one reads outside of its data. -/
theorem Kernel.bind_misaligned : (∃ b m, Sample.seriesBehind? 2 = some b ∧
      b.program.layout.columns = [⟨"t", "x", ["a"]⟩] ∧
      b.data.sources.columns = #[#[10, 20, 30]] ∧ b.rows = 2 ∧ b.run.toOption = some m ∧
      m.data = #[10, 20]) ∧
    ∃ b, Sample.seriesBehind? 5 = some b ∧ ∃ f, b.run = .error f ∧ f = .row (.outOfRange 3) := by
  have hshort : ((Sample.seriesBehind? 2).map fun b => (b.program.layout.columns,
      b.data.sources.columns, b.rows, b.run.toOption.map Matrix.data)) =
      some ([⟨"t", "x", ["a"]⟩], #[#[10, 20, 30]], 2, some #[10, 20]) := by decide +kernel
  have hlong : ((Sample.seriesBehind? 5).map fun b =>
      match b.run with
      | .error f => some f
      | .ok _ => none) = some (some (.row (.outOfRange 3))) := by decide +kernel
  constructor
  · obtain ⟨b, hb, heq⟩ := Option.map_eq_some_iff.1 hshort
    simp only [Prod.mk.injEq] at heq
    obtain ⟨hlayout, hcolumns, hrows, hrun⟩ := heq
    obtain ⟨m, hm, hdata⟩ := Option.map_eq_some_iff.1 hrun
    exact ⟨b, m, hb, hlayout, hcolumns, hrows, hm, hdata⟩
  · obtain ⟨b, hb, heq⟩ := Option.map_eq_some_iff.1 hlong
    refine ⟨b, hb, ?_⟩
    split at heq
    · rename_i f hf
      exact ⟨f, hf, Option.some.inj heq⟩
    · cases heq

end LinkedTables
