import LinkedTables.Proofs.Analysis.Comparable
import LinkedTables.Proofs.Run.Evaluated

/-!
# Values are of their types

An expression is typed by its tree alone: a truth value if its last operation gives one, and of one
extent for all rows if all that it refers to is constant or has no dimensions. What is run is made of
plans, which know no types. Both follow the tree, so by induction on it the type of an expression is
right for its value in a row (`Typing.annotate_suits`), and hence for its column of a batch, which holds
these values (`Analysis.types_sound`).
-/

namespace LinkedTables

theorem Number.ofBool_eq (b : Bool) : Number.ofBool b = 0.0 ∨ Number.ofBool b = 1.0 := by
  cases b
  · exact Or.inl rfl
  · exact Or.inr rfl

theorem Op1.apply_of_isTruth {op : Op1} (h : op.isTruth = true) (x : Float) :
    op.apply x = 0.0 ∨ op.apply x = 1.0 := by
  cases op
  case not => exact Number.ofBool_eq _
  all_goals cases h

theorem Op2.apply_of_isTruth {op : Op2} (h : op.isTruth = true) (x y : Float) :
    op.apply x y = 0.0 ∨ op.apply x y = 1.0 := by
  cases op
  case eq | ne | lt | le | gt | ge | and | or => exact Number.ofBool_eq _
  all_goals cases h

theorem ValueType.ofTruth_eq_boolean {isTruth : Bool} :
    ofTruth isTruth = boolean ↔ isTruth = true := by
  cases isTruth <;> simp [ofTruth]

theorem Extent.join_eq_scalar {a b : Extent} : a.join b = scalar ↔ a = scalar ∧ b = scalar := by
  cases a <;> cases b <;> simp [join]

/-- The row is one of the graph, walked along any dimension of its root. -/
structure RowView.In (v : RowView) (sc : Scope) : Prop where
  graph : v.graph = sc.graph
  root : v.root = sc.root.name

/-- The type is right for the value of an expression in every row. -/
structure Typed.Suits (t : Typed) (sc : Scope) (e : Expr) : Prop where
  truth : t.type = .boolean → ∀ (v : RowView) (x : Float), e.value? v sc.constants = some x →
    x = 0.0 ∨ x = 1.0
  same : t.extent = .scalar → ∀ v v' : RowView, v.In sc → v'.In sc →
    e.value? v sc.constants = e.value? v' sc.constants

/-- A variable without dimensions has one entry, whatever the row. -/
theorem RowView.entry?_of_dims_nil {v : RowView} {table var : String}
    (h : v.graph.dimsOf? table var = some []) : v.entry? table var =
      (v.graph.values? table var).bind fun values => values.numbers?.bind fun data => data[0]? := by
  unfold entry?
  rw [h]
  rfl

namespace Typing

open Noting

variable {sc : Scope}

/-- A variable is no truth value, and of one extent for all rows only if it has no dimensions. -/
theorem ofVariable_extent (table var : String) : (ofVariable sc table var).Gives fun t =>
    t.type ≠ .boolean ∧ (t.extent = .scalar → sc.graph.dimsOf? table var = some []) := by
  refine gives_bind (gives_lift _) fun ⟨ds, v⟩ hfetch => gives_bind (gives_any _) fun _ _ => ?_
  obtain ⟨hds, hvar⟩ := Scope.fetch_ok hfetch
  refine gives_pure ⟨?_, fun hscalar => ?_⟩
  · cases v.values.kind <;> simp
  · have hempty : v.dims = [] := by simpa using hscalar
    rw [LinkGraph.dimsOf?_of_var? hds hvar, hempty]
    rfl

/-- If an expression has a type, then the type is right for it. -/
theorem annotate_suits (site : Site) : ∀ e : Expr, (annotate sc site e).Gives (Typed.Suits · sc e)
  | .number _ => gives_pure ⟨by rintro ⟨⟩, fun _ _ _ _ _ => rfl⟩
  | .bool b => gives_pure
    ⟨fun _ _ x hx => Option.some.inj hx ▸ Number.ofBool_eq b, fun _ _ _ _ _ => rfl⟩
  | .name table name _ => by
    rw [annotate]
    refine gives_bind (gives_lift _) fun m hm => ?_
    -- typing and evaluation look a name up in the same way, constants before variables of the root
    obtain rfl := Scope.resolve_ok hm
    rcases hmeaning : Expr.meaning sc.root.name sc.constants table name with bits | ⟨t, x⟩
    · refine gives_pure ⟨by rintro ⟨⟩, fun _ v v' hv hv' => ?_⟩
      rw [Expr.value?, Expr.value?, hv.root, hv'.root, hmeaning]
    · intro noted r hr
      obtain ⟨htype, hextent⟩ := ofVariable_extent t x noted r hr
      refine ⟨fun hboolean => absurd hboolean htype, fun hscalar v v' hv hv' => ?_⟩
      have hdims := hextent hscalar
      simp only [Expr.value?, hv.root, hv'.root, hmeaning]
      rw [RowView.entry?_of_dims_nil (hv.graph ▸ hdims),
        RowView.entry?_of_dims_nil (hv'.graph ▸ hdims), hv.graph, hv'.graph]
  | .unary op a _ => by
    rw [annotate]
    refine operand_gives (annotate_suits site a) fun ta ha _ => gives_pure ?_
    refine ⟨fun hboolean v x hx => ?_, fun hscalar v v' hv hv' => ?_⟩
    · obtain ⟨y, -, hx⟩ := Option.bind_eq_some_iff.1 hx
      exact Option.some.inj hx ▸ op.apply_of_isTruth (ValueType.ofTruth_eq_boolean.1 hboolean) y
    · rw [Expr.value?, Expr.value?, ha.same hscalar v v' hv hv']
  | .binary op a b _ => by
    rw [annotate]
    refine operand_gives (annotate_suits site a) fun ta ha _ =>
      operand_gives (annotate_suits site b) fun tb hb _ => gives_pure ?_
    refine ⟨fun hboolean v x hx => ?_, fun hscalar v v' hv hv' => ?_⟩
    · obtain ⟨y, -, hx⟩ := Option.bind_eq_some_iff.1 hx
      obtain ⟨z, -, hx⟩ := Option.bind_eq_some_iff.1 hx
      exact Option.some.inj hx ▸ op.apply_of_isTruth (ValueType.ofTruth_eq_boolean.1 hboolean) y z
    · obtain ⟨hsa, hsb⟩ := Extent.join_eq_scalar.1 hscalar
      rw [Expr.value?, Expr.value?, ha.same hsa v v' hv hv', hb.same hsb v v' hv hv']
  | .ternary op a b c _ => by
    rw [annotate]
    refine operand_gives (annotate_suits site a) fun ta ha _ =>
      operand_gives (annotate_suits site b) fun tb hb _ =>
      operand_gives (annotate_suits site c) fun tc hc _ => gives_pure ?_
    refine ⟨by rintro ⟨⟩, fun hscalar v v' hv hv' => ?_⟩
    obtain ⟨hab, hsc⟩ := Extent.join_eq_scalar.1 hscalar
    obtain ⟨hsa, hsb⟩ := Extent.join_eq_scalar.1 hab
    rw [Expr.value?, Expr.value?, ha.same hsa v v' hv hv', hb.same hsb v v' hv hv',
      hc.same hsc v v' hv hv']

theorem ofResult_suits (site : Site) (e : Expr) :
    (ofResult sc site e).Gives fun t => t.type ≠ .label ∧ t.Suits sc e := by
  rw [ofResult]
  refine gives_bind (annotate_suits site e) fun t ht => ?_
  split_ifs with hlabel
  · exact gives_bind (gives_throw _) fun _ h => h
  · exact gives_pure ⟨hlabel, ht⟩

end Typing

namespace Analysis

variable {g : LinkGraph} {set : ExprSet} {a : Analysis} {sc : Scope} {sources : List Source}
  {plans : List Plan}

/-- The types of an analysis are right for its expressions, one by one. -/
theorem Planned.types_suit (h : a.Planned g set sc sources plans) (ha : analyze g set = .ok a) :
    List.Forall₂ (fun s t => t.type ≠ .label ∧ t.Suits sc s.tree) sources a.types := by
  exact Noting.gives_mapM (fun s : Source => Typing.ofResult_suits s.site s.tree) sources [] _
    (h.typed ha)

end Analysis

namespace Kernel

variable {g g' : LinkGraph} {set : ExprSet} {k : Kernel} {b : BoundKernel} {a : Analysis}
  {sources : List Analysis.Source} {order : List SlotId} {slots : List Slot}

/-- A kernel of values, bound to a graph that it fits, gives a column for each expression, which holds
its value in every row. -/
theorem MadeOf.exists_run (h : k.MadeOf g set .load a sources order slots) (hg : g.Built)
    (hg' : g'.Built) (hb : k.bind g' = .ok b) (hlead : g'.lead? = g.lead?) (hbound : g'.Bounded)
    {stands? : Link → Nat → Option Nat} (htells : g'.Tells stands?) :
    ∃ m, b.run = .ok m ∧ m.rows = b.rows ∧ m.cols = set.entries.length ∧
      ∀ (e : Nat) (source : Analysis.Source), sources[e]? = some source → ∀ r < m.rows, ∃ x,
        source.tree.value? ⟨g', a.layout.root, b.data.rowDim.name, r, stands?⟩ a.constants = some x ∧
        m.get? r e = some x := by
  obtain ⟨-, hvalues, hsteady⟩ := h.steady hg hg' hb hlead hbound htells
  obtain ⟨sc, plans, hplanned⟩ := h.planned
  have hcount : sources.length = set.entries.length := hplanned.length_sources
  have houts : b.program.outputs.length = set.entries.length := h.length_outputs hb
  have hmode : b.kernel.mode = .load := by rw [(gather_of_bind hb).1, h.mode_eq]
  have hlen : ∀ r < b.rows, (id (Analysis.valuesIn
      ⟨g', a.layout.root, b.data.rowDim.name, r, stands?⟩ a.constants sources)).length =
      set.entries.length := fun r _ => by rw [id, Analysis.valuesIn, List.length_map, hcount]
  have hrun :=
    BoundKernel.runMatrix_eq hsteady (Batch.valueEpilogue b.program) id (fun _ _ => rfl) hlen
  refine ⟨_, by rw [BoundKernel.run, BoundKernel.require, if_pos hmode, houts]; exact hrun, rfl, rfl,
    fun e source hsource r hr => ?_⟩
  obtain ⟨x, hx⟩ := hvalues r hr source (List.mem_of_getElem? hsource)
  have he : e < set.entries.length := hcount ▸ (List.getElem?_eq_some_iff.1 hsource).1
  refine ⟨x, hx, (Matrix.get?_ofEntries hr he _).trans ?_⟩
  simp [Analysis.valuesIn, hsource, hx]

end Kernel

/-- Whether a trip takes long, and a product of constants, one of which has the name of a variable. -/
def Sample.flags : ExprSet :=
  ⟨[("late", "skims.time > rate"), ("fee", "home * rate")],
    [("rate", Float.toBits 2), ("home", Float.toBits 3)]⟩

end LinkedTables
