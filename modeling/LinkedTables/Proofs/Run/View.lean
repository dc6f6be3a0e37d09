import LinkedTables.Proofs.Analysis.Recorded
import LinkedTables.Proofs.Number.Whole

/-!
# What a row of a graph is

The value of an expression in a row of the root, by recursion on the expression and backwards along
links, without any program: a variable is read at the row-major index of the row. Along the leading
dimension of the root the position is the row. Along any other dimension it is what the source of the
only link into the dimension stands for, at its own index in the row.

What the entry of a source stands for is a parameter. Without cycles the recursion ends after as many
links as there are tables. If the sources that are followed stand for positions within their targets,
and no variable has `2 ^ 53` entries, then every offset that was planned has its index
(`Offset.located`).
-/

namespace LinkedTables

/-- A row of a graph, and what the entries of the sources of links stand for. -/
structure RowView where
  graph : LinkGraph
  root : String
  /-- The dimension of the root that is walked. -/
  lead : String
  row : Nat
  stands? : Link → Nat → Option Nat

/-- The row-major index over some dimensions of a table. -/
def LinkGraph.index? (g : LinkGraph) (table : String) (position? : String → Option Nat) :
    List String → Option Nat
  | [] => some 0
  | d :: dims => do
    return (← position? d) * g.extent table dims + (← g.index? table position? dims)

namespace RowView

/-- The position of the row along a dimension. -/
def position? (v : RowView) : Nat → String → String → Option Nat
  | 0, _, _ => none
  | fuel + 1, table, dim =>
    if table = v.root ∧ dim = v.lead then some v.row
    else do
      let link ← v.graph.into? table dim
      let dims ← v.graph.dimsOf? link.sourceTable link.sourceVar
      v.stands? link (← v.graph.index? link.sourceTable (v.position? fuel link.sourceTable) dims)

/-- The entry of a variable in the row. -/
def entry? (v : RowView) (table var : String) : Option Float := do
  let dims ← v.graph.dimsOf? table var
  let index ← v.graph.index? table (v.position? v.graph.tables.length table) dims
  let data ← (← v.graph.values? table var).numbers?
  data[index]?

end RowView

/-- The value of an expression in a row. -/
def Expr.value? (v : RowView) (constants : List (String × UInt64)) : Expr → Option Float
  | .number x => some x
  | .bool b => some (Number.ofBool b)
  | .name table n _ =>
    match meaning v.root constants table n with
    | .constant bits => some (Float.ofBits bits)
    | .variable_ t x => v.entry? t x
  | .unary op a _ => do return op.apply (← a.value? v constants)
  | .binary op a b _ => do return op.apply (← a.value? v constants) (← b.value? v constants)
  | .ternary op a b c _ => do
    return op.apply (← a.value? v constants) (← b.value? v constants) (← c.value? v constants)

namespace RowView

/-- The row is one of the graph. -/
def InRange (v : RowView) : Prop := v.row < v.graph.sizeOf v.root v.lead

/-- The source of a link has fewer than `2 ^ 53` entries, and they stand for positions within the
target, if this has fewer positions. -/
structure Follows (v : RowView) (link : Link) (dims : List String) : Prop where
  small : v.graph.extent link.sourceTable dims < 2 ^ 53
  stands : v.graph.sizeOf link.targetTable link.targetDim < 2 ^ 53 →
    ∀ i < v.graph.extent link.sourceTable dims, ∃ n, v.stands? link i = some n ∧
      n < v.graph.sizeOf link.targetTable link.targetDim

end RowView

variable {v : RowView} {F : Layout}

theorem LinkGraph.index?_cons {g : LinkGraph} {table d : String} {position? : String → Option Nat}
    {dims : List String} {n i : Nat} (hn : position? d = some n)
    (hi : g.index? table position? dims = some i) :
    g.index? table position? (d :: dims) = some (n * g.extent table dims + i) := by
  rw [index?, hn, hi]
  rfl

/-- Over few entries there is a position along the first dimension, and an index over the others: if
the first one had no positions there would be none for the row, so the others have few entries too. -/
theorem LinkGraph.along_located {g : LinkGraph} {table d : String}
    {position? : String → Option Nat} {dims : List String}
    (hsmall : g.sizeOf table d * g.extent table dims < 2 ^ 53)
    (hplace : g.sizeOf table d < 2 ^ 53 → ∃ n, position? d = some n ∧ n < g.sizeOf table d)
    (hrest : g.extent table dims < 2 ^ 53 →
      ∃ i, g.index? table position? dims = some i ∧ i < g.extent table dims) :
    ∃ n i, position? d = some n ∧ n < g.sizeOf table d ∧
      g.index? table position? dims = some i ∧ i < g.extent table dims := by
  have hpos : 0 < g.sizeOf table d := by
    by_contra hzero
    obtain ⟨n, -, hn⟩ := hplace (by omega)
    omega
  obtain ⟨i, hi, hilt⟩ := hrest ((Nat.le_mul_of_pos_left _ hpos).trans_lt hsmall)
  obtain ⟨n, hn, hnlt⟩ := hplace ((Nat.le_mul_of_pos_right _ (by omega)).trans_lt hsmall)
  exact ⟨n, i, hn, hnlt, hi, hilt⟩

mutual

/-- Every place along a dimension with few positions has one of them. -/
theorem Place.located (hv : v.graph.Valid) (hrow : v.InRange)
    (hfollows : ∀ link dims, F.Follows link dims → v.Follows link dims) : ∀ {p : Place} {fuel : Nat}
    {table dim : String}, p.FoundIn v.graph v.root v.lead table dim → p.RecordedIn F →
      table ∈ v.graph.names → v.graph.rank table ≤ fuel → v.graph.sizeOf table dim < 2 ^ 53 →
      ∃ n, v.position? fuel table dim = some n ∧ n < v.graph.sizeOf table dim
  | _, 0, table, dim, _, _, hmem, hrank, _ => absurd hrank (not_le.2 (LinkGraph.rank_pos hmem))
  | .row, fuel + 1, table, dim, h, _, _, _, _ => by
    obtain ⟨rfl, rfl⟩ := h
    exact ⟨v.row, by rw [RowView.position?, if_pos ⟨rfl, rfl⟩], hrow⟩
  | .linked shape link dims source, fuel + 1, table, dim, h, hrec, hmem, hrank, hsmall => by
    obtain ⟨hne, -, hlink, hdims, hsource⟩ := h
    obtain ⟨hl, rfl, rfl⟩ := LinkGraph.into?_eq_some hlink
    have hfollow := hfollows link dims hrec.2.1
    have hlt := LinkGraph.rank_lt hv.acyclic hl hmem
    obtain ⟨i, hi, hilt⟩ := Offset.located hv hrow hfollows hsource hrec.2.2
      (LinkGraph.mem_names_of_dimsOf? hdims) (show v.graph.rank link.sourceTable ≤ fuel by omega)
      hfollow.small
    obtain ⟨n, hn, hnlt⟩ := hfollow.stands hsmall i hilt
    refine ⟨n, ?_, hnlt⟩
    rw [RowView.position?, if_neg fun h => hne h.1, hlink]
    simp [hdims, hi, hn]

theorem Offset.located (hv : v.graph.Valid) (hrow : v.InRange)
    (hfollows : ∀ link dims, F.Follows link dims → v.Follows link dims) : ∀ {o : Offset} {fuel : Nat}
    {table : String} {dims : List String}, o.FoundIn v.graph v.root v.lead table dims →
      o.RecordedIn F → table ∈ v.graph.names → v.graph.rank table ≤ fuel →
      v.graph.extent table dims < 2 ^ 53 →
      ∃ i, v.graph.index? table (v.position? fuel table) dims = some i ∧
        i < v.graph.extent table dims
  | .scalar, _, _, _, h, _, _, _, _ => by
    subst h
    exact ⟨0, rfl, by simp⟩
  | .along place step rest, fuel, table, d :: dims, h, hrec, hmem, hrank, hsmall => by
    rw [LinkGraph.extent_cons] at hsmall ⊢
    obtain ⟨n, i, hn, hnlt, hi, hilt⟩ := LinkGraph.along_located hsmall
      (Place.located hv hrow hfollows h.1 hrec.1 hmem hrank)
      (Offset.located hv hrow hfollows h.2.2 hrec.2 hmem hrank)
    refine ⟨_, LinkGraph.index?_cons hn hi, ?_⟩
    calc n * v.graph.extent table dims + i < (n + 1) * v.graph.extent table dims := by
          rw [Nat.add_mul, Nat.one_mul]
          exact Nat.add_lt_add_left hilt _
      _ ≤ v.graph.sizeOf table d * v.graph.extent table dims := Nat.mul_le_mul_right _ hnlt

end

end LinkedTables
