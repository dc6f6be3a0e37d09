import LinkedTables.Proofs.Analysis.Resolution

/-!
# The layout holds all that plans rest on

A plan is recorded in a layout if the layout names the columns and the links that the plan reads, and
the sizes its steps were computed with. A layout is faithful to a graph if all that it names is there
and is as it says. A plan that is right for one graph and recorded in a layout is right for every
graph that the layout is faithful to (`foundIn_of_faithful`, `plannedAs_of_faithful`).

The sizes of the root are never recorded. They do not matter, because a variable of the root has no
step: no link leads into the root, so all that can be walked is its one leading dimension.
-/

namespace LinkedTables

/-- What following a link needs. -/
def Layout.Follows (F : Layout) (link : Link) (dims : List String) : Prop :=
  match link.mode with
  | .label => ⟨link, dims⟩ ∈ F.tables
  | .position => ⟨link.sourceTable, link.sourceVar, dims⟩ ∈ F.columns ∧ ∃ c, ⟨c, link⟩ ∈ F.checks

mutual

def Place.RecordedIn (F : Layout) : Place → Prop
  | .row => True
  | .linked shape link dims source => shape ∈ F.shapes ∧ F.Follows link dims ∧ source.RecordedIn F

def Offset.RecordedIn (F : Layout) : Offset → Prop
  | .scalar => True
  | .along place _ rest => place.RecordedIn F ∧ rest.RecordedIn F

end

def Plan.RecordedIn (F : Layout) : Plan → Prop
  | .constant _ => True
  | .entry table var dims offset => ⟨table, var, dims⟩ ∈ F.columns ∧ offset.RecordedIn F
  | .unary _ a => a.RecordedIn F
  | .binary _ a b => a.RecordedIn F ∧ b.RecordedIn F
  | .ternary _ a b c => a.RecordedIn F ∧ b.RecordedIn F ∧ c.RecordedIn F

namespace Layout

/-- Everything that the layout names is in the graph as it says. -/
structure Faithful (F : Layout) (g : LinkGraph) : Prop where
  columns : ∀ c ∈ F.columns, g.dimsOf? c.table c.var = some c.dims
  tables : ∀ t ∈ F.tables, g.into? t.link.targetTable t.link.targetDim = some t.link ∧
    g.dimsOf? t.link.sourceTable t.link.sourceVar = some t.dims
  checks : ∀ c ∈ F.checks, g.into? c.link.targetTable c.link.targetDim = some c.link
  shapes : ∀ s ∈ F.shapes, ∃ d, g.dim? s.table s.dim = some d ∧ s.size = UInt64.ofNat d.size

variable {F : Layout} {g g' : LinkGraph}

/-- A link that is followed is the one into its target, and its source lies over the same dimensions.
-/
theorem Faithful.follows (hF : F.Faithful g') {link : Link} {dims : List String}
    (h : F.Follows link dims) : g'.into? link.targetTable link.targetDim = some link ∧
      g'.dimsOf? link.sourceTable link.sourceVar = some dims := by
  simp only [Follows] at h
  split at h
  · exact hF.tables _ h
  · obtain ⟨hcol, c, hc⟩ := h
    exact ⟨hF.checks _ hc, hF.columns _ hcol⟩

end Layout

variable {F : Layout} {g g' : LinkGraph} {root lead : String}

theorem Offset.dims_of_root {o : Offset} {dims : List String} (hdims : dims.Nodup)
    (h : o.FoundIn g root lead root dims) : dims = [] ∨ dims = [lead] := by
  match o, dims, h with
  | .scalar, _, h => exact Or.inl h
  | .along .row _ .scalar, [d], h => exact Or.inr (by rw [h.1.2])
  | .along .row _ (.along .row _ _), d :: e :: rest, h =>
    obtain ⟨⟨-, rfl⟩, -, ⟨-, rfl⟩, -⟩ := h
    simp at hdims
  | .along .row _ (.along (.linked ..) _ _), d :: e :: rest, h => exact absurd rfl h.2.2.1.1
  | .along (.linked ..) _ _, d :: rest, h => exact absurd rfl h.1.1

/-- Away from the root all sizes are recorded. -/
theorem Offset.extent_eq (hF : F.Faithful g') {table : String} (htable : table ≠ root) :
    ∀ {o : Offset} {dims : List String}, o.FoundIn g root lead table dims → o.RecordedIn F →
      UInt64.ofNat (g.extent table dims) = UInt64.ofNat (g'.extent table dims)
  | .scalar, dims, h, _ => by
    obtain rfl : dims = [] := h
    rfl
  | .along .row _ _, _ :: _, h, _ => absurd h.1.1 htable
  | .along (.linked shape link _ _) step rest, d :: dims, h, hrec => by
    obtain ⟨⟨-, ⟨e, he, rfl⟩, -⟩, -, hrest⟩ := h
    obtain ⟨⟨hshape, -⟩, hrest'⟩ := hrec
    obtain ⟨e', he', hsize⟩ := hF.shapes _ hshape
    rw [LinkGraph.extent_cons, LinkGraph.extent_cons, UInt64.ofNat_mul, UInt64.ofNat_mul,
      extent_eq hF htable hrest hrest', LinkGraph.sizeOf_of_dim? he, LinkGraph.sizeOf_of_dim? he',
      ← hsize]

mutual

theorem Place.foundIn_of_faithful (hv : g.Valid) (hF : F.Faithful g') : ∀ {p : Place}
    {table dim : String}, p.FoundIn g root lead table dim → p.RecordedIn F →
      p.FoundIn g' root lead table dim
  | .row, _, _, h, _ => h
  | .linked shape link dims source, table, dim, h, hrec => by
    obtain ⟨htable, ⟨d, hd, rfl⟩, hlink, hdims, hsource⟩ := h
    obtain ⟨hshape, hfollows, hsource'⟩ := hrec
    obtain ⟨d', hd', hsize⟩ := hF.shapes _ hshape
    obtain ⟨hlink', hdims'⟩ := hF.follows hfollows
    obtain ⟨-, rfl, rfl⟩ := LinkGraph.into?_eq_some hlink
    refine ⟨htable, ⟨d', hd', by rw [← hsize]⟩, hlink', hdims', ?_⟩
    exact Offset.foundIn_of_faithful hv hF (LinkGraph.nodup_of_dimsOf? hv hdims) hsource hsource'

theorem Offset.foundIn_of_faithful (hv : g.Valid) (hF : F.Faithful g') : ∀ {o : Offset}
    {table : String} {dims : List String}, dims.Nodup → o.FoundIn g root lead table dims →
      o.RecordedIn F → o.FoundIn g' root lead table dims
  | .scalar, _, _, _, h, _ => h
  | .along place step rest, table, d :: dims, hnodup, h, hrec => by
    have hnodup' := (List.nodup_cons.1 hnodup).2
    refine ⟨Place.foundIn_of_faithful hv hF h.1 hrec.1, ?_,
      Offset.foundIn_of_faithful hv hF hnodup' h.2.2 hrec.2⟩
    by_cases htable : table = root
    · -- the root has one dimension to walk, and its step is one
      subst htable
      rcases Offset.dims_of_root hnodup h with heq | heq
      · cases heq
      · cases heq
        exact h.2.1
    · rw [h.2.1, Offset.extent_eq hF htable h.2.2 hrec.2]

end

theorem Expr.plannedAs_of_faithful (hv : g.Valid) (hF : F.Faithful g')
    {constants : List (String × UInt64)} : ∀ {e : Expr} {p : Plan},
      e.PlannedAs g root lead constants p → p.RecordedIn F → e.PlannedAs g' root lead constants p
  | .number _, _, h, _ | .bool _, _, h, _ => h
  | .name table n _, p, h, hrec => by
    rw [PlannedAs] at h ⊢
    rcases hm : meaning root constants table n with bits | ⟨t, v⟩ <;> rw [hm] at h
    · exact h
    · obtain ⟨dims, o, rfl, hdims, ho⟩ := h
      exact ⟨dims, o, rfl, hF.columns _ hrec.1,
        Offset.foundIn_of_faithful hv hF (LinkGraph.nodup_of_dimsOf? hv hdims) ho hrec.2⟩
  | .unary .., _, ⟨q, rfl, hq⟩, hrec => ⟨q, rfl, plannedAs_of_faithful hv hF hq hrec⟩
  | .binary .., _, ⟨q, r, rfl, hq, hr⟩, hrec =>
    ⟨q, r, rfl, plannedAs_of_faithful hv hF hq hrec.1, plannedAs_of_faithful hv hF hr hrec.2⟩
  | .ternary .., _, ⟨q, r, s, rfl, hq, hr, hs⟩, hrec =>
    ⟨q, r, s, rfl, plannedAs_of_faithful hv hF hq hrec.1, plannedAs_of_faithful hv hF hr hrec.2.1,
      plannedAs_of_faithful hv hF hs hrec.2.2⟩

end LinkedTables
