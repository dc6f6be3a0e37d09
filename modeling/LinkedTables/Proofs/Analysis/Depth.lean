import LinkedTables.Proofs.Analysis.Faults
import LinkedTables.Proofs.Links.Sample

/-!
# How deep lowering goes

The position along a dimension is found from positions along dimensions of other tables, those that
the source of the link into it lies over. So positions are asked for inside of each other, and
without cycles the table of each has fewer tables before it than the one that asks for it: at most as
many positions are asked for inside of each other as there are tables
(`LinkGraph.length_le_of_isChain`).

Lowering is given that number as fuel. It never runs out (`position_ends`), and more would change
nothing (`position_of_le`), so the fuel can be left out: positions are what the recursion without it
says, and nothing else is (`eq_position_of_solves`). It does not matter which table is the root, nor
whether a table can be reached from it.
-/

namespace LinkedTables

/-- A dimension of a table, by its place among the dimensions. -/
abbrev Axis := String × Nat

namespace LinkGraph

/-- The positions that the position along a dimension is found from: those along the dimensions that
the source of the link into it lies over. -/
def asked? (g : LinkGraph) (a : Axis) : Option (List Axis) := do
  let ds ← g.data? a.1
  let dim ← ds.dims[a.2]?
  let (_, link) ← g.incoming? a.1 dim.name
  let src ← g.data? link.sourceTable
  let v ← src.var? link.sourceVar
  return v.dims.map fun d => (link.sourceTable, d)

/-- The position along the one dimension asks for the position along the other. -/
abbrev Asks (g : LinkGraph) (a b : Axis) : Prop := b ∈ (g.asked? a).getD []

theorem asks_iff {g : LinkGraph} {a b : Axis} : g.Asks a b ↔ ∃ ds dim i link src v,
    g.data? a.1 = some ds ∧ ds.dims[a.2]? = some dim ∧ g.incoming? a.1 dim.name = some (i, link) ∧
      g.data? link.sourceTable = some src ∧ src.var? link.sourceVar = some v ∧
      b.1 = link.sourceTable ∧ b.2 ∈ v.dims := by
  unfold Asks
  constructor
  · intro h
    rcases hasked : g.asked? a with _ | bs
    · rw [hasked] at h
      cases h
    rw [hasked, Option.getD_some] at h
    simp only [asked?, Option.bind_eq_bind, Option.bind_eq_some_iff, Option.pure_def,
      Option.some.injEq, Prod.exists] at hasked
    obtain ⟨ds, hds, dim, hdim, i, link, hin, src, hsrc, v, hvar, rfl⟩ := hasked
    obtain ⟨d, hd, rfl⟩ := List.mem_map.1 h
    exact ⟨ds, dim, i, link, src, v, hds, hdim, hin, hsrc, hvar, rfl, hd⟩
  · rintro ⟨ds, dim, i, link, src, v, hds, hdim, hin, hsrc, hvar, htable, hmem⟩
    have hasked : g.asked? a = some (v.dims.map fun d => (link.sourceTable, d)) := by
      simp [asked?, hds, hdim, hin, hsrc, hvar]
    rw [hasked, Option.getD_some, ← htable]
    exact List.mem_map.2 ⟨b.2, hmem, rfl⟩

theorem Asks.rank_lt {g : LinkGraph} (hv : g.Valid) {a b : Axis} (h : g.Asks a b) :
    b.1 ∈ g.names ∧ g.rank b.1 < g.rank a.1 := by
  obtain ⟨ds, dim, i, link, src, v, hds, hdim, hin, hsrc, hvar, htable, hmem⟩ := asks_iff.1 h
  obtain ⟨hlink, htarget, -⟩ := incoming?_eq_some hin
  have hnames : link.targetTable ∈ g.names := htarget ▸ mem_names_of_data? hds
  have hlt := LinkGraph.rank_lt hv.acyclic hlink hnames
  rw [htable, ← htarget]
  exact ⟨mem_names_of_data? hsrc, hlt⟩

/-- Each position that is asked for inside of another uses up a table that leads to the first. -/
theorem length_le_rank {g : LinkGraph} (hv : g.Valid) : ∀ {a : Axis} {rest : List Axis},
    (a :: rest).IsChain g.Asks → a.1 ∈ g.names → (a :: rest).length ≤ g.rank a.1
  | a, [], _, ha => rank_pos ha
  | a, b :: rest, h, ha => by
    rw [List.isChain_cons_cons] at h
    obtain ⟨hb, hlt⟩ := h.1.rank_lt hv
    have ih := length_le_rank hv h.2 hb
    rw [List.length_cons]
    omega

theorem length_le_of_isChain {g : LinkGraph} (hv : g.Valid) {axes : List Axis}
    (h : axes.IsChain g.Asks) (hnames : ∀ a ∈ axes, a.1 ∈ g.names) :
    axes.length ≤ g.tables.length := by
  cases axes with
  | nil => exact Nat.zero_le _
  | cons a rest =>
    have ha : a.1 ∈ g.names := hnames a List.mem_cons_self
    exact (length_le_rank hv h ha).trans (g.rank_le a.1)

end LinkGraph

/-- The result of a recursion that was not cut off: a value, or a fault of what is analyzed. -/
def Ends {α : Type} (r : Except AnalysisFault α) : Prop := ∀ table, r ≠ .error (.tooDeep table)

theorem ends_ok {α : Type} (a : α) : Ends (.ok a : Except AnalysisFault α) := by
  intro table h
  cases h

theorem ends_error {α : Type} {f : AnalysisFault} (h : ∀ table, f ≠ .tooDeep table) :
    Ends (.error f : Except AnalysisFault α) := by
  intro table heq
  exact h table (Except.error.inj heq)

/-- To be cut off would be a fault of the analysis. -/
theorem Ends.of_blames {α : Type} {r : Except AnalysisFault α}
    (h : ∀ f, r = .error f → f.Blames) : Ends r := fun _ hr => h _ hr rfl

theorem Ends.bind {α β : Type} {x : Except AnalysisFault α} {k : α → Except AnalysisFault β}
    (hx : Ends x) (hk : ∀ a, x = .ok a → Ends (k a)) : Ends (x >>= k) := by
  intro table h
  rcases bind_eq_error h with hfirst | ⟨a, ha, hnext⟩
  · exact hx table hfirst
  · exact hk a ha table hnext

theorem Ends.map {α β : Type} {x : Except AnalysisFault α} (hx : Ends x) (f : α → β) :
    Ends (x.map f) := by
  intro table h
  rcases x with e | a
  · exact hx table (congrArg _ (Except.error.inj h))
  · cases h

namespace Scope

/-- An offset is found unless a position that it rests on is not. -/
theorem planOffset_ends {place : Nat → Except AnalysisFault Place} {ds : Dataset} {dims : List Nat}
    (h : ∀ d ∈ dims, Ends (place d)) : Ends (planOffset place ds dims) := by
  intro table hfault
  obtain ⟨d, hd, hplace⟩ := planOffset_error hfault
  exact h d hd table hplace

/-- With fuel for all tables that lead to a table, no position along its dimensions is cut off. -/
theorem planPlace_ends {sc : Scope} (hv : sc.graph.Valid) (site : Site) (fuel : Nat) {table : String}
    {ds : Dataset} {d : Nat} (hds : sc.graph.data? table = some ds) (hd : d < ds.dims.length)
    (hfuel : sc.graph.rank table ≤ fuel) : Ends (sc.planPlace site fuel table ds d) :=
  .of_blames fun _ => planPlace_blames hv site hfuel hds hd

theorem resolve_ends (sc : Scope) (site : Site) (table : Option String) (name : String) :
    Ends (sc.resolve site table name) := .of_blames fun _ => resolve_blames

theorem fetch_ends (sc : Scope) (table var : String) : Ends (sc.fetch table var) := by
  unfold fetch
  split
  · exact ends_error (by simp)
  split
  · exact ends_error (by simp)
  · exact ends_ok _

theorem planVariable_ends {sc : Scope} (hv : sc.graph.Valid) (site : Site) (table var : String) :
    Ends (sc.planVariable site table var) := by
  unfold planVariable
  refine (fetch_ends sc table var).bind fun r hr => ?_
  obtain ⟨ds, v⟩ := r
  obtain ⟨hds, hvar⟩ := fetch_ok hr
  have hcarries := (hv.data_of hds).carries_of_var? hvar
  have hplaces : ∀ d ∈ v.dims, Ends (sc.planPlace site sc.graph.tables.length table ds d) :=
    fun d hd => planPlace_ends hv site _ hds (hcarries.lt d hd) (sc.graph.rank_le table)
  exact (planOffset_ends hplaces).bind fun _ _ => ends_ok _

/-- Resolving an expression is never cut off: its names are resolved without recursion, and every
table has fuel for all that lead to it. -/
theorem plan_ends {sc : Scope} (hv : sc.graph.Valid) (site : Site) :
    ∀ e : Expr, Ends (sc.plan site e)
  | .number _ => ends_ok _
  | .bool _ => ends_ok _
  | .name table name _ => by
    unfold plan
    refine (resolve_ends sc site table name).bind fun m _ => ?_
    cases m with
    | constant bits => exact ends_ok _
    | variable_ t v => exact planVariable_ends hv site t v
  | .unary op a _ => (plan_ends hv site a).bind fun _ _ => ends_ok _
  | .binary op a b _ => (plan_ends hv site a).bind fun _ _ =>
      (plan_ends hv site b).bind fun _ _ => ends_ok _
  | .ternary op a b c _ => (plan_ends hv site a).bind fun _ _ =>
      (plan_ends hv site b).bind fun _ _ => (plan_ends hv site c).bind fun _ _ => ends_ok _

end Scope

namespace Lowering

variable {sc : Scope} {site : Site}

/-- One step of the recursion: the position along a dimension from those that it asks for. -/
def positionBy (sc : Scope) (site : Site) (find : String → Dataset → Nat → Lowering SlotId)
    (table : String) (ds : Dataset) (d : Nat) : Lowering SlotId := do
  if table == sc.root.name && d == 0 then slot fun g => g.row
  else
    match ds.dims[d]? with
    | none => throw (.tooDeep table)
    | some dim =>
      shape table dim
      match sc.graph.incoming? table dim.name with
      | none => throw (.type site (.unfed table dim.name sc.root.name))
      | some (_, link) =>
        match sc.graph.data? link.sourceTable with
        | none => throw (.graph (.unknownTable link.sourceTable))
        | some src =>
          match src.var? link.sourceVar with
          | none => throw (.missingSource link)
          | some v =>
            let at_ ← offset (find link.sourceTable src) src v.dims
            follow site link src v dim at_

theorem position_succ (sc : Scope) (site : Site) (fuel : Nat) (table : String) (ds : Dataset)
    (d : Nat) : position sc site (fuel + 1) table ds d =
      positionBy sc site (position sc site fuel) table ds d := rfl

theorem offset_congr {find find' : Nat → Lowering SlotId} (ds : Dataset) {dims : List Nat}
    (h : ∀ d ∈ dims, find d = find' d) : offset find ds dims = offset find' ds dims := by
  have hfold : ∀ start : Partial, dims.reverse.foldlM (offsetStep find ds) start =
      dims.reverse.foldlM (offsetStep find' ds) start := by
    intro start
    refine foldlM_congr fun d hd before => ?_
    unfold offsetStep
    rw [h d (List.mem_reverse.1 hd)]
  show (dims.reverse.foldlM (offsetStep find ds) (none, 1) >>= fun _ => _) = _
  rw [hfold]
  rfl

/-- A step asks for nothing but the positions that the source of the link rests on. -/
theorem positionBy_congr {find find' : String → Dataset → Nat → Lowering SlotId} {table : String}
    {ds : Dataset} {d : Nat} (hds : sc.graph.data? table = some ds)
    (h : ∀ t src e, sc.graph.data? t = some src → sc.graph.Asks (table, d) (t, e) →
      find t src e = find' t src e) :
    positionBy sc site find table ds d = positionBy sc site find' table ds d := by
  unfold positionBy
  split_ifs with hrow
  · rfl
  rcases hdim : ds.dims[d]? with _ | dim
  · rfl
  dsimp only
  rcases hin : sc.graph.incoming? table dim.name with _ | ⟨i, link⟩
  · rfl
  dsimp only
  rcases hsrc : sc.graph.data? link.sourceTable with _ | src
  · rfl
  dsimp only
  rcases hvar : src.var? link.sourceVar with _ | v
  · rfl
  dsimp only
  rw [offset_congr src fun e he => h _ src e hsrc
    (LinkGraph.asks_iff.2 ⟨ds, dim, i, link, src, v, hds, hdim, hin, hsrc, hvar, rfl, he⟩)]

/-- Fuel beyond the number of tables that lead to a table changes nothing. -/
theorem position_of_le (hv : sc.graph.Valid) : ∀ {fuel fuel' : Nat} {table : String} {ds : Dataset}
    (d : Nat), sc.graph.data? table = some ds → sc.graph.rank table ≤ fuel → fuel ≤ fuel' →
    position sc site fuel' table ds d = position sc site fuel table ds d
  | 0, _, table, ds, d, hds, hfuel, _ => by
    have hpos := LinkGraph.rank_pos (LinkGraph.mem_names_of_data? hds)
    omega
  | fuel + 1, 0, _, _, _, _, _, hle => by omega
  | fuel + 1, fuel' + 1, table, ds, d, hds, hfuel, hle => by
    rw [position_succ, position_succ]
    refine positionBy_congr hds fun t src e hsrc hasks => ?_
    have hlt : sc.graph.rank t < sc.graph.rank table := (hasks.rank_lt hv).2
    exact position_of_le hv e hsrc (by omega) (by omega)

/-- The recursion without fuel determines positions: it asks for positions of tables that fewer
tables lead to. -/
theorem eq_position_of_solves (hv : sc.graph.Valid)
    {find : String → Dataset → Nat → Lowering SlotId}
    (h : ∀ table ds d, sc.graph.data? table = some ds →
      find table ds d = positionBy sc site find table ds d) :
    ∀ {fuel : Nat} {table : String} {ds : Dataset} (d : Nat), sc.graph.data? table = some ds →
      sc.graph.rank table ≤ fuel → find table ds d = position sc site fuel table ds d
  | 0, table, ds, d, hds, hfuel => by
    have hpos := LinkGraph.rank_pos (LinkGraph.mem_names_of_data? hds)
    omega
  | fuel + 1, table, ds, d, hds, hfuel => by
    rw [h table ds d hds, position_succ]
    refine positionBy_congr hds fun t src e hsrc hasks => ?_
    have hlt : sc.graph.rank t < sc.graph.rank table := (hasks.rank_lt hv).2
    exact eq_position_of_solves hv h e hsrc (by omega)

theorem position_ends (hv : sc.graph.Valid) {fuel : Nat} {table : String} {ds : Dataset} {d : Nat}
    (hds : sc.graph.data? table = some ds) (hd : d < ds.dims.length)
    (hfuel : sc.graph.rank table ≤ fuel) (l : Lowered) :
    Ends (position sc site fuel table ds d l) := by
  rw [position_apply]
  exact (Scope.planPlace_ends hv site fuel hds hd hfuel).map _

theorem offset_ends (hv : sc.graph.Valid) {fuel : Nat} {table : String} {ds : Dataset}
    {dims : List Nat} (hds : sc.graph.data? table = some ds) (hdims : ∀ d ∈ dims, d < ds.dims.length)
    (hfuel : sc.graph.rank table ≤ fuel) (l : Lowered) :
    Ends (offset (position sc site fuel table ds) ds dims l) := by
  rw [offset_apply ds fun d l => position_apply sc site fuel table ds d l]
  exact (Scope.planOffset_ends fun d hd =>
    Scope.planPlace_ends hv site fuel hds (hdims d hd) hfuel).map _

theorem lower_ends (hv : sc.graph.Valid) (e : Expr) (l : Lowered) : Ends (lower sc site e l) := by
  rw [lower_eq]
  exact (Scope.plan_ends hv site e).map _

/-- Whatever calls made the graph and whatever the root: no more positions are asked for inside of
each other than there are tables. With that number as fuel, or any larger one, positions solve the
recursion that has no fuel, no other solution differs from them along a dimension of the graph, and
positions, offsets of variables and lowered expressions are never cut off, from whatever has been
lowered before. -/
theorem position_grounded (calls : List (Nat × GraphCall)) (sc : Scope) (site : Site)
    (hsc : sc.graph ∈ GraphCall.run [.empty] calls) :
    (∀ axes : List Axis, axes.IsChain sc.graph.Asks → (∀ a ∈ axes, a.1 ∈ sc.graph.names) →
      axes.length ≤ sc.graph.tables.length) ∧
    (∀ table ds d find find', sc.graph.data? table = some ds →
      (∀ t src e, sc.graph.data? t = some src → sc.graph.Asks (table, d) (t, e) →
        find t src e = find' t src e) →
      positionBy sc site find table ds d = positionBy sc site find' table ds d) ∧
    (∀ fuel, sc.graph.tables.length ≤ fuel → ∀ table ds, sc.graph.data? table = some ds →
      (∀ d, position sc site fuel table ds d =
        positionBy sc site (position sc site fuel) table ds d) ∧
      (∀ find, (∀ t src d, sc.graph.data? t = some src →
          find t src d = positionBy sc site find t src d) →
        ∀ d, find table ds d = position sc site fuel table ds d) ∧
      ∀ l, (∀ d < ds.dims.length, Ends (position sc site fuel table ds d l)) ∧
        ∀ var v, ds.var? var = some v →
          Ends (offset (position sc site fuel table ds) ds v.dims l)) ∧
    ∀ e l, Ends (lower sc site e l) := by
  have hbuilt : sc.graph.Built := GraphCall.run_built calls (by simp [LinkGraph.Built.empty]) _ hsc
  have hv := hbuilt.valid
  refine ⟨fun axes hchain hnames => LinkGraph.length_le_of_isChain hv hchain hnames,
    fun table ds d find find' hds hfind => positionBy_congr hds hfind,
    fun fuel hfuel table ds hds => ?_, lower_ends hv⟩
  have hrank : sc.graph.rank table ≤ fuel := (sc.graph.rank_le table).trans hfuel
  refine ⟨fun d => ?_, fun find hfind d => eq_position_of_solves hv hfind d hds hrank,
    fun l => ⟨fun d hd => position_ends hv hds hd hrank l, fun var v hvar => ?_⟩⟩
  · rw [← position_succ]
    exact (position_of_le hv d hds hrank (Nat.le_succ fuel)).symm
  · exact offset_ends hv hds ((hv.data_of hds).carries_of_var? hvar).lt hrank l

end Lowering

namespace Sample

/-- Three tables one behind the other. The last call would lead back to the first, and fails. -/
def relayCalls : List GraphCall := [
  .addTable "t" ((BuiltDataset.empty.dim "r" (.range 2)).var "p" ["r"] (.numbers #[1, 0])),
  .addTable "u" ((BuiltDataset.empty.dim "a" (.range 2)).var "v" ["a"] (.numbers #[0, 1])),
  .addTable "w" ((BuiltDataset.empty.dim "c" (.range 2)).var "x" ["c"] (.numbers #[5, 6])),
  .addLinkText "t.p -> u.a",
  .addLinkText "u.v -> w.c",
  .addLinkText "w.x -> t.r"]

end Sample

namespace Lowering

/-- Three positions are asked for inside of each other, as many as there are tables, and the offset of
the variable of the last table is not cut off, although none of the tables is the root. -/
theorem position_grounded_relay :
    let sc : Scope := ⟨GraphCall.made Sample.relayCalls, ⟨"s", .empty⟩, []⟩
    let axes : List Axis := [("w", 0), ("u", 0), ("t", 0)]
    axes.IsChain sc.graph.Asks ∧ axes.length ≤ sc.graph.tables.length ∧
      sc.graph.tables.length = 3 ∧ ∃ ds v, sc.graph.data? "w" = some ds ∧ ds.var? "x" = some v ∧
        ∀ site l, Ends (offset (position sc site 3 "w" ds) ds v.dims l) := by
  intro sc axes
  have hchain : axes.IsChain sc.graph.Asks := by decide +kernel
  have hcount : sc.graph.tables.length = 3 := by decide +kernel
  have hnames : ∀ a ∈ axes, a.1 ∈ sc.graph.names := by decide +kernel
  have hthere : ((sc.graph.data? "w").bind fun ds => ds.var? "x").isSome := by decide +kernel
  obtain ⟨v, hv⟩ := Option.isSome_iff_exists.1 hthere
  obtain ⟨ds, hds, hvar⟩ := Option.bind_eq_some_iff.1 hv
  have hgrounded := fun site => position_grounded (Sample.relayCalls.map (0, ·)) sc site
    (GraphCall.made_mem Sample.relayCalls)
  have hdeep : axes.length ≤ sc.graph.tables.length :=
    (hgrounded ⟨0, "w.x"⟩).1 axes hchain hnames
  refine ⟨hchain, hdeep, hcount, ds, v, hds, hvar, fun site l => ?_⟩
  obtain ⟨-, -, hends, -⟩ := hgrounded site
  exact ((hends 3 hcount.le "w" ds hds).2.2 l).2 "x" v hvar

end Lowering

end LinkedTables
