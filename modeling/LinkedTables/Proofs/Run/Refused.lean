import LinkedTables.Proofs.Analysis.Comparable
import LinkedTables.Proofs.Run.Standing

/-!
# Binding a layout to its own graph fails only because of the data

An analysis makes sure of everything that binding looks for: the root, the sizes, the columns, the links
and the kinds on both ends of each link. What it does not look at are entries and labels. So a layout
that is bound to the graph it was made for is refused just if some entry or label is no good: a label
stands twice, an entry is no label, or an entry is no position (`BoundData.bind_own`).
-/

namespace LinkedTables

open Number (whole?)

namespace LinkGraph

/-- Sizes are numbers of 64 bits, and doubles tell integer labels apart. -/
structure Counted (g : LinkGraph) : Prop where
  sizes : ∀ t ∈ g.tables, ∀ d ∈ t.data.dims, d.size < 2 ^ 64
  labels : ∀ t ∈ g.tables, ∀ d ∈ t.data.dims, d.coords.Exact

/-- Some label of the target stands twice, or some entry of the source is no label. -/
def Mislabeled (g : LinkGraph) (l : Link) : Prop :=
  ∃ values d, g.values? l.sourceTable l.sourceVar = some values ∧
    g.dim? l.targetTable l.targetDim = some d ∧ ¬ d.coords.Labels values

/-- Some entry of the source is no position along the target. -/
def Misplaced (g : LinkGraph) (l : Link) : Prop :=
  ∃ values d, g.values? l.sourceTable l.sourceVar = some values ∧
    g.dim? l.targetTable l.targetDim = some d ∧ ¬ values.Positions d.size

variable {g : LinkGraph}

theorem exists_dim_of_dim? {table dim : String} {d : Dimension} (h : g.dim? table dim = some d) :
    ∃ t ∈ g.tables, d ∈ t.data.dims := by
  obtain ⟨ds, hds, hd⟩ := Option.bind_eq_some_iff.1 h
  obtain ⟨t, ht, -, rfl⟩ := exists_of_data? hds
  exact ⟨t, ht, List.mem_of_find?_eq_some hd⟩

theorem Counted.size_lt (h : g.Counted) {table dim : String} {d : Dimension}
    (hd : g.dim? table dim = some d) : d.size < 2 ^ 64 := by
  obtain ⟨t, ht, hmem⟩ := exists_dim_of_dim? hd
  exact h.sizes t ht d hmem

theorem Counted.exact (h : g.Counted) {table dim : String} {d : Dimension}
    (hd : g.dim? table dim = some d) : d.coords.Exact := by
  obtain ⟨t, ht, hmem⟩ := exists_dim_of_dim? hd
  exact h.labels t ht d hmem

/-- The dimension that a link leads into is there. -/
theorem Valid.exists_dim (hv : g.Valid) {l : Link} (hl : l ∈ g.links) :
    ∃ d, g.dim? l.targetTable l.targetDim = some d := by
  obtain ⟨ds, hds, d, hd⟩ := hv.target l hl
  exact ⟨d, by rw [dim?, hds, Option.bind_some, hd]⟩

end LinkGraph

namespace BoundData

variable {l : Link} {f : BindFault}

variable {g : LinkGraph}

/-- The labels of a link that can be compared are refused only because of the data, and just if some
label or entry is no good. -/
theorem labelTable_iff (hcounted : g.Counted) {t : TableRef}
    (hinto : g.into? t.link.targetTable t.link.targetDim = some t.link)
    (hdims : g.dimsOf? t.link.sourceTable t.link.sourceVar = some t.dims) (hfits : g.Fits t.link) :
    ((∃ positions, labelTable g t = .ok positions) ↔ ¬ g.Mislabeled t.link) ∧
      ∀ f, labelTable g t = .error f → f.kind = .domain := by
  obtain ⟨values, d, hvalues, hd, hkinds⟩ := hfits
  have htable : labelTable g t = labelPositions t.link values d.coords := by
    rw [labelTable, checkLink_of hinto, findVariable_of hdims hvalues, findDim_of hd]
    rfl
  have hmislabeled : g.Mislabeled t.link ↔ ¬ d.coords.Labels values := by
    simp [LinkGraph.Mislabeled, hvalues, hd]
  rw [htable, hmislabeled, not_not]
  exact ⟨exists_labelPositions_iff hkinds ((hcounted.exact hd).not_clamps values),
    fun f hf => labelPositions_error hkinds hf⟩

/-- Numbers are refused as positions of a dimension that is there only because of the data. -/
theorem checkPositions_error {data : Array Float} {d : Dimension}
    (hd : g.dim? l.targetTable l.targetDim = some d)
    (h : checkPositions g l data = .error f) : f.kind = .domain := by
  rw [checkPositions, findDim_of hd] at h
  simp only [Bind.bind, Except.bind] at h
  split at h <;> cases h
  rfl

/-- Numbers are accepted as positions just if each of them is one. -/
theorem checkPositions_iff (hcounted : g.Counted) {data : Array Float} {d : Dimension}
    (hvalues : g.values? l.sourceTable l.sourceVar = some (.numbers data))
    (hd : g.dim? l.targetTable l.targetDim = some d) :
    checkPositions g l data = .ok () ↔ ¬ g.Misplaced l := by
  have hmisplaced : g.Misplaced l ↔ ¬ (Values.numbers data).Positions d.size := by
    simp [LinkGraph.Misplaced, hvalues, hd]
  have hbelow : (Values.numbers data).Positions d.size ↔
      ∀ x ∈ data, Number.isIndexBelow x d.size = true := by
    rw [Values.positions_numbers]
    refine forall₂_congr fun x _ => ?_
    rw [Number.isIndexBelow_iff (hcounted.size_lt hd)]
    simp only [and_comm]
  rw [hmisplaced, not_not, hbelow]
  refine ⟨fun h => ?_, checkPositions_of hd⟩
  obtain ⟨d', hd', hall⟩ := checkPositions_ok h
  obtain rfl : d = d' := Option.some.inj (hd.symm.trans hd')
  exact hall

/-- All that the layout names is in the graph and of the right kind. -/
structure Found (F : Layout) (g : LinkGraph) : Prop where
  rows : ∃ rowDim, findRows g F.root = .ok rowDim
  faithful : F.Faithful g
  numeric : ∀ c ∈ F.columns, g.Numeric c.table c.var
  fits : ∀ t ∈ F.tables, g.Fits t.link
  sources : ∀ c ∈ F.checks, F.HasColumn c.column c.link.sourceTable c.link.sourceVar

namespace Found

variable {F : Layout} (h : Found F g)

include h

theorem checkShape (hcounted : g.Counted) : ∀ s ∈ F.shapes, checkShape g s = .ok () := by
  intro s hs
  obtain ⟨d, hd, hsize⟩ := h.faithful.shapes s hs
  refine checkShape_of hd ?_
  rw [hsize, UInt64.toNat_ofNat_of_lt' (hcounted.size_lt hd)]

theorem exists_columns : ∃ columns, F.columns.mapM (column g) = .ok columns :=
  mapM_ok fun c hc => by
    obtain ⟨data, hdata⟩ := h.numeric c hc
    exact ⟨data, column_of (h.faithful.columns c hc) hdata⟩

/-- Only labels and positions can be refused. -/
theorem error_of_gather (hcounted : g.Counted) {columns : List (Array Float)}
    (hcolumns : F.columns.mapM (column g) = .ok columns) (hf : gather g F = .error f) :
    (∃ c ∈ F.checks, checkPositions g c.link (columns.getD c.column.toNat #[]) = .error f) ∨
      ∃ t ∈ F.tables, labelTable g t = .error f := by
  obtain ⟨rowDim, hrows⟩ := h.rows
  obtain ⟨_, -, hf⟩ := (bind_eq_error hf).resolve_left (by simp [hrows])
  rcases bind_eq_error hf with hfail | ⟨_, -, hf⟩
  · obtain ⟨s, hs, hfail⟩ := exists_error_of_forIn hfail
    rw [h.checkShape hcounted s hs] at hfail
    cases hfail
  obtain ⟨columns', hcolumns', hf⟩ := (bind_eq_error hf).resolve_left (by simp [hcolumns])
  obtain rfl : columns = columns' := Except.ok.inj (hcolumns.symm.trans hcolumns')
  rcases bind_eq_error hf with hpositions | ⟨_, -, hf⟩
  · exact .inl (exists_error_of_forIn hpositions)
  rcases bind_eq_error hf with htables | ⟨_, -, hf⟩
  · exact .inr (exists_error_of_mapM htables)
  rcases bind_eq_error hf with hfail | ⟨_, -, hf⟩
  · obtain ⟨c, hc, hfail⟩ := exists_error_of_forIn hfail
    rw [checkLink_of (h.faithful.checks c hc)] at hfail
    cases hfail
  · cases hf

/-- The number of a column is that of the source it is said to be. -/
theorem values?_of_check (hsmall : F.columns.length ≤ 2 ^ 32) {columns : List (Array Float)}
    (hcolumns : F.columns.mapM (column g) = .ok columns) {c : CheckRef} (hc : c ∈ F.checks) :
    g.values? c.link.sourceTable c.link.sourceVar =
      some (.numbers (columns.getD c.column.toNat #[])) := by
  have hall := forall₂_of_mapM hcolumns
  obtain ⟨i, ref, hnumber, hget, htable, hvar⟩ := h.sources c hc
  obtain ⟨hlt, rfl⟩ := List.getElem?_eq_some_iff.1 hget
  have hlt' : i < columns.length := hall.length_eq ▸ hlt
  have hword : c.column.toNat = i := by
    rw [hnumber]
    exact UInt32.toNat_ofNat_of_lt' (hlt.trans_le hsmall)
  have hcolumn : column g F.columns[i] = .ok columns[i] := hall.get hlt hlt'
  rw [hword, List.getD_eq_getElem _ _ hlt', ← htable, ← hvar]
  exact (column_ok hcolumn).2

theorem labelTable_iff (hcounted : g.Counted) {t : TableRef} (ht : t ∈ F.tables) :
    ((∃ positions, labelTable g t = .ok positions) ↔ ¬ g.Mislabeled t.link) ∧
      ∀ f, labelTable g t = .error f → f.kind = .domain :=
  BoundData.labelTable_iff hcounted (h.faithful.tables t ht).1 (h.faithful.tables t ht).2
    (h.fits t ht)

/-- The dimension that a check leads into is there. -/
theorem dim?_of_check (hv : g.Valid) {c : CheckRef} (hc : c ∈ F.checks) :
    ∃ d, g.dim? c.link.targetTable c.link.targetDim = some d :=
  hv.exists_dim (LinkGraph.into?_eq_some (h.faithful.checks c hc)).1

/-- Nothing but the data is refused. -/
theorem kind_of_gather (hv : g.Valid) (hcounted : g.Counted) (hf : gather g F = .error f) :
    f.kind = .domain := by
  obtain ⟨columns, hcolumns⟩ := h.exists_columns
  rcases h.error_of_gather hcounted hcolumns hf with ⟨c, hc, hfail⟩ | ⟨t, ht, hfail⟩
  · obtain ⟨d, hd⟩ := h.dim?_of_check hv hc
    exact checkPositions_error hd hfail
  · exact (h.labelTable_iff hcounted ht).2 f hfail

/-- What is refused is refused because of an entry or a label. -/
theorem refused (hv : g.Valid) (hcounted : g.Counted) (hsmall : F.columns.length ≤ 2 ^ 32)
    (hf : gather g F = .error f) :
    (∃ t ∈ F.tables, g.Mislabeled t.link) ∨ ∃ c ∈ F.checks, g.Misplaced c.link := by
  obtain ⟨columns, hcolumns⟩ := h.exists_columns
  rcases h.error_of_gather hcounted hcolumns hf with ⟨c, hc, hfail⟩ | ⟨t, ht, hfail⟩
  · obtain ⟨d, hd⟩ := h.dim?_of_check hv hc
    refine .inr ⟨c, hc, not_not.1 fun hplaced => ?_⟩
    rw [(checkPositions_iff hcounted (h.values?_of_check hsmall hcolumns hc) hd).2 hplaced] at hfail
    cases hfail
  · refine .inl ⟨t, ht, not_not.1 fun hlabeled => ?_⟩
    obtain ⟨positions, hok⟩ := (h.labelTable_iff hcounted ht).1.2 hlabeled
    rw [hok] at hfail
    cases hfail

/-- What is gathered has no entry and no label that is no good. -/
theorem gathered (hcounted : g.Counted) (hsmall : F.columns.length ≤ 2 ^ 32)
    {r : Dimension × Sources} (hr : gather g F = .ok r) :
    (∀ t ∈ F.tables, ¬ g.Mislabeled t.link) ∧ ∀ c ∈ F.checks, ¬ g.Misplaced c.link := by
  have hgathered := gather_ok hr
  refine ⟨fun t ht => ?_, fun c hc => ?_⟩
  · obtain ⟨positions, -, hpositions⟩ := exists_of_mem_left hgathered.tables t ht
    exact (h.labelTable_iff hcounted ht).1.1 ⟨positions, hpositions⟩
  · obtain ⟨data, d, hvalues, hd, hall⟩ :=
      hgathered.checked (fun i hi => hi.trans_le hsmall) hc (h.sources c hc)
    rintro ⟨values, d', hvalues', hd', hmisplaced⟩
    obtain rfl := Option.some.inj (hvalues.symm.trans hvalues')
    obtain rfl := Option.some.inj (hd.symm.trans hd')
    refine hmisplaced (Values.positions_numbers.2 fun x hx => ?_)
    obtain ⟨p, hp, hlt⟩ := hall (hcounted.size_lt hd) x hx
    exact ⟨p, hlt, hp⟩

end Found

end BoundData

/-- An analysis makes sure of all that its layout names. -/
theorem Analysis.Planned.found {set : ExprSet} {a : Analysis} {sc : Scope}
    {sources : List Analysis.Source} {plans : List Plan} {g : LinkGraph}
    (h : a.Planned g set sc sources plans) (hg : g.Built) (ha : analyze g set = .ok a) :
    BoundData.Found a.layout g := by
  obtain ⟨hfaithful, -⟩ := h.faithful hg
  obtain ⟨hnumeric, hfits⟩ := h.comparable hg ha
  obtain ⟨-, -, -, hsources⟩ := h.sound
  refine ⟨?_, hfaithful, hnumeric, hfits, hsources⟩
  have hroot : a.layout.root = sc.root.name := by rw [h.layout]; rfl
  have hscope := h.inScope
  unfold Analysis.scope at hscope
  split at hscope
  · cases hscope
  rename_i t ht
  cases hscope
  obtain ⟨-, -, d, rest, hdims⟩ := LinkGraph.checkedRoot_ok ht
  rw [hroot]
  exact ⟨d, BoundData.findRows_of ht (by rw [hdims, List.head?_cons])⟩

namespace BoundData

/-- A layout that is bound to the graph that it was made for is refused only because of the data, and
just if, for some label table, a label stands twice or an entry is no label, or if some entry of a
source that is checked is no position. Checks name their columns by words: if there are more columns
than words number, then it may be another column that is checked. -/
theorem bind_own {g : LinkGraph} (hg : g.Built) {set : ExprSet} {a : Analysis}
    (ha : analyze g set = .ok a) (hcounted : g.Counted) :
    (∀ f, bind g a.layout = .error f → f.kind = .domain) ∧
      (a.layout.columns.length ≤ 2 ^ 32 →
        ((∃ f, bind g a.layout = .error f ∧ f.kind = .domain) ↔
          (∃ t ∈ a.layout.tables, g.Mislabeled t.link) ∨
            ∃ c ∈ a.layout.checks, g.Misplaced c.link)) := by
  obtain ⟨-, sc, sources, plans, hplanned⟩ := Analysis.analyze_ok ha
  have hfound := hplanned.found hg ha
  unfold bind
  rcases hr : gather g a.layout with f | r
  · have hkind := hfound.kind_of_gather hg.valid hcounted hr
    refine ⟨fun f' hf' => ?_, fun hsmall => ⟨fun _ => ?_, fun _ => ⟨f, rfl, hkind⟩⟩⟩
    · cases hf'
      exact hkind
    · exact hfound.refused hg.valid hcounted hsmall hr
  · refine ⟨fun f hf => ?_, fun hsmall => ⟨?_, ?_⟩⟩
    · cases hf
    · rintro ⟨f, hf, -⟩
      cases hf
    · obtain ⟨hlabeled, hplaced⟩ := hfound.gathered hcounted hsmall hr
      rintro (⟨t, ht, hmislabeled⟩ | ⟨c, hc, hmisplaced⟩)
      · exact absurd hmislabeled (hlabeled t ht)
      · exact absurd hmisplaced (hplaced c hc)

end BoundData

namespace Sample

/-- The sample with a trip that starts in no zone. -/
def astray : LinkGraph := GraphCall.made [
  .addTable "trips" (trips #[9, 7, 5] #[8, 8, 7]),
  .addTable "skims" (skims #[1, 2, 3, 4, 5, 6]),
  .addLinkText "trips.home @ skims.from",
  .addLinkText "trips.work @ skims.to"]

theorem analyze_astray : analyze astray set = .ok (analysisNamed "cost") :=
  eq_ok_of_toOption (by decide +kernel)

theorem mislabeled_astray : astray.Mislabeled homeLink :=
  ⟨.numbers #[9, 7, 5], ⟨"from", .integers #[7, 9]⟩, by decide +kernel, by decide +kernel,
    by decide +kernel⟩

end Sample

/-- The sample binds its layout, and with a trip that starts in no zone it does not. -/
theorem BoundData.bind_own_sample :
    (∀ f, bind Sample.graph (Sample.analysisNamed "cost").layout = .error f → f.kind = .domain) ∧
    ∃ f, bind Sample.astray (Sample.analysisNamed "cost").layout = .error f ∧ f.kind = .domain := by
  have hcounted : Sample.graph.Counted := by constructor <;> decide +kernel
  have hcounted' : Sample.astray.Counted := by constructor <;> decide +kernel
  have hsmall : (Sample.analysisNamed "cost").layout.columns.length ≤ 2 ^ 32 := by decide
  refine ⟨(bind_own Sample.graph_built Sample.analyze_graph hcounted).1,
    ((bind_own (GraphCall.made_built _) Sample.analyze_astray hcounted').2 hsmall).2 (.inl ?_)⟩
  exact ⟨⟨Sample.homeLink, ["trip"]⟩, by decide, Sample.mislabeled_astray⟩

end LinkedTables
