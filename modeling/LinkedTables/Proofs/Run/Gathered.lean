import LinkedTables.Proofs.Analysis.Recorded
import LinkedTables.Proofs.Number.Positions
import LinkedTables.Run.Bound

/-!
# What is bound is there

A graph that data are gathered from for a layout has all that the layout names: the layout is faithful
to it, and the columns and label tables are those of its variables and links (`gather_ok`). The other
way round, where all of it is found the data are bound (`gather_of`).
-/

namespace LinkedTables

namespace BoundData

variable {g : LinkGraph} {F : Layout}

theorem findTable_ok {table : String} {ds : Dataset} (h : findTable g table = .ok ds) :
    g.data? table = some ds := by
  rw [findTable] at h
  split at h
  · rename_i ds' hds
    cases h
    exact hds
  · cases h

theorem findDim_ok {table dim : String} {d : Dimension} (h : findDim g table dim = .ok d) :
    g.dim? table dim = some d := by
  obtain ⟨ds, hds, h⟩ := bind_eq_ok h
  split at h
  · rename_i d' hd
    cases h
    rw [LinkGraph.dim?, findTable_ok hds]
    exact hd
  · cases h

theorem findVariable_ok {table var : String} {dims : List String} {values : Values}
    (h : findVariable g table var dims = .ok values) :
    g.dimsOf? table var = some dims ∧ g.values? table var = some values := by
  obtain ⟨ds, hds, h⟩ := bind_eq_ok h
  split at h
  · cases h
  rename_i v hv
  dsimp only at h
  split_ifs at h with hdims
  · cases h
  cases h
  rw [not_not] at hdims
  refine ⟨LinkGraph.dimsOf?_eq_some.2 ⟨ds, v, findTable_ok hds, hv, hdims⟩, ?_⟩
  rw [LinkGraph.values?, findTable_ok hds]
  simp [hv]

theorem checkShape_ok {s : ShapeRef} (h : checkShape g s = .ok ()) :
    ∃ d, g.dim? s.table s.dim = some d ∧ d.size = s.size.toNat := by
  obtain ⟨d, hd, h⟩ := bind_eq_ok h
  split_ifs at h with hsize
  exact ⟨d, findDim_ok hd, not_not.1 hsize⟩

theorem column_ok {c : ColumnRef} {data : Array Float} (h : column g c = .ok data) :
    g.dimsOf? c.table c.var = some c.dims ∧ g.values? c.table c.var = some (.numbers data) := by
  obtain ⟨values, hvalues, h⟩ := bind_eq_ok h
  split at h
  · cases h
    exact findVariable_ok hvalues
  · cases h

theorem checkLink_ok {l : Link} (h : checkLink g l = .ok ()) :
    g.into? l.targetTable l.targetDim = some l := by
  rw [checkLink] at h
  split at h
  · rename_i i found hfound
    split_ifs at h with heq
    subst heq
    rw [LinkGraph.into?, hfound]
    rfl
  · cases h

theorem checkPositions_ok {l : Link} {values : Array Float} (h : checkPositions g l values = .ok ()) :
    ∃ d, g.dim? l.targetTable l.targetDim = some d ∧
      ∀ x ∈ values, Number.isIndexBelow x d.size = true := by
  obtain ⟨d, hd, h⟩ := bind_eq_ok h
  split at h
  · rename_i hnone
    refine ⟨d, findDim_ok hd, fun x hx => ?_⟩
    obtain ⟨i, hi, rfl⟩ := Array.mem_iff_getElem.1 hx
    have hmem : (values[i], i) ∈ values.toList.zipIdx := by
      rw [List.mem_zipIdx_iff_getElem?]
      simp [hi]
    simpa using List.find?_eq_none.1 hnone _ hmem
  · cases h

theorem labelTable_ok {t : TableRef} {positions : Array UInt32} (h : labelTable g t = .ok positions) :
    g.into? t.link.targetTable t.link.targetDim = some t.link ∧
      g.dimsOf? t.link.sourceTable t.link.sourceVar = some t.dims ∧
      ∃ values d, g.values? t.link.sourceTable t.link.sourceVar = some values ∧
        g.dim? t.link.targetTable t.link.targetDim = some d ∧
        labelPositions t.link values d.coords = .ok positions := by
  obtain ⟨_, hlink, h⟩ := bind_eq_ok h
  obtain ⟨values, hvalues, h⟩ := bind_eq_ok h
  obtain ⟨d, hd, h⟩ := bind_eq_ok h
  obtain ⟨hdims, hvals⟩ := findVariable_ok hvalues
  exact ⟨checkLink_ok hlink, hdims, values, d, hvals, findDim_ok hd, h⟩

theorem findRows_ok {root : String} {rowDim : Dimension} (h : findRows g root = .ok rowDim) :
    ∃ t, g.checkedRoot = .ok t ∧ t.name = root ∧ t.data.dims.head? = some rowDim := by
  rw [findRows] at h
  split at h
  · cases h
  rename_i t ht
  split_ifs at h with hname
  split at h
  · rename_i d rest hdims
    cases h
    exact ⟨t, ht, not_not.1 hname, by simp [hdims]⟩
  · cases h

/-- The data of a layout are those of a graph. -/
structure Gathered (F : Layout) (g : LinkGraph) (rowDim : Dimension) (src : Sources) : Prop where
  root : ∃ t, g.checkedRoot = .ok t ∧ t.name = F.root ∧ t.data.dims.head? = some rowDim
  shapes : ∀ s ∈ F.shapes, ∃ d, g.dim? s.table s.dim = some d ∧ d.size = s.size.toNat
  columns : List.Forall₂ (fun c data => g.dimsOf? c.table c.var = some c.dims ∧
    g.values? c.table c.var = some (.numbers data)) F.columns src.columns.toList
  positions : ∀ c ∈ F.checks, ∃ d, g.dim? c.link.targetTable c.link.targetDim = some d ∧
    ∀ x ∈ src.columns.getD c.column.toNat #[], Number.isIndexBelow x d.size = true
  tables : List.Forall₂ (fun t positions => labelTable g t = .ok positions) F.tables
    src.tables.toList
  checks : ∀ c ∈ F.checks, g.into? c.link.targetTable c.link.targetDim = some c.link

theorem gather_ok {rowDim : Dimension} {src : Sources} (h : gather g F = .ok (rowDim, src)) :
    Gathered F g rowDim src := by
  obtain ⟨d, hrows, h⟩ := bind_eq_ok h
  obtain ⟨_, hshapes, h⟩ := bind_eq_ok h
  obtain ⟨columns, hcolumns, h⟩ := bind_eq_ok h
  obtain ⟨_, hpositions, h⟩ := bind_eq_ok h
  obtain ⟨tables, htables, h⟩ := bind_eq_ok h
  obtain ⟨_, hchecks, h⟩ := bind_eq_ok h
  cases h
  refine ⟨findRows_ok hrows, fun s hs => checkShape_ok (forIn_ok hshapes s hs),
    ?_, fun c hc => ?_, forall₂_of_mapM htables, fun c hc => checkLink_ok (forIn_ok hchecks c hc)⟩
  · exact (forall₂_of_mapM hcolumns).imp fun c data hdata => column_ok hdata
  · simpa using checkPositions_ok (forIn_ok hpositions c hc)

namespace Gathered

variable {rowDim : Dimension} {src : Sources}

theorem faithful (h : Gathered F g rowDim src) : F.Faithful g where
  columns c hc := by
    obtain ⟨data, -, hdims, -⟩ := exists_of_mem_left h.columns c hc
    exact hdims
  tables t ht := by
    obtain ⟨positions, -, htable⟩ := exists_of_mem_left h.tables t ht
    obtain ⟨hlink, hdims, -⟩ := labelTable_ok htable
    exact ⟨hlink, hdims⟩
  checks := h.checks
  shapes s hs := by
    obtain ⟨d, hd, hsize⟩ := h.shapes s hs
    exact ⟨d, hd, by rw [hsize, UInt64.ofNat_toNat]⟩

end Gathered

section Found

variable {d : Dimension}

theorem findTable_of {table : String} {ds : Dataset} (h : g.data? table = some ds) :
    findTable g table = .ok ds := by rw [findTable, h]

theorem findDim_of {table dim : String} (h : g.dim? table dim = some d) :
    findDim g table dim = .ok d := by
  obtain ⟨ds, hds, hd⟩ := Option.bind_eq_some_iff.1 h
  simp only [findDim, findTable_of hds, Bind.bind, Except.bind, hd]
  rfl

theorem findVariable_of {table var : String} {dims : List String} {values : Values}
    (hdims : g.dimsOf? table var = some dims) (hvalues : g.values? table var = some values) :
    findVariable g table var dims = .ok values := by
  obtain ⟨ds, v, hds, hv, hnames⟩ := LinkGraph.dimsOf?_eq_some.1 hdims
  have hsame : v.values = values := by simpa [LinkGraph.values?, hds, hv] using hvalues
  simp only [findVariable, findTable_of hds, Bind.bind, Except.bind, hv, hnames, ne_eq,
    not_true_eq_false, if_false, hsame]
  rfl

theorem checkShape_of {s : ShapeRef} (hd : g.dim? s.table s.dim = some d)
    (hsize : d.size = s.size.toNat) : checkShape g s = .ok () := by
  simp [checkShape, findDim_of hd, Bind.bind, Except.bind, hsize]
  rfl

theorem column_of {c : ColumnRef} {data : Array Float}
    (hdims : g.dimsOf? c.table c.var = some c.dims)
    (hvalues : g.values? c.table c.var = some (.numbers data)) : column g c = .ok data := by
  rw [column, findVariable_of hdims hvalues]
  rfl

theorem checkLink_of {l : Link} (h : g.into? l.targetTable l.targetDim = some l) :
    checkLink g l = .ok () := by
  obtain ⟨⟨i, m⟩, hin, hm⟩ := Option.map_eq_some_iff.1 h
  obtain rfl : m = l := hm
  rw [checkLink, hin]
  exact if_pos rfl

theorem checkPositions_of {l : Link} {values : Array Float}
    (hd : g.dim? l.targetTable l.targetDim = some d)
    (h : ∀ x ∈ values, Number.isIndexBelow x d.size = true) : checkPositions g l values = .ok () := by
  have hnone : (values.toList.zipIdx.find? fun x => !Number.isIndexBelow x.1 d.size) = none := by
    refine List.find?_eq_none.2 fun x hmem => ?_
    have hx := h x.1 (Array.mem_toList_iff.1 (List.fst_mem_of_mem_zipIdx hmem))
    simp [hx]
  rw [checkPositions, findDim_of hd]
  simp only [Bind.bind, Except.bind, hnone]
  rfl

theorem labelTable_of {t : TableRef} {values : Values} {positions : Array UInt32}
    (hlink : g.into? t.link.targetTable t.link.targetDim = some t.link)
    (hdims : g.dimsOf? t.link.sourceTable t.link.sourceVar = some t.dims)
    (hvalues : g.values? t.link.sourceTable t.link.sourceVar = some values)
    (hd : g.dim? t.link.targetTable t.link.targetDim = some d)
    (h : labelPositions t.link values d.coords = .ok positions) : labelTable g t = .ok positions := by
  rw [labelTable, checkLink_of hlink, findVariable_of hdims hvalues, findDim_of hd]
  exact h

theorem findRows_of {t : Table} {rowDim : Dimension} (h : g.checkedRoot = .ok t)
    (hhead : t.data.dims.head? = some rowDim) : findRows g t.name = .ok rowDim := by
  obtain ⟨rest, hdims⟩ := List.head?_eq_some_iff.1 hhead
  simp [findRows, h, hdims]

theorem gather_of {F : Layout} {rowDim : Dimension} {columns : List (Array Float)}
    {tables : List (Array UInt32)} (hrows : findRows g F.root = .ok rowDim)
    (hshapes : ∀ s ∈ F.shapes, checkShape g s = .ok ())
    (hcolumns : List.Forall₂ (fun c data => column g c = .ok data) F.columns columns)
    (hpositions : ∀ c ∈ F.checks, checkPositions g c.link (columns.getD c.column.toNat #[]) = .ok ())
    (htables : List.Forall₂ (fun t positions => labelTable g t = .ok positions) F.tables tables)
    (hlinks : ∀ c ∈ F.checks, checkLink g c.link = .ok ()) :
    gather g F = .ok (rowDim, ⟨columns.toArray, tables.toArray⟩) := by
  have hchecked := forIn_of_forall hpositions
  have hlinked := forIn_of_forall hlinks
  rw [gather, hrows]
  simp only [Bind.bind, Except.bind] at hchecked hlinked ⊢
  have hshaped := forIn_of_forall hshapes
  simp only [Bind.bind, Except.bind] at hshaped
  rw [hshaped, mapM_of_forall₂ hcolumns]
  dsimp only
  rw [hchecked, mapM_of_forall₂ htables]
  dsimp only
  rw [hlinked]
  rfl

end Found

end BoundData

end LinkedTables
