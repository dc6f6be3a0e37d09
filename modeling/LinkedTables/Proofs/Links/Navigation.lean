import LinkedTables.Proofs.Links.Built

/-!
# Looking around in a graph

What is looked up in a graph by names alone: a dimension, the dimensions that a variable lies over,
the link into a dimension, and how many positions some dimensions have together. A dataset counts its
dimensions by their places; over a valid graph the names say the same (`extent_dimNames`), and a
variable names no dimension twice (`nodup_of_dimsOf?`).
-/

namespace LinkedTables

namespace LinkGraph

def dim? (g : LinkGraph) (table dim : String) : Option Dimension :=
  (g.data? table).bind fun ds => ds.dim? dim

def values? (g : LinkGraph) (table var : String) : Option Values :=
  (g.data? table).bind fun ds => (ds.var? var).map Variable.values

/-- The dimensions that a variable lies over. -/
def dimsOf? (g : LinkGraph) (table var : String) : Option (List String) :=
  (g.data? table).bind fun ds => ds.variableDims? var

/-- The link into a dimension. -/
def into? (g : LinkGraph) (table dim : String) : Option Link :=
  (g.incoming? table dim).map Prod.snd

def sizeOf (g : LinkGraph) (table dim : String) : Nat :=
  ((g.dim? table dim).map Dimension.size).getD 0

/-- The product of the sizes of some dimensions. -/
def extent (g : LinkGraph) (table : String) (dims : List String) : Nat :=
  (dims.map (g.sizeOf table)).prod

@[simp] theorem extent_nil (g : LinkGraph) (table : String) : g.extent table [] = 1 := rfl

@[simp] theorem extent_cons (g : LinkGraph) (table d : String) (dims : List String) :
    g.extent table (d :: dims) = g.sizeOf table d * g.extent table dims := by
  simp [extent]

variable {g : LinkGraph} {table : String} {ds : Dataset}

theorem sizeOf_of_dim? {dim : String} {d : Dimension} (h : g.dim? table dim = some d) :
    g.sizeOf table dim = d.size := by
  simp [sizeOf, h]

theorem dim?_of_getElem? (hv : g.Valid) (hds : g.data? table = some ds) {i : Nat} {d : Dimension}
    (h : ds.dims[i]? = some d) : g.dim? table d.name = some d := by
  rw [dim?, hds]
  exact Dataset.dim?_of_getElem? (hv.data_of hds) h

theorem dimsOf?_eq_some {var : String} {dims : List String} :
    g.dimsOf? table var = some dims ↔
      ∃ ds v, g.data? table = some ds ∧ ds.var? var = some v ∧ ds.dimNames v.dims = dims := by
  simp [dimsOf?, Dataset.variableDims?, Option.bind_eq_some_iff]

theorem dimsOf?_of_var? (hds : g.data? table = some ds) {var : String} {v : Variable}
    (h : ds.var? var = some v) : g.dimsOf? table var = some (ds.dimNames v.dims) :=
  dimsOf?_eq_some.2 ⟨ds, v, hds, h, rfl⟩

theorem mem_names_of_dimsOf? {var : String} {dims : List String}
    (h : g.dimsOf? table var = some dims) : table ∈ g.names := by
  obtain ⟨ds, -, hds, -⟩ := dimsOf?_eq_some.1 h
  exact mem_names_of_data? hds

/-- A variable and all that it lies over have names. -/
theorem isName_of_dimsOf? (hv : g.Valid) {var : String} {dims : List String}
    (h : g.dimsOf? table var = some dims) : Text.isName table.toList = true ∧
      Text.isName var.toList = true ∧ ∀ d ∈ dims, Text.isName d.toList = true := by
  obtain ⟨ds, v, hds, hvar, rfl⟩ := dimsOf?_eq_some.1 h
  have hvalid := hv.data_of hds
  refine ⟨hv.isName_of_data? hds, hvalid.isName_of_var? hvar, fun name hname => ?_⟩
  obtain ⟨i, hi, rfl⟩ := List.mem_map.1 hname
  obtain ⟨d, hd⟩ := (hvalid.carries_of_var? hvar).isSome_getElem? hi
  rw [Dataset.dimName_of_getElem? hd]
  exact hvalid.dimNames d (List.mem_of_getElem? hd)

theorem isName_of_dim? (hv : g.Valid) {dim : String} {d : Dimension}
    (h : g.dim? table dim = some d) : Text.isName table.toList = true ∧
      Text.isName dim.toList = true := by
  obtain ⟨ds, hds, hd⟩ := Option.bind_eq_some_iff.1 h
  have hname : d.name = dim := by simpa using List.find?_some hd
  exact ⟨hv.isName_of_data? hds,
    hname ▸ (hv.data_of hds).dimNames d (List.mem_of_find?_eq_some hd)⟩

theorem sizeOf_dimName (hv : g.Valid) (hds : g.data? table = some ds) {i : Nat}
    (hi : i < ds.dims.length) : g.sizeOf table (ds.dimName i) = ds.dimSize i := by
  have h : ds.dims[i]? = some ds.dims[i] := by simp [hi]
  rw [Dataset.dimName_of_getElem? h, Dataset.dimSize_of_getElem? h,
    sizeOf_of_dim? (dim?_of_getElem? hv hds h)]

theorem extent_dimNames (hv : g.Valid) (hds : g.data? table = some ds) {dims : List Nat}
    (h : ∀ i ∈ dims, i < ds.dims.length) : g.extent table (ds.dimNames dims) = ds.extent dims := by
  rw [extent, Dataset.dimNames, List.map_map, Dataset.extent]
  exact congrArg List.prod (List.map_congr_left fun i hi => sizeOf_dimName hv hds (h i hi))

theorem nodup_of_dimsOf? (hv : g.Valid) {var : String} {dims : List String}
    (h : g.dimsOf? table var = some dims) : dims.Nodup := by
  obtain ⟨ds, v, hds, hvar, rfl⟩ := dimsOf?_eq_some.1 h
  have hvalid := hv.data_of hds
  have hc := hvalid.carries_of_var? hvar
  refine (List.nodup_map_iff_inj_on hc.nodup).2 fun i hi j hj hij => ?_
  have hnames := hvalid.distinct
  have hget : ∀ k ∈ v.dims, ∃ hk : k < (ds.dims.map Dimension.name).length,
      (ds.dims.map Dimension.name)[k] = ds.dimName k := fun k hk => by
    refine ⟨by simpa using hc.lt k hk, ?_⟩
    simp [Dataset.dimName, hc.lt k hk]
  obtain ⟨hi', hin⟩ := hget i hi
  obtain ⟨hj', hjn⟩ := hget j hj
  exact (List.Nodup.getElem_inj_iff hnames).1 (hin.trans (hij.trans hjn.symm))

theorem into?_eq_some {dim : String} {l : Link} (h : g.into? table dim = some l) :
    l ∈ g.links ∧ l.targetTable = table ∧ l.targetDim = dim := by
  obtain ⟨⟨i, m⟩, hin, rfl⟩ := Option.map_eq_some_iff.1 h
  exact incoming?_eq_some hin

theorem Valid.mem_names_of_into? (hv : g.Valid) {dim : String} {l : Link}
    (h : g.into? table dim = some l) : table ∈ g.names := by
  obtain ⟨hl, rfl, -⟩ := into?_eq_some h
  exact hv.target_mem_names l hl

end LinkGraph

end LinkedTables
