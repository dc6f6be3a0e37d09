import LinkedTables.Proofs.Analysis.Kept
import LinkedTables.Proofs.Links.History
import LinkedTables.Proofs.Run.Standing

/-!
# Selecting rows of the root

A graph is given other rows: its root is replaced by data in which every variable over the leading
dimension has entries of before, at positions that a map gives, and every variable without dimensions
is as it was (`Dataset.Selects`). What the layout of a walked graph names is then found again
(`LinkGraph.Selects.variable`). A column that is bound has entries of the column before, so a value that
was a position is one, and a value that was a label is found at the same place
(`BoundData.labelPositions_selects`). So whatever could be bound can be bound
(`LinkGraph.Selects.exists_gather`).
-/

namespace LinkedTables

open Analysis (layoutOf)

/-- The entries on the right are those on the left at the positions that a map gives. -/
def Selects {α : Type} (f : Nat → Nat) (xs xs' : Array α) : Prop :=
  ∀ i < xs'.size, xs'[i]? = xs[f i]?

def Values.Selects (f : Nat → Nat) : Values → Values → Prop
  | .numbers xs, .numbers xs' => LinkedTables.Selects f xs xs'
  | .strings xs, .strings xs' => LinkedTables.Selects f xs xs'
  | _, _ => False

/-- The leading dimension has its name, with any labels. The variables over it alone have their entries at
the positions that a map gives, and those without dimensions have the value they had. -/
structure Dataset.Selects (f : Nat → Nat) (ds ds' : Dataset) : Prop where
  lead : ds'.dims.head?.map Dimension.name = ds.dims.head?.map Dimension.name
  along : ∀ p ∈ ds.vars, p.2.dims = [0] →
    ∃ v ∈ ds'.var? p.1, v.dims = [0] ∧ p.2.values.Selects f v.values
  scalar : ∀ p ∈ ds.vars, p.2.dims = [] → ds'.var? p.1 = some p.2

instance {α : Type} [DecidableEq α] (f : Nat → Nat) (xs xs' : Array α) :
    Decidable (Selects f xs xs') :=
  inferInstanceAs (Decidable (∀ i < xs'.size, xs'[i]? = xs[f i]?))

instance (f : Nat → Nat) : ∀ values values' : Values, Decidable (values.Selects f values')
  | .numbers xs, .numbers xs' => inferInstanceAs (Decidable (LinkedTables.Selects f xs xs'))
  | .strings xs, .strings xs' => inferInstanceAs (Decidable (LinkedTables.Selects f xs xs'))
  | .numbers _, .strings _ | .strings _, .numbers _ => inferInstanceAs (Decidable False)

instance (f : Nat → Nat) (ds ds' : Dataset) : Decidable (ds.Selects f ds') :=
  decidable_of_iff (ds'.dims.head?.map Dimension.name = ds.dims.head?.map Dimension.name ∧
      (∀ p ∈ ds.vars, p.2.dims = [0] →
        ∃ v ∈ ds'.var? p.1, v.dims = [0] ∧ p.2.values.Selects f v.values) ∧
      ∀ p ∈ ds.vars, p.2.dims = [] → ds'.var? p.1 = some p.2)
    ⟨fun h => ⟨h.1, h.2.1, h.2.2⟩, fun h => ⟨h.lead, h.along, h.scalar⟩⟩

section Arrays

variable {α : Type} {f : Nat → Nat} {xs xs' : Array α}

theorem Selects.mem (h : Selects f xs xs') {x : α} (hx : x ∈ xs') : x ∈ xs := by
  obtain ⟨i, hi, rfl⟩ := Array.getElem_of_mem hx
  have hget := h i hi
  rw [Array.getElem?_eq_getElem hi] at hget
  exact Array.mem_of_getElem? hget.symm

theorem selects_id (xs : Array α) : Selects id xs xs := fun _ _ => rfl

theorem Values.selects_id (values : Values) : values.Selects id values := by
  cases values <;> exact LinkedTables.selects_id _

/-- Where every array has entries of the one before, so has the array at any place. -/
theorem mem_getD_of_forall₂ {before : Array (Array α)} {after : List (Array α)}
    (h : List.Forall₂ (fun xs xs' => ∀ x ∈ xs', x ∈ xs) before.toList after) (i : Nat) {x : α}
    (hx : x ∈ after.getD i #[]) : x ∈ before.getD i #[] := by
  rw [List.getD_eq_getElem?_getD] at hx
  rcases hi : after[i]? with _ | xs'
  · simp [hi] at hx
  · obtain ⟨hlt, rfl⟩ := List.getElem?_eq_some_iff.1 hi
    have hlt' : i < before.toList.length := h.length_eq ▸ hlt
    have hget := h.get hlt' hlt x (by simpa [hi] using hx)
    simpa [Array.getD_eq_getD_getElem?, show i < before.size from hlt'] using hget

end Arrays

namespace BoundData

variable {f : Nat → Nat} {l : Link}

theorem lookUpAll_selects {α : Type} {shown : α → String} {position? : α → Option UInt32}
    {values values' : Array α} {found : Array UInt32} (hsel : LinkedTables.Selects f values values')
    (h : lookUpAll l shown position? values = .ok found) :
    ∃ found', lookUpAll l shown position? values' = .ok found' ∧
      LinkedTables.Selects f found found' := by
  obtain ⟨hsize, hfound⟩ := lookUpAll_ok h
  have hposition : ∀ (i : Nat) (x : α), values[i]? = some x →
      ∃ p, found[i]? = some p ∧ position? x = some p := fun i x hx => by
    have hi : i < found.size := hsize.trans_gt (Array.getElem?_eq_some_iff.1 hx).1
    obtain ⟨y, hy, hp⟩ := hfound i found[i] (Array.getElem?_eq_getElem hi)
    obtain rfl : x = y := Option.some.inj (hx.symm.trans hy)
    exact ⟨_, Array.getElem?_eq_getElem hi, hp⟩
  have hall : ∀ x ∈ values', ∃ p, position? x = some p := fun x hx => by
    obtain ⟨i, hi, rfl⟩ := Array.getElem_of_mem (hsel.mem hx)
    obtain ⟨p, -, hp⟩ := hposition i _ (Array.getElem?_eq_getElem hi)
    exact ⟨p, hp⟩
  obtain ⟨found', hok⟩ : ∃ found', lookUpAll l shown position? values' = .ok found' :=
    exists_lookUpAll hall
  refine ⟨found', hok, fun i hi => ?_⟩
  obtain ⟨hsize', hfound'⟩ := lookUpAll_ok hok
  obtain ⟨x, hx, hp⟩ := hfound' i found'[i] (Array.getElem?_eq_getElem hi)
  obtain ⟨q, hq, hp'⟩ := hposition (f i) x ((hsel i (hsize' ▸ hi)).symm.trans hx)
  rw [hq, Array.getElem?_eq_getElem hi, ← hp, hp']

/-- Selected values have the positions that were found for them. -/
theorem labelPositions_selects {values values' : Values} {coords : Coords}
    {positions : Array UInt32} (hsel : values.Selects f values')
    (h : labelPositions l values coords = .ok positions) :
    ∃ positions', labelPositions l values' coords = .ok positions' ∧
      LinkedTables.Selects f positions positions' := by
  rcases values with xs | xs <;> rcases values' with xs' | xs' <;> try exact hsel.elim
  all_goals rcases coords with n | labels | labels
  all_goals try cases h
  all_goals unfold labelPositions at h ⊢
  · exact lookUpAll_selects hsel h
  all_goals
    dsimp only at h ⊢
    split at h
    · cases h
    · exact lookUpAll_selects hsel h

end BoundData

namespace LinkGraph

/-- The same tables and links, but for the data of the root. What lies over its leading dimension alone
is selected, with an entry for every row, and what lies over none is kept. -/
structure Selects (f : Nat → Nat) (root lead : String) (g g' : LinkGraph) : Prop where
  links : g'.links = g.links
  count : g'.tables.length = g.tables.length
  free : ∀ l ∈ g.links, l.targetTable ≠ root
  other : ∀ {table}, table ≠ root → g'.data? table = g.data? table
  along : ∀ {var values}, g.dimsOf? root var = some [lead] → g.values? root var = some values →
    g'.dimsOf? root var = some [lead] ∧ ∃ values', g'.values? root var = some values' ∧
      values.Selects f values' ∧ values'.size = g'.sizeOf root lead
  scalar : ∀ {var values}, g.dimsOf? root var = some [] → g.values? root var = some values →
    g'.dimsOf? root var = some [] ∧ g'.values? root var = some values

variable {g g' : LinkGraph} {f : Nat → Nat}

section Replaced

variable {root : Table} {ds : Dataset}

theorem rootName_of_checkedRoot (h : g.checkedRoot = .ok root) : g.rootName = .ok root.name := by
  obtain ⟨t, ht, h⟩ := bind_eq_ok h
  obtain ⟨name, hname, ht⟩ := bind_eq_ok ht
  obtain ⟨ds, hds, ht⟩ := bind_eq_ok ht
  cases ht
  dsimp only at h
  split at h
  · cases h
  · split_ifs at h
    · cases h
    · cases h
      exact hname

theorem checkedRoot_of (hname : g.rootName = .ok root.name) (hdata : g.data? root.name = some root.data)
    (hfree : ∀ l ∈ g.links, l.targetTable ≠ root.name) (hdims : root.data.dims ≠ []) :
    g.checkedRoot = .ok root := by
  have hinto : g.linksInto root.name = [] := by
    simpa [linksInto, List.filter_eq_nil_iff] using hfree
  have hempty : root.data.dims.isEmpty = false := by simpa using hdims
  simp [checkedRoot, LinkGraph.root, data, hname, hdata, hinto, hempty, bind, Except.bind, pure,
    Except.pure]

theorem rootName_replaceData {name : String} (h : g.replaceData name ds = .ok g') :
    g'.rootName = g.rootName := by
  obtain ⟨-, -, -, rfl⟩ := replaceData_ok h
  unfold rootName
  dsimp only
  rcases g.chosenRoot with _ | r
  · rcases g.tables with _ | ⟨t, ts⟩
    · rfl
    · simp only [List.map_cons]
      split_ifs <;> rfl
  · rfl

/-- The root of before, with the data that it was given. -/
theorem checkedRoot_replaceData (hroot : g.checkedRoot = .ok root) (hdims : ds.dims ≠ [])
    (h : g.replaceData root.name ds = .ok g') : g'.checkedRoot = .ok ⟨root.name, ds⟩ := by
  obtain ⟨-, hlinks, -, hdata, -⟩ := replaceData_frame h
  obtain ⟨-, hfree, -⟩ := checkedRoot_ok hroot
  refine checkedRoot_of ?_ hdata (hlinks ▸ hfree) hdims
  rw [rootName_replaceData h, rootName_of_checkedRoot hroot]

/-- What lies over the leading dimension alone, by its name, lies over the first one, by its place. -/
theorem dims_eq_of_lead {old : Dataset} (hv : old.Valid) {lead : String}
    (hlead : old.dims.head?.map Dimension.name = some lead) {v : Variable} (hc : old.Carries v)
    (h : old.dimNames v.dims = [lead]) : v.dims = [0] := by
  obtain ⟨i, hi, hname⟩ := List.map_eq_singleton_iff.1 h
  have hlt : i < old.dims.length := hc.lt i (by simp [hi])
  have hzero : (old.dims.map Dimension.name)[0]? = some lead := by
    rw [← List.head?_eq_getElem?, List.head?_map, hlead]
  have hplace : (old.dims.map Dimension.name)[i]? = some lead := by
    rw [List.getElem?_map, List.getElem?_eq_getElem hlt, Option.map_some, ← hname,
      Dataset.dimName_of_getElem? (List.getElem?_eq_getElem hlt)]
  rw [hi, (List.getElem?_inj (by simpa using hlt) hv.distinct).1 (hplace.trans hzero.symm)]

theorem selects_of_replaceData (hg : g.Built) (hg' : g'.Built) (hbound : g'.Bounded)
    (hroot : g.checkedRoot = .ok root) {lead : String}
    (hlead : root.data.dims.head?.map Dimension.name = some lead) (hsel : root.data.Selects f ds)
    (h : g.replaceData root.name ds = .ok g') : g.Selects f root.name lead g' := by
  obtain ⟨hnames, hlinks, -, hdata', hother⟩ := replaceData_frame h
  obtain ⟨hdata, hfree, -⟩ := checkedRoot_ok hroot
  have hlead' : ds.dimName 0 = lead := by
    have hhead := hsel.lead.trans hlead
    rw [List.head?_eq_getElem?, Option.map_eq_some_iff] at hhead
    obtain ⟨d, hd, hname⟩ := hhead
    rw [Dataset.dimName_of_getElem? hd, hname]
  refine ⟨hlinks, by simpa [names] using congrArg List.length hnames, hfree, fun hne => hother _ hne,
    fun {var values} hdims hvalues => ?_, fun {var values} hdims hvalues => ?_⟩
  all_goals
    obtain ⟨old, v, hold, hvar, hover⟩ := dimsOf?_eq_some.1 hdims
    obtain rfl : root.data = old := Option.some.inj (hdata.symm.trans hold)
    obtain rfl : v.values = values := by simpa [values?, hold, hvar] using hvalues
  · have hcarries := (hg.valid.data_of hold).carries_of_var? hvar
    obtain ⟨w, hvar', hplace, hselects⟩ := hsel.along _ (Dataset.mem_of_var? hvar)
      (dims_eq_of_lead (hg.valid.data_of hold) hlead hcarries hover)
    have hvar' : ds.var? var = some w := hvar'
    have hdims' : g'.dimsOf? root.name var = some [lead] :=
      dimsOf?_eq_some.2 ⟨ds, w, hdata', hvar', by simp [Dataset.dimNames, hplace, hlead']⟩
    have hvalues' : g'.values? root.name var = some w.values := by simp [values?, hdata', hvar']
    refine ⟨hdims', w.values, hvalues', hselects, ?_⟩
    rw [size_values hg'.valid hbound hdims' hvalues', extent_cons, extent_nil, Nat.mul_one]
  · have hnone : v.dims = [] := List.map_eq_nil_iff.1 hover
    have hvar' : ds.var? var = some v := hsel.scalar _ (Dataset.mem_of_var? hvar) hnone
    exact ⟨dimsOf?_eq_some.2 ⟨ds, v, hdata', hvar', by simp [Dataset.dimNames, hnone]⟩,
      by simp [values?, hdata', hvar']⟩

end Replaced

section Found

variable {root lead : String}

theorem Selects.dim? (h : g.Selects f root lead g') {table : String} (hne : table ≠ root)
    (dim : String) : g'.dim? table dim = g.dim? table dim := by
  rw [LinkGraph.dim?, LinkGraph.dim?, h.other hne]

theorem Selects.extent (h : g.Selects f root lead g') {table : String} (hne : table ≠ root)
    (dims : List String) : g'.extent table dims = g.extent table dims :=
  congrArg List.prod (List.map_congr_left fun d _ => by rw [sizeOf, sizeOf, h.dim? hne])

theorem Selects.into? (h : g.Selects f root lead g') (table dim : String) :
    g'.into? table dim = g.into? table dim := by
  simp only [LinkGraph.into?, incoming?, h.links]

theorem Selects.target_ne (h : g.Selects f root lead g') {l : Link}
    (hinto : g.into? l.targetTable l.targetDim = some l) : l.targetTable ≠ root :=
  h.free l (into?_eq_some hinto).1

/-- A variable, of the root over its leading dimension or over none, has the values it had, or selected
ones. -/
theorem Selects.variable (h : g.Selects f root lead g') {table var : String}
    {dims : List String} {values : Values} (hdims : g.dimsOf? table var = some dims)
    (hvalues : g.values? table var = some values)
    (hwalked : table = root → dims ≠ [] → dims = [lead]) :
    g'.dimsOf? table var = some dims ∧ ∃ values', g'.values? table var = some values' ∧
      ((table = root → dims = []) ∧ values' = values ∨ table = root ∧ dims = [lead] ∧
        values.Selects f values' ∧ values'.size = g'.sizeOf root lead) := by
  by_cases htable : table = root
  · subst htable
    by_cases hnone : dims = []
    · subst hnone
      obtain ⟨hdims', hvalues'⟩ := h.scalar hdims hvalues
      exact ⟨hdims', values, hvalues', Or.inl ⟨fun _ => rfl, rfl⟩⟩
    · obtain rfl := hwalked rfl hnone
      obtain ⟨hdims', values', hvalues', hselects⟩ := h.along hdims hvalues
      exact ⟨hdims', values', hvalues', Or.inr ⟨rfl, rfl, hselects⟩⟩
  · have hdata := h.other htable
    refine ⟨?_, values, ?_, Or.inl ⟨fun heq => absurd heq htable, rfl⟩⟩
    · rwa [dimsOf?, hdata]
    · rwa [values?, hdata]

/-- A column has entries of the column before. -/
theorem Selects.column (h : g.Selects f root lead g') {c : ColumnRef} {data : Array Float}
    (hdims : g.dimsOf? c.table c.var = some c.dims)
    (hvalues : g.values? c.table c.var = some (.numbers data))
    (hwalked : c.table = root → c.dims ≠ [] → c.dims = [lead]) :
    ∃ data', BoundData.column g' c = .ok data' ∧ ∀ x ∈ data', x ∈ data := by
  obtain ⟨hdims', values', hvalues', hcases⟩ := h.variable hdims hvalues hwalked
  rcases hcases with ⟨-, rfl⟩ | ⟨-, -, hselects, -⟩
  · exact ⟨data, BoundData.column_of hdims' hvalues', fun _ hx => hx⟩
  · rcases values' with data' | _
    · exact ⟨data', BoundData.column_of hdims' hvalues', fun _ hx =>
        LinkedTables.Selects.mem hselects hx⟩
    · exact hselects.elim

/-- A label table whose source has selected values has the positions that were selected with them. -/
theorem Selects.labelTable (h : g.Selects f root lead g') {t : TableRef} {positions : Array UInt32}
    (htable : BoundData.labelTable g t = .ok positions) {values values' : Values} {k : Nat → Nat}
    (hvalues : g.values? t.link.sourceTable t.link.sourceVar = some values)
    (hdims' : g'.dimsOf? t.link.sourceTable t.link.sourceVar = some t.dims)
    (hvalues' : g'.values? t.link.sourceTable t.link.sourceVar = some values')
    (hselects : values.Selects k values') : ∃ positions',
      BoundData.labelTable g' t = .ok positions' ∧ LinkedTables.Selects k positions positions' := by
  obtain ⟨hinto, -, found, d, hfound, hd, hok⟩ := BoundData.labelTable_ok htable
  obtain rfl : values = found := Option.some.inj (hvalues.symm.trans hfound)
  obtain ⟨positions', hok', hselected⟩ := BoundData.labelPositions_selects hselects hok
  refine ⟨positions', BoundData.labelTable_of ((h.into? _ _).trans hinto) hdims' hvalues' ?_ hok',
    hselected⟩
  rw [h.dim? (h.target_ne hinto), hd]

/-- What is bound for a walked layout is bound again, after a selection. -/
theorem Selects.exists_gather (h : g.Selects f root lead g') {l : Lowered}
    (hwalked : l.Walked root lead) {rowDim rowDim' : Dimension} {src : Sources}
    (hgathered : BoundData.Gathered (layoutOf root l) g rowDim src)
    (hrows : BoundData.findRows g' root = .ok rowDim') :
    ∃ src', BoundData.gather g' (layoutOf root l) = .ok (rowDim', src') := by
  obtain ⟨columns, hcolumns, hsub⟩ := exists_of_forall₂
    (P := fun c data' => BoundData.column g' c = .ok data')
    (Q := fun data data' => ∀ x ∈ data', x ∈ data) hgathered.columns
    fun c hc data ⟨hdims, hvalues⟩ => h.column hdims hvalues (hwalked.columns c hc)
  obtain ⟨tables, htables⟩ := mapM_ok (f := BoundData.labelTable g') fun t (ht : t ∈ l.tables) => by
    obtain ⟨positions, -, htable⟩ := exists_of_mem_left hgathered.tables t ht
    obtain ⟨-, hdims, values, -, hvalues, -⟩ := BoundData.labelTable_ok htable
    obtain ⟨hdims', values', hvalues', hcases⟩ := h.variable hdims hvalues (hwalked.tables t ht)
    obtain ⟨k, hselects⟩ : ∃ k, values.Selects k values' := by
      rcases hcases with ⟨-, rfl⟩ | ⟨-, -, hselects, -⟩
      · exact ⟨id, values'.selects_id⟩
      · exact ⟨f, hselects⟩
    obtain ⟨positions', htable', -⟩ := h.labelTable htable hvalues hdims' hvalues' hselects
    exact ⟨positions', htable'⟩
  refine ⟨_, BoundData.gather_of hrows (fun s hs => ?_) hcolumns (fun c hc => ?_)
    (forall₂_of_mapM htables)
    fun c hc => BoundData.checkLink_of ((h.into? _ _).trans (hgathered.checks c hc))⟩
  · obtain ⟨d, hd, hsize⟩ := hgathered.shapes s hs
    exact BoundData.checkShape_of ((h.dim? (hwalked.shapes s hs) _).trans hd) hsize
  · obtain ⟨d, hd, hpositions⟩ := hgathered.positions c hc
    exact BoundData.checkPositions_of ((h.dim? (h.target_ne (hgathered.checks c hc)) _).trans hd)
      fun x hx => hpositions x (mem_getD_of_forall₂ hsub _ hx)

end Found

end LinkGraph

end LinkedTables
