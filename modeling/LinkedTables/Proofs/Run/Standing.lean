import LinkedTables.Proofs.Run.Gathered
import LinkedTables.Proofs.Run.Lookup
import LinkedTables.Proofs.Run.Values

/-!
# What entries stand for

An entry of the source of a link stands for a position along its target: for the only one whose label
it is, mark for mark, or for the position that it is, if the link is positional
(`LinkGraph.stands?`). The label tables that are bound hold these positions if words number them and
no entry is clamped to a label that it is not (`tells_stands`). So the data store what a row is made
of (`Gathered.stored`).
-/

namespace LinkedTables

open Number (whole?)

/-- An entry of the source of a link is the label at a position of the target, or the position. -/
def Link.bears (l : Link) (values : Values) (coords : Coords) (entry position : Nat) : Bool :=
  match l.mode with
  | .label => values.marks[entry]?.join.any fun mark => coords.marks[position]? == some mark
  | .position => values.marks[entry]? == some (some (.whole position))

namespace LinkGraph

/-- The only position along the target of a link that an entry of its source stands for. -/
def stands? (g : LinkGraph) (l : Link) (entry : Nat) : Option Nat := do
  let values ← g.values? l.sourceTable l.sourceVar
  let d ← g.dim? l.targetTable l.targetDim
  match (List.range d.size).filter (l.bears values d.coords entry) with
  | [position] => some position
  | _ => none

/-- Every variable has fewer than `2 ^ 53` entries, so that every index is a double. -/
def Bounded (g : LinkGraph) : Prop :=
  ∀ t ∈ g.tables, ∀ p ∈ t.data.vars, t.data.extent p.2.dims < 2 ^ 53

instance (g : LinkGraph) : Decidable g.Bounded :=
  inferInstanceAs (Decidable (∀ t ∈ g.tables, ∀ p ∈ t.data.vars, t.data.extent p.2.dims < 2 ^ 53))

/-- Wherever labels are looked up there are so few of them that words number their positions. -/
def LabelsFit (g : LinkGraph) : Prop :=
  ∀ l ∈ g.links, l.mode = .label → g.sizeOf l.targetTable l.targetDim ≤ 2 ^ 32

instance (g : LinkGraph) : Decidable g.LabelsFit :=
  inferInstanceAs (Decidable (∀ l ∈ g.links, l.mode = .label →
    g.sizeOf l.targetTable l.targetDim ≤ 2 ^ 32))

/-- Wherever labels are looked up, no entry is taken for a label that it is not. -/
def Unclamped (g : LinkGraph) : Prop :=
  ∀ l ∈ g.links, l.mode = .label → ∀ values ∈ g.values? l.sourceTable l.sourceVar,
    ∀ d ∈ g.dim? l.targetTable l.targetDim, ¬ d.coords.Clamps values

instance (g : LinkGraph) : Decidable g.Unclamped :=
  inferInstanceAs (Decidable (∀ l ∈ g.links, l.mode = .label →
    ∀ values ∈ g.values? l.sourceTable l.sourceVar,
      ∀ d ∈ g.dim? l.targetTable l.targetDim, ¬ d.coords.Clamps values))

theorem stands?_eq_some {g : LinkGraph} {l : Link} {values : Values} {d : Dimension}
    {entry position : Nat} (hvalues : g.values? l.sourceTable l.sourceVar = some values)
    (hd : g.dim? l.targetTable l.targetDim = some d) (hlt : position < d.size)
    (hbears : l.bears values d.coords entry position = true)
    (honly : ∀ q, l.bears values d.coords entry q = true → q = position) :
    g.stands? l entry = some position := by
  have hmem : ∀ q, q ∈ (List.range d.size).filter (l.bears values d.coords entry) ↔
      q ∈ [position] := by
    intro q
    rw [List.mem_filter, List.mem_range, List.mem_singleton]
    exact ⟨fun h => honly q h.2, by rintro rfl; exact ⟨hlt, hbears⟩⟩
  have hfilter := List.perm_singleton.1 ((List.perm_ext_iff_of_nodup
    (List.nodup_range.filter _) (List.nodup_singleton position)).2 hmem)
  simp [stands?, hvalues, hd, hfilter]

theorem extent_lt {g : LinkGraph} (hv : g.Valid) (hbound : g.Bounded) {table var : String}
    {dims : List String} (h : g.dimsOf? table var = some dims) : g.extent table dims < 2 ^ 53 := by
  obtain ⟨ds, x, hds, hvar, rfl⟩ := dimsOf?_eq_some.1 h
  rw [extent_dimNames hv hds ((hv.data_of hds).carries_of_var? hvar).lt]
  obtain ⟨t, ht, -, rfl⟩ := exists_of_data? hds
  exact hbound t ht _ (Dataset.mem_of_var? hvar)

/-- A variable has as many entries as its dimensions have positions together. -/
theorem size_values {g : LinkGraph} (hv : g.Valid) (hbound : g.Bounded) {table var : String}
    {dims : List String} {values : Values} (hdims : g.dimsOf? table var = some dims)
    (hvalues : g.values? table var = some values) : values.size = g.extent table dims := by
  have hsmall := extent_lt hv hbound hdims
  obtain ⟨ds, x, hds, hvar, rfl⟩ := dimsOf?_eq_some.1 hdims
  obtain rfl : x.values = values := by simpa [values?, hds, hvar] using hvalues
  have hcarries := (hv.data_of hds).carries_of_var? hvar
  rw [extent_dimNames hv hds hcarries.lt] at hsmall ⊢
  rw [hcarries.size, Nat.mod_eq_of_lt (by omega)]

end LinkGraph

namespace LinkGraph

variable {g : LinkGraph}

/-- What entries are said to stand for is what the label tables hold, and what the sources of
positional links are. -/
structure Tells (g : LinkGraph) (stands? : Link → Nat → Option Nat) : Prop where
  labels : ∀ t positions, t.link.mode = .label → BoundData.labelTable g t = .ok positions →
    ∀ (k : Nat) (p : UInt32), positions[k]? = some p → stands? t.link k = some p.toNat
  positions : ∀ l data d, l.mode = .position →
    g.values? l.sourceTable l.sourceVar = some (.numbers data) →
    g.dim? l.targetTable l.targetDim = some d → ∀ (k : Nat) (x : Float) (n : Nat),
      data[k]? = some x → whole? x = some (n : Int) → n < d.size → stands? l k = some n

theorem stands?_of_position {l : Link} {data : Array Float} {d : Dimension} (hmode : l.mode = .position)
    (hvalues : g.values? l.sourceTable l.sourceVar = some (.numbers data))
    (hd : g.dim? l.targetTable l.targetDim = some d) {k : Nat} {x : Float} {n : Nat}
    (hx : data[k]? = some x) (hn : whole? x = some (n : Int)) (hlt : n < d.size) :
    g.stands? l k = some n := by
  have hmark : (Values.numbers data).marks[k]? = some (some (.whole n)) := by
    simp [Values.marks, hx, hn]
  have hbears : ∀ q, l.bears (.numbers data) d.coords k q = true ↔ n = q := fun q => by
    simp [Link.bears, hmode, hmark]
  exact stands?_eq_some hvalues hd hlt ((hbears n).2 rfl) fun q hq => ((hbears q).1 hq).symm

/-- The only position whose label an entry is, is what the entry stands for. -/
theorem stands?_of_label {l : Link} {values : Values} {d : Dimension} (hmode : l.mode = .label)
    (hvalues : g.values? l.sourceTable l.sourceVar = some values)
    (hd : g.dim? l.targetTable l.targetDim = some d) {k position : Nat} {mark : Mark}
    (hmark : values.marks[k]? = some (some mark))
    (honly : ∀ q, d.coords.marks[q]? = some mark ↔ q = position) (hlt : position < d.size) :
    g.stands? l k = some position := by
  have hbears : ∀ q, l.bears values d.coords k q = true ↔ q = position := fun q => by
    simp [Link.bears, hmode, hmark, honly]
  exact stands?_eq_some hvalues hd hlt ((hbears position).2 rfl) fun q => (hbears q).1

/-- If words number the positions of labels and no entry is clamped, then entries stand for what their
labels say. -/
theorem tells_stands (hfit : g.LabelsFit) (hclear : g.Unclamped) : g.Tells g.stands? where
  labels t table hmode htable k word hword := by
    obtain ⟨hinto, -, values, d, hvalues, hd, hok⟩ := BoundData.labelTable_ok htable
    have hlink := (into?_eq_some hinto).1
    have hlocated := BoundData.located_of_labelPositions
      (hclear t.link hlink hmode values hvalues d hd) hok
    obtain ⟨mark, position, hmark, honly, hnumber⟩ := hlocated.entry k word hword
    have hlt : position < d.size :=
      (List.getElem?_eq_some_iff.1 ((honly position).2 rfl)).1.trans_eq d.coords.length_marks
    have hsmall := hfit t.link hlink hmode
    rw [sizeOf_of_dim? hd] at hsmall
    rw [hnumber (hlt.trans_le hsmall)]
    exact stands?_of_label hmode hvalues hd hmark honly hlt
  positions _ _ _ hmode hvalues hd _ _ _ hx hn hlt := stands?_of_position hmode hvalues hd hx hn hlt

/-- The position that a label table holds for an entry, whether or not words number the positions. -/
def tabled? (g : LinkGraph) (l : Link) (entry : Nat) : Option Nat :=
  match l.mode, g.dimsOf? l.sourceTable l.sourceVar with
  | .label, some dims =>
    match BoundData.labelTable g ⟨l, dims⟩ with
    | .ok positions => positions[entry]?.map UInt32.toNat
    | .error _ => none
  | _, _ => g.stands? l entry

theorem tells_tabled : g.Tells g.tabled? where
  labels t positions hmode htable k p hp := by
    obtain ⟨-, hdims, -⟩ := BoundData.labelTable_ok htable
    unfold tabled?
    simp [hmode, hdims, htable, hp]
  positions l _ _ hmode hvalues hd k _ _ hx hn hlt := by
    unfold tabled?
    rw [hmode]
    exact stands?_of_position hmode hvalues hd hx hn hlt

end LinkGraph

namespace BoundData

namespace Gathered

variable {g : LinkGraph} {F : Layout} {rowDim : Dimension} {src : Sources}

/-- The rows are those of the leading dimension of the root. -/
theorem sizeOf_lead (h : Gathered F g rowDim src) (hv : g.Valid) :
    g.sizeOf F.root rowDim.name = rowDim.size := by
  obtain ⟨t, ht, hname, hhead⟩ := h.root
  obtain ⟨hdata, -⟩ := LinkGraph.checkedRoot_ok ht
  rw [List.head?_eq_getElem?] at hhead
  exact LinkGraph.sizeOf_of_dim? (LinkGraph.dim?_of_getElem? hv (hname ▸ hdata) hhead)

theorem column (h : Gathered F g rowDim src) {i : Nat} {c : ColumnRef}
    (hc : F.columns[i]? = some c) : ∃ data, src.columns[i]? = some data ∧
      g.dimsOf? c.table c.var = some c.dims ∧ g.values? c.table c.var = some (.numbers data) := by
  obtain ⟨hlt, rfl⟩ := List.getElem?_eq_some_iff.1 hc
  have hlt' : i < src.columns.toList.length := h.columns.length_eq ▸ hlt
  have hget := h.columns.get hlt hlt'
  simp only [List.get_eq_getElem, Array.getElem_toList] at hget
  exact ⟨src.columns[i], by simp, hget⟩

theorem table (h : Gathered F g rowDim src) {i : Nat} {t : TableRef}
    (ht : F.tables[i]? = some t) : ∃ positions, src.tables[i]? = some positions ∧
      labelTable g t = .ok positions := by
  obtain ⟨hlt, rfl⟩ := List.getElem?_eq_some_iff.1 ht
  have hlt' : i < src.tables.toList.length := h.tables.length_eq ▸ hlt
  have hget := h.tables.get hlt hlt'
  simp only [List.get_eq_getElem, Array.getElem_toList] at hget
  exact ⟨src.tables[i], by simp, hget⟩

/-- A checked source holds positions along its target. -/
theorem checked (h : Gathered F g rowDim src) (hcolumns : ∀ i < F.columns.length, i < Text.bound32)
    {c : CheckRef} (hc : c ∈ F.checks)
    (hcolumn : F.HasColumn c.column c.link.sourceTable c.link.sourceVar) :
    ∃ data d, g.values? c.link.sourceTable c.link.sourceVar = some (.numbers data) ∧
      g.dim? c.link.targetTable c.link.targetDim = some d ∧
      (d.size < 2 ^ 64 → ∀ x ∈ data, ∃ n : Nat, whole? x = some (n : Int) ∧ n < d.size) := by
  obtain ⟨i, ref, hi, hget, htable, hvar⟩ := hcolumn
  obtain ⟨data, hdata, -, hvalues⟩ := h.column hget
  obtain ⟨d, hd, hpositions⟩ := h.positions c hc
  have hlt := hcolumns i (List.getElem?_eq_some_iff.1 hget).1
  have hword : c.column.toNat = i := by
    rw [hi]
    exact UInt32.toNat_ofNat_of_lt' hlt
  rw [hword, Array.getD_eq_getD_getElem?, hdata, Option.getD_some] at hpositions
  rw [htable, hvar] at hvalues
  exact ⟨data, d, hvalues, hd, fun hsmall x hx =>
    (Number.isIndexBelow_iff hsmall).1 (hpositions x hx)⟩

/-- A positional link that is followed has a checked source. Its entries stand for the whole numbers
that they are. -/
theorem positional (h : Gathered F g rowDim src)
    (hcolumns : ∀ i < F.columns.length, i < Text.bound32)
    (hchecks : ∀ c ∈ F.checks, F.HasColumn c.column c.link.sourceTable c.link.sourceVar)
    {stands? : Link → Nat → Option Nat} (htells : g.Tells stands?) {link : Link} {dims : List String}
    (hF : F.Follows link dims) (hmode : link.mode = .position) : ∃ data d,
      g.values? link.sourceTable link.sourceVar = some (.numbers data) ∧
      g.dim? link.targetTable link.targetDim = some d ∧ (d.size < 2 ^ 53 →
        ∀ (k : Nat) (x : Float), data[k]? = some x → ∃ n, stands? link k = some n ∧
          whole? x = some (n : Int) ∧ n < d.size) := by
  simp only [Layout.Follows, hmode] at hF
  obtain ⟨-, c, hc⟩ := hF
  obtain ⟨data, d, hvalues, hd, hwhole⟩ := h.checked hcolumns hc (hchecks _ hc)
  refine ⟨data, d, hvalues, hd, fun hsmall k x hx => ?_⟩
  obtain ⟨n, hn, hlt⟩ := hwhole (by omega) x (Array.mem_of_getElem? hx)
  exact ⟨n, htells.positions link data d hmode hvalues hd k x n hx hn hlt, hn, hlt⟩

/-- A label table of the layout has a position for every entry of its source, and each entry stands
for the one it has. -/
theorem labelled (h : Gathered F g rowDim src) (hv : g.Valid) (hbound : g.Bounded)
    {stands? : Link → Nat → Option Nat} (htells : g.Tells stands?) {i : Nat} {t : TableRef}
    (ht : F.tables[i]? = some t) (hmode : t.link.mode = .label) : ∃ positions d,
      src.tables[i]? = some positions ∧ g.dim? t.link.targetTable t.link.targetDim = some d ∧
      ∀ k < g.extent t.link.sourceTable t.dims, ∃ p, positions[k]? = some p ∧
        stands? t.link k = some p.toNat ∧ p.toNat < d.size := by
  obtain ⟨positions, hpos, htable⟩ := h.table ht
  obtain ⟨-, hdims, values, d, hvalues, hd, hok⟩ := labelTable_ok htable
  obtain ⟨hsize, hlt⟩ := labelPositions_ok hok
  rw [LinkGraph.size_values hv hbound hdims hvalues] at hsize
  refine ⟨positions, d, hpos, hd, fun k hk => ?_⟩
  have hget : positions[k]? = some positions[k] := by simp [hk.trans_eq hsize.symm]
  exact ⟨_, hget, htells.labels t positions hmode htable k _ hget,
    hlt _ (Array.mem_of_getElem? hget)⟩

/-- Every entry of a link that is followed stands for a position along the target. -/
theorem follows (h : Gathered F g rowDim src) (hv : g.Valid) (hbound : g.Bounded)
    (hcolumns : ∀ i < F.columns.length, i < Text.bound32)
    (hchecks : ∀ c ∈ F.checks, F.HasColumn c.column c.link.sourceTable c.link.sourceVar)
    {stands? : Link → Nat → Option Nat} (htells : g.Tells stands?) {row : Nat} {link : Link}
    {dims : List String} (hF : F.Follows link dims) :
    RowView.Follows ⟨g, F.root, rowDim.name, row, stands?⟩ link dims := by
  have hdims := (h.faithful.follows hF).2
  refine ⟨LinkGraph.extent_lt hv hbound hdims, fun hsmall i hi => ?_⟩
  rcases hmode : link.mode
  · have hmem := hF
    simp only [Layout.Follows, hmode] at hmem
    obtain ⟨k, hk⟩ := List.mem_iff_getElem?.1 hmem
    obtain ⟨positions, d, -, hd, hentries⟩ := h.labelled hv hbound htells hk hmode
    obtain ⟨p, -, hstands, hlt⟩ := hentries i hi
    exact ⟨_, hstands, hlt.trans_eq (LinkGraph.sizeOf_of_dim? hd).symm⟩
  · obtain ⟨data, d, hvalues, hd, hwhole⟩ := h.positional hcolumns hchecks htells hF hmode
    have hsize : data.size = _ := LinkGraph.size_values hv hbound hdims hvalues
    have hsizeOf := LinkGraph.sizeOf_of_dim? hd
    have hget : data[i]? = some data[i] := by simp [hi.trans_eq hsize.symm]
    obtain ⟨n, hstands, -, hlt⟩ := hwhole (hsizeOf ▸ hsmall) i _ hget
    exact ⟨n, hstands, hlt.trans_eq hsizeOf.symm⟩

/-- Whatever entries are said to stand for, if it is what is bound, then the data store what a row is
made of. -/
theorem stored (h : Gathered F g rowDim src) (hv : g.Valid) (hbound : g.Bounded)
    (hcolumns : ∀ i < F.columns.length, i < Text.bound32)
    (htables : ∀ i < F.tables.length, i < Text.bound32)
    (hchecks : ∀ c ∈ F.checks, F.HasColumn c.column c.link.sourceTable c.link.sourceVar)
    {stands? : Link → Nat → Option Nat} (htells : g.Tells stands?) {row : Nat}
    (hrow : row < rowDim.size) :
    RowView.Stored ⟨g, F.root, rowDim.name, row, stands?⟩ F src where
  valid := hv
  faithful := h.faithful
  inRange := by
    rw [RowView.InRange]
    exact hrow.trans_eq (h.sizeOf_lead hv).symm
  follows _ _ hF := h.follows hv hbound hcolumns hchecks htells hF
  small c hc := LinkGraph.extent_lt hv hbound (h.faithful.columns c hc)
  columns i c hc := by
    obtain ⟨data, hdata, hdims, hvalues⟩ := h.column hc
    exact ⟨hcolumns i (List.getElem?_eq_some_iff.1 hc).1, data, hdata, hvalues,
      LinkGraph.size_values hv hbound hdims hvalues⟩
  labels i t ht hmode := by
    obtain ⟨positions, d, hpos, -, hentries⟩ := h.labelled hv hbound htells ht hmode
    refine ⟨htables i (List.getElem?_eq_some_iff.1 ht).1, positions, hpos, fun k n hk hn => ?_⟩
    obtain ⟨p, hp, hstands, -⟩ := hentries k hk
    exact ⟨p, hp, Option.some.inj (hstands.symm.trans hn)⟩
  positions link dims hF hmode hsmall data hdata k n x hn hx := by
    obtain ⟨data', d, hvalues, hd, hwhole⟩ := h.positional hcolumns hchecks htells hF hmode
    have hsame := hdata.symm.trans hvalues
    simp only [Option.some.injEq, Values.numbers.injEq] at hsame
    subst hsame
    obtain ⟨m, hstands, hm, -⟩ := hwhole (LinkGraph.sizeOf_of_dim? hd ▸ hsmall) k x hx
    rw [hm, Option.some.inj (hstands.symm.trans hn)]

end Gathered

end BoundData

end LinkedTables
