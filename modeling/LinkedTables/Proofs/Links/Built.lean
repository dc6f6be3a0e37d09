import LinkedTables.Proofs.Data.Datasets
import LinkedTables.Proofs.Data.Loops
import LinkedTables.Proofs.Links.Reach
import LinkedTables.Proofs.Links.Spelling

/-!
# What holds of every graph

A graph that was built step by step from the empty one is valid (`Built.valid`): its tables have
distinct names and valid data, the ends of every link exist, no dimension is reached by two links,
no walk along links returns to its start, and no link leads into a chosen root, which has a leading
dimension. Each of the four steps keeps this.
-/

namespace LinkedTables

namespace LinkGraph

/-- What the public steps make of the empty graph. -/
inductive Built : LinkGraph → Prop
  | empty : Built empty
  | addTable {g g' : LinkGraph} {name : String} {data : Dataset} : Built g → data.Built →
      g.addTable name data = .ok g' → Built g'
  | addLink {g g' : LinkGraph} {l : Link} : Built g → g.addLink l = .ok g' → Built g'
  | setRoot {g g' : LinkGraph} {name : String} : Built g → g.setRoot name = .ok g' → Built g'
  | replaceData {g g' : LinkGraph} {name : String} {data : Dataset} : Built g → data.Built →
      g.replaceData name data = .ok g' → Built g'

/-- A variable that a link can start from. -/
def Feeds (ds : Dataset) (l : Link) : Prop :=
  ∃ v, ds.var? l.sourceVar = some v ∧ (l.mode = .position → v.values.kind ≠ .string)

/-- The dimension that a link leads into is there. -/
def Receives (ds : Dataset) (l : Link) : Prop := ∃ d, ds.dim? l.targetDim = some d

structure Valid (g : LinkGraph) : Prop where
  tableNames : ∀ t ∈ g.tables, Text.isName t.name.toList = true
  distinct : g.names.Nodup
  data : ∀ t ∈ g.tables, t.data.Valid
  source : ∀ l ∈ g.links, ∃ ds, g.data? l.sourceTable = some ds ∧ Feeds ds l
  target : ∀ l ∈ g.links, ∃ ds, g.data? l.targetTable = some ds ∧ Receives ds l
  single : g.links.Pairwise fun l m =>
    ¬ (l.targetTable = m.targetTable ∧ l.targetDim = m.targetDim)
  acyclic : Acyclic g.links
  root : ∀ r, g.chosenRoot = some r →
    (∃ ds, g.data? r = some ds ∧ ds.dims ≠ []) ∧ ∀ l ∈ g.links, l.targetTable ≠ r

section Lookup

variable {g : LinkGraph} {name : String}

theorem exists_of_data? {ds : Dataset} (h : g.data? name = some ds) :
    ∃ t ∈ g.tables, t.name = name ∧ t.data = ds := by
  obtain ⟨t, ht, rfl⟩ := Option.map_eq_some_iff.1 h
  exact ⟨t, List.mem_of_find?_eq_some ht, by simpa using List.find?_some ht, rfl⟩

theorem mem_names_of_data? {ds : Dataset} (h : g.data? name = some ds) : name ∈ g.names := by
  obtain ⟨t, ht, rfl, -⟩ := exists_of_data? h
  exact List.mem_map_of_mem ht

theorem data?_of_mem_names (h : name ∈ g.names) : ∃ ds, g.data? name = some ds := by
  obtain ⟨t, ht, rfl⟩ := List.mem_map.1 h
  have : (g.tables.find? (·.name == t.name)).isSome := List.find?_isSome.2 ⟨t, ht, by simp⟩
  obtain ⟨u, hu⟩ := Option.isSome_iff_exists.1 this
  exact ⟨u.data, by simp [data?, hu]⟩

theorem hasTable_iff : g.hasTable name = true ↔ name ∈ g.names := by
  rw [hasTable, Option.isSome_iff_exists]
  exact ⟨fun ⟨_, h⟩ => mem_names_of_data? h, data?_of_mem_names⟩

theorem data_ok {ds : Dataset} (h : g.data name = .ok ds) : g.data? name = some ds := by
  simp only [data] at h
  split at h
  · cases h
    assumption
  · cases h

theorem Valid.data_of (hv : g.Valid) {name : String} {ds : Dataset} (h : g.data? name = some ds) :
    ds.Valid := by
  obtain ⟨t, ht, -, rfl⟩ := exists_of_data? h
  exact hv.data t ht

theorem Valid.isName_of_data? (hv : g.Valid) {name : String} {ds : Dataset}
    (h : g.data? name = some ds) : Text.isName name.toList = true := by
  obtain ⟨t, ht, rfl, -⟩ := exists_of_data? h
  exact hv.tableNames t ht

theorem Valid.target_mem_names (hv : g.Valid) :
    ∀ l ∈ g.links, l.targetTable ∈ g.names := fun l hl => by
  obtain ⟨ds, hds, -⟩ := hv.target l hl
  exact mem_names_of_data? hds

theorem Valid.source_mem_names (hv : g.Valid) :
    ∀ l ∈ g.links, l.sourceTable ∈ g.names := fun l hl => by
  obtain ⟨ds, hds, -⟩ := hv.source l hl
  exact mem_names_of_data? hds

/-- All parts of a link are names, since its ends exist. -/
theorem Valid.named (hv : g.Valid) {l : Link} (hl : l ∈ g.links) : l.Named := by
  obtain ⟨src, hsrc, v, hvar, -⟩ := hv.source l hl
  obtain ⟨tgt, htgt, d, hd⟩ := hv.target l hl
  refine ⟨hv.isName_of_data? hsrc, (hv.data_of hsrc).isName_of_var? hvar, hv.isName_of_data? htgt,
    ?_⟩
  have hname : d.name = l.targetDim := by simpa using List.find?_some hd
  exact hname ▸ (hv.data_of htgt).dimNames d (List.mem_of_find?_eq_some hd)

theorem incoming?_eq_some {table dim : String} {i : Nat} {l : Link}
    (h : g.incoming? table dim = some (i, l)) :
    l ∈ g.links ∧ l.targetTable = table ∧ l.targetDim = dim := by
  obtain ⟨⟨m, j⟩, hfind, heq⟩ := Option.map_eq_some_iff.1 h
  simp only [Prod.mk.injEq] at heq
  obtain ⟨rfl, rfl⟩ := heq
  have htarget := List.find?_some hfind
  simp only [Bool.and_eq_true, beq_iff_eq] at htarget
  exact ⟨List.fst_mem_of_mem_zipIdx (List.mem_of_find?_eq_some hfind), htarget⟩

theorem incoming?_eq_none {table dim : String} (h : g.incoming? table dim = none) :
    ∀ l ∈ g.links, ¬ (l.targetTable = table ∧ l.targetDim = dim) := by
  rintro l hl ⟨rfl, rfl⟩
  obtain ⟨i, hi, rfl⟩ := List.mem_iff_getElem.1 hl
  have hmem : (g.links[i], i) ∈ g.links.zipIdx := by
    simp [List.mk_mem_zipIdx_iff_getElem?, hi]
  have := List.find?_eq_none.1 (Option.map_eq_none_iff.1 h) _ hmem
  simp at this

theorem linksInto_eq_nil (h : (g.linksInto name).isEmpty = true) :
    ∀ l ∈ g.links, l.targetTable ≠ name := by
  simp only [linksInto, List.isEmpty_iff, List.reverse_eq_nil_iff, List.filter_eq_nil_iff] at h
  exact fun l hl => by simpa using h l hl

end Lookup

section Steps

variable {g g' : LinkGraph} {name : String} {ds : Dataset}

theorem valid_empty : empty.Valid where
  tableNames := by simp [empty]
  distinct := by simp [empty, names]
  data := by simp [empty]
  source := by simp [empty]
  target := by simp [empty]
  single := by simp [empty]
  acyclic := by simp [empty, Acyclic]
  root := by simp [empty]

theorem data?_append {t : Table} (h : g.data? name = some ds) :
    ({ g with tables := g.tables ++ [t] } : LinkGraph).data? name = some ds := by
  obtain ⟨u, hu, rfl⟩ := Option.map_eq_some_iff.1 h
  simp [data?, List.find?_append, hu]

theorem valid_addTable {data : Dataset} (hv : g.Valid) (hdata : data.Valid)
    (h : g.addTable name data = .ok g') : g'.Valid := by
  simp only [addTable] at h
  split_ifs at h with hname hold
  · cases h
    refine ⟨?_, ?_, ?_, fun l hl => ?_, fun l hl => ?_, hv.single, hv.acyclic, fun r hr => ?_⟩
    · simp only [List.mem_append, List.mem_singleton]
      rintro t (ht | rfl)
      · exact hv.tableNames t ht
      · simpa using hname
    · have hnew : name ∉ g.names := fun hmem => hold (hasTable_iff.2 hmem)
      have := hv.distinct
      simp only [names, List.map_append, List.map_cons, List.map_nil] at this hnew ⊢
      rw [List.nodup_append]
      refine ⟨this, by simp, ?_⟩
      rintro a ha b hb rfl
      exact hnew (List.mem_singleton.1 hb ▸ ha)
    · simp only [List.mem_append, List.mem_singleton]
      rintro t (ht | rfl)
      · exact hv.data t ht
      · exact hdata
    · obtain ⟨ds, hds, hfeeds⟩ := hv.source l hl
      exact ⟨ds, data?_append hds, hfeeds⟩
    · obtain ⟨ds, hds, hreceives⟩ := hv.target l hl
      exact ⟨ds, data?_append hds, hreceives⟩
    · obtain ⟨⟨ds, hds, hdims⟩, hfree⟩ := hv.root r hr
      exact ⟨⟨ds, data?_append hds, hdims⟩, hfree⟩

/-- What a link that is admitted has. -/
theorem checkLink_ok {l : Link} (h : g.checkLink l = .ok ()) :
    (∃ ds, g.data? l.sourceTable = some ds ∧ Feeds ds l) ∧
      (∃ ds, g.data? l.targetTable = some ds ∧ Receives ds l) ∧
      g.incoming? l.targetTable l.targetDim = none ∧ g.chosenRoot ≠ some l.targetTable ∧
      g.leadsTo l.targetTable l.sourceTable = false := by
  simp only [checkLink, bind, Except.bind, throw, throwThe, MonadExceptOf.throw] at h
  split at h
  · cases h
  rename_i src hsrc
  split at h
  · cases h
  rename_i tgt htgt
  split at h
  · cases h
  rename_i v hvar
  split at h
  · cases h
  rename_i hdim
  split at h
  · cases h
  rename_i hkind
  split at h
  · cases h
  rename_i hincoming
  split_ifs at h with hroot hleads
  refine ⟨⟨src, data_ok hsrc, v, hvar, fun hmode hstring => hkind (by simp [hmode, hstring])⟩,
    ⟨tgt, data_ok htgt, ?_⟩, ?_, hroot, by simpa using hleads⟩
  · exact Option.ne_none_iff_exists'.1 (by simpa using hdim)
  · exact Option.eq_none_iff_forall_ne_some.2 fun p hp => hincoming p.1 p.2 hp

theorem valid_addLink {l : Link} (hv : g.Valid) (h : g.addLink l = .ok g') : g'.Valid := by
  obtain ⟨_, hcheck, h⟩ := bind_eq_ok h
  cases h
  obtain ⟨hsource, htarget, hincoming, hroot, hleads⟩ := checkLink_ok hcheck
  have hmem : ∀ {P : Link → Prop}, (∀ m ∈ g.links, P m) → P l → ∀ m ∈ g.links ++ [l], P m := by
    intro P hold hnew m hm
    rcases List.mem_append.1 hm with hm | hm
    · exact hold m hm
    · exact List.mem_singleton.1 hm ▸ hnew
  refine ⟨hv.tableNames, hv.distinct, hv.data, hmem hv.source hsource, hmem hv.target htarget, ?_,
    ?_, fun r hr => ⟨(hv.root r hr).1, hmem (hv.root r hr).2 fun heq => hroot (heq ▸ hr)⟩⟩
  · refine List.pairwise_append.2 ⟨hv.single, by simp, fun m hm n hn => ?_⟩
    obtain rfl := List.mem_singleton.1 hn
    exact incoming?_eq_none hincoming m hm
  · refine acyclic_append hv.acyclic fun hwalk => ?_
    obtain ⟨tgt, htgt, -⟩ := htarget
    rw [(leadsTo_iff hv.target_mem_names (mem_names_of_data? htgt)).2 hwalk] at hleads
    cases hleads

theorem valid_setRoot (hv : g.Valid) (h : g.setRoot name = .ok g') : g'.Valid := by
  simp only [setRoot, bind, Except.bind] at h
  split at h
  · cases h
  rename_i ds hds
  split_ifs at h with hdims hinto
  cases h
  refine ⟨hv.tableNames, hv.distinct, hv.data, hv.source, hv.target, hv.single, hv.acyclic, ?_⟩
  rintro r ⟨⟩
  exact ⟨⟨ds, data_ok hds, by simpa using hdims⟩,
    linksInto_eq_nil (g := g) (by simpa using hinto)⟩

/-- Replaced data have what the links of the table use. -/
theorem checkReplacement_ok {l : Link} (h : checkReplacement name ds l = .ok ()) :
    (l.sourceTable = name → Feeds ds l) ∧ (l.targetTable = name → Receives ds l) := by
  simp only [checkReplacement, bind, Except.bind, pure, Except.pure, throw, throwThe,
    MonadExceptOf.throw] at h
  have hsource : l.sourceTable = name → Feeds ds l := by
    intro hs
    rw [if_pos hs] at h
    split at h
    · cases h
    rename_i v hvar
    refine ⟨v, hvar, fun hmode hkind => ?_⟩
    simp [hmode, hkind] at h
  refine ⟨hsource, fun ht => Option.ne_none_iff_exists'.1 fun hnone => ?_⟩
  simp only [ht, hnone, decide_true, Option.isNone_none, Bool.and_self, if_true] at h
  split_ifs at h
  split at h
  · cases h
  · split_ifs at h

theorem data?_replace (g : LinkGraph) (name other : String) (ds : Dataset) :
    ({ g with tables := g.tables.map fun t => if t.name == name then { t with data := ds } else t } :
      LinkGraph).data? other =
        if other = name then (g.data? name).map fun _ => ds else g.data? other := by
  have hsame : (fun t : Table => (if t.name == name then { t with data := ds } else t).name == other)
      = fun t => t.name == other := by
    funext t
    split_ifs <;> rfl
  simp only [data?, List.find?_map, Function.comp_def, hsame, Option.map_map]
  split_ifs with heq
  · subst heq
    refine Option.map_congr fun t ht => ?_
    have hname := List.find?_some ht
    simp [hname]
  · refine Option.map_congr fun t ht => ?_
    have hname : t.name = other := by simpa using List.find?_some ht
    simp [hname, heq]

theorem names_replace (g : LinkGraph) (name : String) (ds : Dataset) :
    ({ g with tables := g.tables.map fun t => if t.name == name then { t with data := ds } else t } :
      LinkGraph).names = g.names := by
  rw [names, List.map_map]
  exact List.map_congr_left fun t _ => by simp only [Function.comp]; split_ifs <;> rfl

/-- What a replacement that is admitted has. -/
theorem replaceData_ok (h : g.replaceData name ds = .ok g') : (∃ old, g.data? name = some old) ∧
      (∀ l ∈ g.links, (l.sourceTable = name → Feeds ds l) ∧ (l.targetTable = name → Receives ds l)) ∧
      (g.chosenRoot = some name → ds.dims ≠ []) ∧
      g' = { g with
        tables := g.tables.map fun t => if t.name == name then { t with data := ds } else t } := by
  simp only [replaceData, bind, Except.bind, throw, throwThe, MonadExceptOf.throw] at h
  split at h
  · cases h
  rename_i old hold
  split at h
  · cases h
  rename_i hchecks
  split_ifs at h with hroot
  cases h
  refine ⟨⟨old, data_ok hold⟩, fun l hl => ?_, fun hr => by simpa [hr] using hroot, rfl⟩
  have hall : ∀ l ∈ g.linksOutOf name ++ g.linksInto name, checkReplacement name ds l = .ok () :=
    forIn_ok hchecks
  refine ⟨fun hs => (checkReplacement_ok (hall l ?_)).1 hs,
    fun ht => (checkReplacement_ok (hall l ?_)).2 ht⟩
  · simp [linksOutOf, hl, hs]
  · simp [linksInto, hl, ht]

theorem valid_replaceData (hv : g.Valid) (hds : ds.Valid) (h : g.replaceData name ds = .ok g') :
    g'.Valid := by
  obtain ⟨⟨old, hold⟩, hlinks, hroot, rfl⟩ := replaceData_ok h
  have hdata : ∀ {other : String} {ds' : Dataset} {P : Dataset → Prop},
      g.data? other = some ds' → P ds' → (other = name → P ds) →
      ∃ ds'', ({ g with tables := g.tables.map fun t =>
        if t.name == name then { t with data := ds } else t } : LinkGraph).data? other = some ds'' ∧
          P ds'' := by
    intro other ds' P hother hP hnew
    rw [data?_replace]
    split_ifs with heq
    · exact ⟨ds, by simp [hold], hnew heq⟩
    · exact ⟨ds', hother, hP⟩
  refine ⟨?_, by rw [names_replace]; exact hv.distinct, ?_, fun l hl => ?_, fun l hl => ?_, hv.single,
    hv.acyclic, fun r hr => ?_⟩
  · intro t ht
    obtain ⟨u, hu, rfl⟩ := List.mem_map.1 ht
    split_ifs
    · exact hv.tableNames u hu
    · exact hv.tableNames u hu
  · intro t ht
    obtain ⟨u, hu, rfl⟩ := List.mem_map.1 ht
    split_ifs
    · exact hds
    · exact hv.data u hu
  · obtain ⟨ds', hds', hfeeds⟩ := hv.source l hl
    exact hdata (P := fun d => Feeds d l) hds' hfeeds (hlinks l hl).1
  · obtain ⟨ds', hds', hreceives⟩ := hv.target l hl
    exact hdata (P := fun d => Receives d l) hds' hreceives (hlinks l hl).2
  · obtain ⟨⟨ds', hds', hdims⟩, hfree⟩ := hv.root r hr
    exact ⟨hdata (P := fun d => d.dims ≠ []) hds' hdims fun heq => hroot (heq ▸ hr), hfree⟩

theorem Built.valid (h : g.Built) : g.Valid := by
  induction h with
  | empty => exact valid_empty
  | addTable _ hdata step ih => exact valid_addTable ih hdata.valid step
  | addLink _ step ih => exact valid_addLink ih step
  | setRoot _ step ih => exact valid_setRoot ih step
  | replaceData _ hdata step ih => exact valid_replaceData ih hdata.valid step

end Steps

/-- The root that can be walked is one of the tables, no link leads into it, and it has a leading
dimension. -/
theorem checkedRoot_ok {g : LinkGraph} {r : Table} (h : g.checkedRoot = .ok r) :
    g.data? r.name = some r.data ∧ (∀ l ∈ g.links, l.targetTable ≠ r.name) ∧
      ∃ d rest, r.data.dims = d :: rest := by
  simp only [checkedRoot, root, bind, Except.bind, pure, Except.pure, throw, throwThe,
    MonadExceptOf.throw] at h
  split at h
  · cases h
  rename_i t hroot
  split at hroot
  · cases hroot
  rename_i name hname
  split at hroot
  · cases hroot
  rename_i ds hds
  cases hroot
  split at h
  · cases h
  rename_i hinto
  split_ifs at h with hdims
  cases h
  refine ⟨data_ok hds, linksInto_eq_nil ?_, List.exists_cons_of_ne_nil (by simpa using hdims)⟩
  rcases hl : g.linksInto name with _ | ⟨l, ls⟩
  · rfl
  · exact absurd (by simp [hl]) (hinto l)

end LinkGraph

end LinkedTables
