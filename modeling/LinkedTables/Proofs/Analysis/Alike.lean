import LinkedTables.Proofs.Analysis.Faithful

/-!
# What an analysis does not look at

Two graphs are alike if they have the same tables, links and root, and the data of each table have the
same dimensions with the same sizes and kinds of labels, and the same variables over the same
dimensions with the same kinds of values. Entries and labels may be any, and the leading dimension of
the root may have any size. Over alike graphs a set has the same analysis, or fails with the same
fault (`Analysis.analyze_alike`).

Sizes enter an analysis as the steps of offsets and as the sizes that are checked when data are bound.
The size of the leading dimension of the root would be a step only for a variable of the root over
another dimension further out. No link leads into the root, so such a variable is at fault before the
step is taken.
-/

namespace LinkedTables

structure Dimension.Alike (d d' : Dimension) : Prop where
  name : d.name = d'.name
  kind : d.coords.kind = d'.coords.kind

structure Variable.Alike (v v' : Variable) : Prop where
  dims : v.dims = v'.dims
  kind : v.values.kind = v'.values.kind

/-- The data of a table that is the root, or of another one. -/
structure Dataset.Alike (isRoot : Prop) (ds ds' : Dataset) : Prop where
  dims : List.Forall₂ Dimension.Alike ds.dims ds'.dims
  sizes : ∀ i < ds.dims.length, ¬ (isRoot ∧ i = 0) → ds.dimSize i = ds'.dimSize i
  vars : List.Forall₂ (fun p p' => p.1 = p'.1 ∧ p.2.Alike p'.2) ds.vars ds'.vars

structure LinkGraph.Alike (g g' : LinkGraph) : Prop where
  rootName : g.rootName = g'.rootName
  links : g.links = g'.links
  tables : List.Forall₂
    (fun t t' => t.name = t'.name ∧ t.data.Alike (g.rootName = .ok t.name) t'.data)
    g.tables g'.tables

instance (d d' : Dimension) : Decidable (d.Alike d') :=
  decidable_of_iff (d.name = d'.name ∧ d.coords.kind = d'.coords.kind)
    ⟨fun h => ⟨h.1, h.2⟩, fun h => ⟨h.name, h.kind⟩⟩

instance (v v' : Variable) : Decidable (v.Alike v') :=
  decidable_of_iff (v.dims = v'.dims ∧ v.values.kind = v'.values.kind)
    ⟨fun h => ⟨h.1, h.2⟩, fun h => ⟨h.dims, h.kind⟩⟩

instance (isRoot : Prop) [Decidable isRoot] (ds ds' : Dataset) : Decidable (ds.Alike isRoot ds') :=
  decidable_of_iff (List.Forall₂ Dimension.Alike ds.dims ds'.dims ∧
      (∀ i < ds.dims.length, ¬ (isRoot ∧ i = 0) → ds.dimSize i = ds'.dimSize i) ∧
      List.Forall₂ (fun p p' => p.1 = p'.1 ∧ p.2.Alike p'.2) ds.vars ds'.vars)
    ⟨fun h => ⟨h.1, h.2.1, h.2.2⟩, fun h => ⟨h.dims, h.sizes, h.vars⟩⟩

instance (g g' : LinkGraph) : Decidable (g.Alike g') :=
  decidable_of_iff (g.rootName = g'.rootName ∧ g.links = g'.links ∧ List.Forall₂
      (fun t t' => t.name = t'.name ∧ t.data.Alike (g.rootName = .ok t.name) t'.data)
      g.tables g'.tables)
    ⟨fun h => ⟨h.1, h.2.1, h.2.2⟩, fun h => ⟨h.rootName, h.links, h.tables⟩⟩

section Related

variable {α β : Type} {R : α → β → Prop}

/-- What is first found in lists of related elements is related. -/
theorem rel_find? {p : α → Bool} {q : β → Bool} (hpq : ∀ x y, R x y → p x = q y) {xs : List α}
    {ys : List β} (h : List.Forall₂ R xs ys) : Option.Rel R (xs.find? p) (ys.find? q) := by
  induction h with
  | nil => exact .none
  | @cons x y xs ys hxy _ ih =>
    rw [List.find?_cons, List.find?_cons, hpq x y hxy]
    cases q y
    · exact ih
    · exact .some hxy

theorem rel_map {γ δ : Type} {S : γ → δ → Prop} {f : α → γ} {f' : β → δ} {x : Option α}
    {y : Option β} (h : Option.Rel R x y) (hmap : ∀ a b, x = some a → R a b → S (f a) (f' b)) :
    Option.Rel S (x.map f) (y.map f') := by
  cases h with
  | none => exact .none
  | some hab => exact .some (hmap _ _ rfl hab)

theorem rel_getElem? {xs : List α} {ys : List β} (h : List.Forall₂ R xs ys) (i : Nat) :
    Option.Rel R xs[i]? ys[i]? := by
  induction h generalizing i with
  | nil => exact .none
  | cons hxy _ ih =>
    cases i with
    | zero => exact .some hxy
    | succ i => exact ih i

end Related

namespace Dataset

variable {isRoot : Prop} {ds ds' : Dataset}

theorem Alike.var? (h : ds.Alike isRoot ds') (name : String) :
    Option.Rel Variable.Alike (ds.var? name) (ds'.var? name) := by
  have hvars := h.vars
  unfold Dataset.var?
  generalize ds.vars = vars, ds'.vars = vars' at hvars
  induction hvars with
  | nil => exact .none
  | @cons p p' vars vars' hp _ ih =>
    obtain ⟨n, v⟩ := p
    obtain ⟨n', v'⟩ := p'
    obtain ⟨rfl, hv⟩ := hp
    rw [List.lookup_cons, List.lookup_cons]
    dsimp only
    cases name == n
    · exact ih
    · exact .some hv

theorem Alike.dimName (h : ds.Alike isRoot ds') (i : Nat) : ds.dimName i = ds'.dimName i := by
  have hdim := rel_getElem? h.dims i
  unfold Dataset.dimName
  generalize ds.dims[i]? = d, ds'.dims[i]? = d' at hdim
  cases hdim with
  | none => rfl
  | some hd => exact hd.name

theorem Alike.dimNames (h : ds.Alike isRoot ds') (dims : List Nat) :
    ds.dimNames dims = ds'.dimNames dims :=
  List.map_congr_left fun i _ => h.dimName i

theorem Alike.dimSize (h : ds.Alike isRoot ds') {i : Nat} (hi : ¬ (isRoot ∧ i = 0)) :
    ds.dimSize i = ds'.dimSize i := by
  by_cases hlt : i < ds.dims.length
  · exact h.sizes i hlt hi
  · have hnone : ds.dims[i]? = none := List.getElem?_eq_none (by omega)
    have hnone' : ds'.dims[i]? = none :=
      List.getElem?_eq_none (by rw [← h.dims.length_eq]; omega)
    simp [Dataset.dimSize, hnone, hnone']

/-- Away from the leading dimension of the root there are as many positions. -/
theorem Alike.extent (h : ds.Alike isRoot ds') {dims : List Nat} (hdims : isRoot → 0 ∉ dims) :
    ds.extent dims = ds'.extent dims :=
  congrArg List.prod (List.map_congr_left fun _ hi =>
    h.dimSize fun ⟨hroot, hzero⟩ => hdims hroot (hzero ▸ hi))

end Dataset

namespace LinkGraph

variable {g g' : LinkGraph}

theorem Alike.data? (h : g.Alike g') (name : String) :
    Option.Rel (Dataset.Alike (g.rootName = .ok name)) (g.data? name) (g'.data? name) := by
  refine rel_map (rel_find? (fun _ _ ht => by rw [ht.1]) h.tables) fun t t' ht halike => ?_
  have hname : t.name = name := by simpa using List.find?_some ht
  exact hname ▸ halike.2

theorem Alike.hasTable (h : g.Alike g') (name : String) : g.hasTable name = g'.hasTable name := by
  have hdata := h.data? name
  unfold LinkGraph.hasTable
  generalize g.data? name = ds, g'.data? name = ds' at hdata
  cases hdata <;> rfl

theorem collect_congr (h : g.links = g'.links) : ∀ (fuel : Nat) (table : String) (s : PathState),
    g.collect fuel table s = g'.collect fuel table s
  | 0, _, _ => rfl
  | fuel + 1, table, s => by
    have hrest : g.collect fuel = g'.collect fuel :=
      funext fun table => funext fun s => collect_congr h fuel table s
    rw [collect, collect, numberedInto, numberedInto, h, hrest]

theorem Alike.pathLinks (h : g.Alike g') (table : String) :
    g.pathLinks table = g'.pathLinks table := by
  rw [LinkGraph.pathLinks, LinkGraph.pathLinks, path, path, h.hasTable, h.tables.length_eq, h.links,
    collect_congr h.links]

theorem Alike.isReachable (h : g.Alike g') (table : String) :
    g.isReachable table = g'.isReachable table := by
  simp only [LinkGraph.isReachable, leadsTo, h.rootName, h.hasTable, h.links, h.tables.length_eq]

theorem Alike.incoming? (h : g.Alike g') (table dim : String) :
    g.incoming? table dim = g'.incoming? table dim := by
  rw [LinkGraph.incoming?, LinkGraph.incoming?, h.links]

end LinkGraph

namespace Scope

/-- Scopes over alike graphs, of which the first one can be walked from its root. -/
structure Alike (sc sc' : Scope) : Prop where
  graph : sc.graph.Alike sc'.graph
  rooted : ∃ lead, sc.Rooted lead
  rootName : sc.graph.rootName = .ok sc.root.name
  name : sc.root.name = sc'.root.name
  data : sc.root.data.Alike True sc'.root.data
  constants : sc.constants = sc'.constants

variable {sc sc' : Scope}

/-- Every dimension with a place was placed. -/
theorem exists_place_of_planOffset {place : Nat → Except AnalysisFault Place} {ds : Dataset} :
    ∀ {dims : List Nat} {o : Offset}, planOffset place ds dims = .ok o →
      ∀ d ∈ dims, ∃ p, place d = .ok p
  | [], _, _ => by simp
  | d :: rest, o, h => by
    rw [planOffset] at h
    obtain ⟨inner, hinner, h⟩ := bind_eq_ok h
    obtain ⟨p, hp, -⟩ := bind_eq_ok h
    exact List.forall_mem_cons.2 ⟨⟨p, hp⟩, exists_place_of_planOffset hinner⟩

/-- Offsets over alike data are the same, if in the root only the leading dimension has a place. -/
theorem planOffset_alike {isRoot : Prop} {ds ds' : Dataset} (h : ds.Alike isRoot ds')
    {place : Nat → Except AnalysisFault Place}
    (hroot : isRoot → ∀ d p, place d = .ok p → d = 0) :
    ∀ {dims : List Nat}, dims.Nodup → planOffset place ds dims = planOffset place ds' dims
  | [], _ => rfl
  | d :: rest, hnodup => by
    rw [List.nodup_cons] at hnodup
    rw [planOffset, planOffset, planOffset_alike h hroot hnodup.2]
    rcases hinner : planOffset place ds' rest with e | inner
    · rfl
    rcases hp : place d with e | p
    · rfl
    have hextent : ds.extent rest = ds'.extent rest := h.extent fun hr hzero => by
      rw [hroot hr d p hp] at hnodup
      exact hnodup.1 hzero
    simp only [hextent]

/-- No dimension of the root has a place but the leading one. -/
theorem planPlace_root (hsc : ∃ lead, sc.Rooted lead) (site : Site) {fuel : Nat} {ds : Dataset}
    {d : Nat} {p : Place} (h : sc.planPlace site fuel sc.root.name ds d = .ok p) : d = 0 := by
  obtain ⟨lead, hsc⟩ := hsc
  cases fuel with
  | zero => cases h
  | succ fuel =>
    obtain ⟨-, hzero, -⟩ | ⟨-, d', n, link, -, -, -, -, hin, -⟩ := planPlace_ok h
    · exact hzero
    · obtain ⟨hlink, htarget, -⟩ := LinkGraph.incoming?_eq_some hin
      exact absurd htarget (hsc.free link hlink)

/-- The offset of a variable of a table. -/
theorem Alike.planOffset (h : sc.Alike sc') (site : Site) {fuel : Nat} {table var : String}
    {ds ds' : Dataset} {v : Variable} (hdata : sc.graph.data? table = some ds)
    (hvar : ds.var? var = some v) (hds : ds.Alike (sc.graph.rootName = .ok table) ds') :
    Scope.planOffset (sc.planPlace site fuel table ds) ds v.dims =
      Scope.planOffset (sc.planPlace site fuel table ds) ds' v.dims := by
  obtain ⟨lead, hsc⟩ := h.rooted
  refine planOffset_alike hds (fun hroot d p hp => ?_)
    ((hsc.valid.data_of hdata).carries_of_var? hvar).nodup
  obtain rfl : sc.root.name = table := by simpa [h.rootName] using hroot
  exact planPlace_root h.rooted site hp

theorem Alike.planPlace (h : sc.Alike sc') (site : Site) : ∀ (fuel : Nat) {table : String}
    {ds ds' : Dataset} (d : Nat), ds.Alike (sc.graph.rootName = .ok table) ds' →
      sc.planPlace site fuel table ds d = sc'.planPlace site fuel table ds' d
  | 0, _, _, _, _, _ => rfl
  | fuel + 1, table, ds, ds', d, hds => by
    rw [Scope.planPlace, Scope.planPlace, ← h.name]
    by_cases hrow : (table == sc.root.name && d == 0) = true
    · rw [if_pos hrow, if_pos hrow]
    rw [if_neg hrow, if_neg hrow]
    have hdim := rel_getElem? hds.dims d
    have hsize : ds.dimSize d = ds'.dimSize d := by
      refine hds.dimSize ?_
      rintro ⟨hroot, hzero⟩
      rw [h.rootName, Except.ok.injEq] at hroot
      exact hrow (by simp [hroot, hzero])
    rcases hd : ds.dims[d]? with _ | dim <;> rcases hd' : ds'.dims[d]? with _ | dim' <;>
      rw [hd, hd'] at hdim <;> cases hdim
    rename_i hdim
    rw [Dataset.dimSize_of_getElem? hd, Dataset.dimSize_of_getElem? hd'] at hsize
    dsimp only
    rw [← h.graph.incoming?, ← hdim.name, ← hdim.kind, ← hsize]
    rcases hin : sc.graph.incoming? table dim.name with _ | ⟨n, link⟩
    · rfl
    dsimp only
    have hdata := h.graph.data? link.sourceTable
    rcases hsrc : sc.graph.data? link.sourceTable with _ | src <;>
      rcases hsrc' : sc'.graph.data? link.sourceTable with _ | src' <;>
      rw [hsrc, hsrc'] at hdata <;> cases hdata
    rename_i hsource
    dsimp only
    have hvar := hsource.var? link.sourceVar
    rcases hv : src.var? link.sourceVar with _ | v <;>
      rcases hv' : src'.var? link.sourceVar with _ | v' <;> rw [hv, hv'] at hvar <;> cases hvar
    rename_i hvar
    dsimp only
    have hplace : sc.planPlace site fuel link.sourceTable src =
        sc'.planPlace site fuel link.sourceTable src' :=
      funext fun i => Alike.planPlace h site fuel i hsource
    rw [← hplace, ← hvar.dims, ← hvar.kind, ← hsource.dimNames, h.planOffset site hsrc hv hsource]

theorem Alike.resolve (h : sc.Alike sc') (site : Site) (table : Option String) (name : String) :
    sc.resolve site table name = sc'.resolve site table name := by
  rcases table with _ | table
  · have hvar := h.data.var? name
    simp only [Scope.resolve, resolveBare, h.constants, h.name]
    rcases hv : sc.root.data.var? name with _ | v <;>
      rcases hv' : sc'.root.data.var? name with _ | v' <;> rw [hv, hv'] at hvar <;> cases hvar
    rfl
  · have hdata := h.graph.data? table
    simp only [Scope.resolve, resolveDotted, ← h.name, ← h.graph.isReachable]
    rcases hds : sc.graph.data? table with _ | ds <;>
      rcases hds' : sc'.graph.data? table with _ | ds' <;> rw [hds, hds'] at hdata <;> cases hdata
    rename_i hdata
    have hvar := hdata.var? name
    simp only [Option.bind_some]
    rcases hv : ds.var? name with _ | v <;> rcases hv' : ds'.var? name with _ | v' <;>
      rw [hv, hv'] at hvar <;> cases hvar
    rename_i hvar
    simp only [hvar.dims]

/-- What is fetched from alike scopes is alike, or the same fault. -/
theorem Alike.fetch (h : sc.Alike sc') (table var : String) :
    (∃ f, sc.fetch table var = .error f ∧ sc'.fetch table var = .error f) ∨
      ∃ ds v ds' v', sc.fetch table var = .ok (ds, v) ∧ sc'.fetch table var = .ok (ds', v') ∧
        sc.graph.data? table = some ds ∧ ds.var? var = some v ∧
        ds.Alike (sc.graph.rootName = .ok table) ds' ∧ v.Alike v' := by
  have hdata := h.graph.data? table
  simp only [Scope.fetch]
  rcases hds : sc.graph.data? table with _ | ds <;>
    rcases hds' : sc'.graph.data? table with _ | ds' <;> rw [hds, hds'] at hdata <;> cases hdata
  · exact Or.inl ⟨_, rfl, rfl⟩
  rename_i hdata
  have hvar := hdata.var? var
  rcases hv : ds.var? var with _ | v <;> rcases hv' : ds'.var? var with _ | v' <;>
    rw [hv, hv'] at hvar <;> cases hvar
  · exact Or.inl ⟨.vanished (dotted table var), by simp [hv], by simp [hv']⟩
  · rename_i hvar
    exact Or.inr ⟨ds, v, ds', v', by simp [hv], by simp [hv'], rfl, hv, hdata, hvar⟩

theorem Alike.planVariable (h : sc.Alike sc') (site : Site) (table var : String) :
    sc.planVariable site table var = sc'.planVariable site table var := by
  rw [Scope.planVariable, Scope.planVariable]
  rcases h.fetch table var with ⟨f, hf, hf'⟩ | ⟨ds, v, ds', v', hf, hf', hds, hv, hdata, hvar⟩
  · rw [hf, hf']
    rfl
  · have hplace : sc.planPlace site sc.graph.tables.length table ds =
        sc'.planPlace site sc'.graph.tables.length table ds' := by
      rw [← h.graph.tables.length_eq]
      exact funext fun i => h.planPlace site _ i hdata
    rw [hf, hf']
    show (Scope.planOffset _ ds v.dims >>= _) = (Scope.planOffset _ ds' v'.dims >>= _)
    rw [← hplace, ← hvar.dims, h.planOffset site hds hv hdata, hdata.dimNames]

theorem Alike.plan (h : sc.Alike sc') (site : Site) : ∀ e : Expr, sc.plan site e = sc'.plan site e
  | .number _ | .bool _ => rfl
  | .name table name _ => by
    rw [Scope.plan, Scope.plan, h.resolve]
    refine congrArg _ (funext fun m => ?_)
    cases m with
    | constant bits => rfl
    | variable_ t v => exact h.planVariable site t v
  | .unary op a _ => by rw [Scope.plan, Scope.plan, Alike.plan h site a]
  | .binary op a b _ => by
    rw [Scope.plan, Scope.plan, Alike.plan h site a, Alike.plan h site b]
  | .ternary op a b c _ => by
    rw [Scope.plan, Scope.plan, Alike.plan h site a, Alike.plan h site b, Alike.plan h site c]

section Types

theorem Alike.note (h : sc.Alike sc') (table var : String) (dims : List String) :
    Typing.note sc table var dims = Typing.note sc' table var dims := by
  rw [Typing.note, Typing.note, h.graph.pathLinks]

theorem lift_bind {α β : Type} (x : α) (f : α → Noting β) :
    ((liftM (.ok x : Except AnalysisFault α) : Noting α) >>= f) = f x :=
  funext fun _ => rfl

theorem Alike.ofVariable (h : sc.Alike sc') (table var : String) :
    Typing.ofVariable sc table var = Typing.ofVariable sc' table var := by
  rw [Typing.ofVariable, Typing.ofVariable]
  rcases h.fetch table var with ⟨f, hf, hf'⟩ | ⟨ds, v, ds', v', hf, hf', -, -, hdata, hvar⟩
  · rw [hf, hf']
    rfl
  · rw [hf, hf', lift_bind, lift_bind]
    dsimp only
    rw [h.note, hvar.dims, hvar.kind, hdata.dimNames]

theorem Alike.annotate (h : sc.Alike sc') (site : Site) :
    ∀ e : Expr, Typing.annotate sc site e = Typing.annotate sc' site e
  | .number _ | .bool _ => rfl
  | .name table name _ => by
    rw [Typing.annotate, Typing.annotate, h.resolve]
    refine congrArg _ (funext fun m => ?_)
    cases m with
    | constant bits => rfl
    | variable_ t v => exact h.ofVariable t v
  | .unary op a _ => by rw [Typing.annotate, Typing.annotate, Alike.annotate h site a]
  | .binary op a b _ => by
    rw [Typing.annotate, Typing.annotate, Alike.annotate h site a, Alike.annotate h site b]
  | .ternary op a b c _ => by
    rw [Typing.annotate, Typing.annotate, Alike.annotate h site a, Alike.annotate h site b,
      Alike.annotate h site c]

end Types

end Scope

/-- Alike graphs have alike roots to walk from, or the same fault. -/
theorem LinkGraph.Alike.checkedRoot {g g' : LinkGraph} (h : g.Alike g') :
    (∃ f, g.checkedRoot = .error f ∧ g'.checkedRoot = .error f) ∨
      ∃ t t', g.checkedRoot = .ok t ∧ g'.checkedRoot = .ok t' ∧ g.rootName = .ok t.name ∧
        t.name = t'.name ∧ t.data.Alike True t'.data := by
  rcases hname : g.rootName with f | name
  · have hname' : g'.rootName = .error f := h.rootName ▸ hname
    exact Or.inl ⟨f, by simp [LinkGraph.checkedRoot, root, hname, bind, Except.bind],
      by simp [LinkGraph.checkedRoot, root, hname', bind, Except.bind]⟩
  have hname' : g'.rootName = .ok name := h.rootName ▸ hname
  have hdata := h.data? name
  rcases hds : g.data? name with _ | ds <;> rcases hds' : g'.data? name with _ | ds' <;>
    rw [hds, hds'] at hdata <;> cases hdata
  · exact Or.inl ⟨.unknownTable name,
      by simp [LinkGraph.checkedRoot, root, data, hname, hds, bind, Except.bind],
      by simp [LinkGraph.checkedRoot, root, data, hname', hds', bind, Except.bind]⟩
  rename_i hdata
  have hroot : g.root = .ok ⟨name, ds⟩ := by
    simp [root, data, hname, hds, bind, Except.bind, pure, Except.pure]
  have hroot' : g'.root = .ok ⟨name, ds'⟩ := by
    simp [root, data, hname', hds', bind, Except.bind, pure, Except.pure]
  have hinto : g'.linksInto name = g.linksInto name := by rw [linksInto, linksInto, h.links]
  have hempty : ds'.dims.isEmpty = ds.dims.isEmpty := by
    rw [Bool.eq_iff_iff, List.isEmpty_iff_length_eq_zero, List.isEmpty_iff_length_eq_zero,
      hdata.dims.length_eq]
  simp only [LinkGraph.checkedRoot, hroot, hroot', bind, Except.bind, hinto, hempty]
  rcases (g.linksInto name).head? with _ | l
  · cases ds.dims.isEmpty
    · exact Or.inr ⟨⟨name, ds⟩, ⟨name, ds'⟩, rfl, rfl, rfl, rfl,
        hdata.dims, fun i hlt hi => hdata.sizes i hlt fun hroot => hi ⟨trivial, hroot.2⟩, hdata.vars⟩
    · exact Or.inl ⟨_, rfl, rfl⟩
  · exact Or.inl ⟨_, rfl, rfl⟩

namespace Analysis

variable {g g' : LinkGraph}

theorem scope_alike (hg : g.Built) (h : g.Alike g') (set : ExprSet) :
    (∃ f, scope g set = .error f ∧ scope g' set = .error f) ∨
      ∃ sc sc', scope g set = .ok sc ∧ scope g' set = .ok sc' ∧ sc.Alike sc' := by
  rcases h.checkedRoot with ⟨f, hf, hf'⟩ | ⟨t, t', ht, ht', hroot, hname, hdata⟩
  · exact Or.inl ⟨.graph f, by rw [scope, hf], by rw [scope, hf']⟩
  · have hsc : scope g set = .ok ⟨g, t, set.constants⟩ := by rw [scope, ht]
    have hsc' : scope g' set = .ok ⟨g', t', set.constants⟩ := by rw [scope, ht']
    obtain ⟨-, -, hrooted⟩ := Scope.rooted_of_ok hg hsc
    exact Or.inr ⟨_, _, hsc, hsc', h, hrooted, hroot, hname, hdata, rfl⟩

/-- An analysis does not look at more than what alike graphs have in common. -/
theorem analyze_alike (hg : g.Built) (h : g.Alike g') (set : ExprSet) :
    analyze g set = analyze g' set := by
  rw [analyze, analyze]
  rcases scope_alike hg h set with ⟨f, hf, hf'⟩ | ⟨sc, sc', hsc, hsc', hscope⟩
  · rw [hf, hf']
  have htypes : typeAll sc = typeAll sc' := funext fun sources => by
    simp only [typeAll, Typing.ofResult, hscope.annotate]
  have hlower : lowerAll sc = lowerAll sc' := funext fun sources => by
    simp only [lowerAll_eq, planAll, hscope.plan]
  rw [hsc, hsc']
  show (if _ then _ else _ : Except AnalysisFault Analysis) = if _ then _ else _
  simp only [htypes, hlower, hscope.name]

end Analysis

end LinkedTables
