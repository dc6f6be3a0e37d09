import LinkedTables.Proofs.Analysis.Plan
import LinkedTables.Proofs.Links.Navigation

/-!
# What plans stand for

Whether a plan is how a graph has an expression evaluated can be said without running the resolution:
by recursion on the plan, every link that it follows is the one into the dimension it stands for, and
every step is the product of the sizes further in (`Place.FoundIn`, `Offset.FoundIn`,
`Expr.PlannedAs`). Resolving an expression gives such a plan (`plan_found`). The expression and the
graph determine it, whatever dimension is walked (`plannedAs_unique`).
-/

namespace LinkedTables

mutual

/-- The place is how the position along a dimension is found. `lead` is the dimension of the root
that is walked row by row. -/
def Place.FoundIn (g : LinkGraph) (root lead : String) : Place → String → String → Prop
  | .row, table, dim => table = root ∧ dim = lead
  | .linked shape link dims source, table, dim =>
    table ≠ root ∧ (∃ d, g.dim? table dim = some d ∧ shape = ⟨table, dim, UInt64.ofNat d.size⟩) ∧
      g.into? table dim = some link ∧ g.dimsOf? link.sourceTable link.sourceVar = some dims ∧
      source.FoundIn g root lead link.sourceTable dims

/-- The offset is how the entry of a variable over some dimensions is found. -/
def Offset.FoundIn (g : LinkGraph) (root lead : String) : Offset → String → List String → Prop
  | .scalar, _, dims => dims = []
  | .along _ _ _, _, [] => False
  | .along place step rest, table, d :: dims =>
    place.FoundIn g root lead table d ∧ step = UInt64.ofNat (g.extent table dims) ∧
      rest.FoundIn g root lead table dims

end

namespace Expr

/-- What a name stands for among some constants. -/
def meaning (root : String) (constants : List (String × UInt64)) : Option String → String → Meaning
  | none, n =>
    match constants.lookup n with
    | some bits => .constant bits
    | none => .variable_ root n
  | some table, n => .variable_ table n

/-- The plan is how the value of the expression is found. -/
def PlannedAs (g : LinkGraph) (root lead : String) (constants : List (String × UInt64)) :
    Expr → Plan → Prop
  | .number x, p => p = .constant (Number.bits x)
  | .bool b, p => p = .constant (Number.bits (Number.ofBool b))
  | .name table n _, p =>
    match meaning root constants table n with
    | .constant bits => p = .constant bits
    | .variable_ t v => ∃ dims offset, p = .entry t v dims offset ∧ g.dimsOf? t v = some dims ∧
      offset.FoundIn g root lead t dims
  | .unary op a _, p => ∃ q, p = .unary op q ∧ PlannedAs g root lead constants a q
  | .binary op a b _, p => ∃ q r, p = .binary op q r ∧ PlannedAs g root lead constants a q ∧
    PlannedAs g root lead constants b r
  | .ternary op a b c _, p => ∃ q r s, p = .ternary op q r s ∧ PlannedAs g root lead constants a q ∧
    PlannedAs g root lead constants b r ∧ PlannedAs g root lead constants c s

end Expr

namespace Scope

/-- The root is a table of the graph, no link leads into it, and its leading dimension is walked. -/
structure Rooted (sc : Scope) (lead : String) : Prop where
  valid : sc.graph.Valid
  data : sc.graph.data? sc.root.name = some sc.root.data
  free : ∀ l ∈ sc.graph.links, l.targetTable ≠ sc.root.name
  leads : sc.root.data.dims.head?.map Dimension.name = some lead

variable {sc : Scope} {lead : String}

theorem planOffset_found {g : LinkGraph} {root lead table : String} {ds : Dataset} (hv : g.Valid)
    (hds : g.data? table = some ds) {place : Nat → Except AnalysisFault Place}
    (hplace : ∀ (i : Nat) (d : Dimension) (p : Place), ds.dims[i]? = some d → place i = .ok p →
      p.FoundIn g root lead table d.name) :
    ∀ {dims : List Nat} {o : Offset}, (∀ i ∈ dims, i < ds.dims.length) →
      planOffset place ds dims = .ok o → o.FoundIn g root lead table (ds.dimNames dims)
  | [], o, _, h => by
    cases h
    rfl
  | i :: dims, o, hlt, h => by
    obtain ⟨rest, hrest, h⟩ := bind_eq_ok h
    obtain ⟨p, hp, h⟩ := bind_eq_ok h
    cases h
    have hlt' : ∀ j ∈ dims, j < ds.dims.length := fun j hj => hlt j (List.mem_cons_of_mem _ hj)
    have hi := List.getElem?_eq_getElem (hlt i List.mem_cons_self)
    have hhead := hplace i _ p hi hp
    rw [← Dataset.dimName_of_getElem? hi] at hhead
    exact ⟨hhead, by rw [← LinkGraph.extent_dimNames hv hds hlt']; rfl,
      planOffset_found hv hds hplace hlt' hrest⟩

/-- A position is the row, along the leading dimension of the root, or is found by the link into its
dimension. -/
theorem planPlace_ok {site : Site} {fuel : Nat} {table : String} {ds : Dataset} {i : Nat} {p : Place}
    (h : sc.planPlace site (fuel + 1) table ds i = .ok p) :
    (table = sc.root.name ∧ i = 0 ∧ p = .row) ∨
    (¬ (table = sc.root.name ∧ i = 0) ∧ ∃ d n link src v source, ds.dims[i]? = some d ∧
      sc.graph.incoming? table d.name = some (n, link) ∧
      sc.graph.data? link.sourceTable = some src ∧ src.var? link.sourceVar = some v ∧
      planOffset (sc.planPlace site fuel link.sourceTable src) src v.dims = .ok source ∧
      (link.mode = .label → v.values.kind.fits d.coords.kind = true) ∧
      p = .linked ⟨table, d.name, UInt64.ofNat d.size⟩ link (src.dimNames v.dims) source) := by
  rw [planPlace] at h
  split_ifs at h with hrow
  · cases h
    simp only [Bool.and_eq_true, beq_iff_eq] at hrow
    exact Or.inl ⟨hrow.1, hrow.2, rfl⟩
  refine Or.inr ⟨by simpa using hrow, ?_⟩
  split at h
  · cases h
  rename_i d hd
  split at h
  · cases h
  rename_i n link hin
  split at h
  · cases h
  rename_i src hsrc
  split at h
  · cases h
  rename_i v hvar
  obtain ⟨source, hsource, h⟩ := bind_eq_ok h
  split_ifs at h with hkinds
  cases h
  refine ⟨d, n, link, src, v, source, hd, hin, hsrc, hvar, hsource, fun hmode => ?_, rfl⟩
  simpa [hmode] using hkinds

theorem planPlace_found (hsc : sc.Rooted lead) (site : Site) : ∀ {fuel : Nat} {table : String}
    {ds : Dataset} {i : Nat} {d : Dimension} {p : Place}, sc.graph.data? table = some ds →
      ds.dims[i]? = some d → sc.planPlace site fuel table ds i = .ok p →
      p.FoundIn sc.graph sc.root.name lead table d.name
  | 0, _, _, _, _, _, _, _, h => by cases h
  | fuel + 1, table, ds, i, d, p, hds, hd, h => by
    obtain ⟨rfl, rfl, rfl⟩ | ⟨-, d', n, link, src, v, source, hd', hin, hsrc, hvar, hsource, -, rfl⟩ :=
      planPlace_ok h
    · refine ⟨rfl, ?_⟩
      rw [hsc.data, Option.some.injEq] at hds
      have hleads := hsc.leads
      rw [List.head?_eq_getElem?, hds, hd] at hleads
      simpa using hleads
    · obtain rfl : d' = d := Option.some.inj (hd'.symm.trans hd)
      have hinto : sc.graph.into? table d'.name = some link := by rw [LinkGraph.into?, hin]; rfl
      obtain ⟨hlink, htarget, -⟩ := LinkGraph.into?_eq_some hinto
      have hcarries := (hsc.valid.data_of hsrc).carries_of_var? hvar
      exact ⟨fun heq => hsc.free link hlink (htarget.trans heq),
        ⟨d', LinkGraph.dim?_of_getElem? hsc.valid hds hd, rfl⟩, hinto,
        LinkGraph.dimsOf?_of_var? hsrc hvar,
        planOffset_found hsc.valid hsrc (fun j e q he hq => planPlace_found hsc site hsrc he hq)
          hcarries.lt hsource⟩

theorem resolve_ok {site : Site} {table : Option String} {name : String} {m : Meaning}
    (h : sc.resolve site table name = .ok m) :
    m = Expr.meaning sc.root.name sc.constants table name := by
  rcases table with _ | table
  · rcases hlookup : sc.constants.lookup name with _ | bits <;>
      simp only [resolve, resolveBare, Expr.meaning, hlookup] at h ⊢
    · split_ifs at h
      cases h
      rfl
    · cases h
      rfl
  · simp only [resolve, resolveDotted] at h
    split at h
    · cases h
    · split_ifs at h
      cases h
      rfl

theorem fetch_ok {table var : String} {ds : Dataset} {v : Variable}
    (h : sc.fetch table var = .ok (ds, v)) :
    sc.graph.data? table = some ds ∧ ds.var? var = some v := by
  simp only [fetch] at h
  split at h
  · cases h
  · rename_i ds' hds
    split at h
    · cases h
    · rename_i v' hvar
      cases h
      exact ⟨hds, hvar⟩

theorem planVariable_found (hsc : sc.Rooted lead) {site : Site} {table var : String} {p : Plan}
    (h : sc.planVariable site table var = .ok p) : ∃ dims offset, p = .entry table var dims offset ∧
      sc.graph.dimsOf? table var = some dims ∧
      offset.FoundIn sc.graph sc.root.name lead table dims := by
  obtain ⟨⟨ds, v⟩, hfetch, h⟩ := bind_eq_ok h
  obtain ⟨hds, hvar⟩ := fetch_ok hfetch
  obtain ⟨offset, hoffset, h⟩ := bind_eq_ok h
  cases h
  exact ⟨_, offset, rfl, LinkGraph.dimsOf?_of_var? hds hvar,
    planOffset_found hsc.valid hds (fun i d q hd hq => planPlace_found hsc site hds hd hq)
      ((hsc.valid.data_of hds).carries_of_var? hvar).lt hoffset⟩

/-- The plan of an expression is how its value is found. -/
theorem plan_found (hsc : sc.Rooted lead) (site : Site) : ∀ {e : Expr} {p : Plan},
    sc.plan site e = .ok p → e.PlannedAs sc.graph sc.root.name lead sc.constants p
  | .number _, p, h => by
    cases h
    rfl
  | .bool _, p, h => by
    cases h
    rfl
  | .name table name _, p, h => by
    obtain ⟨m, hm, h⟩ := bind_eq_ok h
    rw [Expr.PlannedAs, ← resolve_ok hm]
    rcases m with bits | ⟨t, v⟩
    · cases h
      rfl
    · exact planVariable_found hsc h
  | .unary op a _, p, h => by
    obtain ⟨q, hq, h⟩ := bind_eq_ok h
    cases h
    exact ⟨q, rfl, plan_found hsc site hq⟩
  | .binary op a b _, p, h => by
    obtain ⟨q, hq, h⟩ := bind_eq_ok h
    obtain ⟨r, hr, h⟩ := bind_eq_ok h
    cases h
    exact ⟨q, r, rfl, plan_found hsc site hq, plan_found hsc site hr⟩
  | .ternary op a b c _, p, h => by
    obtain ⟨q, hq, h⟩ := bind_eq_ok h
    obtain ⟨r, hr, h⟩ := bind_eq_ok h
    obtain ⟨s, hs, h⟩ := bind_eq_ok h
    cases h
    exact ⟨q, r, s, rfl, plan_found hsc site hq, plan_found hsc site hr, plan_found hsc site hs⟩

end Scope

variable {g : LinkGraph} {root lead lead' : String}

mutual

theorem Place.foundIn_unique : ∀ {p q : Place} {table dim : String},
    p.FoundIn g root lead table dim → q.FoundIn g root lead' table dim → p = q
  | .row, .row, _, _, _, _ => rfl
  | .row, .linked .., _, _, hp, hq => absurd hp.1 hq.1
  | .linked .., .row, _, _, hp, hq => absurd hq.1 hp.1
  | .linked shape link dims source, .linked shape' link' dims' source', table, dim, hp, hq => by
    obtain ⟨-, ⟨d, hd, rfl⟩, hlink, hdims, hsource⟩ := hp
    obtain ⟨-, ⟨d', hd', rfl⟩, hlink', hdims', hsource'⟩ := hq
    rw [hd, Option.some.injEq] at hd'
    rw [hlink, Option.some.injEq] at hlink'
    subst hd' hlink'
    rw [hdims, Option.some.injEq] at hdims'
    subst hdims'
    rw [Offset.foundIn_unique hsource hsource']

theorem Offset.foundIn_unique : ∀ {o o' : Offset} {table : String} {dims : List String},
    o.FoundIn g root lead table dims → o'.FoundIn g root lead' table dims → o = o'
  | .scalar, .scalar, _, _, _, _ => rfl
  | .scalar, .along .., _, _ :: _, ho, _ => by cases ho
  | .along .., .scalar, _, _ :: _, _, ho => by cases ho
  | .along p step rest, .along p' step' rest', table, d :: dims, ho, ho' => by
    obtain ⟨hp, rfl, hrest⟩ := ho
    obtain ⟨hp', rfl, hrest'⟩ := ho'
    rw [Place.foundIn_unique hp hp', Offset.foundIn_unique hrest hrest']

end

theorem Expr.plannedAs_unique {constants : List (String × UInt64)} : ∀ {e : Expr} {p q : Plan},
    e.PlannedAs g root lead constants p → e.PlannedAs g root lead' constants q → p = q
  | .number _, _, _, hp, hq | .bool _, _, _, hp, hq => hp.trans hq.symm
  | .name table n _, p, q, hp, hq => by
    rw [PlannedAs] at hp hq
    rcases hm : meaning root constants table n with bits | ⟨t, v⟩ <;> rw [hm] at hp hq
    · exact hp.trans hq.symm
    · obtain ⟨dims, o, rfl, hdims, ho⟩ := hp
      obtain ⟨dims', o', rfl, hdims', ho'⟩ := hq
      rw [hdims, Option.some.injEq] at hdims'
      subst hdims'
      rw [Offset.foundIn_unique ho ho']
  | .unary .., _, _, ⟨p, hp, hpa⟩, ⟨q, hq, hqa⟩ => by
    rw [hp, hq, plannedAs_unique hpa hqa]
  | .binary .., _, _, ⟨p, p', hp, hpa, hpb⟩, ⟨q, q', hq, hqa, hqb⟩ => by
    rw [hp, hq, plannedAs_unique hpa hqa, plannedAs_unique hpb hqb]
  | .ternary .., _, _, ⟨p, p', p'', hp, hpa, hpb, hpc⟩, ⟨q, q', q'', hq, hqa, hqb, hqc⟩ => by
    rw [hp, hq, plannedAs_unique hpa hqa, plannedAs_unique hpb hqb, plannedAs_unique hpc hqc]

end LinkedTables
