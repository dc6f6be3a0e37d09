import LinkedTables.Proofs.Analysis.Emission

/-!
# The layout of an analysis

Writing down a plan that is right for a graph keeps the layout faithful to the graph and records the
plan (`Plan.emit_records`). An analysis that succeeds resolves every expression, writes the plans down
one after the other, and keeps what is left (`analyze_ok`). So its slots are sound, its layout is
faithful to its graph, and all its plans are recorded (`Analysis.Planned`).
-/

namespace LinkedTables

open Analysis (layoutOf)

namespace Lowered

variable {g : LinkGraph} {root : String} {l : Lowered}

theorem withColumn_records (hl : (layoutOf root l).Faithful g) {table var : String}
    {dims : List String} (h : g.dimsOf? table var = some dims) :
    (layoutOf root (l.withColumn table var dims).2).Faithful g ∧
      ⟨table, var, dims⟩ ∈ (l.withColumn table var dims).2.columns := by
  rw [withColumn]
  split
  · rename_i i hi
    obtain ⟨hlt, hname, -⟩ := List.findIdx?_eq_some_iff_getElem.1 hi
    simp only [Bool.and_eq_true, beq_iff_eq] at hname
    obtain ⟨htable, hvar⟩ := hname
    have hmem : l.columns[i] ∈ l.columns := List.getElem_mem hlt
    have hdims := hl.columns _ hmem
    rw [htable, hvar, h, Option.some.injEq] at hdims
    refine ⟨hl, ?_⟩
    rw [← htable, ← hvar, hdims]
    exact hmem
  · refine ⟨⟨fun c hc => ?_, hl.tables, hl.checks, hl.shapes⟩, by simp⟩
    rcases List.mem_append.1 hc with hc | hc
    · exact hl.columns c hc
    · obtain rfl := List.mem_singleton.1 hc
      exact h

theorem withTable_records (hl : (layoutOf root l).Faithful g) {link : Link} {dims : List String}
    (h : g.into? link.targetTable link.targetDim = some link)
    (hdims : g.dimsOf? link.sourceTable link.sourceVar = some dims) :
    (layoutOf root (l.withTable link dims).2).Faithful g ∧
      ⟨link, dims⟩ ∈ (l.withTable link dims).2.tables := by
  rw [withTable]
  split
  · rename_i i hi
    obtain ⟨hlt, hname, -⟩ := List.findIdx?_eq_some_iff_getElem.1 hi
    have hlink : l.tables[i].link = link := by simpa using hname
    have hmem : l.tables[i] ∈ l.tables := List.getElem_mem hlt
    have hsource := (hl.tables _ hmem).2
    rw [hlink, hdims, Option.some.injEq] at hsource
    refine ⟨hl, ?_⟩
    rw [← hlink, hsource]
    exact hmem
  · refine ⟨⟨hl.columns, fun t ht => ?_, hl.checks, hl.shapes⟩, by simp⟩
    rcases List.mem_append.1 ht with ht | ht
    · exact hl.tables t ht
    · obtain rfl := List.mem_singleton.1 ht
      exact ⟨h, hdims⟩

theorem withCheck_records (hl : (layoutOf root l).Faithful g) (c : UInt32) {link : Link}
    (h : g.into? link.targetTable link.targetDim = some link) :
    (layoutOf root (l.withCheck c link)).Faithful g ∧ ∃ c', ⟨c', link⟩ ∈ (l.withCheck c link).checks := by
  rw [withCheck]
  split_ifs with hany
  · obtain ⟨e, he, hlink⟩ := List.any_eq_true.1 hany
    have hlink : e.link = link := by simpa using hlink
    exact ⟨hl, e.column, hlink ▸ he⟩
  · refine ⟨⟨hl.columns, hl.tables, fun e he => ?_, hl.shapes⟩, c, by simp⟩
    rcases List.mem_append.1 he with he | he
    · exact hl.checks e he
    · obtain rfl := List.mem_singleton.1 he
      exact h

theorem withShape_records (hl : (layoutOf root l).Faithful g) {s : ShapeRef}
    (h : ∃ d, g.dim? s.table s.dim = some d ∧ s.size = UInt64.ofNat d.size) :
    (layoutOf root (l.withShape s)).Faithful g ∧ s ∈ (l.withShape s).shapes := by
  refine ⟨⟨hl.columns, hl.tables, hl.checks, fun t ht => ?_⟩, ShapeRef.mem_insert.2 (Or.inl rfl)⟩
  rcases ShapeRef.mem_insert.1 ht with rfl | ht
  · exact h
  · exact hl.shapes t ht

theorem follow_records (hl : (layoutOf root l).Faithful g) {link : Link} {dims : List String}
    (h : g.into? link.targetTable link.targetDim = some link)
    (hdims : g.dimsOf? link.sourceTable link.sourceVar = some dims) (at_ : SlotId) :
    (layoutOf root (l.follow link dims at_).2).Faithful g ∧
      (layoutOf root (l.follow link dims at_).2).Follows link dims := by
  rcases hmode : link.mode
  · obtain ⟨hfaithful, hmem⟩ := withTable_records hl h hdims
    simp only [follow, Layout.Follows, hmode]
    exact ⟨⟨hfaithful.columns, hfaithful.tables, hfaithful.checks, hfaithful.shapes⟩, hmem⟩
  · obtain ⟨hfaithful, hmem⟩ := withColumn_records hl hdims
    obtain ⟨hchecked, hcheck⟩ :=
      withCheck_records hfaithful (l.withColumn link.sourceTable link.sourceVar dims).1 h
    simp only [follow, Layout.Follows, hmode]
    exact ⟨⟨hchecked.columns, hchecked.tables, hchecked.checks, hchecked.shapes⟩,
      ((withCheck_grows _ _ link).layout root).columns.subset hmem, hcheck⟩

theorem outwards_layout (l : Lowered) (inner : Option SlotId) (pos : SlotId) (step : UInt64) :
    layoutOf root (l.outwards inner pos step).2 = layoutOf root l := by
  cases inner <;> rfl

theorem offsetOr_layout (l : Lowered) (inner : Option SlotId) :
    layoutOf root (l.offsetOr inner).2 = layoutOf root l := by
  cases inner <;> rfl

end Lowered

variable {g : LinkGraph} {root lead : String}

mutual

theorem Place.emit_records : ∀ {p : Place} {l : Lowered} {table dim : String}, l.Sound →
    (layoutOf root l).Faithful g → p.FoundIn g root lead table dim →
    (layoutOf root (p.emit l).2).Faithful g ∧ p.RecordedIn (layoutOf root (p.emit l).2)
  | .row, l, _, _, _, hl, _ => ⟨hl, trivial⟩
  | .linked shape link dims source, l, table, dim, hsound, hl, h => by
    obtain ⟨-, ⟨d, hd, rfl⟩, hlink, hdims, hsource⟩ := h
    obtain ⟨-, rfl, rfl⟩ := LinkGraph.into?_eq_some hlink
    let shape : ShapeRef := ⟨link.targetTable, link.targetDim, UInt64.ofNat d.size⟩
    obtain ⟨hshaped, hshape⟩ := Lowered.withShape_records (s := shape) hl ⟨d, hd, rfl⟩
    have hsound' := Lowered.withShape_sound hsound shape
    obtain ⟨hinner, hrec⟩ := Offset.emitPartial_records hsound' hshaped hsource
    obtain ⟨hinnerSound, hgrows, hlt⟩ := source.emitPartial_writes hsound'
    have hat := Lowered.offsetOr_writes hinnerSound hlt
    have hwrites := Lowered.follow_writes hat.sound link dims hat.lt
    rw [← Lowered.offsetOr_layout _ (source.emitPartial (l.withShape shape)).1] at hinner
    obtain ⟨hfollow, hfollows⟩ := Lowered.follow_records hinner hlink hdims _
    have hgrows' := (hat.grows.trans hwrites.grows).layout root
    exact ⟨hfollow, hgrows'.shapes ((hgrows.layout root).shapes hshape), hfollows,
      Offset.recordedIn_mono hgrows' hrec⟩

theorem Offset.emitPartial_records : ∀ {o : Offset} {l : Lowered} {table : String}
    {dims : List String}, l.Sound → (layoutOf root l).Faithful g →
    o.FoundIn g root lead table dims → (layoutOf root (o.emitPartial l).2).Faithful g ∧
      o.RecordedIn (layoutOf root (o.emitPartial l).2)
  | .scalar, l, _, _, _, hl, _ => ⟨hl, trivial⟩
  | .along place step rest, l, table, d :: dims, hsound, hl, h => by
    obtain ⟨hrest, hrestRec⟩ := Offset.emitPartial_records hsound hl h.2.2
    obtain ⟨hrestSound, -, hlt⟩ := rest.emitPartial_writes hsound
    obtain ⟨hplace, hplaceRec⟩ := Place.emit_records hrestSound hrest h.1
    have hgrows := (place.emit_writes hrestSound).grows.layout root
    simp only [Offset.emitPartial, Lowered.outwards_layout]
    exact ⟨hplace, hplaceRec, Offset.recordedIn_mono hgrows hrestRec⟩

end

theorem Offset.emit_records {o : Offset} {l : Lowered} {table : String} {dims : List String}
    (hsound : l.Sound) (hl : (layoutOf root l).Faithful g) (h : o.FoundIn g root lead table dims) :
    (layoutOf root (o.emit l).2).Faithful g ∧ o.RecordedIn (layoutOf root (o.emit l).2) := by
  rw [Offset.emit, Lowered.offsetOr_layout]
  exact Offset.emitPartial_records hsound hl h

theorem Plan.emit_records {constants : List (String × UInt64)} : ∀ {e : Expr} {p : Plan}
    {l : Lowered}, l.Sound → (layoutOf root l).Faithful g → e.PlannedAs g root lead constants p →
    (layoutOf root (p.emit l).2).Faithful g ∧ p.RecordedIn (layoutOf root (p.emit l).2)
  | .number _, _, l, _, hl, h | .bool _, _, l, _, hl, h => by
    cases h
    exact ⟨hl, trivial⟩
  | .name table n _, p, l, hsound, hl, h => by
    rw [Expr.PlannedAs] at h
    rcases hm : Expr.meaning root constants table n with bits | ⟨t, v⟩ <;> rw [hm] at h
    · cases h
      exact ⟨hl, trivial⟩
    · obtain ⟨dims, o, rfl, hdims, ho⟩ := h
      obtain ⟨hcol, hmem⟩ := Lowered.withColumn_records hl hdims
      have hsound' := Lowered.withColumn_sound hsound t v dims
      obtain ⟨hoffset, hrec⟩ := Offset.emit_records hsound' hcol ho
      exact ⟨hoffset, ((o.emit_writes hsound').grows.layout root).columns.subset hmem, hrec⟩
  | .unary op a _, _, l, hsound, hl, ⟨q, rfl, hq⟩ => by
    obtain ⟨ha, hrec⟩ := emit_records hsound hl hq
    exact ⟨ha, hrec⟩
  | .binary op a b _, _, l, hsound, hl, ⟨q, r, rfl, hq, hr⟩ => by
    obtain ⟨ha, hqrec⟩ := emit_records hsound hl hq
    have hsound' := (q.emit_writes hsound).sound
    obtain ⟨hb, hrrec⟩ := emit_records hsound' ha hr
    exact ⟨hb, recordedIn_mono ((r.emit_writes hsound').grows.layout root) q hqrec, hrrec⟩
  | .ternary op a b c _, _, l, hsound, hl, ⟨q, r, s, rfl, hq, hr, hs⟩ => by
    obtain ⟨ha, hqrec⟩ := emit_records hsound hl hq
    have hsound' := (q.emit_writes hsound).sound
    obtain ⟨hb, hrrec⟩ := emit_records hsound' ha hr
    have hsound'' := (r.emit_writes hsound').sound
    obtain ⟨hc, hsrec⟩ := emit_records hsound'' hb hs
    have hgrows := (s.emit_writes hsound'').grows
    exact ⟨hc, recordedIn_mono (((r.emit_writes hsound').grows.trans hgrows).layout root) q hqrec,
      recordedIn_mono (hgrows.layout root) r hrrec, hsrec⟩

theorem Scope.rooted_of_ok {set : ExprSet} {sc : Scope} (hg : g.Built)
    (h : Analysis.scope g set = .ok sc) : sc.graph = g ∧ sc.constants = set.constants ∧
      ∃ lead, sc.Rooted lead := by
  simp only [Analysis.scope] at h
  split at h
  · cases h
  rename_i t ht
  cases h
  obtain ⟨hdata, hfree, d, rest, hdims⟩ := LinkGraph.checkedRoot_ok ht
  exact ⟨rfl, rfl, d.name, hg.valid, hdata, hfree, by simp [hdims]⟩

namespace Analysis

theorem readSource_ok {site : Site} {s : Source} (h : readSource site = .ok s) :
    ∃ tokens, Expr.read site.text = .ok (s.tree, tokens) ∧ s.normal = Token.normal tokens := by
  simp only [readSource] at h
  split at h
  · cases h
  rename_i tree tokens htree
  cases h
  exact ⟨tokens, htree, rfl⟩

/-- How an analysis came about: from sources and their plans, in a scope. -/
structure Planned (g : LinkGraph) (set : ExprSet) (a : Analysis) (sc : Scope)
    (sources : List Source) (plans : List Plan) : Prop where
  inScope : scope g set = .ok sc
  readAll : (sites set).mapM readSource = .ok sources
  planned : planAll sc sources = .ok plans
  root : a.root = sc.root.name
  names : a.names = set.names
  normalized : a.normalized = sources.map Source.normal
  constants : a.constants = set.constants
  slots : a.slots = (Plan.emitAll plans .empty).2.slots
  outputs : a.outputs = (Plan.emitAll plans .empty).1
  layout : a.layout = layoutOf sc.root.name (Plan.emitAll plans .empty).2

theorem analyze_ok {set : ExprSet} {a : Analysis} (h : analyze g set = .ok a) :
    set.entries ≠ [] ∧ ∃ sc sources plans, a.Planned g set sc sources plans := by
  simp only [analyze, bind, Except.bind, throw, throwThe, MonadExceptOf.throw] at h
  split at h
  · cases h
  rename_i sc hsc
  split_ifs at h with hempty
  split at h
  · cases h
  rename_i sources hsources
  split at h
  · cases h
  rename_i typed htyped
  split at h
  · cases h
  rename_i lowered hlowered
  cases h
  rw [lowerAll_eq] at hlowered
  rcases hplans : planAll sc sources with f | plans
  · rw [hplans] at hlowered
    cases hlowered
  · rw [hplans] at hlowered
    cases hlowered
    exact ⟨by simpa using hempty, sc, sources, plans,
      ⟨hsc, hsources, hplans, rfl, rfl, rfl, rfl, rfl, rfl, rfl⟩⟩

/-- The plans of sources are right for the trees of the sources, one by one. -/
theorem planAll_found {sc : Scope} {lead : String} (hsc : sc.Rooted lead) {sources : List Source}
    {plans : List Plan} (h : planAll sc sources = .ok plans) : List.Forall₂
      (fun s p => s.tree.PlannedAs sc.graph sc.root.name lead sc.constants p) sources plans :=
  (forall₂_of_mapM h).imp fun s _ hp => Scope.plan_found hsc s.site hp

end Analysis

theorem Plan.emitAll_records {constants : List (String × UInt64)} : ∀ {trees : List Analysis.Source}
    {plans : List Plan} {l : Lowered}, l.Sound → (layoutOf root l).Faithful g →
    List.Forall₂ (fun s p => s.tree.PlannedAs g root lead constants p) trees plans →
    (layoutOf root (emitAll plans l).2).Faithful g ∧
      ∀ p ∈ plans, p.RecordedIn (layoutOf root (emitAll plans l).2)
  | [], [], l, _, hl, _ => ⟨hl, by simp⟩
  | s :: trees, p :: plans, l, hsound, hl, .cons hp hplans => by
    obtain ⟨hfaithful, hrec⟩ := emit_records hsound hl hp
    have hwrites := p.emit_writes hsound
    obtain ⟨hrest, hrestRec⟩ := emitAll_records hwrites.sound hfaithful hplans
    refine ⟨hrest, fun q hq => ?_⟩
    rcases List.mem_cons.1 hq with rfl | hq
    · exact recordedIn_mono ((emitAll_writes plans hwrites.sound).2.1.layout root) q hrec
    · exact hrestRec q hq

namespace Analysis

/-- The slots are sound, each output is one of them, what they take their values from is in the layout,
and checks are about the columns of their links. -/
theorem Planned.sound {set : ExprSet} {a : Analysis} {sc : Scope} {sources : List Source}
    {plans : List Plan} (h : a.Planned g set sc sources plans) : a.slots.Sound ∧
      (∀ i ∈ a.outputs, i < a.slots.size) ∧
      (∀ s ∈ a.slots.slots, (s.op = .load → s.operand.toNat < a.layout.columns.length) ∧
        (s.op = .label → s.operand.toNat < a.layout.tables.length)) ∧
      ∀ c ∈ a.layout.checks, a.layout.HasColumn c.column c.link.sourceTable c.link.sourceVar := by
  obtain ⟨hsound, -, hlt⟩ := Plan.emitAll_writes plans Lowered.sound_empty
  rw [h.slots, h.outputs, h.layout]
  exact ⟨hsound.slots, hlt, hsound.sourced, fun c hc => hsound.checks c hc _⟩

/-- The layout is faithful to the graph, and the plans are right for it and recorded. -/
theorem Planned.faithful {set : ExprSet} {a : Analysis} {sc : Scope} {sources : List Source}
    {plans : List Plan} (h : a.Planned g set sc sources plans) (hg : g.Built) :
    a.layout.Faithful g ∧ (∀ p ∈ plans, p.RecordedIn a.layout) ∧ ∃ lead, sc.Rooted lead ∧
      List.Forall₂ (fun s p => s.tree.PlannedAs g a.root lead a.constants p) sources plans := by
  obtain ⟨rfl, hconstants, lead, hsc⟩ := Scope.rooted_of_ok hg h.inScope
  have hplans := planAll_found hsc h.planned
  have hempty : (layoutOf sc.root.name Lowered.empty).Faithful sc.graph :=
    ⟨by simp [layoutOf, Lowered.empty], by simp [layoutOf, Lowered.empty],
      by simp [layoutOf, Lowered.empty], by simp [layoutOf, Lowered.empty]⟩
  obtain ⟨hfaithful, hrec⟩ := Plan.emitAll_records Lowered.sound_empty hempty hplans
  rw [h.layout, h.root, h.constants, ← hconstants]
  exact ⟨hfaithful, hrec, lead, hsc, hplans⟩

end Analysis

end LinkedTables
