import LinkedTables.Proofs.Analysis.Faithful

/-!
# What writing down keeps

Writing down the plans of a set takes steps of five kinds. If all that is written down is of an allowed
kind (`Plan.Within`), then what every allowed step keeps holds of the whole (`Plan.emitAll_keeps`). So
it is with the root of a graph: a variable of the root lies over the leading dimension alone or over
none, and no size of the root is noted, so columns, label tables and sizes that end up in a layout are
of this kind (`Analysis.Planned.walked`).
-/

namespace LinkedTables

/-- What may be written down. -/
structure Allowed where
  column : String → String → List String → Prop
  table : Link → List String → Prop
  shape : ShapeRef → Prop

/-- What following a link writes down is allowed. -/
def Allowed.Follows (A : Allowed) (link : Link) (dims : List String) : Prop :=
  match link.mode with
  | .label => A.table link dims
  | .position => A.column link.sourceTable link.sourceVar dims

mutual

def Place.Within (A : Allowed) : Place → Prop
  | .row => True
  | .linked shape link dims source => A.shape shape ∧ A.Follows link dims ∧ source.Within A

def Offset.Within (A : Allowed) : Offset → Prop
  | .scalar => True
  | .along place _ rest => place.Within A ∧ rest.Within A

end

/-- All that the plan writes down is allowed. -/
def Plan.Within (A : Allowed) : Plan → Prop
  | .constant _ => True
  | .entry table var dims offset => A.column table var dims ∧ offset.Within A
  | .unary _ a => a.Within A
  | .binary _ a b => a.Within A ∧ b.Within A
  | .ternary _ a b c => a.Within A ∧ b.Within A ∧ c.Within A

namespace Lowered

/-- What every allowed step keeps. -/
structure Kept (A : Allowed) (K : Lowered → Prop) : Prop where
  slot : ∀ {l : Lowered} (step : SlotGraph → SlotId × SlotGraph), K l → K (l.withSlot step).2
  column : ∀ {l : Lowered} {table var : String} {dims : List String},
    A.column table var dims → K l → K (l.withColumn table var dims).2
  table : ∀ {l : Lowered} {link : Link} {dims : List String},
    A.table link dims → K l → K (l.withTable link dims).2
  check : ∀ {l : Lowered} (c : UInt32) (link : Link), K l → K (l.withCheck c link)
  shape : ∀ {l : Lowered} {s : ShapeRef}, A.shape s → K l → K (l.withShape s)

variable {A : Allowed} {K : Lowered → Prop} {l : Lowered}

theorem Kept.follow (hK : Kept A K) {link : Link} {dims : List String} (at_ : SlotId)
    (hlink : A.Follows link dims) (h : K l) : K (l.follow link dims at_).2 := by
  unfold Allowed.Follows at hlink
  unfold Lowered.follow
  cases hmode : link.mode <;> simp only [hmode] at hlink ⊢
  · exact hK.slot _ (hK.table hlink h)
  · exact hK.slot _ (hK.check _ link (hK.column hlink h))

theorem Kept.outwards (hK : Kept A K) (inner : Option SlotId) (pos : SlotId) (step : UInt64)
    (h : K l) : K (l.outwards inner pos step).2 := by
  cases inner with
  | none => exact h
  | some _ => exact hK.slot _ h

theorem Kept.offsetOr (hK : Kept A K) (inner : Option SlotId) (h : K l) :
    K (l.offsetOr inner).2 := by
  cases inner with
  | none => exact hK.slot _ h
  | some _ => exact h

end Lowered

section Placements

variable {A : Allowed} {K : Lowered → Prop}

mutual

theorem Place.emit_keeps (hK : Lowered.Kept A K) : ∀ {p : Place} {l : Lowered}, p.Within A → K l →
    K (p.emit l).2
  | .row, _, _, hl => hK.slot _ hl
  | .linked _ _ _ _, _, ⟨hshape, hlink, hsource⟩, hl =>
    hK.follow _ hlink (hK.offsetOr _ (Offset.emitPartial_keeps hK hsource (hK.shape hshape hl)))

theorem Offset.emitPartial_keeps (hK : Lowered.Kept A K) : ∀ {o : Offset} {l : Lowered},
    o.Within A → K l → K (o.emitPartial l).2
  | .scalar, _, _, hl => hl
  | .along _ step _, _, ⟨hplace, hrest⟩, hl =>
    hK.outwards _ _ step (Place.emit_keeps hK hplace (Offset.emitPartial_keeps hK hrest hl))

end

theorem Plan.emit_keeps (hK : Lowered.Kept A K) : ∀ {p : Plan} {l : Lowered}, p.Within A → K l →
    K (p.emit l).2
  | .constant _, _, _, hl => hK.slot _ hl
  | .entry .., _, ⟨hcolumn, hoffset⟩, hl =>
    hK.slot _ (hK.offsetOr _ (Offset.emitPartial_keeps hK hoffset (hK.column hcolumn hl)))
  | .unary .., _, ha, hl => hK.slot _ (emit_keeps hK ha hl)
  | .binary .., _, ⟨ha, hb⟩, hl => hK.slot _ (emit_keeps hK hb (emit_keeps hK ha hl))
  | .ternary .., _, ⟨ha, hb, hc⟩, hl =>
    hK.slot _ (emit_keeps hK hc (emit_keeps hK hb (emit_keeps hK ha hl)))

/-- All plans of a set keep what each step keeps. -/
theorem Plan.emitAll_keeps (hK : Lowered.Kept A K) : ∀ {plans : List Plan} {l : Lowered},
    (∀ p ∈ plans, p.Within A) → K l → K (emitAll plans l).2
  | [], _, _, hl => hl
  | p :: _, l, h, hl =>
    emitAll_keeps (l := (p.emit l).2) hK (fun q hq => h q (List.mem_cons_of_mem p hq))
      (emit_keeps hK (h p List.mem_cons_self) hl)

end Placements

/-- Variables of the root lie over its leading dimension alone or over none, and none of its sizes is
noted. -/
def Allowed.walking (root lead : String) : Allowed where
  column table _ dims := table = root → dims = [] ∨ dims = [lead]
  table link dims := link.sourceTable = root → dims = [] ∨ dims = [lead]
  shape s := s.table ≠ root

variable {g : LinkGraph} {root lead : String}

mutual

theorem Place.within_of_foundIn (hv : g.Valid) : ∀ {p : Place} {table dim : String},
    p.FoundIn g root lead table dim → p.Within (.walking root lead)
  | .row, _, _, _ => trivial
  | .linked shape link dims source, table, dim, h => by
    obtain ⟨hne, ⟨d, -, rfl⟩, -, hdims, hsource⟩ := h
    have hroot : link.sourceTable = root → dims = [] ∨ dims = [lead] := fun heq => by
      rw [heq] at hsource
      exact Offset.dims_of_root (LinkGraph.nodup_of_dimsOf? hv hdims) hsource
    refine ⟨hne, ?_, Offset.within_of_foundIn hv hsource⟩
    unfold Allowed.Follows
    split <;> exact hroot

theorem Offset.within_of_foundIn (hv : g.Valid) : ∀ {o : Offset} {table : String}
    {dims : List String}, o.FoundIn g root lead table dims → o.Within (.walking root lead)
  | .scalar, _, _, _ => trivial
  | .along .., _, _ :: _, h =>
    ⟨Place.within_of_foundIn hv h.1, Offset.within_of_foundIn hv h.2.2⟩

end

theorem Plan.within_of_plannedAs (hv : g.Valid) {constants : List (String × UInt64)} :
    ∀ {e : Expr} {p : Plan}, e.PlannedAs g root lead constants p → p.Within (.walking root lead)
  | .number _, _, h | .bool _, _, h => by
    cases h
    trivial
  | .name table n _, p, h => by
    rw [Expr.PlannedAs] at h
    rcases hm : Expr.meaning root constants table n with bits | ⟨t, var⟩ <;> rw [hm] at h
    · cases h
      trivial
    · obtain ⟨dims, o, rfl, hdims, ho⟩ := h
      refine ⟨fun heq => ?_, Offset.within_of_foundIn hv ho⟩
      rw [heq] at ho
      exact Offset.dims_of_root (LinkGraph.nodup_of_dimsOf? hv hdims) ho
  | .unary _ a _, .unary _ q, ⟨_, rfl, hq⟩ => within_of_plannedAs (e := a) (p := q) hv hq
  | .binary .., _, ⟨_, _, rfl, hq, hr⟩ =>
    ⟨within_of_plannedAs hv hq, within_of_plannedAs hv hr⟩
  | .ternary .., _, ⟨_, _, _, rfl, hq, hr, hs⟩ =>
    ⟨within_of_plannedAs hv hq, within_of_plannedAs hv hr, within_of_plannedAs hv hs⟩

namespace Lowered

/-- The columns of a table lie over one of its dimensions alone, or over none. -/
def Rooted (l : Lowered) (root lead : String) : Prop :=
  ∀ c ∈ l.columns, c.table = root → c.dims ≠ [] → c.dims = [lead]

/-- So do the label tables of its links, and none of its sizes is noted. -/
structure Walked (l : Lowered) (root lead : String) : Prop where
  columns : l.Rooted root lead
  tables : ∀ t ∈ l.tables, t.link.sourceTable = root → t.dims ≠ [] → t.dims = [lead]
  shapes : ∀ s ∈ l.shapes, s.table ≠ root

theorem walked_kept (root lead : String) : Kept (.walking root lead) (Walked · root lead) where
  slot _ h := ⟨h.columns, h.tables, h.shapes⟩
  column hdims h := by
    unfold withColumn
    split
    · exact h
    · refine ⟨fun c hc htable hne => ?_, h.tables, h.shapes⟩
      rcases List.mem_append.1 hc with hc | hc
      · exact h.columns c hc htable hne
      · obtain rfl := List.mem_singleton.1 hc
        exact (hdims htable).resolve_left hne
  table hdims h := by
    unfold withTable
    split
    · exact h
    · refine ⟨h.columns, fun t ht htable hne => ?_, h.shapes⟩
      rcases List.mem_append.1 ht with ht | ht
      · exact h.tables t ht htable hne
      · obtain rfl := List.mem_singleton.1 ht
        exact (hdims htable).resolve_left hne
  check c link h := by
    unfold withCheck
    split
    · exact h
    · exact ⟨h.columns, h.tables, h.shapes⟩
  shape hne h := by
    refine ⟨h.columns, h.tables, fun s hs => ?_⟩
    rcases ShapeRef.mem_insert.1 hs with rfl | hs
    · exact hne
    · exact h.shapes s hs

end Lowered

/-- What is written down for a set is walked. -/
theorem Analysis.Planned.walked {set : ExprSet} {a : Analysis} {sc : Scope} {sources : List Source}
    {plans : List Plan} (h : a.Planned g set sc sources plans) (hg : g.Built) (hsc : sc.Rooted lead) :
    (Plan.emitAll plans .empty).2.Walked a.layout.root lead := by
  obtain ⟨-, -, lead', hsc', hplans⟩ := h.faithful hg
  obtain rfl : lead = lead' := Option.some.inj (hsc.leads.symm.trans hsc'.leads)
  have hroot : a.layout.root = a.root := by rw [h.layout, h.root]; rfl
  rw [hroot]
  refine Plan.emitAll_keeps (Lowered.walked_kept _ lead) (fun p hp => ?_)
    ⟨by simp [Lowered.Rooted, Lowered.empty], by simp [Lowered.empty], by simp [Lowered.empty]⟩
  obtain ⟨s, -, hs⟩ := exists_of_mem_right hplans p hp
  exact Plan.within_of_plannedAs hg.valid hs

end LinkedTables
