import LinkedTables.Proofs.Analysis.Faithful
import LinkedTables.Proofs.Run.View

/-!
# What plans are worth in a row

If the data that a layout names are bound, and every source that is followed stores the positions that
its entries stand for, then the slots that a plan is written down with have values in a row: a place
and an offset have their position, exactly, and the plan of an expression has the value of the
expression (`Plan.emit_gives`, `Plan.emitAll_gives`). Positions are computed as doubles, and they stay
exact because no variable has `2 ^ 53` entries.
-/

namespace LinkedTables

open Analysis (layoutOf)
open Number (whole?)

/-- The data hold what a row is made of. -/
structure RowView.Stored (v : RowView) (F : Layout) (src : Sources) : Prop where
  valid : v.graph.Valid
  faithful : F.Faithful v.graph
  inRange : v.InRange
  follows : ∀ link dims, F.Follows link dims → v.Follows link dims
  small : ∀ c ∈ F.columns, v.graph.extent c.table c.dims < 2 ^ 53
  columns : ∀ i c, F.columns[i]? = some c → i < Text.bound32 ∧ ∃ data, src.columns[i]? = some data ∧
    v.graph.values? c.table c.var = some (.numbers data) ∧
    data.size = v.graph.extent c.table c.dims
  labels : ∀ i t, F.tables[i]? = some t → t.link.mode = .label → i < Text.bound32 ∧ ∃ positions,
    src.tables[i]? = some positions ∧ ∀ k n, k < v.graph.extent t.link.sourceTable t.dims →
      v.stands? t.link k = some n → ∃ p, positions[k]? = some p ∧ p.toNat = n
  positions : ∀ link dims, F.Follows link dims → link.mode = .position →
    v.graph.sizeOf link.targetTable link.targetDim < 2 ^ 53 → ∀ data,
    v.graph.values? link.sourceTable link.sourceVar = some (.numbers data) → ∀ k n x,
      v.stands? link k = some n → data[k]? = some x → whole? x = some (n : Int)

namespace RowView.Stored

variable {v : RowView} {F : Layout} {src : Sources}

/-- A column of the layout is bound to its variable. -/
theorem column (hs : v.Stored F src) {c : UInt32} {table var : String} {dims : List String}
    (hc : F.HasColumn c table var) (hdims : v.graph.dimsOf? table var = some dims) :
    ∃ data, src.columns[c.toNat]? = some data ∧
      v.graph.values? table var = some (.numbers data) ∧
      data.size = v.graph.extent table dims := by
  obtain ⟨i, ref, rfl, hi, rfl, rfl⟩ := hc
  obtain ⟨hlt, data, hdata, hvalues, hsize⟩ := hs.columns i ref hi
  have hsame := hs.faithful.columns ref (List.mem_of_getElem? hi)
  rw [hdims, Option.some.injEq] at hsame
  rw [UInt32.toNat_ofNat_of_lt' hlt]
  exact ⟨data, hdata, hvalues, hsame ▸ hsize⟩

/-- A label table of the layout is bound to the positions of its link. -/
theorem table (hs : v.Stored F src) {t : UInt32} {link : Link} {dims : List String}
    (ht : F.HasTable t link) (hF : F.Follows link dims) (hmode : link.mode = .label) : ∃ positions,
      src.tables[t.toNat]? = some positions ∧ ∀ k n, k < v.graph.extent link.sourceTable dims →
        v.stands? link k = some n → ∃ p, positions[k]? = some p ∧ p.toNat = n := by
  obtain ⟨i, ref, rfl, hi, rfl⟩ := ht
  obtain ⟨hlt, positions, hpositions, hstands⟩ := hs.labels i ref hi hmode
  have hsame := (hs.faithful.tables ref (List.mem_of_getElem? hi)).2
  rw [(hs.faithful.follows hF).2, Option.some.injEq] at hsame
  rw [UInt32.toNat_ofNat_of_lt' hlt]
  exact ⟨positions, hpositions, hsame ▸ hstands⟩

end RowView.Stored

/-- An offset that may have no slot has its value, which then is zero. -/
def Offset.Worth (vals : List Float) (slot : Option SlotId) (i : Nat) : Prop :=
  slot = none ∧ i = 0 ∨ ∃ s z, slot = some s ∧ vals[s]? = some z ∧ whole? z = some (i : Int)

theorem Offset.Worth.mono {vals vals' : List Float} {slot : Option SlotId} {i : Nat}
    (h : Offset.Worth vals slot i) (hpre : vals <+: vals') : Offset.Worth vals' slot i := by
  rcases h with h | ⟨s, z, hs, hz, hi⟩
  · exact Or.inl h
  · exact Or.inr ⟨s, z, hs, SlotGraph.getElem?_of_prefix hpre hz, hi⟩

namespace Lowered

/-- A step gives a slot with a value and keeps the values there are. -/
def Gives (src : Sources) (row : Nat) (vals : List Float) (r : SlotId × Lowered) (x : Float) : Prop :=
  SlotGraph.Gives src row vals (r.1, r.2.slots) x

variable {v : RowView} {F : Layout} {src : Sources} {row : Nat} {vals : List Float}
  {l : Lowered}

/-- The slot of a followed link holds the position that the source stands for. -/
theorem follow_gives (hs : v.Stored F src) {link : Link} {dims : List String} {at_ : SlotId}
    (hF : F.Follows link dims) (hgrows : (layoutOf v.root (l.follow link dims at_).2).Grows F)
    (hv : SlotGraph.Valued src v.row l.slots vals) {x : Float} {i n : Nat}
    (hx : vals[at_]? = some x) (hi : whole? x = some (i : Int))
    (hlt : i < v.graph.extent link.sourceTable dims) (hn : v.stands? link i = some n)
    (htarget : v.graph.sizeOf link.targetTable link.targetDim < 2 ^ 53) :
    ∃ z, Gives src v.row vals (l.follow link dims at_) z ∧ whole? z = some (n : Int) := by
  have hsmall := (hs.follows link dims hF).small
  have hindex : Number.toIndex x = i := Number.toIndex_of_whole hi (by omega)
  rw [follow] at hgrows ⊢
  split at hgrows <;> rename_i hmode
  · obtain ⟨positions, hpositions, hstands⟩ :=
      hs.table (hgrows.hasTable (withTable_hasTable l link dims v.root)) hF hmode
    obtain ⟨p, hp, rfl⟩ := hstands i n hlt hn
    refine ⟨Number.ofIndex p.toNat, ?_, Number.whole?_ofIndex (p.toNat_lt.trans (by decide))⟩
    refine SlotGraph.label_gives ?_ hx hpositions (by rwa [hindex])
    rwa [withTable_slots]
  · obtain ⟨data, hdata, hvalues, hsize⟩ := hs.column (hgrows.hasColumn
      (((withCheck_grows _ _ link).layout v.root).hasColumn
        (withColumn_hasColumn l link.sourceTable link.sourceVar dims v.root)))
      (hs.faithful.follows hF).2
    have hget : data[i]? = some data[i] := by simp [hsize, hlt]
    refine ⟨data[i], ?_, hs.positions link dims hF hmode htarget data hvalues i n _ hn hget⟩
    refine SlotGraph.load_gives ?_ hx hdata (by rwa [hindex])
    rwa [withCheck_slots, withColumn_slots]

theorem offsetOr_gives (hv : SlotGraph.Valued src row l.slots vals)
    {inner : Option SlotId} {i : Nat}
    (hinner : Offset.Worth vals inner i) :
    ∃ z, Gives src row vals (l.offsetOr inner) z ∧ whole? z = some (i : Int) := by
  rcases hinner with ⟨rfl, rfl⟩ | ⟨s, z, rfl, hz, hi⟩
  · exact ⟨0.0, SlotGraph.constant_gives hv 0.0, Number.whole?_of_zero (by with_unfolding_all rfl)⟩
  · exact ⟨z, ⟨vals, List.prefix_refl _, hv, hz⟩, hi⟩

/-- One more dimension outwards, `n` steps of as many entries as lie further in. -/
theorem outwards_gives (hl : l.Sound) (hv : SlotGraph.Valued src row l.slots vals)
    {inner : Option SlotId} {pos : SlotId} {y : Float} {extent i n : Nat}
    (hinner : Offset.Worth vals inner i) (hscalar : inner = none → extent = 1)
    (hy : vals[pos]? = some y) (hn : whole? y = some (n : Int)) (hi : i < extent)
    (hsmall : n * extent + i < 2 ^ 53) (hextent : extent < 2 ^ 53) :
    ∃ z, Gives src row vals (l.outwards inner pos (UInt64.ofNat extent)) z ∧
      whole? z = some ((n * extent + i : Nat) : Int) := by
  rcases hinner with ⟨rfl, rfl⟩ | ⟨base, x, rfl, hx, hwhole⟩
  · obtain rfl := hscalar rfl
    exact ⟨y, ⟨vals, List.prefix_refl _, hv, hy⟩, by simpa using hn⟩
  · have hstep : (UInt64.ofNat extent).toNat = extent :=
      UInt64.toNat_ofNat_of_lt' (hextent.trans (by decide))
    have hnlt : n < 2 ^ 53 := by
      have := Nat.le_mul_of_pos_right n (show 0 < extent by omega)
      omega
    have hgives := SlotGraph.stride_gives hl.slots hv hx hy hwhole hn hnlt
      (show (UInt64.ofNat extent).toNat < 2 ^ 53 by rwa [hstep]) (by rwa [hstep])
    rwa [hstep] at hgives

end Lowered

theorem Offset.scalar_of_emitPartial {o : Offset} {l : Lowered} (h : (o.emitPartial l).1 = none) :
    o = .scalar := by
  cases o with
  | scalar => rfl
  | along place step rest => cases h

variable {v : RowView} {F : Layout} {src : Sources}

mutual

theorem Place.emit_gives (hs : v.Stored F src) : ∀ {p : Place} {l : Lowered} {vals : List Float}
    {fuel n : Nat} {table dim : String}, l.Sound → (layoutOf v.root (p.emit l).2).Grows F →
      p.FoundIn v.graph v.root v.lead table dim → p.RecordedIn F →
      v.graph.rank table ≤ fuel → v.position? fuel table dim = some n →
      v.graph.sizeOf table dim < 2 ^ 53 →
      SlotGraph.Valued src v.row l.slots vals →
      ∃ z, Lowered.Gives src v.row vals (p.emit l) z ∧ whole? z = some (n : Int)
  | _, l, vals, 0, n, table, dim, _, _, _, _, _, hn, _, _ => by cases hn
  | .row, l, vals, fuel + 1, n, table, dim, _, _, h, _, _, hn, hsmall, hv => by
    obtain ⟨rfl, rfl⟩ := h
    rw [RowView.position?, if_pos ⟨rfl, rfl⟩, Option.some.injEq] at hn
    subst hn
    exact ⟨_, SlotGraph.row_gives hv, Number.whole?_ofIndex (hs.inRange.trans hsmall)⟩
  | .linked shape link dims source, l, vals, fuel + 1, n, table, dim, hl, hgrows, h, hrec, hrank,
      hn, htarget, hv => by
    obtain ⟨hne, -, hlink, hdims, hsource⟩ := h
    have hmem := hs.valid.mem_names_of_into? hlink
    obtain ⟨hlmem, rfl, rfl⟩ := LinkGraph.into?_eq_some hlink
    have hlt := LinkGraph.rank_lt hs.valid.acyclic hlmem hmem
    have hsmall := (hs.follows link dims hrec.2.1).small
    obtain ⟨i, hi, hilt⟩ := Offset.located hs.valid hs.inRange hs.follows hsource hrec.2.2
      (LinkGraph.mem_names_of_dimsOf? hdims) (show v.graph.rank link.sourceTable ≤ fuel by omega)
      hsmall
    rw [RowView.position?, if_neg fun h => hne h.1, hlink] at hn
    have hstands : v.stands? link i = some n := by simpa [hdims, hi] using hn
    have hshaped := Lowered.withShape_sound hl shape
    obtain ⟨hsound, hgrowsInner, hinner⟩ := source.emitPartial_writes hshaped
    have hat := Lowered.offsetOr_writes hsound hinner
    have hwrites := Lowered.follow_writes hat.sound link dims hat.lt
    obtain ⟨vals', hpre, hv', hworth⟩ := Offset.emitPartial_gives hs hshaped
      (((hat.grows.trans hwrites.grows).layout v.root).trans hgrows) hsource hrec.2.2
      (LinkGraph.mem_names_of_dimsOf? hdims) (show v.graph.rank link.sourceTable ≤ fuel by omega)
      hsmall hi hv
    obtain ⟨x, ⟨vals'', hpre', hv'', hx⟩, hwhole⟩ := Lowered.offsetOr_gives hv' hworth
    obtain ⟨z, ⟨vals₃, hpre₃, hv₃, hz⟩, hwholez⟩ :=
      Lowered.follow_gives hs hrec.2.1 hgrows hv'' hx hwhole hilt hstands htarget
    exact ⟨z, ⟨vals₃, hpre.trans (hpre'.trans hpre₃), hv₃, hz⟩, hwholez⟩

theorem Offset.emitPartial_gives (hs : v.Stored F src) : ∀ {o : Offset} {l : Lowered}
    {vals : List Float} {fuel i : Nat} {table : String} {dims : List String}, l.Sound →
      (layoutOf v.root (o.emitPartial l).2).Grows F →
      o.FoundIn v.graph v.root v.lead table dims → o.RecordedIn F → table ∈ v.graph.names →
      v.graph.rank table ≤ fuel → v.graph.extent table dims < 2 ^ 53 →
      v.graph.index? table (v.position? fuel table) dims = some i →
      SlotGraph.Valued src v.row l.slots vals →
      ∃ vals', vals <+: vals' ∧ SlotGraph.Valued src v.row (o.emitPartial l).2.slots vals' ∧
        Offset.Worth vals' (o.emitPartial l).1 i
  | .scalar, l, vals, fuel, i, table, dims, _, _, h, _, _, _, _, hi, hv => by
    subst h
    cases hi
    exact ⟨vals, List.prefix_refl _, hv, Or.inl ⟨rfl, rfl⟩⟩
  | .along place step rest, l, vals, fuel, i, table, d :: dims, hl, hgrows, h, hrec, hmem, hrank,
      hsmall, hi, hv => by
    rw [LinkGraph.extent_cons] at hsmall
    obtain ⟨n, j, hn, hnlt, hj, hjlt⟩ := LinkGraph.along_located hsmall
      (Place.located hs.valid hs.inRange hs.follows h.1 hrec.1 hmem hrank)
      (Offset.located hs.valid hs.inRange hs.follows h.2.2 hrec.2 hmem hrank)
    rw [LinkGraph.index?_cons hn hj, Option.some.injEq] at hi
    subst hi
    have hinner : v.graph.extent table dims ≤ v.graph.sizeOf table d * v.graph.extent table dims :=
      Nat.le_mul_of_pos_left _ (by omega)
    have hlt : n * v.graph.extent table dims + j < 2 ^ 53 := by
      have := Nat.mul_le_mul_right (v.graph.extent table dims) hnlt
      rw [Nat.succ_mul] at this
      omega
    have hdsmall : v.graph.sizeOf table d < 2 ^ 53 :=
      (Nat.le_mul_of_pos_right _ (by omega)).trans_lt hsmall
    obtain ⟨hsound, hgrowsRest, hslot⟩ := rest.emitPartial_writes hl
    have hplace := place.emit_writes hsound
    simp only [Offset.emitPartial, Lowered.outwards_layout] at hgrows ⊢
    obtain ⟨vals', hpre, hv', hworth⟩ := Offset.emitPartial_gives hs hl
      ((hplace.grows.layout v.root).trans hgrows) h.2.2 hrec.2 hmem hrank
      (hinner.trans_lt hsmall) hj hv
    obtain ⟨y, ⟨vals'', hpre', hv'', hy⟩, hwhole⟩ :=
      Place.emit_gives hs hsound hgrows h.1 hrec.1 hrank hn hdsmall hv'
    have hscalar : (rest.emitPartial l).1 = none → v.graph.extent table dims = 1 := fun hnone => by
      have hrest := h.2.2
      rw [Offset.scalar_of_emitPartial hnone] at hrest
      rw [show dims = [] from hrest, LinkGraph.extent_nil]
    obtain ⟨z, ⟨vals₃, hpre₃, hv₃, hz⟩, hwholez⟩ := Lowered.outwards_gives hplace.sound hv''
      (hworth.mono hpre') hscalar hy hwhole hjlt hlt (hinner.trans_lt hsmall)
    rw [← h.2.1] at hv₃ hz
    exact ⟨vals₃, hpre.trans (hpre'.trans hpre₃), hv₃, Or.inr ⟨_, z, rfl, hz, hwholez⟩⟩

end

/-- The entry of a variable is loaded from its column. -/
theorem Plan.entry_gives (hs : v.Stored F src) {l : Lowered} {vals : List Float} {table var : String}
    {dims : List String} {o : Offset} (hl : l.Sound)
    (hgrows : (layoutOf v.root ((Plan.entry table var dims o).emit l).2).Grows F)
    (hdims : v.graph.dimsOf? table var = some dims)
    (ho : o.FoundIn v.graph v.root v.lead table dims)
    (hrec : (Plan.entry table var dims o).RecordedIn F)
    (hv : SlotGraph.Valued src v.row l.slots vals) :
    ∃ x, Lowered.Gives src v.row vals ((Plan.entry table var dims o).emit l) x ∧
      v.entry? table var = some x := by
  obtain ⟨hcol, hrec⟩ := hrec
  have hmem := LinkGraph.mem_names_of_dimsOf? hdims
  have hsmall : v.graph.extent table dims < 2 ^ 53 := hs.small ⟨table, var, dims⟩ hcol
  obtain ⟨i, hi, hilt⟩ := Offset.located hs.valid hs.inRange hs.follows ho hrec hmem
    (v.graph.rank_le table) hsmall
  have hcolumn := Lowered.withColumn_sound hl table var dims
  obtain ⟨hsound, hgrowsRest, hinner⟩ := o.emitPartial_writes hcolumn
  have hat := Lowered.offsetOr_writes hsound hinner
  obtain ⟨vals', hpre, hv', hworth⟩ := Offset.emitPartial_gives hs hcolumn
    ((hat.grows.layout v.root).trans hgrows) ho hrec hmem (v.graph.rank_le table)
    hsmall hi (by rwa [Lowered.withColumn_slots])
  obtain ⟨y, ⟨vals'', hpre', hv'', hy⟩, hwhole⟩ := Lowered.offsetOr_gives hv' hworth
  obtain ⟨data, hdata, hvalues, hsize⟩ := hs.column (hgrows.hasColumn
    (((hgrowsRest.trans hat.grows).layout v.root).hasColumn
      (Lowered.withColumn_hasColumn l table var dims v.root))) hdims
  have hindex : Number.toIndex y = i := Number.toIndex_of_whole hwhole (by omega)
  have hget : data[i]? = some data[i] := by simp [hsize, hilt]
  obtain ⟨vals₃, hpre₃, hv₃, hx⟩ := SlotGraph.load_gives hv'' hy hdata (by rwa [hindex])
  refine ⟨data[i], ⟨vals₃, hpre.trans (hpre'.trans hpre₃), hv₃, hx⟩, ?_⟩
  simp [RowView.entry?, hdims, hi, hvalues, Values.numbers?, hget]

/-- The plan of an expression has the value of the expression. -/
theorem Plan.emit_gives (hs : v.Stored F src) {constants : List (String × UInt64)} : ∀ {e : Expr}
    {p : Plan} {l : Lowered} {vals : List Float}, l.Sound →
      (layoutOf v.root (p.emit l).2).Grows F → e.PlannedAs v.graph v.root v.lead constants p →
      p.RecordedIn F → SlotGraph.Valued src v.row l.slots vals →
      ∃ x, Lowered.Gives src v.row vals (p.emit l) x ∧ e.value? v constants = some x
  | .number x, p, l, vals, _, _, h, _, hv => by
    obtain rfl : p = .constant (Number.bits x) := h
    exact ⟨x, SlotGraph.constant_gives hv x, rfl⟩
  | .bool b, p, l, vals, _, _, h, _, hv => by
    obtain rfl : p = .constant (Number.bits (Number.ofBool b)) := h
    exact ⟨_, SlotGraph.constant_gives hv (Number.ofBool b), rfl⟩
  | .name table n _, p, l, vals, hl, hgrows, h, hrec, hv => by
    rw [Expr.PlannedAs] at h
    rw [Expr.value?]
    rcases hm : Expr.meaning v.root constants table n with bits | ⟨t, var⟩ <;> rw [hm] at h
    · obtain rfl : p = .constant bits := h
      exact ⟨_, SlotGraph.constantBits_gives hv bits, rfl⟩
    · obtain ⟨dims, o, rfl, hdims, ho⟩ := h
      exact Plan.entry_gives hs hl hgrows hdims ho hrec hv
  | .unary op a _, p, l, vals, hl, hgrows, h, hrec, hv => by
    obtain ⟨q, rfl, hq⟩ := h
    obtain ⟨x, ⟨vals', hpre, hv', hx⟩, hval⟩ := Plan.emit_gives (p := q) hs hl hgrows hq hrec hv
    have hsound := (q.emit_writes hl).sound
    have hargs : ([(q.emit l).1].mapM fun (j : SlotId) => vals'[j]?) = some [x] := by simp [hx]
    have hop : (Opcode.unary op).isPure = true ∧ Opcode.unary op ≠ .stride := ⟨rfl, by simp⟩
    obtain ⟨vals'', hpre', hv'', hy⟩ := SlotGraph.apply_gives hsound.slots hv' hargs hop rfl
    refine ⟨op.apply x, ⟨vals'', hpre.trans hpre', hv'', hy⟩, ?_⟩
    simp [Expr.value?, hval]
  | .binary op a b _, p, l, vals, hl, hgrows, h, hrec, hv => by
    obtain ⟨q, r, rfl, hq, hr⟩ := h
    have hsound := (q.emit_writes hl).sound
    have hwrites := r.emit_writes hsound
    obtain ⟨x, ⟨vals', hpre, hv', hx⟩, hvala⟩ := Plan.emit_gives hs hl
      ((hwrites.grows.layout v.root).trans hgrows) hq hrec.1 hv
    obtain ⟨y, ⟨vals'', hpre', hv'', hy⟩, hvalb⟩ := Plan.emit_gives (p := r) hs hsound hgrows hr hrec.2 hv'
    have hargs : ([(q.emit l).1, (r.emit (q.emit l).2).1].mapM fun (j : SlotId) => vals''[j]?) =
        some [x, y] := by simp [SlotGraph.getElem?_of_prefix hpre' hx, hy]
    have hop : (Opcode.binary op).isPure = true ∧ Opcode.binary op ≠ .stride := ⟨rfl, by simp⟩
    obtain ⟨vals₃, hpre₃, hv₃, hz⟩ :=
      SlotGraph.apply_gives hwrites.sound.slots hv'' hargs hop rfl
    refine ⟨op.apply x y, ⟨vals₃, hpre.trans (hpre'.trans hpre₃), hv₃, hz⟩, ?_⟩
    simp [Expr.value?, hvala, hvalb]
  | .ternary op a b c _, p, l, vals, hl, hgrows, h, hrec, hv => by
    obtain ⟨q, r, s, rfl, hq, hr, hs'⟩ := h
    have hsound := (q.emit_writes hl).sound
    have hwrites := r.emit_writes hsound
    have hwrites' := s.emit_writes hwrites.sound
    obtain ⟨x, ⟨vals', hpre, hv', hx⟩, hvala⟩ := Plan.emit_gives hs hl
      (((hwrites.grows.trans hwrites'.grows).layout v.root).trans hgrows) hq hrec.1 hv
    obtain ⟨y, ⟨vals'', hpre', hv'', hy⟩, hvalb⟩ := Plan.emit_gives hs hsound
      ((hwrites'.grows.layout v.root).trans hgrows) hr hrec.2.1 hv'
    obtain ⟨z, ⟨vals₃, hpre₃, hv₃, hz⟩, hvalc⟩ :=
      Plan.emit_gives (p := s) hs hwrites.sound hgrows hs' hrec.2.2 hv''
    have hargs : ([(q.emit l).1, (r.emit (q.emit l).2).1, (s.emit (r.emit (q.emit l).2).2).1].mapM
        fun (j : SlotId) => vals₃[j]?) = some [x, y, z] := by
      simp [SlotGraph.getElem?_of_prefix (hpre'.trans hpre₃) hx,
        SlotGraph.getElem?_of_prefix hpre₃ hy, hz]
    have hop : (Opcode.ternary op).isPure = true ∧ Opcode.ternary op ≠ .stride := ⟨rfl, by simp⟩
    obtain ⟨vals₄, hpre₄, hv₄, hw⟩ :=
      SlotGraph.apply_gives hwrites'.sound.slots hv₃ hargs hop rfl
    refine ⟨op.apply x y z, ⟨vals₄, hpre.trans (hpre'.trans (hpre₃.trans hpre₄)), hv₄, hw⟩, ?_⟩
    simp [Expr.value?, hvala, hvalb, hvalc]

/-- The plans of several expressions have their values, one by one. -/
theorem Plan.emitAll_gives (hs : v.Stored F src) {constants : List (String × UInt64)} :
    ∀ {sources : List Analysis.Source} {plans : List Plan} {l : Lowered} {vals : List Float},
      l.Sound → (layoutOf v.root (Plan.emitAll plans l).2).Grows F →
      List.Forall₂ (fun s p => s.tree.PlannedAs v.graph v.root v.lead constants p) sources plans →
      (∀ p ∈ plans, p.RecordedIn F) → SlotGraph.Valued src v.row l.slots vals →
      ∃ vals', vals <+: vals' ∧ SlotGraph.Valued src v.row (Plan.emitAll plans l).2.slots vals' ∧
        List.Forall₂ (fun s i => ∃ x, s.tree.value? v constants = some x ∧ vals'[i]? = some x)
          sources (Plan.emitAll plans l).1
  | [], [], l, vals, _, _, _, _, hv => ⟨vals, List.prefix_refl _, hv, .nil⟩
  | s :: sources, p :: plans, l, vals, hl, hgrows, .cons hp hplans, hrec, hv => by
    have hsound := (p.emit_writes hl).sound
    have hgrowsRest := (Plan.emitAll_writes plans hsound).2.1.layout v.root
    obtain ⟨x, ⟨vals', hpre, hv', hx⟩, hval⟩ := Plan.emit_gives hs hl (hgrowsRest.trans hgrows) hp
      (hrec p (by simp)) hv
    obtain ⟨vals'', hpre', hv'', hrest⟩ := Plan.emitAll_gives hs hsound hgrows hplans
      (fun q hq => hrec q (List.mem_cons_of_mem p hq)) hv'
    exact ⟨vals'', hpre.trans hpre', hv'',
      .cons ⟨x, hval, SlotGraph.getElem?_of_prefix hpre' hx⟩ hrest⟩

end LinkedTables
