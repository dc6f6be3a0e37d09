import LinkedTables.Proofs.Analysis.Comparable
import LinkedTables.Proofs.Flow.Calls

/-!
# What is written down once

Writing down again what was written down before gives the slot that is there and adds no slot, no
column and no label table (`Place.emit_again`, `Offset.emit_again`), however much was written down in
between. So an offset stands at one slot (`Offset.standsAt_unique`).

What the plans of a set leave is a graph of slots that was made by calls, in which every load is at the
offset of the variable of its column (`Lowered.Shared`). The column determines this offset, and thereby
the load (`Lowered.Gathers.args_eq`). No variable has two columns, and no link has two label tables
(`Lowered.Distinct`).
-/

namespace LinkedTables

open Analysis (layoutOf)

namespace Lowered

/-- Slots, columns and label tables are there, under the same numbers. -/
structure Before (l l' : Lowered) : Prop where
  slots : l.slots.Extends l'.slots
  columns : l.columns <+: l'.columns
  tables : l.tables <+: l'.tables

/-- Slots, columns and label tables are the same. -/
structure Same (l l' : Lowered) : Prop where
  slots : l.slots = l'.slots
  columns : l.columns = l'.columns
  tables : l.tables = l'.tables

variable {l l' l'' : Lowered}

theorem Before.refl (l : Lowered) : l.Before l :=
  ⟨.refl _, List.prefix_refl _, List.prefix_refl _⟩

theorem Before.trans (h : l.Before l') (h' : l'.Before l'') : l.Before l'' :=
  ⟨h.slots.trans h'.slots, h.columns.trans h'.columns, h.tables.trans h'.tables⟩

theorem Grows.before (h : l.Grows l') : l.Before l' :=
  ⟨h.slots, (h.layout "").columns, (h.layout "").tables⟩

theorem Same.refl (l : Lowered) : l.Same l := ⟨rfl, rfl, rfl⟩

theorem Same.symm (h : l.Same l') : l'.Same l := ⟨h.slots.symm, h.columns.symm, h.tables.symm⟩

theorem Same.trans (h : l.Same l') (h' : l'.Same l'') : l.Same l'' :=
  ⟨h.slots.trans h'.slots, h.columns.trans h'.columns, h.tables.trans h'.tables⟩

theorem Same.before (h : l.Same l') : l.Before l' where
  slots := h.slots ▸ .refl _
  columns := h.columns ▸ List.prefix_refl _
  tables := h.tables ▸ List.prefix_refl _

/-- What was written down is there when it is written down again: it gets what it got, and nothing is
added. -/
structure Again {α : Type} (r r' : α × Lowered) (later : Lowered) : Prop where
  result : r'.1 = r.1
  same : r'.2.Same later

section Steps

variable {later : Lowered}

theorem withSlot_again (hl : l.slots.Sound) {c : SlotCall} (hc : c.Fits l.slots.size)
    (h : (l.withSlot c.ask).2.Before later) :
    Again (l.withSlot c.ask) (later.withSlot c.ask) later := by
  have hagain := SlotGraph.ask_again hl hc h.slots
  have hslot : (c.ask later.slots).1 = (c.ask l.slots).1 := by rw [hagain]
  have hslots : (c.ask later.slots).2 = later.slots := by rw [hagain]
  exact ⟨hslot, hslots, rfl, rfl⟩

theorem findIdx?_mono {α : Type} {p : α → Bool} {xs ys : List α} (h : xs <+: ys) {i : Nat}
    (hi : xs.findIdx? p = some i) : ys.findIdx? p = some i := by
  obtain ⟨more, rfl⟩ := h
  rw [List.findIdx?_append, hi, Option.some_or]

/-- What is put behind others that are not found is found. -/
theorem findIdx?_concat {α : Type} {p : α → Bool} {xs : List α} {x : α} (hxs : xs.findIdx? p = none)
    (hx : p x = true) : (xs ++ [x]).findIdx? p = some xs.length := by
  simp [List.findIdx?_append, hxs, hx]

theorem withColumn_again {table var : String} {dims : List String}
    (h : (l.withColumn table var dims).2.Before later) :
    later.withColumn table var dims = ((l.withColumn table var dims).1, later) := by
  rcases hfind : l.columns.findIdx? fun c => c.table == table && c.var == var with _ | i <;>
    simp only [withColumn, hfind] at h ⊢
  · rw [findIdx?_mono h.columns (findIdx?_concat hfind (by simp))]
  · rw [findIdx?_mono h.columns hfind]

theorem withTable_again {link : Link} {dims : List String}
    (h : (l.withTable link dims).2.Before later) :
    later.withTable link dims = ((l.withTable link dims).1, later) := by
  rcases hfind : l.tables.findIdx? fun t => t.link == link with _ | i <;>
    simp only [withTable, hfind] at h ⊢
  · rw [findIdx?_mono h.tables (findIdx?_concat hfind (by simp))]
  · rw [findIdx?_mono h.tables hfind]

theorem withCheck_same (l : Lowered) (c : UInt32) (link : Link) : (l.withCheck c link).Same l := by
  rw [withCheck]
  split_ifs <;> exact ⟨rfl, rfl, rfl⟩

theorem follow_again (hl : l.Sound) (link : Link) (dims : List String) {at_ at' : SlotId}
    (heq : at' = at_) (hat : at_ < l.slots.size) (h : (l.follow link dims at_).2.Before later) :
    Again (l.follow link dims at_) (later.follow link dims at') later := by
  subst heq
  cases hmode : link.mode <;> simp only [follow, hmode] at h ⊢
  · set table := l.withTable link dims with htable
    have hslots : table.2.slots = l.slots := withTable_slots l link dims
    have hfits : (SlotCall.label table.1 at').Fits table.2.slots.size := by rwa [hslots]
    have hasked := SlotGraph.ask_adds (hslots ▸ hl.slots) hfits
    have hmid : table.2.Before (table.2.withSlot (SlotCall.label table.1 at').ask).2 :=
      ⟨hasked.extends_, List.prefix_refl _, List.prefix_refl _⟩
    rw [withTable_again (hmid.trans h)]
    exact withSlot_again (hslots ▸ hl.slots) hfits h
  · set column := l.withColumn link.sourceTable link.sourceVar dims with hcolumn
    set checked := column.2.withCheck column.1 link
    have hslots : checked.slots = l.slots :=
      (withCheck_same _ _ link).slots.trans (withColumn_slots l _ _ dims)
    have hfits : (SlotCall.load column.1 at').Fits checked.slots.size := by rwa [hslots]
    have hasked := SlotGraph.ask_adds (hslots ▸ hl.slots) hfits
    have hmid : checked.Before (checked.withSlot (SlotCall.load column.1 at').ask).2 :=
      ⟨hasked.extends_, List.prefix_refl _, List.prefix_refl _⟩
    have hchecked : column.2.Before checked := (withCheck_same column.2 column.1 link).symm.before
    rw [withColumn_again (hchecked.trans (hmid.trans h))]
    have hlater : (later.withCheck column.1 link).Same later := withCheck_same later column.1 link
    have hagain := withSlot_again (hslots ▸ hl.slots) hfits (h.trans hlater.symm.before)
    exact ⟨hagain.result, hagain.same.trans hlater⟩

theorem outwards_again (hl : l.Sound) {inner inner' : Option SlotId} {pos pos' : SlotId}
    (step : UInt64) (heq : inner' = inner) (heq' : pos' = pos)
    (hinner : ∀ i ∈ inner, i < l.slots.size) (hpos : pos < l.slots.size)
    (h : (l.outwards inner pos step).2.Before later) :
    Again (l.outwards inner pos step) (later.outwards inner' pos' step) later := by
  subst heq heq'
  rcases inner' with _ | base
  · exact ⟨rfl, .refl later⟩
  · exact withSlot_again (c := .stride base pos' step) hl.slots ⟨hinner base rfl, hpos⟩ h

theorem offsetOr_again (hl : l.Sound) {inner inner' : Option SlotId} (heq : inner' = inner)
    (h : (l.offsetOr inner).2.Before later) :
    Again (l.offsetOr inner) (later.offsetOr inner') later := by
  subst heq
  rcases inner' with _ | i
  · exact withSlot_again (c := .constant (Number.bits 0.0)) hl.slots trivial h
  · exact ⟨rfl, .refl later⟩

end Steps

end Lowered

open Lowered (Again)

mutual

/-- A position that was written down is there. -/
theorem Place.emit_again : ∀ (p : Place) {l later : Lowered}, l.Sound → (p.emit l).2.Before later →
    Again (p.emit l) (p.emit later) later
  | .row, l, later, hl, h => Lowered.withSlot_again (c := .row) hl.slots trivial h
  | .linked shape link dims source, l, later, hl, h => by
    have hl' := Lowered.withShape_sound hl shape
    obtain ⟨hinner, hgrows, hlt⟩ := source.emitPartial_writes hl'
    have hat := Lowered.offsetOr_writes hinner hlt
    have hfollow := Lowered.follow_writes hat.sound link dims hat.lt
    have hshape : (later.withShape shape).Same later := ⟨rfl, rfl, rfl⟩
    have hlater : (source.emitPartial (l.withShape shape)).2.Before (later.withShape shape) :=
      hat.grows.before.trans (hfollow.grows.before.trans (h.trans hshape.symm.before))
    have hsource := source.emitPartial_again hl' hlater
    have hsame := hsource.same.trans hshape
    have hoffset := Lowered.offsetOr_again hinner hsource.result
      (hfollow.grows.before.trans (h.trans hsame.symm.before))
    have hsame' := hoffset.same.trans hsame
    have hend := Lowered.follow_again hat.sound link dims hoffset.result hat.lt
      (h.trans hsame'.symm.before)
    exact ⟨hend.result, hend.same.trans hsame'⟩

theorem Offset.emitPartial_again : ∀ (o : Offset) {l later : Lowered}, l.Sound →
    (o.emitPartial l).2.Before later → Again (o.emitPartial l) (o.emitPartial later) later
  | .scalar, _, later, _, _ => ⟨rfl, .refl later⟩
  | .along place step rest, l, later, hl, h => by
    obtain ⟨hrest, hgrows, hlt⟩ := rest.emitPartial_writes hl
    have hpos := place.emit_writes hrest
    have hlt' : ∀ i ∈ (rest.emitPartial l).1, i < (place.emit (rest.emitPartial l).2).2.slots.size :=
      fun i hi => (hlt i hi).trans_le hpos.grows.slots.size_le
    have hout := Lowered.outwards_writes hpos.sound step hlt' hpos.lt
    have hinner := rest.emitPartial_again hl (hpos.grows.before.trans (hout.grows.before.trans h))
    have hplace := place.emit_again hrest (hout.grows.before.trans (h.trans hinner.same.symm.before))
    have hsame := hplace.same.trans hinner.same
    have hend := Lowered.outwards_again hpos.sound step hinner.result hplace.result hlt' hpos.lt
      (h.trans hsame.symm.before)
    exact ⟨congrArg some hend.result, hend.same.trans hsame⟩

end

theorem Offset.emit_again (o : Offset) {l later : Lowered} (hl : l.Sound)
    (h : (o.emit l).2.Before later) : Again (o.emit l) (o.emit later) later := by
  obtain ⟨hinner, hgrows, hlt⟩ := o.emitPartial_writes hl
  have hat := Lowered.offsetOr_writes hinner hlt
  have hpartial := o.emitPartial_again hl (hat.grows.before.trans h)
  have hend := Lowered.offsetOr_again hinner hpartial.result (h.trans hpartial.same.symm.before)
  exact ⟨hend.result, hend.same.trans hpartial.same⟩

/-- The slot is where the offset was written down. -/
def Offset.StandsAt (o : Offset) (l : Lowered) (i : SlotId) : Prop :=
  ∃ before : Lowered, before.Sound ∧ (o.emit before).2.Before l ∧ (o.emit before).1 = i

theorem Offset.StandsAt.mono {o : Offset} {l l' : Lowered} {i : SlotId} (h : o.StandsAt l i)
    (hl : l.Before l') : o.StandsAt l' i := by
  obtain ⟨before, hsound, hbefore, hi⟩ := h
  exact ⟨before, hsound, hbefore.trans hl, hi⟩

theorem Offset.StandsAt.lt {o : Offset} {l : Lowered} {i : SlotId} (h : o.StandsAt l i) :
    i < l.slots.size := by
  obtain ⟨before, hsound, hbefore, rfl⟩ := h
  exact (o.emit_writes hsound).lt.trans_le hbefore.slots.size_le

/-- An offset stands at one slot. -/
theorem Offset.standsAt_unique {o : Offset} {l : Lowered} {i j : SlotId} (hi : o.StandsAt l i)
    (hj : o.StandsAt l j) : i = j := by
  obtain ⟨before, hsound, hbefore, rfl⟩ := hi
  obtain ⟨before', hsound', hbefore', rfl⟩ := hj
  exact (o.emit_again hsound hbefore).result.symm.trans (o.emit_again hsound' hbefore').result

variable {g : LinkGraph} {root lead : String}

namespace Lowered

/-- The slot takes the entry of a column at the offset of the variable of the column. -/
def Gathers (l : Lowered) (g : LinkGraph) (root lead : String) (s : Slot) : Prop :=
  ∃ (n : Nat) (ref : ColumnRef) (o : Offset) (i : SlotId), s.operand = (UInt32.ofNat n).toUInt64 ∧
    l.columns[n]? = some ref ∧ o.FoundIn g root lead ref.table ref.dims ∧ o.StandsAt l i ∧
    s.args = [i]

/-- The slots were made by calls, and every load is at the offset of the variable of its column. -/
structure Shared (l : Lowered) (g : LinkGraph) (root lead : String) : Prop where
  made : SlotGraph.Grown .empty l.slots
  gathers : ∀ s ∈ l.slots.slots, s.op = .load → l.Gathers g root lead s

variable {l l' : Lowered}

theorem Gathers.mono {s : Slot} (h : l.Gathers g root lead s) (hl : l.Before l') :
    l'.Gathers g root lead s := by
  obtain ⟨n, ref, o, i, hoperand, hn, ho, hi, hargs⟩ := h
  exact ⟨n, ref, o, i, hoperand, SlotGraph.getElem?_of_prefix hl.columns hn, ho, hi.mono hl, hargs⟩

/-- Loads from one column are at one offset. -/
theorem Gathers.args_eq {s t : Slot} (hs : l.Gathers g root lead s) (ht : l.Gathers g root lead t)
    (hcolumns : l.columns.length ≤ 2 ^ 32) (h : s.operand = t.operand) : s.args = t.args := by
  obtain ⟨n, ref, o, i, hn, href, ho, hi, hsargs⟩ := hs
  obtain ⟨n', ref', o', i', hn', href', ho', hi', htargs⟩ := ht
  have hlt := (List.getElem?_eq_some_iff.1 href).1.trans_le hcolumns
  have hlt' := (List.getElem?_eq_some_iff.1 href').1.trans_le hcolumns
  have hnumber : n = n' := by
    rw [hn, hn', ← UInt64.toNat_inj, UInt32.toNat_toUInt64, UInt32.toNat_toUInt64,
      UInt32.toNat_ofNat_of_lt' hlt, UInt32.toNat_ofNat_of_lt' hlt'] at h
    exact h
  subst hnumber
  rw [href, Option.some.injEq] at href'
  subst href'
  obtain rfl := Offset.foundIn_unique ho ho'
  rw [hsargs, htargs, Offset.standsAt_unique hi hi']

/-- What grows but for its slots stays shared. -/
theorem Shared.of_grows (h : l.Shared g root lead) (hl : l.Grows l') (heq : l'.slots = l.slots) :
    l'.Shared g root lead :=
  ⟨heq ▸ h.made, fun s hs hop => (h.gathers s (heq ▸ hs) hop).mono hl.before⟩

theorem withSlot_shared (h : l.Shared g root lead) (hl : l.Sound) (c : SlotCall)
    (hc : c.Fits l.slots.size)
    (hload : ∀ s, c.Asked s → s.op = .load → l.Gathers g root lead s) :
    (l.withSlot c.ask).2.Shared g root lead := by
  have hadds := SlotGraph.ask_adds hl.slots hc
  have hbefore : l.Before (l.withSlot c.ask).2 :=
    ⟨hadds.extends_, List.prefix_refl _, List.prefix_refl _⟩
  refine ⟨.call c h.made hc, fun s hs hop => ?_⟩
  rcases hadds.fresh s hs with hold | hasked
  · exact (h.gathers s hold hop).mono hbefore
  · exact (hload s hasked hop).mono hbefore

/-- A slot that takes nothing from a column keeps what is left shared. -/
theorem withSlot_shared_free (h : l.Shared g root lead) (hl : l.Sound) (c : SlotCall)
    (hc : c.Fits l.slots.size) (hfree : ∀ s, c.Asked s → s.op ≠ .load) :
    (l.withSlot c.ask).2.Shared g root lead :=
  withSlot_shared h hl c hc fun s hs hop => absurd hop (hfree s hs)

theorem load_shared (h : l.Shared g root lead) (hl : l.Sound) (hF : (layoutOf root l).Faithful g)
    {c : UInt32} {table var : String} {dims : List String} {o : Offset} {at_ : SlotId}
    (hc : (layoutOf root l).HasColumn c table var) (hdims : g.dimsOf? table var = some dims)
    (ho : o.FoundIn g root lead table dims) (hat : o.StandsAt l at_) :
    (l.withSlot (SlotCall.load c at_).ask).2.Shared g root lead := by
  refine withSlot_shared h hl _ hat.lt ?_
  rintro s rfl -
  obtain ⟨n, ref, rfl, hn, rfl, rfl⟩ := hc
  have href := hF.columns ref (List.mem_of_getElem? hn)
  rw [hdims, Option.some.injEq] at href
  exact ⟨n, ref, o, at_, rfl, hn, href ▸ ho, hat, rfl⟩

theorem follow_shared (h : l.Shared g root lead) (hl : l.Sound)
    (hF : (layoutOf root l).Faithful g) {link : Link} {dims : List String} {o : Offset}
    {at_ : SlotId} (hlink : g.into? link.targetTable link.targetDim = some link)
    (hdims : g.dimsOf? link.sourceTable link.sourceVar = some dims)
    (ho : o.FoundIn g root lead link.sourceTable dims) (hat : o.StandsAt l at_) :
    (l.follow link dims at_).2.Shared g root lead := by
  cases hmode : link.mode <;> simp only [follow, hmode]
  · have hslots := withTable_slots l link dims
    have htable := h.of_grows (withTable_grows l link dims) hslots
    refine withSlot_shared_free htable (withTable_sound hl link dims)
      (.label (l.withTable link dims).1 at_) (show at_ < _ by rw [hslots]; exact hat.lt) ?_
    rintro s rfl ⟨⟩
  · have hcol := withColumn_hasColumn l link.sourceTable link.sourceVar dims
    have hcolumn := (withColumn_records hF hdims).1
    have hgrows := withColumn_grows l link.sourceTable link.sourceVar dims
    have hgrows' := withCheck_grows (l.withColumn link.sourceTable link.sourceVar dims).2
      (l.withColumn link.sourceTable link.sourceVar dims).1 link
    exact load_shared
      ((h.of_grows hgrows (withColumn_slots l _ _ dims)).of_grows hgrows' (withCheck_slots _ _ link))
      (withCheck_sound (withColumn_sound hl _ _ dims) hcol) (withCheck_records hcolumn _ hlink).1
      ((hgrows'.layout root).hasColumn (hcol root)) hdims ho
      (hat.mono (hgrows.before.trans hgrows'.before))

theorem outwards_shared (h : l.Shared g root lead) (hl : l.Sound) {inner : Option SlotId}
    {pos : SlotId} (step : UInt64) (hinner : ∀ i ∈ inner, i < l.slots.size)
    (hpos : pos < l.slots.size) : (l.outwards inner pos step).2.Shared g root lead := by
  rcases inner with _ | base
  · exact h
  · exact withSlot_shared_free h hl (.stride base pos step) ⟨hinner base rfl, hpos⟩ fun _ hs => hs.1

theorem offsetOr_shared (h : l.Shared g root lead) (hl : l.Sound) (inner : Option SlotId) :
    (l.offsetOr inner).2.Shared g root lead := by
  rcases inner with _ | base
  · exact withSlot_shared_free h hl (.constant (Number.bits 0.0)) trivial fun _ hs => hs.1
  · exact h

end Lowered

mutual

theorem Place.emit_shared : ∀ {p : Place} {l : Lowered} {table dim : String},
    l.Shared g root lead → l.Sound → (layoutOf root l).Faithful g →
    p.FoundIn g root lead table dim → (p.emit l).2.Shared g root lead
  | .row, l, _, _, h, hl, _, _ => Lowered.withSlot_shared_free h hl .row trivial fun _ hs => hs.1
  | .linked shape link dims source, l, table, dim, h, hl, hF, hfound => by
    obtain ⟨-, ⟨d, hd, rfl⟩, hlink, hdims, hsource⟩ := hfound
    obtain ⟨-, rfl, rfl⟩ := LinkGraph.into?_eq_some hlink
    let shape : ShapeRef := ⟨link.targetTable, link.targetDim, UInt64.ofNat d.size⟩
    have hl' := Lowered.withShape_sound hl shape
    have hF' := (Lowered.withShape_records (s := shape) hF ⟨d, hd, rfl⟩).1
    have hinner := Offset.emitPartial_shared
      (h.of_grows (Lowered.withShape_grows l shape) rfl) hl' hF' hsource
    obtain ⟨hsound, -, hlt⟩ := source.emitPartial_writes hl'
    have hat := Lowered.offsetOr_writes hsound hlt
    exact Lowered.follow_shared (Lowered.offsetOr_shared hinner hsound _) hat.sound
      (Offset.emit_records hl' hF' hsource).1 hlink hdims hsource ⟨_, hl', .refl _, rfl⟩

theorem Offset.emitPartial_shared : ∀ {o : Offset} {l : Lowered} {table : String}
    {dims : List String}, l.Shared g root lead → l.Sound → (layoutOf root l).Faithful g →
    o.FoundIn g root lead table dims → (o.emitPartial l).2.Shared g root lead
  | .scalar, _, _, _, h, _, _, _ => h
  | .along place step rest, l, table, d :: dims, h, hl, hF, hfound => by
    have hrest := Offset.emitPartial_shared h hl hF hfound.2.2
    obtain ⟨hsound, -, hlt⟩ := rest.emitPartial_writes hl
    have hpos := place.emit_writes hsound
    have hplace := Place.emit_shared hrest hsound
      (Offset.emitPartial_records hl hF hfound.2.2).1 hfound.1
    exact Lowered.outwards_shared hplace hpos.sound step
      (fun i hi => (hlt i hi).trans_le hpos.grows.slots.size_le) hpos.lt

end

theorem Offset.emit_shared {o : Offset} {l : Lowered} {table : String} {dims : List String}
    (h : l.Shared g root lead) (hl : l.Sound) (hF : (layoutOf root l).Faithful g)
    (hfound : o.FoundIn g root lead table dims) : (o.emit l).2.Shared g root lead :=
  Lowered.offsetOr_shared (Offset.emitPartial_shared h hl hF hfound) (o.emitPartial_writes hl).1 _

theorem Plan.emit_shared {constants : List (String × UInt64)} : ∀ {e : Expr} {p : Plan}
    {l : Lowered}, l.Shared g root lead → l.Sound → (layoutOf root l).Faithful g →
    e.PlannedAs g root lead constants p → (p.emit l).2.Shared g root lead
  | .number _, _, l, h, hl, _, hp | .bool _, _, l, h, hl, _, hp => by
    cases hp
    exact Lowered.withSlot_shared_free h hl (.constant _) trivial fun _ hs => hs.1
  | .name table n _, p, l, h, hl, hF, hp => by
    rw [Expr.PlannedAs] at hp
    rcases hm : Expr.meaning root constants table n with bits | ⟨t, v⟩ <;> rw [hm] at hp
    · cases hp
      exact Lowered.withSlot_shared_free h hl (.constant bits) trivial fun _ hs => hs.1
    · obtain ⟨dims, o, rfl, hdims, ho⟩ := hp
      have hl' := Lowered.withColumn_sound hl t v dims
      have hF' := (Lowered.withColumn_records hF hdims).1
      have hcolumn := h.of_grows (Lowered.withColumn_grows l t v dims)
        (Lowered.withColumn_slots l t v dims)
      have hat := o.emit_writes hl'
      exact Lowered.load_shared (Offset.emit_shared hcolumn hl' hF' ho) hat.sound
        (Offset.emit_records hl' hF' ho).1
        ((hat.grows.layout root).hasColumn (Lowered.withColumn_hasColumn l t v dims root)) hdims ho
        ⟨_, hl', .refl _, rfl⟩
  | .unary op a _, _, l, h, hl, hF, ⟨q, rfl, hq⟩ => by
    have ha := q.emit_writes hl
    exact Lowered.withSlot_shared_free (emit_shared h hl hF hq) ha.sound
      (.apply (.unary op) [(q.emit l).1]) ⟨by simpa using ha.lt, rfl, rfl, by simp⟩ fun _ hs => hs.1
  | .binary op a b _, _, l, h, hl, hF, ⟨q, r, rfl, hq, hr⟩ => by
    have ha := q.emit_writes hl
    have hb := r.emit_writes ha.sound
    have hq' := emit_shared h hl hF hq
    have hr' := emit_shared hq' ha.sound (emit_records hl hF hq).1 hr
    refine Lowered.withSlot_shared_free hr' hb.sound
      (.apply (.binary op) [(q.emit l).1, (r.emit (q.emit l).2).1]) ⟨?_, rfl, rfl, by simp⟩
      fun _ hs => hs.1
    simpa using ⟨ha.lt.trans_le hb.grows.slots.size_le, hb.lt⟩
  | .ternary op a b c _, _, l, h, hl, hF, ⟨q, r, s, rfl, hq, hr, hs⟩ => by
    have ha := q.emit_writes hl
    have hb := r.emit_writes ha.sound
    have hc := s.emit_writes hb.sound
    have hF' := (emit_records hl hF hq).1
    have hq' := emit_shared h hl hF hq
    have hr' := emit_shared hq' ha.sound hF' hr
    have hs' := emit_shared hr' hb.sound (emit_records ha.sound hF' hr).1 hs
    refine Lowered.withSlot_shared_free hs' hc.sound (.apply (.ternary op)
      [(q.emit l).1, (r.emit (q.emit l).2).1, (s.emit (r.emit (q.emit l).2).2).1])
      ⟨?_, rfl, rfl, by simp⟩ fun _ hs => hs.1
    simpa using ⟨ha.lt.trans_le (hb.grows.trans hc.grows).slots.size_le,
      hb.lt.trans_le hc.grows.slots.size_le, hc.lt⟩

theorem Plan.emitAll_shared {constants : List (String × UInt64)} :
    ∀ {trees : List Analysis.Source} {plans : List Plan} {l : Lowered}, l.Shared g root lead →
    l.Sound → (layoutOf root l).Faithful g →
    List.Forall₂ (fun s p => s.tree.PlannedAs g root lead constants p) trees plans →
    (emitAll plans l).2.Shared g root lead
  | [], [], _, h, _, _, _ => h
  | _ :: _, p :: _, l, h, hl, hF, .cons hp hplans =>
    emitAll_shared (l := (p.emit l).2) (emit_shared h hl hF hp) (p.emit_writes hl).sound
      (emit_records hl hF hp).1 hplans

namespace Lowered

/-- No variable has two columns, and no link has two label tables. -/
structure Distinct (l : Lowered) : Prop where
  columns : (l.columns.map fun c => (c.table, c.var)).Nodup
  tables : (l.tables.map TableRef.link).Nodup

theorem nodup_map_concat {α β : Type} {f : α → β} {xs : List α} {x : α} (h : (xs.map f).Nodup)
    (hx : ∀ y ∈ xs, f y ≠ f x) : ((xs ++ [x]).map f).Nodup := by
  rw [List.map_append, List.map_singleton]
  refine List.Nodup.append h (List.nodup_singleton _) fun b hb hbx => ?_
  obtain ⟨y, hy, rfl⟩ := List.mem_map.1 hb
  exact hx y hy (List.mem_singleton.1 hbx)

theorem distinct_kept (A : Allowed) : Kept A Distinct where
  slot _ h := ⟨h.columns, h.tables⟩
  column _ h := by
    unfold withColumn
    split
    · exact h
    · rename_i hnew
      refine ⟨nodup_map_concat h.columns fun c hc heq => ?_, h.tables⟩
      have hother := List.findIdx?_eq_none_iff.1 hnew c hc
      simp_all
  table _ h := by
    unfold withTable
    split
    · exact h
    · rename_i hnew
      refine ⟨h.columns, nodup_map_concat h.tables fun t ht heq => ?_⟩
      have hother := List.findIdx?_eq_none_iff.1 hnew t ht
      simp_all
  check c link h := by
    unfold withCheck
    split
    · exact h
    · exact ⟨h.columns, h.tables⟩
  shape _ h := ⟨h.columns, h.tables⟩

end Lowered

/-- The variables that are read, by table and name. -/
def Plan.entries : Plan → List (String × String)
  | .constant _ => []
  | .entry table var _ _ => [(table, var)]
  | .unary _ a => a.entries
  | .binary _ a b => a.entries ++ b.entries
  | .ternary _ a b c => a.entries ++ b.entries ++ c.entries

theorem Plan.exists_column {F : Layout} {table var : String} : ∀ {p : Plan}, p.RecordedIn F →
    (table, var) ∈ p.entries → ∃ dims, ⟨table, var, dims⟩ ∈ F.columns
  | .constant _, _, h => absurd h List.not_mem_nil
  | .entry _ _ dims _, hp, h => by
    obtain ⟨rfl, rfl⟩ := Prod.mk.inj (List.mem_singleton.1 h)
    exact ⟨dims, hp.1⟩
  | .unary _ a, hp, h => exists_column (p := a) hp h
  | .binary .., ⟨ha, hb⟩, h => (List.mem_append.1 h).elim (exists_column ha) (exists_column hb)
  | .ternary .., ⟨ha, hb, hc⟩, h =>
    (List.mem_append.1 h).elim
      (fun h => (List.mem_append.1 h).elim (exists_column ha) (exists_column hb)) (exists_column hc)

namespace Noting

variable {α β : Type} {N N' : String → String → Prop}

/-- Whatever is noted that was not noted before is of some kind. -/
def Notes (m : Noting α) (N : String → String → Prop) : Prop :=
  ∀ noted r, m noted = .ok r → ∀ ref ∈ r.2, ref ∈ noted ∨ N ref.table ref.var

theorem Notes.mono {m : Noting α} (h : m.Notes N) (hN : ∀ t v, N t v → N' t v) : m.Notes N' :=
  fun noted r hr ref href => (h noted r hr ref href).imp_right (hN _ _)

theorem notes_pure (a : α) : (pure a : Noting α).Notes N := fun _ _ hr _ href => by
  cases hr
  exact Or.inl href

theorem notes_throw (f : AnalysisFault) : (throw f : Noting α).Notes N := fun _ _ hr => by cases hr

theorem notes_lift (m : Except AnalysisFault α) : (liftM m : Noting α).Notes N :=
  fun _ _ hr _ href => by
    cases m with
    | error e => cases hr
    | ok a =>
      cases hr
      exact Or.inl href

theorem notes_bind {m : Noting α} {k : α → Noting β} (hm : m.Notes N)
    (hk : ∀ a, (∃ before after, m before = .ok (a, after)) → (k a).Notes N) :
    (m >>= k).Notes N := by
  intro noted r hr ref href
  obtain ⟨⟨a, after⟩, ha, hr⟩ := bind_eq_ok hr
  rcases hk a ⟨noted, after, ha⟩ after r hr ref href with hafter | hnew
  · exact hm noted _ ha ref hafter
  · exact Or.inr hnew

theorem notes_mapM {f : α → Noting β} {N : α → String → String → Prop} (h : ∀ a, (f a).Notes (N a)) :
    ∀ xs : List α, (xs.mapM f).Notes fun t v => ∃ x ∈ xs, N x t v
  | [] => notes_pure _
  | x :: xs => by
    rw [List.mapM_cons]
    have hhead := (h x).mono fun t v hN => (⟨x, List.mem_cons_self, hN⟩ : ∃ y ∈ x :: xs, N y t v)
    have htail := (notes_mapM h xs).mono fun t v ⟨y, hy, hN⟩ =>
      (⟨y, List.mem_cons_of_mem x hy, hN⟩ : ∃ y ∈ x :: xs, N y t v)
    exact notes_bind hhead fun _ _ => notes_bind htail fun _ _ => notes_pure _

end Noting

namespace Typing

open Noting

variable {sc : Scope} {N : String → String → Prop}

theorem note_notes (table var : String) (dims : List String) :
    (note sc table var dims).Notes fun t v => t = table ∧ v = var := by
  intro noted r hr ref href
  replace hr : (if _ then _ else _ : Noting Unit) noted = .ok r := hr
  split_ifs at hr
  · cases hr
    exact Or.inl href
  · rcases hlinks : sc.graph.pathLinks table with e | links <;> rw [hlinks] at hr <;> cases hr
    rcases List.mem_append.1 href with hold | hnew
    · exact Or.inl hold
    · obtain rfl := List.mem_singleton.1 hnew
      exact Or.inr ⟨rfl, rfl⟩

theorem asOperand_notes (site : Site) (e : Expr) (t : Typed) : (asOperand site e t).Notes N := by
  rw [asOperand]
  split_ifs
  · exact notes_throw _
  · exact notes_pure _

theorem operand_notes {β : Type} {site : Site} {e : Expr} {k : Typed → Noting β}
    (he : (annotate sc site e).Notes N) (hk : ∀ t, (k t).Notes N) :
    (annotate sc site e >>= fun t => asOperand site e t >>= k).Notes N :=
  notes_bind he fun t _ => notes_bind (asOperand_notes site e t) fun u _ => hk u

/-- Typing notes variables that the plan of the expression reads. -/
theorem annotate_notes (site : Site) : ∀ e : Expr, (annotate sc site e).Notes fun t v =>
    ∀ p, sc.plan site e = .ok p → (t, v) ∈ p.entries
  | .number _ | .bool _ => notes_pure _
  | .name table name _ => by
    rw [annotate]
    refine notes_bind (notes_lift _) fun m hm => ?_
    obtain ⟨_, _, hm⟩ := hm
    rcases m with bits | ⟨t, v⟩
    · exact notes_pure _
    · refine notes_bind (notes_lift _) fun _ _ => notes_bind ((note_notes t v _).mono ?_)
        fun _ _ => notes_pure _
      rintro _ _ ⟨rfl, rfl⟩ p hp
      rw [Scope.plan, lift_ok hm] at hp
      replace hp : sc.planVariable site _ _ = .ok p := hp
      obtain ⟨_, -, hp⟩ := bind_eq_ok hp
      obtain ⟨_, -, hp⟩ := bind_eq_ok hp
      cases hp
      exact List.mem_singleton_self _
  | .unary op a _ => by
    rw [annotate]
    refine operand_notes ((annotate_notes site a).mono fun t v h p hp => ?_) fun _ => notes_pure _
    obtain ⟨q, hq, hp⟩ := bind_eq_ok hp
    cases hp
    exact h q hq
  | .binary op a b _ => by
    rw [annotate]
    refine operand_notes ((annotate_notes site a).mono fun t v h p hp => ?_) fun _ =>
      operand_notes ((annotate_notes site b).mono fun t v h p hp => ?_) fun _ => notes_pure _
    all_goals
      obtain ⟨q, hq, hp⟩ := bind_eq_ok hp
      obtain ⟨r, hr, hp⟩ := bind_eq_ok hp
      cases hp
    · exact List.mem_append_left _ (h q hq)
    · exact List.mem_append_right _ (h r hr)
  | .ternary op a b c _ => by
    rw [annotate]
    refine operand_notes ((annotate_notes site a).mono fun t v h p hp => ?_) fun _ =>
      operand_notes ((annotate_notes site b).mono fun t v h p hp => ?_) fun _ =>
      operand_notes ((annotate_notes site c).mono fun t v h p hp => ?_) fun _ => notes_pure _
    all_goals
      obtain ⟨q, hq, hp⟩ := bind_eq_ok hp
      obtain ⟨r, hr, hp⟩ := bind_eq_ok hp
      obtain ⟨s, hs, hp⟩ := bind_eq_ok hp
      cases hp
    · exact List.mem_append_left _ (List.mem_append_left _ (h q hq))
    · exact List.mem_append_left _ (List.mem_append_right _ (h r hr))
    · exact List.mem_append_right _ (h s hs)

theorem ofResult_notes (site : Site) (e : Expr) : (ofResult sc site e).Notes fun t v =>
    ∀ p, sc.plan site e = .ok p → (t, v) ∈ p.entries := by
  rw [ofResult]
  refine notes_bind (annotate_notes site e) fun t _ => ?_
  split_ifs
  · exact notes_bind (notes_throw _) fun _ _ => notes_pure _
  · exact notes_pure _

end Typing

namespace Analysis

variable {set : ExprSet} {a : Analysis} {sc : Scope} {sources : List Source} {plans : List Plan}

/-- What the plans of a set leave is shared and distinct. -/
theorem Planned.shared (h : a.Planned g set sc sources plans) (hg : g.Built) : ∃ lead,
    (Plan.emitAll plans .empty).2.Shared g a.root lead ∧ (Plan.emitAll plans .empty).2.Distinct := by
  obtain ⟨-, -, lead, hsc, hplans⟩ := h.faithful hg
  have hempty : (layoutOf a.root Lowered.empty).Faithful g :=
    ⟨by simp [layoutOf, Lowered.empty], by simp [layoutOf, Lowered.empty],
      by simp [layoutOf, Lowered.empty], by simp [layoutOf, Lowered.empty]⟩
  have hshared : Lowered.empty.Shared g a.root lead :=
    ⟨.refl, by simp [Lowered.empty, SlotGraph.empty]⟩
  refine ⟨lead, Plan.emitAll_shared hshared Lowered.sound_empty hempty hplans, ?_⟩
  refine Plan.emitAll_keeps (Lowered.distinct_kept (.walking a.root lead)) (fun p hp => ?_)
    ⟨by simp [Lowered.empty], by simp [Lowered.empty]⟩
  obtain ⟨s, -, hs⟩ := exists_of_mem_right hplans p hp
  exact Plan.within_of_plannedAs hg.valid hs

/-- Every variable that is referred to has a column. -/
theorem Planned.exists_column (h : a.Planned g set sc sources plans) (hg : g.Built)
    (ha : analyze g set = .ok a) : ∀ ref ∈ a.references,
      ∃ dims, ⟨ref.table, ref.var, dims⟩ ∈ a.layout.columns := by
  intro ref href
  obtain ⟨-, hrec, -⟩ := h.faithful hg
  have hone : ∀ s : Source, (Typing.ofResult sc s.site s.tree).Notes fun t v =>
      ∀ p, sc.plan s.site s.tree = .ok p → (t, v) ∈ p.entries :=
    fun s => Typing.ofResult_notes s.site s.tree
  have hnotes := Noting.notes_mapM hone sources [] _ (h.typed ha) ref href
  obtain ⟨s, hs, hentries⟩ := hnotes.resolve_left List.not_mem_nil
  obtain ⟨p, hp, hplan⟩ := exists_of_mem_left (forall₂_of_mapM h.planned) s hs
  exact Plan.exists_column (hrec p hp) (hentries p hplan)

end Analysis

end LinkedTables
