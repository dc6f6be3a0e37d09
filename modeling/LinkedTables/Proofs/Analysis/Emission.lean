import LinkedTables.Proofs.Analysis.Recorded
import LinkedTables.Proofs.Flow.Slots

/-!
# Writing plans down

Writing a plan down only adds: slots and columns behind the others, checks and sizes to those there
are (`Plan.emit_writes`). If the plan is right for a graph and the layout so far is faithful to it,
then the layout stays faithful and records the plan (`Plan.emit_records`). So the layout that a set of
expressions ends with is faithful to its graph and records the plans of all of them.
-/

namespace LinkedTables

open Analysis (layoutOf)

namespace Layout

/-- Columns and tables keep their numbers. -/
structure Grows (F F' : Layout) : Prop where
  columns : F.columns <+: F'.columns
  tables : F.tables <+: F'.tables
  checks : F.checks ⊆ F'.checks
  shapes : F.shapes ⊆ F'.shapes

/-- The column with a number is the one of a variable. -/
def HasColumn (F : Layout) (c : UInt32) (table var : String) : Prop :=
  ∃ i ref, c = UInt32.ofNat i ∧ F.columns[i]? = some ref ∧ ref.table = table ∧ ref.var = var

/-- The label table with a number is the one of a link. -/
def HasTable (F : Layout) (t : UInt32) (link : Link) : Prop :=
  ∃ i ref, t = UInt32.ofNat i ∧ F.tables[i]? = some ref ∧ ref.link = link

theorem Grows.refl (F : Layout) : F.Grows F :=
  ⟨List.prefix_refl _, List.prefix_refl _, List.Subset.refl _, List.Subset.refl _⟩

theorem Grows.trans {A B C : Layout} (hab : A.Grows B) (hbc : B.Grows C) : A.Grows C :=
  ⟨hab.columns.trans hbc.columns, hab.tables.trans hbc.tables,
    List.Subset.trans hab.checks hbc.checks, List.Subset.trans hab.shapes hbc.shapes⟩

variable {F F' : Layout}

theorem Grows.hasColumn (h : F.Grows F') {c : UInt32} {table var : String}
    (hc : F.HasColumn c table var) : F'.HasColumn c table var := by
  obtain ⟨i, ref, rfl, hi, hname⟩ := hc
  exact ⟨i, ref, rfl, SlotGraph.getElem?_of_prefix h.columns hi, hname⟩

theorem Grows.hasTable (h : F.Grows F') {t : UInt32} {link : Link} (ht : F.HasTable t link) :
    F'.HasTable t link := by
  obtain ⟨i, ref, rfl, hi, hlink⟩ := ht
  exact ⟨i, ref, rfl, SlotGraph.getElem?_of_prefix h.tables hi, hlink⟩

theorem Grows.follows (h : F.Grows F') {link : Link} {dims : List String}
    (hf : F.Follows link dims) : F'.Follows link dims := by
  simp only [Follows] at hf ⊢
  split at hf
  · exact h.tables.subset hf
  · obtain ⟨hcol, c, hc⟩ := hf
    exact ⟨h.columns.subset hcol, c, h.checks hc⟩

end Layout

mutual

theorem Place.recordedIn_mono {F F' : Layout} (h : F.Grows F') : ∀ {p : Place}, p.RecordedIn F →
    p.RecordedIn F'
  | .row, _ => trivial
  | .linked .., ⟨hshape, hfollows, hsource⟩ =>
    ⟨h.shapes hshape, h.follows hfollows, Offset.recordedIn_mono h hsource⟩

theorem Offset.recordedIn_mono {F F' : Layout} (h : F.Grows F') : ∀ {o : Offset}, o.RecordedIn F →
    o.RecordedIn F'
  | .scalar, _ => trivial
  | .along .., ⟨hplace, hrest⟩ => ⟨Place.recordedIn_mono h hplace, Offset.recordedIn_mono h hrest⟩

end

theorem Plan.recordedIn_mono {F F' : Layout} (h : F.Grows F') : ∀ p : Plan, p.RecordedIn F →
    p.RecordedIn F'
  | .constant _, _ => trivial
  | .entry .., ⟨hcol, ho⟩ => ⟨h.columns.subset hcol, Offset.recordedIn_mono h ho⟩
  | .unary _ a, ha => recordedIn_mono h a ha
  | .binary _ a b, ⟨ha, hb⟩ => ⟨recordedIn_mono h a ha, recordedIn_mono h b hb⟩
  | .ternary _ a b c, ⟨ha, hb, hc⟩ =>
    ⟨recordedIn_mono h a ha, recordedIn_mono h b hb, recordedIn_mono h c hc⟩

namespace Lowered

/-- What there is stays, and the columns keep their numbers. -/
structure Grows (l l' : Lowered) : Prop where
  slots : l.slots.Extends l'.slots
  layout : ∀ root, (layoutOf root l).Grows (layoutOf root l')

/-- What a slot takes its value from is in the layout. -/
def Sourced (l : Lowered) (s : Slot) : Prop :=
  (s.op = .load → s.operand.toNat < l.columns.length) ∧
    (s.op = .label → s.operand.toNat < l.tables.length)

/-- The slots are sound, and so is what they take from the layout; a check is about the column of its
link. -/
structure Sound (l : Lowered) : Prop where
  slots : l.slots.Sound
  sourced : ∀ s ∈ l.slots.slots, l.Sourced s
  checks : ∀ c ∈ l.checks, ∀ root,
    (layoutOf root l).HasColumn c.column c.link.sourceTable c.link.sourceVar

/-- A step gives a slot of what it leaves. -/
structure Writes (l : Lowered) (r : SlotId × Lowered) : Prop where
  sound : r.2.Sound
  grows : l.Grows r.2
  lt : r.1 < r.2.slots.size

theorem Grows.refl (l : Lowered) : l.Grows l := ⟨.refl _, fun _ => .refl _⟩

theorem Grows.trans {a b c : Lowered} (hab : a.Grows b) (hbc : b.Grows c) : a.Grows c :=
  ⟨hab.slots.trans hbc.slots, fun root => (hab.layout root).trans (hbc.layout root)⟩

theorem sound_empty : empty.Sound :=
  ⟨SlotGraph.sound_empty, by simp [empty, SlotGraph.empty], by simp [empty]⟩

variable {l : Lowered}

theorem Grows.sourced {l' : Lowered} (h : l.Grows l') {s : Slot} (hs : l.Sourced s) :
    l'.Sourced s :=
  ⟨fun hop => (hs.1 hop).trans_le (h.layout "").columns.length_le,
    fun hop => (hs.2 hop).trans_le (h.layout "").tables.length_le⟩

/-- What grows but for its slots keeps the sources of these. -/
theorem Sound.sourced_of_grows (hl : l.Sound) {l' : Lowered} (h : l.Grows l')
    (heq : l'.slots = l.slots) : ∀ s ∈ l'.slots.slots, l'.Sourced s := fun s hs =>
  h.sourced (hl.sourced s (heq ▸ hs))

theorem sourced_of_free {s : Slot} (h : s.Free) : l.Sourced s :=
  ⟨fun hop => absurd hop h.1, fun hop => absurd hop h.2⟩

theorem withSlot_writes (hl : l.Sound) (step : SlotGraph → SlotId × SlotGraph)
    {asked : Slot → Prop} (h : l.slots.Adds asked (step l.slots))
    (hasked : ∀ s, asked s → l.Sourced s) : l.Writes (l.withSlot step) :=
  ⟨⟨h.sound, fun s hs => (h.fresh s hs).elim (hl.sourced s) (hasked s), hl.checks⟩,
    ⟨h.extends_, fun _ => .refl _⟩, h.lt⟩

theorem withSlot_writes_free (hl : l.Sound) (step : SlotGraph → SlotId × SlotGraph)
    (h : l.slots.Adds Slot.Free (step l.slots)) : l.Writes (l.withSlot step) :=
  withSlot_writes hl step h fun _ => sourced_of_free

/-- A column that is there can be loaded from. -/
theorem load_writes (hl : l.Sound) {c : UInt32} {at_ : SlotId} (h : at_ < l.slots.size)
    {table var : String} (hc : (layoutOf "" l).HasColumn c table var) :
    l.Writes (l.withSlot fun g => g.load c at_) := by
  refine withSlot_writes hl (fun g => g.load c at_) (SlotGraph.load_adds hl.slots c h) ?_
  rintro s rfl
  obtain ⟨i, ref, rfl, hi, -⟩ := hc
  refine ⟨fun _ => ?_, by simp⟩
  rw [UInt32.toNat_toUInt64]
  exact (Nat.mod_le _ _).trans_lt (List.getElem?_eq_some_iff.1 hi).1

/-- A label table that is there can be looked up in. -/
theorem label_writes (hl : l.Sound) {t : UInt32} {at_ : SlotId} (h : at_ < l.slots.size)
    {link : Link} (ht : (layoutOf "" l).HasTable t link) :
    l.Writes (l.withSlot fun g => g.label t at_) := by
  refine withSlot_writes hl (fun g => g.label t at_) (SlotGraph.label_adds hl.slots t h) ?_
  rintro s rfl
  obtain ⟨i, ref, rfl, hi, -⟩ := ht
  refine ⟨by simp, fun _ => ?_⟩
  rw [UInt32.toNat_toUInt64]
  exact (Nat.mod_le _ _).trans_lt (List.getElem?_eq_some_iff.1 hi).1

theorem apply_writes (hl : l.Sound) (op : Opcode) (args : List SlotId)
    (hargs : ∀ j ∈ args, j < l.slots.size) (harity : args.length = op.arity)
    (hop : op ≠ .load ∧ op ≠ .label) : l.Writes (l.withSlot fun g => g.apply op args) :=
  withSlot_writes_free hl _ (SlotGraph.apply_adds hl.slots hargs harity hop)

theorem withColumn_grows (l : Lowered) (table var : String) (dims : List String) :
    l.Grows (l.withColumn table var dims).2 := by
  rw [withColumn]
  split
  · exact .refl l
  · exact ⟨.refl _, fun _ => ⟨List.prefix_append _ _, List.prefix_refl _, List.Subset.refl _,
      List.Subset.refl _⟩⟩

theorem withColumn_hasColumn (l : Lowered) (table var : String) (dims : List String)
    (root : String) : (layoutOf root (l.withColumn table var dims).2).HasColumn
      (l.withColumn table var dims).1 table var := by
  rw [withColumn]
  split
  · rename_i i hi
    obtain ⟨hlt, hname, -⟩ := List.findIdx?_eq_some_iff_getElem.1 hi
    simp only [Bool.and_eq_true, beq_iff_eq] at hname
    exact ⟨i, l.columns[i], rfl, by simp [layoutOf, hlt], hname⟩
  · exact ⟨l.columns.length, ⟨table, var, dims⟩, rfl, by simp [layoutOf], rfl, rfl⟩

theorem withColumn_slots (l : Lowered) (table var : String) (dims : List String) :
    (l.withColumn table var dims).2.slots = l.slots := by
  rw [withColumn]
  split <;> rfl

theorem withColumn_sound (hl : l.Sound) (table var : String) (dims : List String) :
    (l.withColumn table var dims).2.Sound := by
  refine ⟨by rw [withColumn_slots]; exact hl.slots,
    hl.sourced_of_grows (withColumn_grows l table var dims) (withColumn_slots l table var dims),
    fun c hc root => ?_⟩
  refine ((withColumn_grows l table var dims).layout root).hasColumn (hl.checks c ?_ root)
  rw [withColumn] at hc
  split at hc <;> exact hc

theorem withTable_grows (l : Lowered) (link : Link) (dims : List String) :
    l.Grows (l.withTable link dims).2 := by
  rw [withTable]
  split
  · exact .refl l
  · exact ⟨.refl _, fun _ => ⟨List.prefix_refl _, List.prefix_append _ _, List.Subset.refl _,
      List.Subset.refl _⟩⟩

theorem withTable_hasTable (l : Lowered) (link : Link) (dims : List String) (root : String) :
    (layoutOf root (l.withTable link dims).2).HasTable (l.withTable link dims).1 link := by
  rw [withTable]
  split
  · rename_i i hi
    obtain ⟨hlt, hname, -⟩ := List.findIdx?_eq_some_iff_getElem.1 hi
    exact ⟨i, l.tables[i], rfl, by simp [layoutOf, hlt], by simpa using hname⟩
  · exact ⟨l.tables.length, ⟨link, dims⟩, rfl, by simp [layoutOf], rfl⟩

theorem withTable_slots (l : Lowered) (link : Link) (dims : List String) :
    (l.withTable link dims).2.slots = l.slots := by
  rw [withTable]
  split <;> rfl

theorem withTable_sound (hl : l.Sound) (link : Link) (dims : List String) :
    (l.withTable link dims).2.Sound := by
  refine ⟨by rw [withTable_slots]; exact hl.slots,
    hl.sourced_of_grows (withTable_grows l link dims) (withTable_slots l link dims),
    fun c hc root => ?_⟩
  refine ((withTable_grows l link dims).layout root).hasColumn (hl.checks c ?_ root)
  rw [withTable] at hc
  split at hc <;> exact hc

theorem withCheck_grows (l : Lowered) (c : UInt32) (link : Link) : l.Grows (l.withCheck c link) := by
  rw [withCheck]
  split_ifs
  · exact .refl l
  · exact ⟨.refl _, fun _ => ⟨List.prefix_refl _, List.prefix_refl _,
      List.subset_append_left _ _, List.Subset.refl _⟩⟩

theorem withCheck_slots (l : Lowered) (c : UInt32) (link : Link) :
    (l.withCheck c link).slots = l.slots := by
  rw [withCheck]
  split_ifs <;> rfl

theorem withCheck_sound (hl : l.Sound) {c : UInt32} {link : Link}
    (h : ∀ root, (layoutOf root l).HasColumn c link.sourceTable link.sourceVar) :
    (l.withCheck c link).Sound := by
  rw [withCheck]
  split_ifs
  · exact hl
  · refine ⟨hl.slots, hl.sourced, fun e he root => ?_⟩
    rcases List.mem_append.1 he with he | he
    · exact hl.checks e he root
    · obtain rfl := List.mem_singleton.1 he
      exact h root

end Lowered

theorem ShapeRef.mem_insert {s t : ShapeRef} : ∀ {shapes : List ShapeRef},
    t ∈ s.insert shapes ↔ t = s ∨ t ∈ shapes
  | [] => by simp [insert]
  | u :: rest => by
    rw [insert]
    split_ifs with heq
    · subst heq
      simp
    · simp
    · rw [List.mem_cons, mem_insert, List.mem_cons]
      tauto

namespace Lowered

variable {l : Lowered}

theorem withShape_grows (l : Lowered) (s : ShapeRef) : l.Grows (l.withShape s) :=
  ⟨.refl _, fun _ => ⟨List.prefix_refl _, List.prefix_refl _, List.Subset.refl _,
    fun _ ht => ShapeRef.mem_insert.2 (Or.inr ht)⟩⟩

theorem withShape_sound (hl : l.Sound) (s : ShapeRef) : (l.withShape s).Sound :=
  ⟨hl.slots, hl.sourced, hl.checks⟩

theorem follow_writes (hl : l.Sound) (link : Link) (dims : List String) {at_ : SlotId}
    (h : at_ < l.slots.size) : l.Writes (l.follow link dims at_) := by
  rw [follow]
  split
  · have hsound := withTable_sound hl link dims
    have hat : at_ < (l.withTable link dims).2.slots.size := by rwa [withTable_slots]
    have hwrites := label_writes hsound hat (withTable_hasTable l link dims "")
    exact ⟨hwrites.sound, (withTable_grows l link dims).trans hwrites.grows, hwrites.lt⟩
  · have hcol := withColumn_hasColumn l link.sourceTable link.sourceVar dims
    have hsound := withCheck_sound (withColumn_sound hl link.sourceTable link.sourceVar dims) hcol
    have hgrows := (withColumn_grows l link.sourceTable link.sourceVar dims).trans
      (withCheck_grows _ (l.withColumn link.sourceTable link.sourceVar dims).1 link)
    have hwrites := load_writes hsound (h.trans_le hgrows.slots.size_le)
      (((withCheck_grows _ _ link).layout "").hasColumn (hcol ""))
    exact ⟨hwrites.sound, hgrows.trans hwrites.grows, hwrites.lt⟩

theorem outwards_writes (hl : l.Sound) {inner : Option SlotId} {pos : SlotId} (step : UInt64)
    (hinner : ∀ i ∈ inner, i < l.slots.size) (hpos : pos < l.slots.size) :
    l.Writes (l.outwards inner pos step) := by
  rcases inner with _ | base
  · exact ⟨hl, .refl l, hpos⟩
  · exact withSlot_writes_free hl (fun g => g.stride base pos step)
      (SlotGraph.stride_adds hl.slots step (hinner base rfl) hpos)

theorem offsetOr_writes (hl : l.Sound) {inner : Option SlotId}
    (hinner : ∀ i ∈ inner, i < l.slots.size) : l.Writes (l.offsetOr inner) := by
  rcases inner with _ | base
  · exact withSlot_writes_free hl (fun g => g.constant 0.0) (SlotGraph.constantBits_adds hl.slots _)
  · exact ⟨hl, .refl l, hinner base rfl⟩

end Lowered

open Lowered (Writes)

mutual

theorem Place.emit_writes : ∀ (p : Place) {l : Lowered}, l.Sound → l.Writes (p.emit l)
  | .row, l, hl => Lowered.withSlot_writes_free hl SlotGraph.row (SlotGraph.row_adds hl.slots)
  | .linked shape link dims source, l, hl => by
    obtain ⟨hsound, hgrows, hinner⟩ :=
      source.emitPartial_writes (Lowered.withShape_sound hl shape)
    have hat := Lowered.offsetOr_writes hsound hinner
    have hfollow := Lowered.follow_writes hat.sound link dims hat.lt
    exact ⟨hfollow.sound, (Lowered.withShape_grows l shape).trans
      (hgrows.trans (hat.grows.trans hfollow.grows)), hfollow.lt⟩

theorem Offset.emitPartial_writes : ∀ (o : Offset) {l : Lowered}, l.Sound →
    (o.emitPartial l).2.Sound ∧ l.Grows (o.emitPartial l).2 ∧
      ∀ i ∈ (o.emitPartial l).1, i < (o.emitPartial l).2.slots.size
  | .scalar, l, hl => ⟨hl, .refl l, by simp [Offset.emitPartial]⟩
  | .along place step rest, l, hl => by
    obtain ⟨hsound, hgrows, hinner⟩ := rest.emitPartial_writes hl
    have hpos := place.emit_writes hsound
    have hout := Lowered.outwards_writes hpos.sound step
      (fun i hi => (hinner i hi).trans_le hpos.grows.slots.size_le) hpos.lt
    refine ⟨hout.sound, hgrows.trans (hpos.grows.trans hout.grows), fun i hi => ?_⟩
    obtain rfl := Option.some.inj hi
    exact hout.lt

end

theorem Offset.emit_writes (o : Offset) {l : Lowered} (hl : l.Sound) : l.Writes (o.emit l) := by
  obtain ⟨hsound, hgrows, hinner⟩ := o.emitPartial_writes hl
  have hat := Lowered.offsetOr_writes hsound hinner
  exact ⟨hat.sound, hgrows.trans hat.grows, hat.lt⟩

theorem Plan.emit_writes : ∀ (p : Plan) {l : Lowered}, l.Sound → l.Writes (p.emit l)
  | .constant bits, l, hl =>
    Lowered.withSlot_writes_free hl (fun g => g.constantBits bits)
      (SlotGraph.constantBits_adds hl.slots bits)
  | .entry table var dims offset, l, hl => by
    have hat := offset.emit_writes (Lowered.withColumn_sound hl table var dims)
    have hload := Lowered.load_writes hat.sound hat.lt
      ((hat.grows.layout "").hasColumn (Lowered.withColumn_hasColumn l table var dims ""))
    exact ⟨hload.sound, (Lowered.withColumn_grows l table var dims).trans
      (hat.grows.trans hload.grows), hload.lt⟩
  | .unary op a, l, hl => by
    have ha := a.emit_writes hl
    have hop := Lowered.apply_writes ha.sound (.unary op) [(a.emit l).1] (by simpa using ha.lt) rfl
      (by simp)
    exact ⟨hop.sound, ha.grows.trans hop.grows, hop.lt⟩
  | .binary op a b, l, hl => by
    have ha := a.emit_writes hl
    have hb := b.emit_writes ha.sound
    have hop := Lowered.apply_writes hb.sound (.binary op) [(a.emit l).1, (b.emit (a.emit l).2).1]
      (by simpa using ⟨ha.lt.trans_le hb.grows.slots.size_le, hb.lt⟩) rfl (by simp)
    exact ⟨hop.sound, ha.grows.trans (hb.grows.trans hop.grows), hop.lt⟩
  | .ternary op a b c, l, hl => by
    have ha := a.emit_writes hl
    have hb := b.emit_writes ha.sound
    have hc := c.emit_writes hb.sound
    have hop := Lowered.apply_writes hc.sound (.ternary op)
      [(a.emit l).1, (b.emit (a.emit l).2).1, (c.emit (b.emit (a.emit l).2).2).1]
      (by simpa using ⟨ha.lt.trans_le (hb.grows.trans hc.grows).slots.size_le,
        hb.lt.trans_le hc.grows.slots.size_le, hc.lt⟩) rfl (by simp)
    exact ⟨hop.sound, ha.grows.trans (hb.grows.trans (hc.grows.trans hop.grows)), hop.lt⟩

/-- What a whole set of plans leaves is sound, and every plan got a slot of it. -/
theorem Plan.emitAll_writes : ∀ (ps : List Plan) {l : Lowered}, l.Sound →
    (Plan.emitAll ps l).2.Sound ∧ l.Grows (Plan.emitAll ps l).2 ∧
      ∀ i ∈ (Plan.emitAll ps l).1, i < (Plan.emitAll ps l).2.slots.size
  | [], l, hl => ⟨hl, .refl l, by simp [emitAll]⟩
  | p :: ps, l, hl => by
    have hp := p.emit_writes hl
    obtain ⟨hsound, hgrows, hlt⟩ := emitAll_writes ps hp.sound
    refine ⟨hsound, hp.grows.trans hgrows, fun i hi => ?_⟩
    rcases List.mem_cons.1 hi with rfl | hi
    · exact hp.lt.trans_le hgrows.slots.size_le
    · exact hlt i hi

end LinkedTables
