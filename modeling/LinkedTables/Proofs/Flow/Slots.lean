import LinkedTables.Flow.SlotGraph
import LinkedTables.Program.Registers
import LinkedTables.Proofs.Number.Bits
import LinkedTables.Proofs.Number.Positions
import LinkedTables.Text.Numeral

/-!
# What asking for slots does to a graph

A slot is only ever added behind the others, and what is added reads slots before it, as many as its
operation takes (`Adds`). Given data and a row, every slot has a value that the slots before it
determine (`Valued`); asking for a slot keeps the values that are there, and the slot that is given
has the value of what was asked for, whether it was there, was folded into a constant, or is new
(`Gives`). For offsets this is the exact value, as long as it stays below `2 ^ 53`
(`stride_gives`).
-/

namespace LinkedTables

/-- What a slot can be asked for as over a number of slots. -/
structure Slot.Fits (s : Slot) (below : Nat) : Prop where
  args : ∀ j ∈ s.args, j < below
  arity : s.args.length = s.op.arity
  operand : s.op = .load ∨ s.op = .label → s.operand.toNat < Text.bound32

/-- The slot takes nothing from a column or a label table. -/
def Slot.Free (s : Slot) : Prop := s.op ≠ .load ∧ s.op ≠ .label

namespace SlotGraph

/-- Every slot reads what it was asked for over, and these slots come before it. -/
structure Sound (g : SlotGraph) : Prop where
  wires : g.wires = g.slots.map Slot.args
  fits : ∀ (i : SlotId) (s : Slot), g.slots[i]? = some s → s.Fits i

/-- The slots of one graph are the first ones of another. -/
def Extends (g g' : SlotGraph) : Prop :=
  ∀ (i : SlotId) (s : Slot), g.slots[i]? = some s → g'.slots[i]? = some s

/-- A step gives a slot of a sound graph that extends the one before, and what it adds was asked for.
-/
structure Adds (g : SlotGraph) (asked : Slot → Prop) (r : SlotId × SlotGraph) : Prop where
  sound : r.2.Sound
  extends_ : g.Extends r.2
  lt : r.1 < r.2.size
  fresh : ∀ s ∈ r.2.slots, s ∈ g.slots ∨ asked s

theorem sound_empty : empty.Sound := ⟨by simp [empty], by simp [empty]⟩

theorem Extends.refl (g : SlotGraph) : g.Extends g := fun _ _ h => h

theorem Extends.trans {a b c : SlotGraph} (hab : a.Extends b) (hbc : b.Extends c) : a.Extends c :=
  fun i s h => hbc i s (hab i s h)

theorem Extends.size_le {g g' : SlotGraph} (h : g.Extends g') : g.size ≤ g'.size := by
  by_contra hlt
  have hi : g'.slots.size < g.slots.size := not_le.1 hlt
  have := h g'.slots.size g.slots[g'.slots.size] (by simp [hi])
  simp at this

theorem parents_eq {g : SlotGraph} (hg : g.Sound) {i : SlotId} {s : Slot}
    (h : g.slots[i]? = some s) : g.parents i = s.args := by
  obtain ⟨hi, rfl⟩ := Array.getElem?_eq_some_iff.1 h
  simp [parents, hg.wires, hi]

theorem lt_size {g : SlotGraph} {i : SlotId} {s : Slot} (h : g.slots[i]? = some s) : i < g.size :=
  (Array.getElem?_eq_some_iff.1 h).1

/-- The slot that is given is the one that was asked for. -/
theorem intern_getElem? (g : SlotGraph) (s : Slot) :
    (g.intern s).2.slots[(g.intern s).1]? = some s := by
  rw [intern]
  split
  · rename_i i hi
    obtain ⟨hlt, heq, -⟩ := Array.findIdx?_eq_some_iff_getElem.1 hi
    simp only [Array.getElem?_eq_some_iff]
    exact ⟨hlt, by simpa using heq⟩
  · simp [size]

theorem intern_extends (g : SlotGraph) (s : Slot) : g.Extends (g.intern s).2 := by
  intro i t ht
  rw [intern]
  split
  · exact ht
  · have hi := lt_size ht
    rw [Array.getElem?_push_lt hi]
    exact (Array.getElem?_eq_getElem hi).symm.trans ht

theorem intern_adds {g : SlotGraph} (hg : g.Sound) {s : Slot} (hs : s.Fits g.size)
    {asked : Slot → Prop} (hasked : asked s) : g.Adds asked (g.intern s) := by
  refine ⟨?_, intern_extends g s, lt_size (intern_getElem? g s), ?_⟩
  · rw [intern]
    split
    · exact hg
    · refine ⟨by simp [hg.wires], fun i t ht => ?_⟩
      rw [Array.getElem?_push] at ht
      split_ifs at ht with hi
      · cases ht
        exact hi ▸ hs
      · exact hg.fits i t ht
  · rw [intern]
    split
    · exact fun t ht => Or.inl ht
    · rintro t ht
      rcases Array.mem_push.1 ht with ht | rfl
      · exact Or.inl ht
      · exact Or.inr hasked

section Ask

variable {g : SlotGraph}

theorem constantBits_adds (hg : g.Sound) (bits : UInt64) : g.Adds Slot.Free (g.constantBits bits) :=
  intern_adds hg ⟨by simp, rfl, by simp⟩ (by simp [Slot.Free])

theorem row_adds (hg : g.Sound) : g.Adds Slot.Free g.row :=
  intern_adds hg ⟨by simp, rfl, by simp⟩ (by simp [Slot.Free])

theorem load_adds (hg : g.Sound) (column : UInt32) {offset : SlotId} (h : offset < g.size) :
    g.Adds (· = ⟨.load, [offset], column.toUInt64⟩) (g.load column offset) :=
  intern_adds hg ⟨by simpa using h, rfl, fun _ => by
    rw [UInt32.toNat_toUInt64]
    exact column.toNat_lt⟩ rfl

theorem label_adds (hg : g.Sound) (table : UInt32) {offset : SlotId} (h : offset < g.size) :
    g.Adds (· = ⟨.label, [offset], table.toUInt64⟩) (g.label table offset) :=
  intern_adds hg ⟨by simpa using h, rfl, fun _ => by
    rw [UInt32.toNat_toUInt64]
    exact table.toNat_lt⟩ rfl

theorem stride_adds (hg : g.Sound) {base pos : SlotId} (step : UInt64) (hbase : base < g.size)
    (hpos : pos < g.size) :
    g.Adds Slot.Free (g.stride base pos step) := by
  rw [stride]
  split_ifs
  · exact ⟨hg, .refl g, hbase, fun s hs => Or.inl hs⟩
  · split
    · exact constantBits_adds hg _
    · exact intern_adds hg ⟨by simp [hbase, hpos], rfl, by simp⟩ (by simp [Slot.Free])

theorem apply_adds (hg : g.Sound) {op : Opcode} {args : List SlotId}
    (hargs : ∀ j ∈ args, j < g.size) (harity : args.length = op.arity)
    (hop : op ≠ .load ∧ op ≠ .label) : g.Adds Slot.Free (g.apply op args) := by
  rw [apply]
  split
  · exact constantBits_adds hg _
  · exact intern_adds hg ⟨hargs, harity, fun h => absurd h (not_or.2 hop)⟩ hop

end Ask

section Values

variable {vals : List Float} {g : SlotGraph}

/-- The value of an operation for the values of its operands. -/
def opValue? (src : Sources) (row : Nat) (operand : UInt64) : Opcode → List Float → Option Float
  | .row, [] => some (Number.ofIndex row)
  | .const, [] => some (Float.ofBits operand)
  | .load, [x] => do (← src.columns[operand.toNat]?)[Number.toIndex x]?
  | .label, [x] => do
    let position ← (← src.tables[operand.toNat]?)[Number.toIndex x]?
    return Number.ofIndex position.toNat
  | .stride, [x, y] => some (x + y * operand.toFloat)
  | .unary op, [x] => some (op.apply x)
  | .binary op, [x, y] => some (op.apply x y)
  | .ternary op, [x, y, z] => some (op.apply x y z)
  | _, _ => none

variable (src : Sources) (row : Nat)

/-- The value of a slot from those of the slots before it. -/
def slotValue? (vals : List Float) (s : Slot) : Option Float :=
  (s.args.mapM fun (j : SlotId) => vals[j]?).bind (opValue? src row s.operand s.op)

/-- The values of all slots of a graph. -/
structure Valued (g : SlotGraph) (vals : List Float) : Prop where
  length : vals.length = g.size
  value : ∀ (i : SlotId) (s : Slot), g.slots[i]? = some s → slotValue? src row vals s = vals[i]?

/-- A step gives a slot with a value, and keeps the values of the slots before. -/
def Gives (vals : List Float) (r : SlotId × SlotGraph) (x : Float) : Prop :=
  ∃ vals', vals <+: vals' ∧ Valued src row r.2 vals' ∧ vals'[r.1]? = some x

theorem valued_empty : Valued src row empty [] := ⟨rfl, by simp [empty]⟩

variable {src row}

theorem getElem?_of_prefix {α : Type} {vals vals' : List α} (h : vals <+: vals') {i : Nat} {x : α}
    (hx : vals[i]? = some x) : vals'[i]? = some x := by
  obtain ⟨more, rfl⟩ := h
  rw [List.getElem?_append_left (List.getElem?_eq_some_iff.1 hx).1]
  exact hx

theorem mapM_mono {vals vals' : List Float} (h : vals <+: vals') : ∀ {args : List SlotId}
    {xs : List Float}, (args.mapM fun (j : SlotId) => vals[j]?) = some xs →
      (args.mapM fun (j : SlotId) => vals'[j]?) = some xs
  | [], xs, hxs => hxs
  | j :: args, xs, hxs => by
    simp only [List.mapM_cons, bind, Option.bind_eq_some_iff, pure, Option.some.injEq] at hxs ⊢
    obtain ⟨x, hx, rest, hrest, rfl⟩ := hxs
    exact ⟨x, getElem?_of_prefix h hx, rest, mapM_mono h hrest, rfl⟩

/-- More slots change no value. -/
theorem slotValue?_mono {vals vals' : List Float} (h : vals <+: vals') {s : Slot} {x : Float}
    (hx : slotValue? src row vals s = some x) : slotValue? src row vals' s = some x := by
  obtain ⟨xs, hxs, hval⟩ := Option.bind_eq_some_iff.1 hx
  exact Option.bind_eq_some_iff.2 ⟨xs, mapM_mono h hxs, hval⟩

theorem Valued.getElem? (h : Valued src row g vals) {i : SlotId} (hi : i < g.size) :
    ∃ x, vals[i]? = some x :=
  ⟨_, List.getElem?_eq_getElem (h.length.symm ▸ hi)⟩

/-- A slot that can be computed is given with its value. -/
theorem intern_gives (hv : Valued src row g vals) {s : Slot} {x : Float}
    (hx : slotValue? src row vals s = some x) : Gives src row vals (g.intern s) x := by
  have hslot := intern_getElem? g s
  rw [intern] at hslot ⊢
  split at hslot
  · exact ⟨vals, List.prefix_refl _, hv, (hv.value _ s hslot).symm.trans hx⟩
  · have hpre : vals <+: vals ++ [x] := List.prefix_append _ _
    refine ⟨vals ++ [x], hpre, ⟨by simp [hv.length, size], fun i t ht => ?_⟩, ?_⟩
    · rw [Array.getElem?_push] at ht
      split_ifs at ht with hi
      · cases ht
        rw [slotValue?_mono hpre hx, hi]
        simp [hv.length, size]
      · obtain ⟨y, hy⟩ := hv.getElem? (lt_size ht)
        rw [slotValue?_mono hpre ((hv.value i t ht).trans hy), getElem?_of_prefix hpre hy]
    · simp [hv.length]

theorem row_gives (hv : Valued src row g vals) : Gives src row vals g.row (Number.ofIndex row) :=
  intern_gives hv rfl

theorem constantBits_gives (hv : Valued src row g vals) (bits : UInt64) :
    Gives src row vals (g.constantBits bits) (Float.ofBits bits) :=
  intern_gives hv rfl

theorem constant_gives (hv : Valued src row g vals) (x : Float) :
    Gives src row vals (g.constant x) x := by
  have h := constantBits_gives hv (Number.bits x)
  rwa [Number.ofBits_bits] at h

theorem load_gives (hv : Valued src row g vals) {column : UInt32} {offset : SlotId} {x y : Float}
    {data : Array Float} (hx : vals[offset]? = some x)
    (hdata : src.columns[column.toNat]? = some data) (hy : data[Number.toIndex x]? = some y) :
    Gives src row vals (g.load column offset) y := by
  refine intern_gives hv ?_
  simp [slotValue?, hx, opValue?, hdata, hy]

theorem label_gives (hv : Valued src row g vals) {table : UInt32} {offset : SlotId} {x : Float}
    {positions : Array UInt32} {p : UInt32} (hx : vals[offset]? = some x)
    (hdata : src.tables[table.toNat]? = some positions)
    (hp : positions[Number.toIndex x]? = some p) :
    Gives src row vals (g.label table offset) (Number.ofIndex p.toNat) := by
  refine intern_gives hv ?_
  simp [slotValue?, hx, opValue?, hdata, hp]

/-- The value of a slot that is a constant is that constant. -/
theorem constBits?_value (hg : g.Sound) (hv : Valued src row g vals) {i : SlotId} {bits : UInt64}
    (h : g.constBits? i = some bits) :
    vals[i]? = some (Float.ofBits bits) := by
  obtain ⟨s, hs, hbits⟩ := Option.bind_eq_some_iff.1 h
  split_ifs at hbits with hop
  cases hbits
  have hargs : s.args = [] := by
    have := (hg.fits i s hs).arity
    rw [hop] at this
    exact List.eq_nil_of_length_eq_zero this
  rw [← hv.value i s hs, slotValue?, hargs, hop]
  rfl

/-- The step of an offset is exact below `2 ^ 53`, whether it is computed or left out. -/
theorem stride_gives (hg : g.Sound) (hv : Valued src row g vals) {base pos : SlotId} {step : UInt64}
    {x y : Float} {inner p : Nat} (hx : vals[base]? = some x) (hy : vals[pos]? = some y)
    (hxw : Number.whole? x = some (inner : Int)) (hyw : Number.whole? y = some (p : Int))
    (hp : p < 2 ^ 53) (hstep : step.toNat < 2 ^ 53) (hlt : p * step.toNat + inner < 2 ^ 53) :
    ∃ z, Gives src row vals (g.stride base pos step) z ∧
      Number.whole? z = some ((p * step.toNat + inner : Nat) : Int) := by
  have hwhole := Number.whole?_stride hxw hyw hp hstep hlt
  rw [stride]
  split_ifs with hskip
  · refine ⟨x, ⟨vals, List.prefix_refl _, hv, hx⟩, ?_⟩
    have hzero : p * step.toNat = 0 := by
      rw [Bool.or_eq_true] at hskip
      rcases hskip with h | h
      · rw [beq_iff_eq] at h
        simp [h]
      · obtain ⟨z, hz, hz0⟩ := (Option.any_eq_true _ _).1 h
        obtain ⟨bits, hbits, rfl⟩ := Option.map_eq_some_iff.1 hz
        have hval := constBits?_value hg hv hbits
        rw [hy, Option.some.injEq] at hval
        rw [← hval] at hz0
        have hpzero : Number.whole? y = some 0 := Number.whole?_eq_of_beq hz0
        rw [hyw, Option.some.injEq] at hpzero
        rw [show p = 0 by omega, Nat.zero_mul]
    rwa [hzero, Nat.zero_add]
  · refine ⟨x + y * step.toFloat, ?_, hwhole⟩
    split
    · rename_i b q hb hq
      have hbval := constBits?_value hg hv hb
      have hqval := constBits?_value hg hv hq
      rw [hx, Option.some.injEq] at hbval
      rw [hy, Option.some.injEq] at hqval
      have hgives := constantBits_gives hv (Opcode.stride.applyBits b q step.toFloat.toBits)
      rw [Opcode.ofBits_applyBits _ _ _ _ rfl, ← hbval, ← hqval, Float.ofBits_toBits] at hgives
      exact hgives
    · refine intern_gives hv ?_
      simp [slotValue?, hx, hy, opValue?]

/-- Operands that are all constants have these as their values. -/
theorem constants?_value (hg : g.Sound) (hv : Valued src row g vals) :
    ∀ {args : List SlotId} {bits : List UInt64} {xs : List Float},
    g.constants? args = some bits → (args.mapM fun (j : SlotId) => vals[j]?) = some xs →
      xs = bits.map Float.ofBits
  | [], bits, xs, hbits, hxs => by
    cases hbits
    cases hxs
    rfl
  | j :: args, bits, xs, hbits, hxs => by
    simp only [constants?, List.mapM_cons, bind, Option.bind_eq_some_iff, pure, Option.some.injEq]
      at hbits hxs
    obtain ⟨b, hb, rest, hrest, rfl⟩ := hbits
    obtain ⟨x, hx, ys, hys, rfl⟩ := hxs
    have hval := constBits?_value hg hv hb
    rw [hx, Option.some.injEq] at hval
    rw [List.map_cons, ← constants?_value hg hv hrest hys, hval]

/-- An operation gives its value, whether it is carried out at once or not. -/
theorem apply_gives (hg : g.Sound) (hv : Valued src row g vals) {op : Opcode} {args : List SlotId}
    {xs : List Float} {x : Float} (hxs : (args.mapM fun (j : SlotId) => vals[j]?) = some xs)
    (hop : op.isPure = true ∧ op ≠ .stride) (hx : opValue? src row 0 op xs = some x) :
    Gives src row vals (g.apply op args) x := by
  rw [apply, if_pos hop.1]
  split
  · rename_i bits hbits
    have hconst := constants?_value hg hv hbits hxs
    have hgives := constantBits_gives hv
      (op.applyBits (bits.getD 0 0) (bits.getD 1 0) (bits.getD 2 0))
    rw [Opcode.ofBits_applyBits _ _ _ _ hop.1] at hgives
    suffices x = op.apply (.ofBits (bits.getD 0 0)) (.ofBits (bits.getD 1 0))
        (.ofBits (bits.getD 2 0)) from this ▸ hgives
    subst hconst
    match op, bits, hx with
    | .unary f, [a], hx | .binary f, [a, b], hx | .ternary f, [a, b, c], hx =>
      simp only [opValue?, List.map_cons, List.map_nil, Option.some.injEq] at hx
      exact hx.symm
  · refine intern_gives hv ?_
    rw [slotValue?, hxs]
    exact hx

end Values

end SlotGraph

end LinkedTables
