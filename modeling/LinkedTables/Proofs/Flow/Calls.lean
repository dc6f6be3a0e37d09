import LinkedTables.Proofs.Flow.Slots
import LinkedTables.Proofs.Number.Steps

/-!
# Graphs of slots that are made by calls

Calls on slots that are there make one graph of another (`SlotGraph.Grown`). Whatever is called, the
slots stay, no two of them are the same request, and none is an operation on constants alone
(`Grown.interned`). A call that is made again, however many calls later, gives the slot that it gave and
adds none (`ask_again`). While words number the slots, the word for a slot tells it from all others
(`ask_word`).

What slots read from outside can be any row and any functions of a column or a label table and a
position. Then every slot has a pattern of bits (`SlotGraph.pattern`), later calls do not change it,
and the slot that is asked for has the pattern that its operation gives for those of its operands,
whether it was there, was folded into a constant, or is new (`SlotGraph.Faithful`). In the rows of
some data these patterns are those of the values of the slots (`SlotGraph.Valued.eq_patterns`).
-/

namespace LinkedTables

open Number (whole?)

/-- What a graph of slots is asked for. -/
inductive SlotCall where
  | row
  | constant (bits : UInt64)
  | load (column : UInt32) (offset : SlotId)
  | label (table : UInt32) (offset : SlotId)
  | stride (base pos : SlotId) (step : UInt64)
  | apply (op : Opcode) (args : List SlotId)

namespace SlotCall

def ask : SlotCall → SlotGraph → SlotId × SlotGraph
  | row, g => g.row
  | constant bits, g => g.constantBits bits
  | load column offset, g => g.load column offset
  | label table offset, g => g.label table offset
  | stride base pos step, g => g.stride base pos step
  | apply op args, g => g.apply op args

/-- What a call may add. -/
def Asked : SlotCall → Slot → Prop
  | load column offset => (· = ⟨.load, [offset], column.toUInt64⟩)
  | label table offset => (· = ⟨.label, [offset], table.toUInt64⟩)
  | _ => Slot.Free

/-- The call is about slots below a number. What is applied is a pure operation, to as many slots as
it takes; offsets have a call of their own. -/
def Fits (below : Nat) : SlotCall → Prop
  | row | constant _ => True
  | load _ offset | label _ offset => offset < below
  | stride base pos _ => base < below ∧ pos < below
  | apply op args =>
    (∀ j ∈ args, j < below) ∧ args.length = op.arity ∧ op.isPure = true ∧ op ≠ .stride

instance (below : Nat) : ∀ c : SlotCall, Decidable (c.Fits below)
  | row | constant _ => inferInstanceAs (Decidable True)
  | load _ _ | label _ _ => inferInstanceAs (Decidable (_ < _))
  | stride _ _ _ => inferInstanceAs (Decidable (_ ∧ _))
  | apply _ _ => inferInstanceAs (Decidable (_ ∧ _))

end SlotCall

namespace SlotGraph

/-- Calls, each of them on slots that are there, make one graph of another. -/
inductive Grown (g : SlotGraph) : SlotGraph → Prop where
  | refl : Grown g g
  | call {g' : SlotGraph} (c : SlotCall) (grown : Grown g g') (fits : c.Fits g'.size) :
    Grown g (c.ask g').2

theorem Grown.trans {a b c : SlotGraph} (hab : a.Grown b) (hbc : b.Grown c) : a.Grown c := by
  induction hbc with
  | refl => exact hab
  | call c _ hfits ih => exact .call c ih hfits

theorem Extends.isPrefix {g g' : SlotGraph} (h : g.Extends g') :
    g.slots.toList <+: g'.slots.toList := by
  refine List.prefix_iff_getElem?.2 fun i hi => ?_
  rw [Array.getElem?_toList]
  exact h i _ (by simp)

theorem exists_slot {g : SlotGraph} {i : SlotId} (hi : i < g.size) : ∃ s, g.slots[i]? = some s :=
  ⟨_, Array.getElem?_eq_getElem hi⟩

/-- A slot that is there stays what it is. -/
theorem Extends.getElem?_of_lt {g g' : SlotGraph} (h : g.Extends g') {i : SlotId} (hi : i < g.size) :
    g'.slots[i]? = g.slots[i]? := by
  obtain ⟨s, hs⟩ := exists_slot hi
  rw [hs, h i s hs]

theorem Extends.constBits?_of_lt {g g' : SlotGraph} (h : g.Extends g') {i : SlotId}
    (hi : i < g.size) : g'.constBits? i = g.constBits? i := by
  rw [constBits?, constBits?, h.getElem?_of_lt hi]

end SlotGraph

/-- The operation has a number or bits of its own beside its operands. -/
def Opcode.HasOperand (op : Opcode) : Prop :=
  op = .const ∨ op = .load ∨ op = .label ∨ op = .stride

namespace SlotGraph

/-- No request stands twice, none has an operand that it does not use, and none is a pure operation on
constants alone. -/
structure Interned (g : SlotGraph) : Prop where
  nodup : g.slots.toList.Nodup
  plain : ∀ s ∈ g.slots, ¬ s.op.HasOperand → s.operand = 0
  unfolded : ∀ s ∈ g.slots, s.op.isPure = true → ∃ j ∈ s.args, j < g.size ∧ g.constBits? j = none

theorem interned_empty : empty.Interned := ⟨by simp [empty], by simp [empty], by simp [empty]⟩

theorem intern_interned {g : SlotGraph} (hg : g.Interned) {s : Slot}
    (hplain : ¬ s.op.HasOperand → s.operand = 0)
    (hunfolded : s.op.isPure = true → ∃ j ∈ s.args, j < g.size ∧ g.constBits? j = none) :
    (g.intern s).2.Interned := by
  have hextends := intern_extends g s
  have hkeep : ∀ t : Slot, (t.op.isPure = true → ∃ j ∈ t.args, j < g.size ∧ g.constBits? j = none) →
      t.op.isPure = true → ∃ j ∈ t.args, j < (g.intern s).2.size ∧ (g.intern s).2.constBits? j = none := by
    intro t ht hpure
    obtain ⟨j, hj, hlt, hconst⟩ := ht hpure
    exact ⟨j, hj, hlt.trans_le hextends.size_le, (hextends.constBits?_of_lt hlt).trans hconst⟩
  rw [intern] at hkeep ⊢
  split at hkeep
  · exact hg
  · rename_i hnew
    have hfresh : s ∉ g.slots := fun hmem => by
      have hne := Array.findIdx?_eq_none_iff.1 hnew s hmem
      simp at hne
    refine ⟨?_, fun t ht => ?_, fun t ht => hkeep t ?_⟩
    · rw [Array.toList_push, List.nodup_append]
      refine ⟨hg.nodup, by simp, ?_⟩
      rintro a ha b hb rfl
      exact hfresh (List.mem_singleton.1 hb ▸ Array.mem_toList_iff.1 ha)
    · rcases Array.mem_push.1 ht with ht | rfl
      · exact hg.plain t ht
      · exact hplain
    · rcases Array.mem_push.1 ht with ht | rfl
      · exact hg.unfolded t ht
      · exact hunfolded

/-- Operands that are not all constants have one among them that is none. -/
theorem exists_of_constants?_eq_none {g : SlotGraph} : ∀ {args : List SlotId},
    g.constants? args = none → ∃ j ∈ args, g.constBits? j = none
  | [], h => by cases h
  | j :: args, h => by
    rcases hj : g.constBits? j with _ | bits
    · exact ⟨j, List.mem_cons_self, hj⟩
    · have hrest : g.constants? args = none := by
        rcases hargs : g.constants? args with _ | rest
        · rfl
        · rw [constants?] at hargs h
          simp [List.mapM_cons, hj, hargs] at h
      obtain ⟨k, hk, hconst⟩ := exists_of_constants?_eq_none hrest
      exact ⟨k, List.mem_cons_of_mem j hk, hconst⟩

/-- A call that fits keeps the requests apart, and folds those that can be folded. -/
theorem ask_interned {g : SlotGraph} (hg : g.Interned) : ∀ {c : SlotCall}, c.Fits g.size →
    (c.ask g).2.Interned
  | .row, _ => intern_interned hg (fun _ => rfl) (by simp [Opcode.isPure])
  | .constant _, _ | .load _ _, _ | .label _ _, _ =>
    intern_interned hg (fun h => absurd (by simp [Opcode.HasOperand]) h) (by simp [Opcode.isPure])
  | .stride base pos step, ⟨hbase, hpos⟩ => by
    rw [SlotCall.ask, stride]
    split_ifs
    · exact hg
    · split
      · exact intern_interned hg (fun h => absurd (.inl rfl) h) (by simp [Opcode.isPure])
      · rename_i hnone
        refine intern_interned hg (fun h => absurd (by simp [Opcode.HasOperand]) h) fun _ => ?_
        rcases hb : g.constBits? base with _ | b
        · exact ⟨base, by simp, hbase, hb⟩
        · rcases hp : g.constBits? pos with _ | p
          · exact ⟨pos, by simp, hpos, hp⟩
          · exact absurd hp (hnone b p hb)
  | .apply op args, ⟨hargs, _, hpure, _⟩ => by
    rw [SlotCall.ask, apply, if_pos hpure]
    split
    · exact intern_interned hg (fun h => absurd (.inl rfl) h) (by simp [Opcode.isPure])
    · rename_i hnone
      refine intern_interned hg (fun _ => rfl) fun _ => ?_
      obtain ⟨j, hj, hconst⟩ := exists_of_constants?_eq_none hnone
      exact ⟨j, hj, hargs j hj, hconst⟩

/-- A call that fits adds at most one sound slot, and gives a slot that is there. -/
theorem ask_adds {g : SlotGraph} (hg : g.Sound) : ∀ {c : SlotCall}, c.Fits g.size →
    g.Adds c.Asked (c.ask g)
  | .row, _ => row_adds hg
  | .constant bits, _ => constantBits_adds hg bits
  | .load column _, hoffset => load_adds hg column hoffset
  | .label table _, hoffset => label_adds hg table hoffset
  | .stride _ _ step, ⟨hbase, hpos⟩ => stride_adds hg step hbase hpos
  | .apply _ _, ⟨hargs, harity, hpure, _⟩ =>
    apply_adds hg hargs harity (by constructor <;> rintro rfl <;> cases hpure)

theorem Grown.sound {g g' : SlotGraph} (h : g.Grown g') (hg : g.Sound) : g'.Sound := by
  induction h with
  | refl => exact hg
  | call c _ hfits ih => exact (ask_adds ih hfits).sound

theorem Grown.extends_ {g g' : SlotGraph} (h : g.Grown g') (hg : g.Sound) : g.Extends g' := by
  induction h with
  | refl => exact .refl g
  | call c hgrown hfits ih => exact ih.trans (ask_adds (hgrown.sound hg) hfits).extends_

theorem Grown.interned {g g' : SlotGraph} (h : g.Grown g') (hg : g.Interned) : g'.Interned := by
  induction h with
  | refl => exact hg
  | call c _ hfits ih => exact ask_interned ih hfits

/-- If words number the slots in the end, they did so all the way. -/
theorem Grown.wordNumbered {g g' : SlotGraph} (h : g.Grown g') (hg : g.Sound)
    (hw : g'.WordNumbered) : g.WordNumbered :=
  (h.extends_ hg).size_le.trans hw

/-- The word for a slot that a call gives is its number, if words still number the slots after
whatever is called next. -/
theorem ask_word {g g' : SlotGraph} (hg : g.Sound) {c : SlotCall} (hc : c.Fits g.size)
    (h : (c.ask g).2.Grown g') (hw : g'.WordNumbered) :
    (UInt32.ofNat (c.ask g).1).toNat = (c.ask g).1 := by
  have hadds := ask_adds hg hc
  exact UInt32.toNat_ofNat_of_lt' (hadds.lt.trans_le (h.wordNumbered hadds.sound hw))

section Again

/-- The slot that is given is the first one with its request. -/
theorem intern_first (g : SlotGraph) (s : Slot) :
    (g.intern s).2.slots.findIdx? (· == s) = some (g.intern s).1 := by
  rw [intern]
  split
  · assumption
  · rename_i hnew
    simp [Array.findIdx?_push, hnew, size]

theorem intern_again {g g' : SlotGraph} {s : Slot} (h : (g.intern s).2.Extends g') :
    g'.intern s = ((g.intern s).1, g') := by
  have hfirst : g'.slots.findIdx? (· == s) = some (g.intern s).1 := by
    obtain ⟨more, hmore⟩ := h.isPrefix
    have hslots : g'.slots = (g.intern s).2.slots ++ more.toArray := by
      rw [← Array.toList_inj, Array.toList_append, hmore]
    rw [hslots, Array.findIdx?_append, intern_first, Option.some_or]
  rw [intern, hfirst]

theorem Extends.constants?_eq {g g' : SlotGraph} (h : g.Extends g') : ∀ {args : List SlotId},
    (∀ j ∈ args, j < g.size) → g'.constants? args = g.constants? args
  | [], _ => rfl
  | j :: args, hargs => by
    have hrest := h.constants?_eq fun k hk => hargs k (List.mem_cons_of_mem j hk)
    rw [constants?, constants?] at hrest ⊢
    rw [List.mapM_cons, List.mapM_cons, hrest, h.constBits?_of_lt (hargs j List.mem_cons_self)]

/-- Whatever was asked since, asking again gives the slot that is there and adds nothing. -/
theorem ask_again {g g' : SlotGraph} (hg : g.Sound) : ∀ {c : SlotCall}, c.Fits g.size →
    (c.ask g).2.Extends g' → c.ask g' = ((c.ask g).1, g')
  | .row, _, h | .constant _, _, h | .load _ _, _, h | .label _ _, _, h => intern_again h
  | .stride base pos step, ⟨hbase, hpos⟩, h => by
    have hall := (stride_adds hg step hbase hpos).extends_.trans h
    rw [SlotCall.ask, stride] at h ⊢
    rw [SlotCall.ask, stride, constant?, hall.constBits?_of_lt hbase, hall.constBits?_of_lt hpos,
      ← constant?]
    split_ifs at h ⊢
    · rfl
    · split at h <;> exact intern_again h
  | .apply op args, hc, h => by
    have hall := (ask_adds hg hc).extends_.trans h
    revert h
    simp only [SlotCall.ask, apply, hall.constants?_eq hc.1]
    split <;> exact intern_again

end Again

end SlotGraph

/-- What slots read from outside, whatever the columns and the label tables hold: the number of the row,
the pattern of a column at a pattern, and the position of a label table at a pattern. -/
structure Outside where
  row : Nat
  column : UInt64 → UInt64 → UInt64
  table : UInt64 → UInt64 → UInt32

/-- What slots read in a row of some data, and zeros beyond them. -/
def Outside.ofSources (src : Sources) (row : Nat) : Outside where
  row := row
  column c x := Number.bits (((src.columns.getD c.toNat #[])[Number.toIndex (.ofBits x)]?).getD 0)
  table t x := ((src.tables.getD t.toNat #[])[Number.toIndex (.ofBits x)]?).getD 0

/-- The pattern of an operation from those of its operands. -/
def Opcode.pattern (o : Outside) (operand : UInt64) (op : Opcode) (xs : List UInt64) : UInt64 :=
  match op with
  | .row => (Number.ofIndex o.row).toBits
  | .const => operand
  | .load => o.column operand (xs.getD 0 0)
  | .label => (Number.ofIndex (o.table operand (xs.getD 0 0)).toNat).toBits
  | .stride => Opcode.stride.applyBits (xs.getD 0 0) (xs.getD 1 0) operand.toFloat.toBits
  | op => op.applyBits (xs.getD 0 0) (xs.getD 1 0) (xs.getD 2 0)

/-- The pattern of a slot from those of the slots before it. -/
def Slot.pattern (o : Outside) (before : List UInt64) (s : Slot) : UInt64 :=
  s.op.pattern o s.operand (s.args.map fun j => before.getD j 0)

namespace SlotGraph

/-- The patterns of slots behind those of the slots before them. -/
def patternsFrom (o : Outside) : List UInt64 → List Slot → List UInt64
  | before, [] => before
  | before, s :: rest => patternsFrom o (before ++ [s.pattern o before]) rest

def patterns (o : Outside) (g : SlotGraph) : List UInt64 := patternsFrom o [] g.slots.toList

def pattern (o : Outside) (g : SlotGraph) (i : SlotId) : UInt64 := (g.patterns o).getD i 0

theorem patternsFrom_append (o : Outside) : ∀ (slots more : List Slot) (before : List UInt64),
    patternsFrom o before (slots ++ more) = patternsFrom o (patternsFrom o before slots) more
  | [], _, _ => rfl
  | s :: slots, more, before => patternsFrom_append o slots more (before ++ [s.pattern o before])

theorem length_patternsFrom (o : Outside) : ∀ (slots : List Slot) (before : List UInt64),
    (patternsFrom o before slots).length = before.length + slots.length
  | [], _ => rfl
  | s :: slots, before => by
    rw [patternsFrom, length_patternsFrom o slots]
    simp only [List.length_append, List.length_cons, List.length_nil]
    omega

theorem prefix_patternsFrom (o : Outside) : ∀ (slots : List Slot) (before : List UInt64),
    before <+: patternsFrom o before slots
  | [], before => List.prefix_refl before
  | s :: slots, before =>
    (List.prefix_append before _).trans (prefix_patternsFrom o slots (before ++ [s.pattern o before]))

theorem getD_of_prefix {α : Type} {xs ys : List α} (h : xs <+: ys) {i : Nat} (hi : i < xs.length)
    (d : α) : ys.getD i d = xs.getD i d := by
  obtain ⟨more, rfl⟩ := h
  exact List.getD_append xs more d i hi

/-- Later calls change no pattern. -/
theorem Extends.pattern_eq {g g' : SlotGraph} (h : g.Extends g') (o : Outside) {i : SlotId}
    (hi : i < g.size) : g'.pattern o i = g.pattern o i := by
  obtain ⟨more, hmore⟩ := h.isPrefix
  have hpre : g.patterns o <+: g'.patterns o := by
    rw [patterns, patterns, ← hmore, patternsFrom_append]
    exact prefix_patternsFrom o more _
  exact getD_of_prefix hpre (by simpa [patterns, length_patternsFrom, size] using hi) 0

/-- The pattern of a slot is what its operation gives for those of its operands. -/
theorem pattern_eq {g : SlotGraph} (hg : g.Sound) (o : Outside) {i : SlotId} {s : Slot}
    (hs : g.slots[i]? = some s) : g.pattern o i = s.op.pattern o s.operand (s.args.map (g.pattern o)) := by
  obtain ⟨done, rest, hsplit, hdone⟩ :
      ∃ done rest, g.slots.toList = done ++ s :: rest ∧ done.length = i := by
    obtain ⟨hi, rfl⟩ := List.getElem?_eq_some_iff.1 ((Array.getElem?_toList ..).trans hs)
    exact ⟨g.slots.toList.take i, g.slots.toList.drop (i + 1),
      by rw [List.getElem_cons_drop, List.take_append_drop], List.length_take_of_le hi.le⟩
  set before := patternsFrom o [] done with hbefore
  have hlength : before.length = i := by
    rw [hbefore, length_patternsFrom, List.length_nil, Nat.zero_add, hdone]
  have hpatterns : g.patterns o = patternsFrom o (before ++ [s.pattern o before]) rest := by
    rw [patterns, hsplit, patternsFrom_append]
    rfl
  have hpre : before ++ [s.pattern o before] <+: g.patterns o := by
    rw [hpatterns]
    exact prefix_patternsFrom o _ _
  have hself : g.pattern o i = s.pattern o before := by
    rw [pattern, getD_of_prefix hpre (by simp [hlength])]
    simp [hlength]
  rw [hself, Slot.pattern]
  congr 1
  refine List.map_congr_left fun j hj => ?_
  have hj' : j < before.length := hlength ▸ (hg.fits i s hs).args j hj
  rw [pattern, getD_of_prefix ((List.prefix_append _ _).trans hpre) hj']

/-- A constant has its own pattern. -/
theorem pattern_of_constBits? {g : SlotGraph} (hg : g.Sound) (o : Outside) {i : SlotId} {bits : UInt64}
    (h : g.constBits? i = some bits) : g.pattern o i = bits := by
  obtain ⟨s, hs, hbits⟩ := Option.bind_eq_some_iff.1 h
  split_ifs at hbits with hop
  cases hbits
  rw [pattern_eq hg o hs, hop, Opcode.pattern]

/-- The slot that is asked for has the pattern of its request. -/
theorem pattern_intern {g : SlotGraph} (hg : g.Sound) (o : Outside) {s : Slot} (hs : s.Fits g.size) :
    (g.intern s).2.pattern o (g.intern s).1 = s.op.pattern o s.operand (s.args.map (g.pattern o)) := by
  have hadds : g.Adds (fun _ => True) (g.intern s) := intern_adds hg hs trivial
  rw [pattern_eq hadds.sound o (intern_getElem? g s)]
  congr 1
  exact List.map_congr_left fun j hj => (intern_extends g s).pattern_eq o (hs.args j hj)

theorem pattern_constantBits {g : SlotGraph} (hg : g.Sound) (o : Outside) (bits : UInt64) :
    (g.constantBits bits).2.pattern o (g.constantBits bits).1 = bits :=
  pattern_intern hg o ⟨by simp, rfl, by simp⟩

/-- Operands that are all constants have these as their patterns. -/
theorem map_pattern_of_constants? {g : SlotGraph} (hg : g.Sound) (o : Outside) :
    ∀ {args : List SlotId} {bits : List UInt64}, g.constants? args = some bits →
      args.map (g.pattern o) = bits
  | [], bits, h => by
    cases h
    rfl
  | j :: args, bits, h => by
    simp only [constants?, List.mapM_cons, bind, Option.bind_eq_some_iff, pure, Option.some.injEq] at h
    obtain ⟨b, hb, rest, hrest, rfl⟩ := h
    rw [List.map_cons, pattern_of_constBits? hg o hb, map_pattern_of_constants? hg o hrest]

/-- The slot of an operation has the pattern of the operation, folded or not. -/
theorem pattern_apply {g : SlotGraph} (hg : g.Sound) (o : Outside) {op : Opcode} {args : List SlotId}
    (h : (SlotCall.apply op args).Fits g.size) : (g.apply op args).2.pattern o (g.apply op args).1 =
      op.applyBits ((args.map (g.pattern o)).getD 0 0) ((args.map (g.pattern o)).getD 1 0)
        ((args.map (g.pattern o)).getD 2 0) := by
  obtain ⟨hargs, harity, hpure, hop⟩ := h
  rw [apply, if_pos hpure]
  split
  · rename_i bits hbits
    rw [pattern_constantBits hg, map_pattern_of_constants? hg o hbits]
  · have hfits : Slot.Fits ⟨op, args, 0⟩ g.size :=
      ⟨hargs, harity, fun h => by rcases h with rfl | rfl <;> cases hpure⟩
    rw [pattern_intern hg o hfits]
    cases op with
    | row | const | load | label => cases hpure
    | stride => exact absurd rfl hop
    | unary f | binary f | ternary f => rfl

/-- Where the base of a step is left as it is, nothing is added to it. -/
theorem mul_eq_zero_of_skipped {g : SlotGraph} (hg : g.Sound) (o : Outside) {pos : SlotId}
    {step : UInt64} {p : Nat} (hp : whole? (.ofBits (g.pattern o pos)) = some (p : Int))
    (hskip : (step == 0 || (g.constant? pos).any (· == 0.0)) = true) : p * step.toNat = 0 := by
  rw [Bool.or_eq_true] at hskip
  rcases hskip with hstep | hpos
  · rw [beq_iff_eq] at hstep
    simp [hstep]
  · obtain ⟨z, hz, hz0⟩ := (Option.any_eq_true _ _).1 hpos
    obtain ⟨bits, hbits, rfl⟩ := Option.map_eq_some_iff.1 hz
    rw [pattern_of_constBits? hg o hbits, Number.whole?_eq_of_beq hz0] at hp
    have hpzero : (0 : Int) = p := Option.some.inj hp
    rw [show p = 0 by omega, Nat.zero_mul]

/-- The slot of a step of an offset is the base plus the position times the step, as long as that stays
below `2 ^ 53`. -/
theorem whole?_pattern_stride {g : SlotGraph} (hg : g.Sound) (o : Outside) {base pos : SlotId}
    {step : UInt64} (hbase : base < g.size) (hpos : pos < g.size) {b p : Nat}
    (hb : whole? (.ofBits (g.pattern o base)) = some (b : Int))
    (hp : whole? (.ofBits (g.pattern o pos)) = some (p : Int)) (hlt : b + p * step.toNat < 2 ^ 53) :
    whole? (.ofBits ((g.stride base pos step).2.pattern o (g.stride base pos step).1)) =
      some ((b + p * step.toNat : Nat) : Int) := by
  rw [stride]
  split_ifs with hskip
  · rw [mul_eq_zero_of_skipped hg o hp hskip, Nat.add_zero]
    exact hb
  · have hstep : step ≠ 0 := fun h0 => hskip (by simp [h0])
    have hwhole := Number.whole?_step hb hp hlt hstep
    have hbits : ∀ x y : UInt64, Float.ofBits (Opcode.stride.applyBits x y step.toFloat.toBits) =
        .ofBits x + .ofBits y * step.toFloat := fun x y => by
      rw [Opcode.ofBits_applyBits _ _ _ _ rfl, Float.ofBits_toBits]
      rfl
    split
    · rename_i x y hx hy
      rw [pattern_constantBits hg, hbits, ← pattern_of_constBits? hg o hx,
        ← pattern_of_constBits? hg o hy]
      exact hwhole
    · have hfits : Slot.Fits ⟨.stride, [base, pos], step⟩ g.size :=
        ⟨by simp [hbase, hpos], rfl, by simp⟩
      rw [pattern_intern hg o hfits]
      simp only [Opcode.pattern, List.map_cons, List.map_nil, List.getD_cons_zero,
        List.getD_cons_succ, hbits]
      exact hwhole

section Row

variable {src : Sources} {row : Nat}

/-- An operation that has a value in a row has the value of its pattern. -/
theorem eq_ofBits_of_opValue? {operand : UInt64} {op : Opcode} {xs : List UInt64} {x : Float}
    (h : opValue? src row operand op (xs.map Float.ofBits) = some x) :
    x = .ofBits (op.pattern (.ofSources src row) operand xs) := by
  match op, xs, h with
  | .row, [], h =>
    rw [Opcode.pattern, Float.ofBits_toBits]
    exact (Option.some.inj h).symm
  | .const, [], h => exact (Option.some.inj h).symm
  | .load, [b], h =>
    obtain ⟨data, hdata, hx⟩ := Option.bind_eq_some_iff.1 h
    simp only [Opcode.pattern, Outside.ofSources, Array.getD_eq_getD_getElem?, hdata, hx,
      Option.getD_some, List.getD_cons_zero, Number.ofBits_bits]
  | .label, [b], h =>
    obtain ⟨positions, hpositions, h⟩ := Option.bind_eq_some_iff.1 h
    obtain ⟨p, hp, hx⟩ := Option.bind_eq_some_iff.1 h
    rw [← Option.some.inj hx]
    simp only [Opcode.pattern, Outside.ofSources, Array.getD_eq_getD_getElem?, hpositions, hp,
      Option.getD_some, List.getD_cons_zero, Float.ofBits_toBits]
  | .stride, [a, b], h =>
    rw [Opcode.pattern, Opcode.ofBits_applyBits _ _ _ _ rfl, Float.ofBits_toBits]
    exact (Option.some.inj h).symm
  | .unary f, [a], h =>
    exact (Option.some.inj h).symm.trans (Opcode.ofBits_applyBits (.unary f) a 0 0 rfl).symm
  | .binary f, [a, b], h =>
    exact (Option.some.inj h).symm.trans (Opcode.ofBits_applyBits (.binary f) a b 0 rfl).symm
  | .ternary f, [a, b, c], h =>
    exact (Option.some.inj h).symm.trans (Opcode.ofBits_applyBits (.ternary f) a b c rfl).symm

theorem mapM_eq_map {α β : Type} {f : α → Option β} {g : α → β} : ∀ {xs : List α},
    (∀ x ∈ xs, f x = some (g x)) → xs.mapM f = some (xs.map g)
  | [], _ => rfl
  | x :: xs, h => by
    rw [List.mapM_cons, h x List.mem_cons_self, mapM_eq_map fun y hy => h y (List.mem_cons_of_mem x hy)]
    rfl

/-- The values of slots in a row are those of their patterns. -/
theorem Valued.eq_patterns {g : SlotGraph} {vals : List Float} (hg : g.Sound)
    (hv : Valued src row g vals) : vals = (g.patterns (.ofSources src row)).map Float.ofBits := by
  have hvalue : ∀ i < g.size, vals[i]? = some (.ofBits (g.pattern (.ofSources src row) i)) := by
    intro i
    induction i using Nat.strong_induction_on with
    | _ i ih =>
      intro hi
      obtain ⟨s, hs⟩ := exists_slot hi
      have hargs := (hg.fits i _ hs).args
      obtain ⟨x, hx⟩ := hv.getElem? hi
      have hval := (hv.value i _ hs).trans hx
      rw [slotValue?, mapM_eq_map fun j hj => ih j (hargs j hj) ((hargs j hj).trans hi),
        Option.bind_some] at hval
      rw [hx, pattern_eq hg _ hs, ← eq_ofBits_of_opValue? (by rw [List.map_map]; exact hval)]
  have hlength : (g.patterns (.ofSources src row)).length = g.size := by
    simp [patterns, length_patternsFrom, size]
  refine List.ext_getElem? fun i => ?_
  rcases Nat.lt_or_ge i g.size with hi | hi
  · have hi' := hlength.symm ▸ hi
    rw [hvalue i hi, List.getElem?_map, List.getElem?_eq_getElem hi', pattern,
      List.getD_eq_getElem _ _ hi']
    rfl
  · rw [List.getElem?_eq_none (hv.length.le.trans hi),
      List.getElem?_eq_none (by rw [List.length_map, hlength]; exact hi)]

end Row

section Faithful

/-- The graph stores every request once, behind its operands, and its patterns are what was asked for.
-/
structure Faithful (g : SlotGraph) : Prop where
  /-- Parents come first. -/
  parents : ∀ (i : SlotId) (s : Slot), g.slots[i]? = some s → g.parents i = s.args ∧ ∀ j ∈ s.args, j < i
  /-- No two slots are the same request. -/
  once : ∀ (i j : SlotId) (s : Slot), g.slots[i]? = some s → g.slots[j]? = some s → i = j
  /-- Later calls leave the slots and their patterns as they are. -/
  stable : ∀ g' : SlotGraph, g.Grown g' → ∀ i < g.size, g'.slots[i]? = g.slots[i]? ∧
    g'.parents i = g.parents i ∧ ∀ o : Outside, g'.pattern o i = g.pattern o i
  /-- A slot has the pattern of its request. -/
  computed : ∀ (o : Outside) (i : SlotId) (s : Slot), g.slots[i]? = some s →
    g.pattern o i = s.op.pattern o s.operand (s.args.map (g.pattern o))
  /-- The slot of an operation has the pattern of the operation on its operands. -/
  applied : ∀ (o : Outside) (op : Opcode) (args : List SlotId), (SlotCall.apply op args).Fits g.size →
    (g.apply op args).1 < (g.apply op args).2.size ∧
    (g.apply op args).2.pattern o (g.apply op args).1 =
      op.applyBits ((args.map (g.pattern o)).getD 0 0) ((args.map (g.pattern o)).getD 1 0)
        ((args.map (g.pattern o)).getD 2 0)
  /-- The slot of a step has the exact sum, for whole numbers, below `2 ^ 53`. -/
  stepped : ∀ (o : Outside) (base pos : SlotId) (step : UInt64) (b p : Nat),
    base < g.size → pos < g.size →
    whole? (.ofBits (g.pattern o base)) = some (b : Int) →
    whole? (.ofBits (g.pattern o pos)) = some (p : Int) → b + p * step.toNat < 2 ^ 53 →
    (g.stride base pos step).1 < (g.stride base pos step).2.size ∧
    whole? (.ofBits ((g.stride base pos step).2.pattern o (g.stride base pos step).1)) =
      some ((b + p * step.toNat : Nat) : Int)
  /-- The values in a row of some data are those of the patterns. -/
  valued : ∀ (src : Sources) (row : Nat) (vals : List Float), Valued src row g vals →
    vals = (g.patterns (.ofSources src row)).map Float.ofBits

/-- However many calls a graph is made by, it is faithful. -/
theorem faithful_of_grown {g : SlotGraph} (hg : empty.Grown g) : g.Faithful := by
  have hsound := hg.sound sound_empty
  have hnodup := (hg.interned interned_empty).nodup
  constructor
  case parents => exact fun i s hs => ⟨parents_eq hsound hs, (hsound.fits i s hs).args⟩
  case once =>
    intro i j s hi hj
    rw [← Array.getElem?_toList] at hi hj
    exact (List.getElem?_inj (List.getElem?_eq_some_iff.1 hi).1 hnodup).1 (hi.trans hj.symm)
  case stable =>
    intro g' hg' i hi
    have hextends := hg'.extends_ hsound
    obtain ⟨s, hs⟩ := exists_slot hi
    refine ⟨hextends.getElem?_of_lt hi, ?_, fun o => hextends.pattern_eq o hi⟩
    rw [parents_eq (hg'.sound hsound) (hextends i _ hs), parents_eq hsound hs]
  case computed => exact fun o i s hs => pattern_eq hsound o hs
  case applied => exact fun o op args h => ⟨(ask_adds hsound h).lt, pattern_apply hsound o h⟩
  case stepped =>
    intro o base pos step b p hbase hpos hb hp hlt
    have hfits : (SlotCall.stride base pos step).Fits g.size := ⟨hbase, hpos⟩
    exact ⟨(ask_adds hsound hfits).lt, whole?_pattern_stride hsound o hbase hpos hb hp hlt⟩
  case valued => exact fun src row vals hv => hv.eq_patterns hsound

/-- Three places a row, from the fifth place on. -/
theorem faithful_of_step :
    ∃ g, empty.Grown g ∧ g.slots = #[⟨.row, [], 0⟩, ⟨.const, [], 5⟩, ⟨.stride, [1, 0], 3⟩] ∧ g.Faithful :=
  have hg : empty.Grown ((SlotCall.stride 1 0 3).ask ((SlotCall.constant 5).ask
      (SlotCall.row.ask empty).2).2).2 :=
    .call _ (.call _ (.call _ .refl trivial) trivial) (by decide +kernel)
  ⟨_, hg, by decide +kernel, faithful_of_grown hg⟩

end Faithful

end SlotGraph

end LinkedTables
