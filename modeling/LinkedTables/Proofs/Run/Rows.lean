import LinkedTables.Proofs.Listing.RoundTrip
import LinkedTables.Run.Batch

/-!
# Rows of a batch

Given data and a row, the slots of an analysis have values (`Valued`). Its program computes them: each
instruction leaves the value of its slot in its register, and the constants stay where they are
(`Analysis.Written.evalRow`). So a row starts from registers as good as fresh ones, however the batch
is cut into blocks, and what a batch gives for a row depends on the row alone (`run_eq`).
-/

namespace LinkedTables

open Text (bound32)

namespace SlotGraph

/-- Registers of an order of slots in which the constants stand. -/
structure Ready (g : SlotGraph) (order : List SlotId) (regs : Array Float) : Prop where
  size : regs.size = order.length
  constants : ∀ i ∈ order, ∀ s, g.slots[i]? = some s → s.op = .const →
    regs[order.idxOf i]? = some (Float.ofBits s.operand)

/-- The registers of some slots hold their values. -/
def Holds (order : List SlotId) (vals : List Float) (done : List SlotId) (regs : Array Float) :
    Prop :=
  ∀ j ∈ done, regs[order.idxOf j]? = vals[j]?

variable {g : SlotGraph} {order done : List SlotId} {vals : List Float} {regs : Array Float}
  {i : SlotId}

/-- A slot whose register holds its value is one more that is done. -/
theorem Holds.snoc (h : Holds order vals done regs) (hi : regs[order.idxOf i]? = vals[i]?) :
    Holds order vals (done ++ [i]) regs := by
  intro j hj
  rcases List.mem_append.1 hj with hj | hj
  · exact h j hj
  · obtain rfl := List.mem_singleton.1 hj
    exact hi

/-- Registers of other slots stay as they are. -/
theorem getElem?_setRegister {j : SlotId} (hj : j ∈ order) (hne : j ≠ i) (x : Float) :
    (regs.setIfInBounds (order.idxOf i) x)[order.idxOf j]? = regs[order.idxOf j]? :=
  Array.getElem?_setIfInBounds_ne fun heq => hne ((List.idxOf_inj hj).1 heq.symm)

/-- The value of a slot is put in its register. -/
theorem Holds.set (h : Holds order vals done regs) (hsub : ∀ j ∈ done, j ∈ order) (hi : i ∈ order)
    (hnew : i ∉ done) (hsize : regs.size = order.length) {x : Float} (hx : vals[i]? = some x) :
    Holds order vals (done ++ [i]) (regs.setIfInBounds (order.idxOf i) x) := by
  refine Holds.snoc (fun j hj => ?_) ?_
  · rw [getElem?_setRegister (hsub j hj) (by rintro rfl; exact hnew hj), h j hj]
  · rw [hx, Array.getElem?_setIfInBounds_self_of_lt]
    exact hsize ▸ List.idxOf_lt_length_of_mem hi

/-- The constants stay where they are if another slot is given a value. -/
theorem Ready.set (h : g.Ready order regs) {s : Slot} (hs : g.slots[i]? = some s) (hop : s.op ≠ .const)
    (x : Float) : g.Ready order (regs.setIfInBounds (order.idxOf i) x) where
  size := by simpa using h.size
  constants j hj t ht hconst := by
    have hne : j ≠ i := by
      rintro rfl
      rw [hs, Option.some.injEq] at ht
      exact hop (ht ▸ hconst)
    rw [getElem?_setRegister hj hne, h.constants j hj t ht hconst]

end SlotGraph

section Instructions

variable {src : Sources} {row : Nat} {vals : List Float} {regs : Array Float}

theorem toNat_ofNat {n : Nat} (h : n < bound32) : (UInt32.ofNat n).toNat = n :=
  UInt32.toNat_ofNat_of_lt' h

/-- An instruction has the value of its slot. -/
theorem Slot.evalInstr_instr (reg : SlotId → Nat) {s : Slot} {x : Float} (harity : s.args.length = s.op.arity)
    (hoperand : s.op = .load ∨ s.op = .label → s.operand.toNat < bound32)
    (hreg : ∀ j ∈ s.args, reg j < bound32) (hargs : ∀ j ∈ s.args, regs[reg j]? = vals[j]?)
    (hx : SlotGraph.slotValue? src row vals s = some x) :
    Program.evalInstr src row regs (s.instr reg) = some x := by
  obtain ⟨op, args, operand⟩ := s
  obtain ⟨xs, hxs, hval⟩ := Option.bind_eq_some_iff.1 hx
  have hall := forall₂_of_mapM_some hxs
  have hread : ∀ j ∈ args, regs[(UInt32.ofNat (reg j)).toNat]? = vals[j]? := fun j hj => by
    rw [toNat_ofNat (hreg j hj), hargs j hj]
  have htable : operand.toNat < bound32 → operand.toUInt32.toNat = operand.toNat := fun h => by
    rw [UInt64.toNat_toUInt32]
    exact Nat.mod_eq_of_lt h
  rcases op with _ | _ | _ | _ | _ | op | op | op
  · obtain rfl := List.eq_nil_of_length_eq_zero harity
    cases hall
    exact hval
  · obtain rfl := List.eq_nil_of_length_eq_zero harity
    cases hall
    exact hval
  · obtain ⟨a, rfl⟩ := List.length_eq_one_iff.1 harity
    obtain _ | ⟨hu, _ | _⟩ := hall
    simp only [Slot.instr, List.map_cons, List.map_nil, Program.evalInstr, hread a (by simp), hu,
      htable (hoperand (Or.inl rfl))]
    exact hval
  · obtain ⟨a, rfl⟩ := List.length_eq_one_iff.1 harity
    obtain _ | ⟨hu, _ | _⟩ := hall
    simp only [Slot.instr, List.map_cons, List.map_nil, Program.evalInstr, hread a (by simp), hu,
      htable (hoperand (Or.inr rfl))]
    exact hval
  · obtain ⟨a, b, rfl⟩ := List.length_eq_two.1 harity
    obtain _ | ⟨hu, _ | ⟨hv, _ | _⟩⟩ := hall
    simp only [Slot.instr, List.map_cons, List.map_nil, Program.evalInstr, hread a (by simp), hu,
      hread b (by simp), hv]
    exact hval
  · obtain ⟨a, rfl⟩ := List.length_eq_one_iff.1 harity
    obtain _ | ⟨hu, _ | _⟩ := hall
    simp only [Slot.instr, List.map_cons, List.map_nil, Program.evalInstr, hread a (by simp), hu]
    exact hval
  · obtain ⟨a, b, rfl⟩ := List.length_eq_two.1 harity
    obtain _ | ⟨hu, _ | ⟨hv, _ | _⟩⟩ := hall
    simp only [Slot.instr, List.map_cons, List.map_nil, Program.evalInstr, hread a (by simp), hu,
      hread b (by simp), hv]
    exact hval
  · obtain ⟨a, b, c, rfl⟩ := List.length_eq_three.1 harity
    obtain _ | ⟨hu, _ | ⟨hv, _ | ⟨hw, _ | _⟩⟩⟩ := hall
    simp only [Slot.instr, List.map_cons, List.map_nil, Program.evalInstr, hread a (by simp), hu,
      hread b (by simp), hv, hread c (by simp), hw]
    exact hval

/-- Only a constant leaves its register as it is. -/
theorem Slot.stepInstr_instr (reg : SlotId → Nat) {s : Slot} (h : s.op ≠ .const) (i : Nat) :
    Program.stepInstr src row i (s.instr reg) regs =
      (Program.evalInstr src row regs (s.instr reg)).map fun x => regs.setIfInBounds i x := by
  have hne : ∀ bits, s.instr reg ≠ .const bits := fun bits hconst => by
    rw [Slot.instr] at hconst
    split at hconst <;> first | exact absurd ‹_› h | cases hconst
  rcases hinstr : s.instr reg with _ | bits | _ | _ | _ | _ | _ | _
  · rfl
  · exact absurd hinstr (hne bits)
  all_goals rfl

end Instructions

namespace Analysis

variable {a : Analysis} {mode : Mode} {order : List SlotId} {slots : List Slot} {src : Sources}
  {row : Nat} {vals : List Float}

/-- One instruction puts the value of its slot in its register and changes no other one. -/
theorem Written.stepInstr (h : a.Written mode order slots) (hg : a.slots.Sound)
    (hn : a.Numbered slots) (hv : SlotGraph.Valued src row a.slots vals) {before after : List SlotId}
    {i : SlotId} (heq : order = before ++ i :: after) {s : Slot} (hs : a.slots.slots[i]? = some s)
    {regs : Array Float} (hready : a.slots.Ready order regs)
    (hholds : SlotGraph.Holds order vals before regs) :
    ∃ regs', Program.stepInstr src row before.length (s.instr fun j => order.idxOf j) regs =
        some regs' ∧ a.slots.Ready order regs' ∧
      SlotGraph.Holds order vals (before ++ [i]) regs' := by
  have hi : i ∈ order := by simp [heq]
  have hnew : i ∉ before := fun hmem => by
    have := h.placed.nodup
    rw [heq, List.nodup_append] at this
    exact this.2.2 i hmem i (by simp) rfl
  have hidx : order.idxOf i = before.length := by
    rw [heq, List.idxOf_append_of_notMem hnew, List.idxOf_cons_self, Nat.add_zero]
  have hargs : ∀ j ∈ s.args, j ∈ before := fun j hj =>
    h.placed.after before i after heq j (by rwa [SlotGraph.parents_eq hg hs])
  obtain ⟨x, hx⟩ := hv.getElem? (h.placed.lt i hi)
  have hval := (hv.value i s hs).trans hx
  have hfits := hg.fits i s hs
  have heval := Slot.evalInstr_instr (fun j => order.idxOf j) hfits.arity hfits.operand
    (fun j hj => hn.idxOf_lt h (by simp [heq, hargs j hj])) (fun j hj => hholds j (hargs j hj)) hval
  by_cases hop : s.op = .const
  · have hreg := hready.constants i hi s hs hop
    obtain ⟨op, args, operand⟩ := s
    subst hop
    obtain rfl := List.eq_nil_of_length_eq_zero hfits.arity
    refine ⟨regs, rfl, hready, hholds.snoc ?_⟩
    rw [hreg, hx]
    exact congrArg some (Option.some.inj hval)
  · refine ⟨regs.setIfInBounds before.length x, ?_, ?_, ?_⟩
    · rw [Slot.stepInstr_instr _ hop, heval]
      rfl
    · rw [← hidx]
      exact hready.set hs hop x
    · rw [← hidx]
      exact hholds.set (fun j hj => by simp [heq, hj]) hi hnew hready.size hx

/-- The instructions from one on put the values of their slots in their registers. -/
theorem Written.evalCode (h : a.Written mode order slots) (hg : a.slots.Sound)
    (hn : a.Numbered slots) (hv : SlotGraph.Valued src row a.slots vals) :
    ∀ {before rest : List SlotId} {code : List Slot} {regs : Array Float}, order = before ++ rest →
      List.Forall₂ (fun i s => a.slots.slots[i]? = some s) rest code → a.slots.Ready order regs →
      SlotGraph.Holds order vals before regs →
      ∃ regs', Program.evalCode src row before.length
          (code.map (Slot.instr fun j => order.idxOf j)) regs = some regs' ∧
        a.slots.Ready order regs' ∧ SlotGraph.Holds order vals order regs'
  | before, [], [], regs, heq, .nil, hready, hholds => by
    obtain rfl : order = before := by simpa using heq
    exact ⟨regs, rfl, hready, hholds⟩
  | before, i :: rest, s :: code, regs, heq, .cons hs hcode, hready, hholds => by
    obtain ⟨regs', hstep, hready', hholds'⟩ := h.stepInstr hg hn hv heq hs hready hholds
    obtain ⟨regs'', hrest, hdone⟩ :=
      h.evalCode hg hn hv (by simpa using heq) hcode hready' hholds'
    refine ⟨regs'', ?_, hdone⟩
    rw [List.map_cons, Program.evalCode, hstep]
    simpa using hrest

/-- A row whose slots have values can be run, and leaves the values of the outputs. -/
theorem Written.evalRow (h : a.Written mode order slots) (hg : a.slots.Sound)
    (hn : a.Numbered slots) (hv : SlotGraph.Valued src row a.slots vals) {regs : Array Float}
    (hready : a.slots.Ready order regs) :
    ∃ regs', (a.program mode order slots).evalRow src row regs = some regs' ∧
      a.slots.Ready order regs' ∧
      (a.program mode order slots).outputValues regs' = a.outputs.map fun i => vals.getD i 0.0 := by
  obtain ⟨regs', hcode, hready', hholds⟩ :=
    h.evalCode hg hn hv (List.nil_append order).symm h.inOrder hready (by simp [SlotGraph.Holds])
  refine ⟨regs', by simpa [Program.evalRow, program] using hcode, hready', ?_⟩
  rw [Program.outputValues, program, List.map_map]
  refine List.map_congr_left fun i hi => ?_
  have hmem := h.covers i hi
  rw [Function.comp_apply, toNat_ofNat (hn.idxOf_lt h hmem), Array.getD_eq_getD_getElem?,
    hholds i hmem, List.getD_eq_getElem?_getD]

/-- Fresh registers hold the constants. -/
theorem Written.ready_init (h : a.Written mode order slots) :
    a.slots.Ready order (a.program mode order slots).initRegisters := by
  refine ⟨by simp [Program.initRegisters, program, h.inOrder.length_eq], fun i hi s hs hop => ?_⟩
  have hlt := List.idxOf_lt_length_of_mem hi
  have hlt' : order.idxOf i < slots.length := h.inOrder.length_eq ▸ hlt
  have hget := h.inOrder.get hlt hlt'
  rw [List.get_eq_getElem, List.get_eq_getElem, List.getElem_idxOf, hs, Option.some.injEq] at hget
  simp [Program.initRegisters, program, hlt', ← hget, Slot.instr, hop]

end Analysis

namespace Batch

variable {p : Program} {src : Sources} {epilogue : Epilogue}

/-- Rows that can be run from good registers, and leave good ones. -/
structure Steady (p : Program) (src : Sources) (good : Array Float → Prop)
    (outs : Nat → List Float) (rows : Nat) : Prop where
  init : good p.initRegisters
  row : ∀ r < rows, ∀ regs, good regs → ∃ regs', p.evalRow src r regs = some regs' ∧ good regs' ∧
    p.outputValues regs' = outs r

variable {good : Array Float → Prop} {outs : Nat → List Float} {rows : Nat}

/-- What a row gives, for an epilogue that looks only at the values of the outputs. -/
theorem runFrom_eq (h : Steady p src good outs rows)
    {give : List Float → Nat → Except RowFault (List Float)}
    (hgive : ∀ regs r, epilogue regs r = give (p.outputValues regs) r) :
    ∀ {count first : Nat} {regs : Array Float}, first + count ≤ rows → good regs →
      runFrom p src epilogue count first regs =
        (List.range' first count).mapM fun r => give (outs r) r
  | 0, _, _, _, _ => rfl
  | count + 1, first, regs, hle, hgood => by
    obtain ⟨regs', heval, hgood', hout⟩ := h.row first (by omega) regs hgood
    have ih := runFrom_eq h hgive (show first + 1 + count ≤ rows by omega) hgood'
    rw [runFrom, heval, List.range'_succ, List.mapM_cons]
    simp only [hgive, hout, ih]

theorem runBlock_eq (h : Steady p src good outs rows)
    {give : List Float → Nat → Except RowFault (List Float)}
    (hgive : ∀ regs r, epilogue regs r = give (p.outputValues regs) r) {first count : Nat}
    (hle : first + count ≤ rows) : runBlock p src epilogue first count =
      (List.range' first count).mapM fun r => give (outs r) r :=
  runFrom_eq h hgive hle h.init

/-- The blocks of a batch follow each other without a gap. -/
theorem mapM_cut (f : Nat → Except RowFault (List Float)) (size : Nat) : ∀ (fuel first rows : Nat),
    rows ≤ fuel → ((cut size fuel first rows).mapM fun (first, n) =>
      (List.range' first n).mapM f).map List.flatten = (List.range' first rows).mapM f
  | 0, first, rows, h => by
    obtain rfl : rows = 0 := by omega
    rfl
  | fuel + 1, first, 0, _ => rfl
  | fuel + 1, first, rows + 1, h => by
    have hn : min (max size 1) (rows + 1) ≤ rows + 1 ∧ 0 < min (max size 1) (rows + 1) := by omega
    have hcut : cut size (fuel + 1) first (rows + 1) = (first, min (max size 1) (rows + 1)) ::
        cut size fuel (first + min (max size 1) (rows + 1))
          (rows + 1 - min (max size 1) (rows + 1)) := rfl
    generalize min (max size 1) (rows + 1) = n at hn hcut
    have ih := mapM_cut f size fuel (first + n) (rows + 1 - n) (by omega)
    have hsplit : List.range' first (rows + 1) =
        List.range' first n ++ List.range' (first + n) (rows + 1 - n) := by
      rw [List.range'_append_1]
      congr 1
      omega
    rw [hcut, List.mapM_cons, hsplit, List.mapM_append, ← ih]
    dsimp only
    rcases (List.range' first n).mapM f with e | xs
    · rfl
    · simp only [bind, Except.bind]
      generalize List.mapM (m := Except RowFault) _ (cut size fuel (first + n) (rows + 1 - n)) = parts
      rcases parts with e | parts <;> rfl

theorem le_of_mem_cut (size : Nat) : ∀ (fuel first rows : Nat),
    ∀ x ∈ cut size fuel first rows, x.1 + x.2 ≤ first + rows
  | 0, _, _ | _ + 1, _, 0 => by simp [cut]
  | fuel + 1, first, rows + 1 => by
    intro x hx
    simp only [cut, List.mem_cons] at hx
    rcases hx with rfl | hx
    · exact Nat.add_le_add_left (min_le_right _ _) first
    · have := le_of_mem_cut size fuel _ _ x hx
      omega

theorem le_of_mem_blocks (b : Blocks) (rows : Nat) : ∀ x ∈ blocks b rows, x.1 + x.2 ≤ rows := by
  intro x hx
  rw [blocks] at hx
  split_ifs at hx
  · simpa using le_of_mem_cut b.minRows rows 0 rows x hx
  · obtain rfl := List.mem_singleton.1 hx
    simp

/-- A batch whose blocks give a result for each of their rows gives one for each row. -/
theorem run_eq_mapM {f : Nat → Except RowFault (List Float)}
    (h : ∀ {first count : Nat}, first + count ≤ rows →
      runBlock p src epilogue first count = (List.range' first count).mapM f) (b : Blocks) :
    run p src b rows epilogue = (List.range rows).mapM f := by
  have hrun : run p src b rows epilogue =
      ((blocks b rows).mapM fun x => (List.range' x.1 x.2).mapM f).map List.flatten := by
    rw [← mapM_congr fun x hx => h (le_of_mem_blocks b rows x hx)]
    show (((blocks b rows).mapM fun x => runBlock p src epilogue x.1 x.2) >>= fun parts =>
      pure parts.flatten) = _
    generalize List.mapM (m := Except RowFault) _ (blocks b rows) = parts
    rcases parts with e | parts <;> rfl
  rw [hrun, blocks, List.range_eq_range']
  split_ifs
  · exact mapM_cut _ b.minRows rows 0 rows le_rfl
  · rw [List.mapM_cons, List.mapM_nil]
    dsimp only
    generalize List.mapM (m := Except RowFault) _ (List.range' 0 rows) = part
    rcases part with e | part
    · rfl
    · exact congrArg Except.ok (List.append_nil part)

/-- A batch gives for each row what its outputs lead to, in whatever blocks it is run. -/
theorem run_eq (h : Steady p src good outs rows)
    (give : List Float → Nat → Except RowFault (List Float))
    (hgive : ∀ regs r, epilogue regs r = give (p.outputValues regs) r) (b : Blocks) :
    run p src b rows epilogue = (List.range rows).mapM fun r => give (outs r) r :=
  run_eq_mapM (runBlock_eq h hgive) b

end Batch

/-- The program of an analysis can be run on every row for which its slots have values. -/
theorem Analysis.Written.steady {a : Analysis} {mode : Mode} {order : List SlotId}
    {slots : List Slot} {src : Sources} {outs : Nat → List Float} {rows : Nat}
    (h : a.Written mode order slots) (hg : a.slots.Sound) (hn : a.Numbered slots)
    (hv : ∀ r < rows, ∃ vals, SlotGraph.Valued src r a.slots vals ∧
      outs r = a.outputs.map fun i => vals.getD i 0.0) :
    Batch.Steady (a.program mode order slots) src (a.slots.Ready order) outs rows := by
  refine ⟨h.ready_init, fun r hr regs hready => ?_⟩
  obtain ⟨vals, hvals, hout⟩ := hv r hr
  rw [hout]
  exact h.evalRow hg hn hvals hready

end LinkedTables
