import LinkedTables.Program.Tape
import LinkedTables.Proofs.Program.Sound
import LinkedTables.Proofs.Run.Products
import LinkedTables.Proofs.Run.Rows

/-!
# The rows of a sound program do not depend on each other

An instruction of a sound program reads constants and registers that were written before it in the
same row. So registers that hold the constants are as good as fresh ones: whatever stands in the
others, a row ends in the same registers (`Program.evalRow_eq`), and they hold the constants again.
What a sound program reads is there, but for the positions that it computes; if these are in range,
the row has a value (`Program.exists_evalRow`).

Blocks of rows work in scratch memory that they hand on from row to row. A row leaves something in it,
but overwrites what it finds before it reads it (`Ending.finish_eq`). So a batch gives the same in
whatever blocks it is run (`Tape.rows_apart`).
-/

namespace LinkedTables

variable {src : Sources} {row : Nat}

/-- A position that the instruction reads at lies in the column or the label table that is read. -/
def Instr.inRange (src : Sources) (regs : Array Float) : Instr → Bool
  | .load c r =>
    match src.columns[c.toNat]?, regs[r.toNat]? with
    | some column, some x => Number.toIndex x < column.size
    | _, _ => true
  | .label t r =>
    match src.tables[t.toNat]?, regs[r.toNat]? with
    | some table, some x => Number.toIndex x < table.size
    | _, _ => true
  | _ => true

namespace Program

/-- All positions that the instructions from number `i` on read at are in range. -/
def codeInRange (src : Sources) (row : Nat) : Nat → List Instr → Array Float → Bool
  | _, [], _ => true
  | i, instr :: rest, regs =>
    instr.inRange src regs &&
      match stepInstr src row i instr regs with
      | some regs' => codeInRange src row (i + 1) rest regs'
      | none => true

/-- All positions of a row are in range. -/
def rowInRange (p : Program) (src : Sources) (row : Nat) : Bool :=
  codeInRange src row 0 p.code.toList p.initRegisters

section Ready

variable {regs : Array Float} {instr : Instr} {p : Program}

/-- Registers as good as fresh ones. -/
structure Ready (p : Program) (regs : Array Float) : Prop where
  size : regs.size = p.size
  constants : ∀ (i : Nat) (bits : UInt64), p.code[i]? = some (.const bits) →
    regs[i]? = some (Float.ofBits bits)

/-- The registers with lower numbers hold the same. -/
def AgreeBelow (n : Nat) (regs regs' : Array Float) : Prop := ∀ i < n, regs[i]? = regs'[i]?

theorem ready_init (p : Program) : p.Ready p.initRegisters := by
  refine ⟨by simp [initRegisters, size], fun i bits h => ?_⟩
  simp [initRegisters, h]

theorem evalInstr_congr {regs' : Array Float}
    (h : ∀ r ∈ instr.reads, regs[r.toNat]? = regs'[r.toNat]?) :
    evalInstr src row regs instr = evalInstr src row regs' instr := by
  cases instr <;> simp_all [evalInstr, Instr.reads]

theorem stepInstr_eq_map {i : Nat} (h : ∀ bits, instr ≠ .const bits) :
    stepInstr src row i instr regs =
      (evalInstr src row regs instr).map fun v => regs.setIfInBounds i v := by
  cases instr with
  | const bits => exact absurd rfl (h bits)
  | _ => rfl

theorem Ready.step {i : Nat} {regs' : Array Float} (h : p.Ready regs)
    (hinstr : p.code[i]? = some instr) (hstep : stepInstr src row i instr regs = some regs') :
    p.Ready regs' := by
  by_cases hconst : ∃ bits, instr = .const bits
  · obtain ⟨bits, rfl⟩ := hconst
    cases hstep
    exact h
  · rw [stepInstr_eq_map (by simpa using hconst), Option.map_eq_some_iff] at hstep
    obtain ⟨v, -, rfl⟩ := hstep
    refine ⟨by simpa using h.size, fun j bits hj => ?_⟩
    have hne : i ≠ j := by
      rintro rfl
      exact hconst ⟨bits, Option.some.inj (hinstr.symm.trans hj)⟩
    rw [Array.getElem?_setIfInBounds_ne hne, h.constants j bits hj]

/-- One instruction gives the same on registers that agree below it. -/
theorem Ready.step_agrees {i : Nat} {regs₂ : Array Float} (h : p.Ready regs) (h₂ : p.Ready regs₂)
    (hinstr : p.code[i]? = some instr) (hcheck : checkInstr p.layout i instr = .ok ())
    (hagree : AgreeBelow i regs regs₂) :
    (stepInstr src row i instr regs = none ∧ stepInstr src row i instr regs₂ = none) ∨
    ∃ out out₂, stepInstr src row i instr regs = some out ∧
      stepInstr src row i instr regs₂ = some out₂ ∧ AgreeBelow (i + 1) out out₂ := by
  by_cases hconst : ∃ bits, instr = .const bits
  · -- a constant is not written again: both hold it from the start
    obtain ⟨bits, rfl⟩ := hconst
    refine Or.inr ⟨regs, regs₂, rfl, rfl, fun j hj => ?_⟩
    rcases Nat.lt_succ_iff_lt_or_eq.1 hj with hj | rfl
    · exact hagree j hj
    · rw [h.constants j bits hinstr, h₂.constants j bits hinstr]
  · have heval : evalInstr src row regs instr = evalInstr src row regs₂ instr :=
      evalInstr_congr fun r hr => hagree _ ((of_checkInstr hcheck).2 r hr)
    have hsize : i < p.size := (Array.getElem?_eq_some_iff.1 hinstr).1
    rw [stepInstr_eq_map (by simpa using hconst), stepInstr_eq_map (by simpa using hconst), ← heval]
    rcases evalInstr src row regs instr with _ | v
    · exact Or.inl ⟨rfl, rfl⟩
    · refine Or.inr ⟨_, _, rfl, rfl, fun j hj => ?_⟩
      rcases Nat.lt_succ_iff_lt_or_eq.1 hj with hj | rfl
      · rw [Array.getElem?_setIfInBounds_ne hj.ne', Array.getElem?_setIfInBounds_ne hj.ne']
        exact hagree j hj
      · rw [Array.getElem?_setIfInBounds_self_of_lt (h.size ▸ hsize),
          Array.getElem?_setIfInBounds_self_of_lt (h₂.size ▸ hsize)]

/-- The instructions from one on end in the same registers. -/
theorem Ready.evalCode_eq : ∀ {before rest : List Instr} {regs regs₂ : Array Float},
    p.code.toList = before ++ rest → checkCode p.layout before.length rest = .ok () →
    p.Ready regs → p.Ready regs₂ → AgreeBelow before.length regs regs₂ →
    evalCode src row before.length rest regs = evalCode src row before.length rest regs₂
  | before, [], regs, regs₂, hcode, _, h, h₂, hagree => by
    -- no instruction is left, so the registers below are all of them
    have hsize : p.size = before.length := by
      simpa [Program.size] using congrArg List.length hcode
    have heq : regs = regs₂ := Array.ext_getElem? fun i => by
      by_cases hi : i < before.length
      · exact hagree i hi
      · rw [Array.getElem?_eq_none (by rw [h.size]; omega),
          Array.getElem?_eq_none (by rw [h₂.size]; omega)]
    rw [heq]
  | before, instr :: rest, regs, regs₂, hcode, hcheck, h, h₂, hagree => by
    have hinstr : p.code[before.length]? = some instr := by
      rw [← Array.getElem?_toList, hcode]
      simp
    obtain ⟨hfirst, hrest⟩ := of_checkCode_cons hcheck
    rw [evalCode, evalCode]
    rcases h.step_agrees h₂ hinstr hfirst hagree with
      ⟨hnone, hnone₂⟩ | ⟨out, out₂, hout, hout₂, hnext⟩
    · rw [hnone, hnone₂]
    · rw [hout, hout₂]
      have hlength : (before ++ [instr]).length = before.length + 1 := by simp
      have ih := @evalCode_eq (before ++ [instr]) rest _ _
        (by simpa using hcode) (by rwa [hlength]) (h.step hinstr hout) (h₂.step hinstr hout₂)
        (by rwa [hlength])
      simpa [hlength] using ih

theorem Ready.evalCode_ready : ∀ {before rest : List Instr} {regs regs' : Array Float},
    p.code.toList = before ++ rest → p.Ready regs →
    evalCode src row before.length rest regs = some regs' → p.Ready regs'
  | _, [], _, _, _, h, heval => by
    cases heval
    exact h
  | before, instr :: rest, regs, regs', hcode, h, heval => by
    have hinstr : p.code[before.length]? = some instr := by
      rw [← Array.getElem?_toList, hcode]
      simp
    obtain ⟨next, hstep, hrest⟩ := Option.bind_eq_some_iff.1 heval
    exact @evalCode_ready (before ++ [instr]) rest _ _ (by simpa using hcode)
      (h.step hinstr hstep) (by simpa using hrest)

end Ready

section Rows

variable {p : Program} {regs regs' : Array Float}

/-- What a row leaves in the registers does not depend on what it found there. -/
theorem Ready.evalRow_eq (hp : p.verify = .ok ()) (h : p.Ready regs) :
    p.evalRow src row regs = p.evalRow src row p.initRegisters :=
  evalCode_eq (List.nil_append _).symm (of_verify hp).1 h p.ready_init (by simp [AgreeBelow])

theorem Ready.evalRow_ready (h : p.Ready regs) (heval : p.evalRow src row regs = some regs') :
    p.Ready regs' :=
  evalCode_ready (List.nil_append _).symm h heval

theorem Ready.foldlM_ready : ∀ {rows : List Nat} {regs : Array Float}, p.Ready regs →
    rows.foldlM (fun regs r => p.evalRow src r regs) regs = some regs' → p.Ready regs'
  | [], _, h, hrows => by
    cases hrows
    exact h
  | r :: rows, _, h, hrows => by
    rw [List.foldlM_cons] at hrows
    obtain ⟨next, hstep, hrest⟩ := Option.bind_eq_some_iff.1 hrows
    exact foldlM_ready (h.evalRow_ready hstep) hrest

theorem exists_evalInstr (row : Nat) {i : Nat} {instr : Instr}
    (hcheck : checkInstr p.layout i instr = .ok ())
    (hcolumns : src.columns.size = p.layout.columns.length)
    (htables : src.tables.size = p.layout.tables.length) (hsize : i ≤ regs.size)
    (hrange : instr.inRange src regs = true) : ∃ x, evalInstr src row regs instr = some x := by
  obtain ⟨hsource, hreads⟩ := of_checkInstr hcheck
  have hreg : ∀ r ∈ instr.reads, ∃ x, regs[r.toNat]? = some x := fun r hr =>
    ⟨_, Array.getElem?_eq_getElem ((hreads r hr).trans_le hsize)⟩
  cases instr with
  | row | const => exact ⟨_, rfl⟩
  | load c r =>
    obtain ⟨x, hx⟩ := hreg r (by simp [Instr.reads])
    have hc : c.toNat < src.columns.size := by
      rw [checkSource] at hsource
      split_ifs at hsource with hc
      rwa [hcolumns]
    simp only [Instr.inRange, Array.getElem?_eq_getElem hc, hx, decide_eq_true_eq] at hrange
    simp [evalInstr, hx, hc, hrange]
  | label t r =>
    obtain ⟨x, hx⟩ := hreg r (by simp [Instr.reads])
    have ht : t.toNat < src.tables.size := by
      rw [checkSource] at hsource
      split_ifs at hsource with ht
      rwa [htables]
    simp only [Instr.inRange, Array.getElem?_eq_getElem ht, hx, decide_eq_true_eq] at hrange
    simp [evalInstr, hx, ht, hrange]
  | stride a b step =>
    obtain ⟨x, hx⟩ := hreg a (by simp [Instr.reads])
    obtain ⟨y, hy⟩ := hreg b (by simp [Instr.reads])
    simp [evalInstr, hx, hy]
  | unary op a =>
    obtain ⟨x, hx⟩ := hreg a (by simp [Instr.reads])
    simp [evalInstr, hx]
  | binary op a b =>
    obtain ⟨x, hx⟩ := hreg a (by simp [Instr.reads])
    obtain ⟨y, hy⟩ := hreg b (by simp [Instr.reads])
    simp [evalInstr, hx, hy]
  | ternary op a b c =>
    obtain ⟨x, hx⟩ := hreg a (by simp [Instr.reads])
    obtain ⟨y, hy⟩ := hreg b (by simp [Instr.reads])
    obtain ⟨z, hz⟩ := hreg c (by simp [Instr.reads])
    simp [evalInstr, hx, hy, hz]

theorem exists_stepInstr {i : Nat} {instr : Instr} {x : Float}
    (h : evalInstr src row regs instr = some x) :
    ∃ regs', stepInstr src row i instr regs = some regs' ∧ regs'.size = regs.size := by
  by_cases hconst : ∃ bits, instr = .const bits
  · obtain ⟨bits, rfl⟩ := hconst
    exact ⟨regs, rfl, rfl⟩
  · exact ⟨_, by rw [stepInstr_eq_map (by simpa using hconst), h]; rfl, by simp⟩

theorem exists_evalCode (hcolumns : src.columns.size = p.layout.columns.length)
    (htables : src.tables.size = p.layout.tables.length) :
    ∀ {i : Nat} {code : List Instr} {regs : Array Float},
      checkCode p.layout i code = .ok () → i + code.length ≤ regs.size →
      codeInRange src row i code regs = true → ∃ regs', evalCode src row i code regs = some regs'
  | _, [], regs, _, _, _ => ⟨regs, rfl⟩
  | i, instr :: code, regs, hcheck, hsize, hrange => by
    obtain ⟨hinstr, hcode⟩ := of_checkCode_cons hcheck
    rw [List.length_cons] at hsize
    simp only [codeInRange, Bool.and_eq_true] at hrange
    obtain ⟨x, hx⟩ := exists_evalInstr row hinstr hcolumns htables (by omega) hrange.1
    obtain ⟨next, hstep, hnext⟩ := exists_stepInstr (i := i) hx
    rw [hstep] at hrange
    obtain ⟨regs', heval⟩ := exists_evalCode hcolumns htables hcode (by omega) hrange.2
    exact ⟨regs', by rw [evalCode, hstep]; exact heval⟩

theorem inRange_of_evalInstr {instr : Instr} {x : Float}
    (h : evalInstr src row regs instr = some x) : instr.inRange src regs = true := by
  cases instr with
  | load c r | label t r =>
    simp only [Instr.inRange]
    split
    · rename_i hdata hx
      simp only [evalInstr, hdata, hx, bind, Option.bind] at h
      by_contra hout
      simp_all
    · rfl
  | _ => rfl

theorem codeInRange_of_evalCode : ∀ {i : Nat} {code : List Instr} {regs regs' : Array Float},
    evalCode src row i code regs = some regs' → codeInRange src row i code regs = true
  | _, [], _, _, _ => rfl
  | i, instr :: code, regs, regs', h => by
    obtain ⟨next, hstep, hrest⟩ := Option.bind_eq_some_iff.1 h
    have hinstr : instr.inRange src regs = true := by
      by_cases hconst : ∃ bits, instr = .const bits
      · obtain ⟨bits, rfl⟩ := hconst
        rfl
      · rw [stepInstr_eq_map (by simpa using hconst), Option.map_eq_some_iff] at hstep
        obtain ⟨x, hx, -⟩ := hstep
        exact inRange_of_evalInstr hx
    simp only [codeInRange, hinstr, hstep, Bool.true_and]
    exact codeInRange_of_evalCode hrest

/-- A row has a value exactly if its positions are in range. -/
theorem exists_evalRow_iff (hp : p.verify = .ok ())
    (hcolumns : src.columns.size = p.layout.columns.length)
    (htables : src.tables.size = p.layout.tables.length) :
    (∃ regs, p.evalRow src row p.initRegisters = some regs) ↔ p.rowInRange src row = true :=
  ⟨fun ⟨_, h⟩ => codeInRange_of_evalCode h, fun hrange =>
    exists_evalCode hcolumns htables (of_verify hp).1 (by simp [initRegisters]) hrange⟩

end Rows

end Program

namespace Batch

/-- What is done with the registers of a row: the values of the outputs, their sums of products, or a
choice. -/
inductive Ending where
  | values
  | products (coef : Matrix)
  | choices (exp : Float → Float) (coef : Matrix) (draws : Array Float)

namespace Ending

def epilogue (p : Program) : Ending → Epilogue
  | values => valueEpilogue p
  | products coef => dotEpilogue p coef
  | choices exp coef draws => choiceEpilogueBy exp p coef draws

/-- The scratch memory that a block starts with; only choices need some. -/
def scratch : Ending → List Float
  | values | products _ => []
  | choices _ coef _ => List.replicate coef.cols 0.0

/-- The end of a row, in scratch memory as the row before left it. A choice adds up the utilities there,
over what the memory holds, and then puts their weights in their place. -/
def finish (p : Program) (memory : List Float) (regs : Array Float) (row : Nat) :
    Ending → Except RowFault (List Float × List Float)
  | values => .ok (memory, p.outputValues regs)
  | products coef => .ok (memory, utilities coef (p.outputValues regs))
  | choices exp coef draws =>
    let utilities := (dotRow coef (p.outputValues regs) memory.toArray).toList
    match Choice.chooseBy exp utilities (draws.getD row 0.0) with
    | some (choice, share) =>
      .ok (utilities.map (Choice.weight exp (Number.greatest utilities)),
        [Number.ofIndex choice, share])
    | none => .error (.noAlternative row)

/-- Whatever a row finds in its scratch memory, it gives what its registers alone lead to, and leaves
as much memory. -/
theorem finish_eq (p : Program) (e : Ending) {memory : List Float}
    (h : memory.length = e.scratch.length) (regs : Array Float) (row : Nat) :
    ∃ memory' : List Float, memory'.length = e.scratch.length ∧
      e.finish p memory regs row = (e.epilogue p regs row).map fun result => (memory', result) := by
  cases e with
  | values => exact ⟨memory, h, rfl⟩
  | products coef => exact ⟨memory, h, rfl⟩
  | choices exp coef draws =>
    have hsums : (dotRow coef (p.outputValues regs) memory.toArray).toList =
        utilities coef (p.outputValues regs) := by
      rw [utilities_eq, dotRow_eq (by simpa [scratch] using h)]
    refine ⟨(utilities coef (p.outputValues regs)).map
      (Choice.weight exp (Number.greatest (utilities coef (p.outputValues regs)))),
      by simp [scratch, utilities_eq], ?_⟩
    simp only [finish, epilogue, choiceEpilogueBy, hsums]
    rcases Choice.chooseBy exp (utilities coef (p.outputValues regs)) (draws.getD row 0.0) with
      _ | ⟨choice, share⟩ <;> rfl

/-- Consecutive rows, the registers and the scratch memory of one being the start of the next. -/
def runFrom (p : Program) (src : Sources) (e : Ending) :
    Nat → Nat → Array Float → List Float → Except RowFault (List (List Float))
  | 0, _, _, _ => .ok []
  | count + 1, row, regs, memory =>
    match p.evalRow src row regs with
    | none => .error (.outOfRange row)
    | some regs' => do
      let (memory', result) ← e.finish p memory regs' row
      let rest ← runFrom p src e count (row + 1) regs' memory'
      return result :: rest

/-- All rows of a batch, each block with registers and scratch memory of its own. -/
def run (p : Program) (src : Sources) (b : Blocks) (rows : Nat) (e : Ending) :
    Except RowFault (List (List Float)) := do
  let parts ← (blocks b rows).mapM fun (first, n) => e.runFrom p src n first p.initRegisters e.scratch
  return parts.flatten

theorem runFrom_eq (p : Program) (src : Sources) (e : Ending) : ∀ (count row : Nat)
    (regs : Array Float) {memory : List Float}, memory.length = e.scratch.length →
    e.runFrom p src count row regs memory = Batch.runFrom p src (e.epilogue p) count row regs
  | 0, _, _, _, _ => rfl
  | count + 1, row, regs, memory, h => by
    rw [runFrom, Batch.runFrom]
    rcases p.evalRow src row regs with _ | regs'
    · rfl
    · obtain ⟨memory', hmemory, hfinish⟩ := e.finish_eq p h regs' row
      simp only [hfinish]
      rcases e.epilogue p regs' row with f | result
      · rfl
      · simp only [Except.map, bind, Except.bind, runFrom_eq p src e count (row + 1) regs' hmemory]

/-- Scratch memory makes no difference to a batch. -/
theorem run_eq (p : Program) (src : Sources) (b : Blocks) (rows : Nat) (e : Ending) :
    e.run p src b rows = Batch.run p src b rows (e.epilogue p) := by
  simp only [run, Batch.run, runBlock, runFrom_eq p src e _ _ _ rfl]

end Ending

section Whole

/-- What a row gives, from fresh registers. -/
def rowResult (p : Program) (src : Sources) (epilogue : Epilogue) (row : Nat) :
    Except RowFault (List Float) :=
  match p.evalRow src row p.initRegisters with
  | none => .error (.outOfRange row)
  | some regs => epilogue regs row

theorem runFrom_eq_mapM {p : Program} (hp : p.verify = .ok ()) {epilogue : Epilogue} :
    ∀ {count first : Nat} {regs : Array Float}, p.Ready regs →
      runFrom p src epilogue count first regs =
        (List.range' first count).mapM (rowResult p src epilogue)
  | 0, _, _, _ => rfl
  | count + 1, first, regs, h => by
    rw [runFrom, List.range'_succ, List.mapM_cons, h.evalRow_eq hp, rowResult]
    rcases heval : p.evalRow src first p.initRegisters with _ | regs'
    · rfl
    · have hready := p.ready_init.evalRow_ready heval
      simp only [runFrom_eq_mapM hp hready]

/-- A batch gives for each row what it gives from fresh registers, in whatever blocks it is run. -/
theorem run_eq_rowResult {p : Program} (hp : p.verify = .ok ()) (src : Sources) (b : Blocks)
    (rows : Nat) (epilogue : Epilogue) :
    run p src b rows epilogue = (List.range rows).mapM (rowResult p src epilogue) :=
  run_eq_mapM (fun _ => runFrom_eq_mapM hp p.ready_init) b

end Whole

end Batch

namespace Tape

theorem length_rows : ∀ {ops : List Opcode} {as bs cs : List UInt32} {is : List UInt64},
    as.length = ops.length → bs.length = ops.length → cs.length = ops.length →
    is.length = ops.length → (rows ops as bs cs is).length = ops.length
  | [], _, _, _, _, _, _, _, _ => rfl
  | _ :: ops, _ :: as, _ :: bs, _ :: cs, _ :: is, ha, hb, hc, hi => by
    simp only [List.length_cons, Nat.add_right_cancel_iff] at ha hb hc hi
    simp only [rows, List.length_cons, length_rows ha hb hc hi]

theorem program_ok {t : Tape} {p : Program} (h : t.program = .ok p) :
    (t.p1.length = t.size ∧ t.p2.length = t.size ∧ t.p3.length = t.size ∧ t.imm.length = t.size) ∧
      p.size = t.size := by
  simp only [program, Bool.and_eq_true, decide_eq_true_eq] at h
  split_ifs at h with hlengths
  cases h
  obtain ⟨⟨⟨h1, h2⟩, h3⟩, himm⟩ := hlengths
  exact ⟨⟨h1, h2, h3, himm⟩, by simp [Program.size, size, length_rows h1 h2 h3 himm]⟩

end Tape

/-- A tape that doubles one column of numbers. -/
def Tape.doubling : Tape :=
  Program.tape {
    mode := .load
    code := #[.const (Float.toBits 2), .row, .load 0 1, .binary .mul 2 0]
    outputs := [3]
    layout := ⟨"trips", [⟨"trips", "home", ["trip"]⟩], [], [], []⟩ }

end LinkedTables
