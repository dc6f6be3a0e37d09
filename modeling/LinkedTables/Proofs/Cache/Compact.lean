import LinkedTables.Proofs.Analysis.Sharing
import LinkedTables.Proofs.Cache.Bookkeeping

/-!
# Nothing in a program is written twice or in vain

No two instructions of a program that is made of an analysis are the same, every one is needed for an
output, and none could have been carried out in advance (`Program.Compact`). For slots this holds as
soon as they were made by calls. Instructions are slots of an order that holds what the outputs need,
under numbers that tell slots apart (`Analysis.Planned.compact`).

So it is with every kernel that a compiler without a directory answers, whatever it was asked before
(`Compiler.answer_compact`).
-/

namespace LinkedTables

namespace Program

/-- Register `b` is an operand of the instruction with the number `a`. -/
def Reads (p : Program) (a b : Nat) : Prop :=
  ∃ instr, p.code[a]? = some instr ∧ ∃ x ∈ instr.reads, x.toNat = b

structure Compact (p : Program) : Prop where
  /-- No two instructions have the same opcode, operands and immediate. -/
  apart : (p.code.toList.map Instr.tapeRow).Nodup
  /-- Every register is one of the outputs, or an operand on the way to one of them. -/
  live : ∀ r < p.size, ∃ o ∈ p.outputs, Relation.ReflTransGen p.Reads o.toNat r
  /-- An operation that is pure has an operand that is no constant. -/
  unfolded : ∀ instr ∈ p.code, instr.opcode.isPure = true →
    ∃ x ∈ instr.reads, ∀ bits, p.code[x.toNat]? ≠ some (.const bits)
  /-- A variable has one column, -/
  columns : (p.layout.columns.map fun c => (c.table, c.var)).Nodup
  /-- a link has one label table, -/
  tables : (p.layout.tables.map TableRef.link).Nodup
  /-- and a column is loaded from by one instruction. -/
  loads : ∀ (i j : Nat) (c : UInt32) (x y : Reg), p.code[i]? = some (.load c x) →
    p.code[j]? = some (.load c y) → i = j

end Program

namespace Analysis

variable {g : LinkGraph} {set : ExprSet} {a : Analysis} {mode : Mode} {sc : Scope}
  {sources : List Source} {plans : List Plan} {order : List SlotId} {slots : List Slot}

theorem code_getElem? (r : Nat) : (a.program mode order slots).code[r]? =
    (slots[r]?).map (Slot.instr fun j => order.idxOf j) := by
  simp [program]

/-- What stands in an order of slots that are all different stands there once. -/
theorem Written.place_inj (h : a.Written mode order slots) (hi : a.slots.Interned) {r r' : Nat}
    {s : Slot} (hs : slots[r]? = some s) (hs' : slots[r']? = some s) : r = r' := by
  obtain ⟨hr, rfl⟩ := List.getElem?_eq_some_iff.1 hs
  obtain ⟨hr', heq⟩ := List.getElem?_eq_some_iff.1 hs'
  have hlength := h.inOrder.length_eq
  have hslot := h.inOrder.get (hlength ▸ hr) hr
  have hslot' := h.inOrder.get (hlength ▸ hr') hr'
  rw [List.get_eq_getElem, List.get_eq_getElem, ← Array.getElem?_toList] at hslot hslot'
  rw [heq, ← hslot] at hslot'
  have hsame := (List.getElem?_inj (List.getElem?_eq_some_iff.1 hslot).1 hi.nodup).1 hslot'.symm
  exact (h.placed.nodup.getElem_inj_iff).1 hsame

/-- Slots in the order with the same instruction are the same slot. -/
theorem Written.eq_of_instr (h : a.Written mode order slots) (hg : a.slots.Sound)
    (hi : a.slots.Interned) (hn : a.Numbered slots) {r r' : Nat} {s t : Slot}
    (hs : slots[r]? = some s) (ht : slots[r']? = some t)
    (heq : (s.instr fun j => order.idxOf j) = t.instr fun j => order.idxOf j) : s = t := by
  have hmem : ∀ {r : Nat} {s : Slot}, slots[r]? = some s → s ∈ a.slots.slots ∧
      (s.args.map fun j => order.idxOf j).map (fun r => order.getD r 0) = s.args := by
    intro r s hs
    obtain ⟨i, hi, hget⟩ := exists_of_mem_right h.inOrder s (List.mem_of_getElem? hs)
    refine ⟨Array.mem_of_getElem? hget, ?_⟩
    rw [List.map_map]
    refine (List.map_congr_left fun j hj => ?_).trans (List.map_id _)
    have hlt := List.idxOf_lt_length_of_mem (h.placed.args_mem hg hi hget j hj)
    simp [hlt]
  have hrs := (h.renames hg hn hs).1
  have hrt := (h.renames hg hn ht).1
  have hop : s.op = t.op := by rw [← hrs.opcode, heq, hrt.opcode]
  have hargs : s.args = t.args := by
    rw [← (hmem hs).2, ← (hmem ht).2, ← hrs.reads, heq, hrt.reads]
  have hoperand : s.operand = t.operand := by
    by_cases hhas : s.op.HasOperand
    · rw [← hrs.operand hhas, heq, hrt.operand (hop ▸ hhas)]
    · rw [hi.plain s (hmem hs).1 hhas, hi.plain t (hmem ht).1 (hop ▸ hhas)]
  obtain ⟨op, args, operand⟩ := s
  simp only at hop hargs hoperand
  rw [hop, hargs, hoperand]

/-- An instruction reads the registers of the slots that its slot reads. -/
theorem Written.reads_of_parents (h : a.Written mode order slots) (hg : a.slots.Sound)
    (hn : a.Numbered slots) {i j : SlotId} (hi : i ∈ order) (hj : j ∈ a.slots.parents i) :
    (a.program mode order slots).Reads (order.idxOf i) (order.idxOf j) := by
  obtain ⟨s, hget⟩ := SlotGraph.exists_slot (h.placed.lt i hi)
  have hs := h.getElem?_idxOf hi hget
  rw [SlotGraph.parents_eq hg hget] at hj
  refine ⟨_, by rw [code_getElem?, hs]; rfl, ?_⟩
  have hreads := List.mem_map_of_mem (f := fun j => order.idxOf j) hj
  rw [← (h.renames hg hn hs).1.reads] at hreads
  exact List.mem_map.1 hreads

theorem Written.live (h : a.Written mode order slots) (hg : a.slots.Sound) (hn : a.Numbered slots) :
    ∀ r < (a.program mode order slots).size, ∃ o ∈ (a.program mode order slots).outputs,
      Relation.ReflTransGen (a.program mode order slots).Reads o.toNat r := by
  intro r hr
  rw [h.program_size] at hr
  obtain ⟨o, ho, hneeds⟩ := (h.needed order[r]).1 (List.getElem_mem hr)
  have hwalk : ∀ i, Relation.ReflTransGen (fun a' b => b ∈ a.slots.parents a') o i →
      Relation.ReflTransGen (a.program mode order slots).Reads (order.idxOf o) (order.idxOf i) := by
    intro i hi
    induction hi with
    | refl => exact .refl
    | @tail i j hi hj ih =>
      exact ih.tail (h.reads_of_parents hg hn ((h.needed i).2 ⟨o, ho, hi⟩) hj)
  have hout := hn.idxOf_lt h (h.covers o ho)
  refine ⟨_, List.mem_map_of_mem ho, ?_⟩
  rw [UInt32.toNat_ofNat_of_lt' hout, ← h.placed.nodup.idxOf_getElem r hr]
  exact hwalk _ hneeds

theorem Written.unfolded (h : a.Written mode order slots) (hg : a.slots.Sound)
    (hi : a.slots.Interned) (hn : a.Numbered slots) : ∀ instr ∈ (a.program mode order slots).code,
    instr.opcode.isPure = true → ∃ x ∈ instr.reads,
      ∀ bits, (a.program mode order slots).code[x.toNat]? ≠ some (.const bits) := by
  intro instr hinstr hpure
  obtain ⟨s, hs, rfl⟩ := List.mem_map.1 (List.mem_toArray.1 hinstr)
  obtain ⟨r, hr⟩ := List.mem_iff_getElem?.1 hs
  obtain ⟨i, hiorder, hget⟩ := exists_of_mem_right h.inOrder s hs
  have hrenames := (h.renames hg hn hr).1
  rw [hrenames.opcode] at hpure
  obtain ⟨j, hj, hjlt, hconst⟩ := hi.unfolded s (Array.mem_of_getElem? hget) hpure
  have hjorder := h.placed.args_mem hg hiorder hget j hj
  have hreads := List.mem_map_of_mem (f := fun j => order.idxOf j) hj
  rw [← hrenames.reads] at hreads
  obtain ⟨x, hx, hxj⟩ := List.mem_map.1 hreads
  refine ⟨x, hx, fun bits hbits => ?_⟩
  obtain ⟨t, ht⟩ := SlotGraph.exists_slot hjlt
  have hslot := h.getElem?_idxOf hjorder ht
  rw [code_getElem?, hxj, hslot, Option.map_some, Option.some.injEq] at hbits
  have hop := (h.renames hg hn hslot).1.opcode
  rw [hbits] at hop
  replace hop : t.op = .const := hop.symm
  rw [SlotGraph.constBits?, ht, Option.bind_some, if_pos hop] at hconst
  cases hconst

theorem Written.apart (h : a.Written mode order slots) (hg : a.slots.Sound)
    (hi : a.slots.Interned) (hn : a.Numbered slots) :
    ((a.program mode order slots).code.toList.map Instr.tapeRow).Nodup := by
  have hcode : (a.program mode order slots).code.toList.map Instr.tapeRow =
      slots.map fun s => (s.instr fun j => order.idxOf j).tapeRow := by
    simp [program, Function.comp_def]
  rw [hcode, List.nodup_iff_injective_get]
  intro r r' heq
  simp only [List.get_eq_getElem, List.getElem_map] at heq
  have hr := List.getElem?_eq_getElem (show (r : Nat) < slots.length by simpa using r.isLt)
  have hr' := List.getElem?_eq_getElem (show (r' : Nat) < slots.length by simpa using r'.isLt)
  have hinstr := congrArg TapeRow.instr heq
  rw [Instr.instr_tapeRow, Instr.instr_tapeRow] at hinstr
  have hsame := h.eq_of_instr hg hi hn hr hr' hinstr
  exact Fin.ext (h.place_inj hi hr (hsame ▸ hr'))

/-- A load is made of a slot that loads from the column. -/
theorem Written.slot_of_load (h : a.Written mode order slots) (hg : a.slots.Sound)
    (hn : a.Numbered slots) {r : Nat} {c : UInt32} {x : Reg}
    (hr : (a.program mode order slots).code[r]? = some (.load c x)) :
    ∃ s, slots[r]? = some s ∧ s.op = .load ∧ s.operand = c.toUInt64 := by
  rw [code_getElem?] at hr
  obtain ⟨s, hs, hload⟩ := Option.map_eq_some_iff.1 hr
  have hrenames := (h.renames hg hn hs).1
  rw [hload] at hrenames
  have hop : s.op = .load := hrenames.opcode.symm
  exact ⟨s, hs, hop, (hrenames.operand (by simp [hop])).symm⟩

/-- The program of an analysis is compact. -/
theorem Planned.compact (h : a.Planned g set sc sources plans) (hg : g.Built)
    (hw : a.Written mode order slots) (hn : a.Numbered slots) :
    (a.program mode order slots).Compact := by
  obtain ⟨hsound, -⟩ := h.sound
  obtain ⟨lead, hshared, hdistinct⟩ := h.shared hg
  have hslots : (Plan.emitAll plans .empty).2.slots = a.slots := h.slots.symm
  have hcolumns : (Plan.emitAll plans .empty).2.columns = a.layout.columns := by rw [h.layout]; rfl
  have htables : (Plan.emitAll plans .empty).2.tables = a.layout.tables := by rw [h.layout]; rfl
  have hinterned : a.slots.Interned := hslots ▸ hshared.made.interned SlotGraph.interned_empty
  constructor
  case apart => exact hw.apart hsound hinterned hn
  case live => exact hw.live hsound hn
  case unfolded => exact hw.unfolded hsound hinterned hn
  case columns => exact hcolumns ▸ hdistinct.columns
  case tables => exact htables ▸ hdistinct.tables
  case loads =>
    intro i j c x y hi hj
    obtain ⟨s, hs, hsop, hsoperand⟩ := hw.slot_of_load hsound hn hi
    obtain ⟨t, ht, htop, htoperand⟩ := hw.slot_of_load hsound hn hj
    have hgathers : ∀ {r : Nat} {s : Slot}, slots[r]? = some s → s.op = .load →
        (Plan.emitAll plans .empty).2.Gathers g a.root lead s := by
      intro r s hs hop
      obtain ⟨k, -, hget⟩ := exists_of_mem_right hw.inOrder s (List.mem_of_getElem? hs)
      exact hshared.gathers s (hslots ▸ Array.mem_of_getElem? hget) hop
    have hwords : (Plan.emitAll plans .empty).2.columns.length ≤ 2 ^ 32 := by
      rw [hcolumns]
      by_contra hlt
      exact lt_irrefl _ (hn.columns (2 ^ 32) (not_le.1 hlt))
    have hoperand := hsoperand.trans htoperand.symm
    have hargs := (hgathers hs hsop).args_eq (hgathers ht htop) hwords hoperand
    have hsame : s = t := by
      obtain ⟨op, args, operand⟩ := s
      simp only at hsop hargs hoperand
      rw [hsop, hargs, hoperand, ← htop]
    exact hw.place_inj hinterned hs (hsame ▸ ht)

end Analysis

/-- The program is compact, and every variable that is referred to has one column in it. -/
def Artifact.Compact (artifact : Artifact) : Prop :=
  artifact.program.Compact ∧ ∀ ref ∈ artifact.request.references, ∃! n : Nat, ∃ c : ColumnRef,
    artifact.program.layout.columns[n]? = some c ∧ c.table = ref.table ∧ c.var = ref.var

namespace Compiler

variable {g : LinkGraph} {set : ExprSet} {a : Analysis} {mode : Mode} {now : UInt64}
  {artifact : Artifact} {c : Compiler}

/-- What is generated remembers its request. -/
theorem request_of_generate (hgen : generate a mode now = .ok artifact) :
    artifact.request = Request.ofAnalysis a mode := by
  unfold generate at hgen
  split at hgen
  · cases hgen
  split at hgen
  · cases hgen
  cases hgen
  rfl

theorem generate_compact (hg : g.Built) (ha : analyze g set = .ok a)
    (hgen : generate a mode now = .ok artifact) : artifact.Compact := by
  obtain ⟨-, sc, sources, plans, h⟩ := Analysis.analyze_ok ha
  obtain ⟨-, order, slots, hw, hn, hprogram⟩ := h.of_generate hg hgen
  have hcompact := h.compact hg hw hn
  rw [Artifact.Compact, hprogram, request_of_generate hgen]
  refine ⟨hcompact, fun ref href => ?_⟩
  obtain ⟨dims, hmem⟩ := h.exists_column hg ha ref href
  obtain ⟨n, hcolumn⟩ := List.mem_iff_getElem?.1 hmem
  refine ⟨n, ⟨_, hcolumn, rfl, rfl⟩, ?_⟩
  rintro m ⟨c, hc, htable, hvar⟩
  have hkey : ∀ {n : Nat} {c : ColumnRef}, a.layout.columns[n]? = some c →
      (a.layout.columns.map fun c => (c.table, c.var))[n]? = some (c.table, c.var) :=
    fun hc => by rw [List.getElem?_map, hc, Option.map_some]
  have hm := hkey hc
  rw [htable, hvar] at hm
  exact (List.getElem?_inj (List.getElem?_eq_some_iff.1 hm).1 hcompact.columns).1
    (hm.trans (hkey hcolumn).symm)

/-- A compiler without a directory does not look into one. -/
theorem compile_of_memory (hc : c.usesDirectory = false) (dir : Directory) (now : UInt64)
    (g : LinkGraph) (set : ExprSet) (mode : Mode) :
    (c.compile dir now g set mode).answer = (c.compile .absent now g set mode).answer ∧
      (c.compile dir now g set mode).compiler = (c.compile .absent now g set mode).compiler := by
  unfold compile
  rcases analyze g set with f | a
  · exact ⟨rfl, rfl⟩
  · have hstored : ∀ dir key, c.stored? dir key = none := fun dir key => by
      rw [stored?, hc, if_neg Bool.false_ne_true]
    simp only [answer, hstored]
    rcases c.table.lookup (Request.ofAnalysis a mode).digest with _ | artifact
    · rcases generate a mode now with e | artifact <;> exact ⟨rfl, rfl⟩
    · exact ⟨rfl, rfl⟩

theorem reply_compact (hc : c.usesDirectory = false)
    (htable : c.Remembers fun _ artifact => artifact.Compact) (x : Asked) :
    (c.reply x).compiler.Remembers (fun _ artifact => artifact.Compact) ∧
      Justified (fun _ artifact => artifact.Compact) x.call.graph x.call.set x.call.mode
        (c.reply x).answer := by
  obtain ⟨hanswer, hcompiler⟩ :=
    compile_of_memory hc x.directory x.now x.call.graph x.call.set x.call.mode
  have hnew : ∀ a artifact, analyze x.call.graph x.call.set = .ok a →
      generate a x.call.mode x.now = .ok artifact → artifact.Compact :=
    fun a artifact ha hgen => generate_compact x.call.built ha hgen
  obtain ⟨hremembers, -, hjustified⟩ :=
    compile_keeps x.call.built htable Directory.yields_absent hnew
  exact ⟨by rwa [reply, hcompiler], by rwa [reply, hanswer]⟩

theorem after_compact (s : Settings) : ∀ asked : List Asked,
    ((fresh s).after asked).Remembers fun _ artifact => artifact.Compact
  | [] => new_remembers _ _
  | x :: earlier =>
    (reply_compact (after_usesDirectory (fresh s) earlier) (after_compact s earlier) x).1

/-- Whatever a compiler without a directory was asked before, what it answers is compact: no instruction
is there twice, none is dead, none is a pure operation on constants alone, and every variable that is
referred to is loaded from one column by one instruction. -/
theorem answer_compact {s : Settings} (asked : List Asked) (x : Asked) {k : Kernel}
    (hk : (((fresh s).after asked).reply x).answer = .ok k) : k.program.Compact ∧
      ∀ ref ∈ k.artifact.request.references, ∃! n : Nat, ∃ c : ColumnRef,
        k.program.layout.columns[n]? = some c ∧ c.table = ref.table ∧ c.var = ref.var := by
  have hjustified := (reply_compact (after_usesDirectory (fresh s) asked) (after_compact s asked) x).2
  rw [hk] at hjustified
  cases hjustified with
  | answered _ h _ => exact h

/-- The first answer for the sample, which refers to the times between zones and to the first zone. -/
theorem answer_compact_sample : ∃ k,
    (((fresh .default).after []).reply ⟨Sample.firstCall, .absent, 0⟩).answer = .ok k ∧
    k.program.Compact ∧ k.artifact.request.references.length = 2 := by
  obtain ⟨artifact, hgen⟩ := Sample.exists_generated
  have hanswer := fresh_compile .default .absent 0 Sample.graph Sample.set .dot
  rw [Sample.analyze_graph] at hanswer
  simp only [hgen] at hanswer
  have hk : (((fresh .default).after []).reply ⟨Sample.firstCall, .absent, 0⟩).answer =
      .ok ((fresh .default).kernel artifact (Sample.analysisNamed "cost").names) := hanswer
  refine ⟨_, hk, (answer_compact [] _ hk).1, ?_⟩
  rw [kernel, request_of_generate hgen]
  rfl

end Compiler

end LinkedTables
