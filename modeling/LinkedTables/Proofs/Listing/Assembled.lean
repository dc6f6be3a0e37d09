import LinkedTables.Cache.Compiler
import LinkedTables.Proofs.Analysis.Faults
import LinkedTables.Proofs.Expr.Bare
import LinkedTables.Proofs.Links.Sample
import LinkedTables.Proofs.Listing.RoundTrip
import LinkedTables.Proofs.Listing.Written

/-!
# Every analysis is assembled

The program that a listing spells is sound (`Analysis.Written.verify_ok`): its slots stand behind the
slots they read, what they take from the layout is there, and there is an output for every
expression. So the listing is read, and what is read is the program of the slots that the outputs
need, under one renumbering (`Analysis.assembled`). Nothing is left that a compiler could fail at.
-/

namespace LinkedTables

open Text (bound32)

namespace Instr

/-- The bits of a constant, the number of a column or a label table, the step of a stride. -/
def operand : Instr → UInt64
  | const bits => bits
  | load c _ => c.toUInt64
  | label t _ => t.toUInt64
  | stride _ _ step => step
  | _ => 0

/-- The instruction does what a slot does, with the slots that this reads under other numbers. -/
structure Renames (reg : SlotId → Nat) (s : Slot) (i : Instr) : Prop where
  opcode : i.opcode = s.op
  reads : i.reads.map UInt32.toNat = s.args.map reg
  operand : s.op = .const ∨ s.op = .load ∨ s.op = .label ∨ s.op = .stride → i.operand = s.operand

end Instr

theorem UInt64.toUInt64_toUInt32 {n : UInt64} (h : n.toNat < bound32) : n.toUInt32.toUInt64 = n := by
  rw [← UInt64.toNat_inj, UInt32.toNat_toUInt64, UInt64.toNat_toUInt32]
  exact Nat.mod_eq_of_lt h

theorem Slot.instr_renames {reg : SlotId → Nat} {s : Slot} (harity : s.args.length = s.op.arity)
    (hreg : ∀ j ∈ s.args, reg j < bound32)
    (hoperand : s.op = .load ∨ s.op = .label → s.operand.toNat < bound32) :
    (s.instr reg).Renames reg s := by
  have htoNat : ∀ j ∈ s.args, (UInt32.ofNat (reg j)).toNat = reg j := fun j hj =>
    UInt32.toNat_ofNat_of_lt' (hreg j hj)
  obtain ⟨op, args, operand⟩ := s
  rcases op with _ | _ | _ | _ | _ | op | op | op
  · obtain rfl := List.eq_nil_of_length_eq_zero harity
    exact ⟨rfl, rfl, by simp⟩
  · obtain rfl := List.eq_nil_of_length_eq_zero harity
    exact ⟨rfl, rfl, fun _ => rfl⟩
  · obtain ⟨a, rfl⟩ := List.length_eq_one_iff.1 harity
    exact ⟨rfl, by simpa [instr, Instr.reads] using htoNat,
      fun _ => UInt64.toUInt64_toUInt32 (hoperand (Or.inl rfl))⟩
  · obtain ⟨a, rfl⟩ := List.length_eq_one_iff.1 harity
    exact ⟨rfl, by simpa [instr, Instr.reads] using htoNat,
      fun _ => UInt64.toUInt64_toUInt32 (hoperand (Or.inr rfl))⟩
  · obtain ⟨a, b, rfl⟩ := List.length_eq_two.1 harity
    exact ⟨rfl, by simpa [instr, Instr.reads] using htoNat, fun _ => rfl⟩
  · obtain ⟨a, rfl⟩ := List.length_eq_one_iff.1 harity
    exact ⟨rfl, by simpa [instr, Instr.reads] using htoNat, by simp⟩
  · obtain ⟨a, b, rfl⟩ := List.length_eq_two.1 harity
    exact ⟨rfl, by simpa [instr, Instr.reads] using htoNat, by simp⟩
  · obtain ⟨a, b, c, rfl⟩ := List.length_eq_three.1 harity
    exact ⟨rfl, by simpa [instr, Instr.reads] using htoNat, by simp⟩

namespace Program

theorem checkInstr_ok {F : Layout} {i : Nat} {instr : Instr}
    (hload : instr.opcode = .load → instr.operand.toNat < F.columns.length)
    (hlabel : instr.opcode = .label → instr.operand.toNat < F.tables.length)
    (hreads : ∀ r ∈ instr.reads, r.toNat < i) : checkInstr F i instr = .ok () := by
  have hsource : checkSource F i instr = .ok () := by
    cases instr with
    | load c r => simpa [checkSource, Instr.operand] using hload rfl
    | label t r => simpa [checkSource, Instr.operand] using hlabel rfl
    | _ => rfl
  have hfind : instr.reads.find? (fun r => i ≤ r.toNat) = none :=
    List.find?_eq_none.2 fun r hr => by simpa using hreads r hr
  rw [checkInstr, hsource]
  simp only [bind, Except.bind, hfind]
  rfl

theorem checkCode_ok {F : Layout} : ∀ {code : List Instr} (start : Nat),
    (∀ i instr, code[i]? = some instr → checkInstr F (start + i) instr = .ok ()) →
    checkCode F start code = .ok ()
  | [], _, _ => rfl
  | instr :: code, start, h => by
    have hinstr : checkInstr F start instr = .ok () := h 0 instr rfl
    rw [checkCode, hinstr]
    refine checkCode_ok (start + 1) fun i instr' hi => ?_
    rw [Nat.add_assoc, Nat.add_comm 1]
    exact h (i + 1) instr' hi

theorem verify_eq_ok {p : Program} (hout : p.outputs ≠ [])
    (hcode : ∀ i instr, p.code[i]? = some instr → checkInstr p.layout i instr = .ok ())
    (hexist : ∀ r ∈ p.outputs, r.toNat < p.size)
    (hchecks : ∀ c ∈ p.layout.checks, c.column.toNat < p.layout.columns.length) :
    p.verify = .ok () := by
  have hempty : p.outputs.isEmpty = false := by simpa using hout
  have hcheckCode : checkCode p.layout 0 p.code.toList = .ok () :=
    checkCode_ok 0 fun i instr hi => by
      rw [Nat.zero_add]
      exact hcode i instr (by simpa using hi)
  have houtputs : p.outputs.find? (fun r => p.size ≤ r.toNat) = none :=
    List.find?_eq_none.2 fun r hr => by simpa using hexist r hr
  have hcolumns : p.layout.checks.find? (fun c => p.layout.columns.length ≤ c.column.toNat) = none :=
    List.find?_eq_none.2 fun c hc => by simpa using hchecks c hc
  simp only [verify, hempty, hcheckCode, houtputs, hcolumns, bind, Except.bind]
  rfl

end Program

namespace Analysis

/-- Slots, columns and label tables are numbered by words of 32 bits. -/
structure WordNumbered (a : Analysis) : Prop where
  slots : a.slots.WordNumbered
  columns : a.layout.columns.length ≤ 2 ^ 32
  tables : a.layout.tables.length ≤ 2 ^ 32

variable {g : LinkGraph} {set : ExprSet} {a : Analysis} {mode : Mode} {order : List SlotId}
  {slots : List Slot}

/-- An order has no more slots than there are. -/
theorem Written.length_le (h : a.Written mode order slots) : slots.length ≤ a.slots.size := by
  rw [← h.inOrder.length_eq, ← List.length_range (n := a.slots.size)]
  exact (List.subperm_of_subset h.placed.nodup fun i hi =>
    List.mem_range.2 (h.placed.lt i hi)).length_le

theorem WordNumbered.numbered (hw : a.WordNumbered) (h : a.Written mode order slots) :
    a.Numbered slots :=
  ⟨fun _ hi => hi.trans_le hw.columns, fun _ hi => hi.trans_le hw.tables,
    fun _ hr => hr.trans_le (h.length_le.trans hw.slots)⟩

/-- What stands at a place of the order is the slot with that number. -/
theorem Written.getElem?_idxOf (h : a.Written mode order slots) {i : SlotId} (hi : i ∈ order)
    {s : Slot} (hs : a.slots.slots[i]? = some s) : slots[order.idxOf i]? = some s := by
  have hlt := List.idxOf_lt_length_of_mem hi
  have hslot := h.inOrder.get hlt (h.inOrder.length_eq ▸ hlt)
  rw [List.get_eq_getElem, List.getElem_idxOf, hs, Option.some.injEq] at hslot
  exact List.getElem?_eq_some_iff.2 ⟨h.inOrder.length_eq ▸ hlt, hslot.symm⟩

theorem Written.program_size (h : a.Written mode order slots) :
    (a.program mode order slots).size = order.length := by
  simp [Program.size, program, h.inOrder.length_eq]

/-- The numbers of the slots in the order are those of the instructions, each once. -/
theorem Written.bijOn (h : a.Written mode order slots) :
    Set.BijOn (fun j => order.idxOf j) {i | a.slots.Needed a.outputs i}
      (Set.Iio (a.program mode order slots).size) := by
  rw [h.program_size]
  refine ⟨fun i hi => List.idxOf_lt_length_of_mem ((h.needed i).2 hi), fun i hi j _ heq =>
    (List.idxOf_inj ((h.needed i).2 hi)).1 heq, fun r hr => ?_⟩
  exact ⟨order[r], (h.needed _).1 (List.getElem_mem hr), h.placed.nodup.idxOf_getElem r hr⟩

/-- An instruction is that of the slot at its place, under the numbers of the order. -/
theorem Written.renames (h : a.Written mode order slots) (hg : a.slots.Sound)
    (hn : a.Numbered slots) {r : Nat} {s : Slot} (hs : slots[r]? = some s) :
    (s.instr fun j => order.idxOf j).Renames (fun j => order.idxOf j) s ∧
      ∀ j ∈ s.args, order.idxOf j < r := by
  obtain ⟨hr, rfl⟩ := List.getElem?_eq_some_iff.1 hs
  obtain ⟨i, -, hget⟩ := exists_of_mem_right h.inOrder _ (List.getElem_mem hr)
  have hlt : ∀ j ∈ slots[r].args, order.idxOf j < r := by
    have heq : slots = slots.take r ++ slots[r] :: slots.drop (r + 1) := by simp
    simpa [hr.le] using h.reg_lt hg heq
  exact ⟨Slot.instr_renames (hg.fits i _ hget).arity
    (fun j hj => hn.registers _ ((hlt j hj).trans hr)) (hg.fits i _ hget).operand, hlt⟩

/-- The program of an analysis is sound. -/
theorem Written.verify_ok (h : a.Written mode order slots) (hg : a.slots.Sound)
    (hn : a.Numbered slots) (hout : a.outputs ≠ [])
    (hsourced : ∀ s ∈ a.slots.slots, (s.op = .load → s.operand.toNat < a.layout.columns.length) ∧
      (s.op = .label → s.operand.toNat < a.layout.tables.length))
    (hchecks : ∀ c ∈ a.layout.checks,
      a.layout.HasColumn c.column c.link.sourceTable c.link.sourceVar) :
    (a.program mode order slots).verify = .ok () := by
  refine Program.verify_eq_ok (by simpa [program] using hout) (fun r instr hinstr => ?_)
    (fun r hr => ?_) fun c hc => ?_
  · have hcode : (slots.map (Slot.instr fun j => order.idxOf j))[r]? = some instr := by
      simpa [program] using hinstr
    obtain ⟨s, hs, rfl⟩ := Option.map_eq_some_iff.1 (List.getElem?_map ▸ hcode)
    obtain ⟨hrenames, hlt⟩ := h.renames hg hn hs
    obtain ⟨i, -, hget⟩ := exists_of_mem_right h.inOrder s (List.mem_of_getElem? hs)
    have hsource := hsourced s (Array.mem_of_getElem? hget)
    refine Program.checkInstr_ok (fun hop => ?_) (fun hop => ?_) fun k hk => ?_
    · rw [hrenames.opcode] at hop
      rw [hrenames.operand (by simp [hop])]
      exact hsource.1 hop
    · rw [hrenames.opcode] at hop
      rw [hrenames.operand (by simp [hop])]
      exact hsource.2 hop
    · have hmem := List.mem_map_of_mem (f := UInt32.toNat) hk
      rw [hrenames.reads] at hmem
      obtain ⟨j, hj, heq⟩ := List.mem_map.1 hmem
      exact heq ▸ hlt j hj
  · obtain ⟨i, hi, rfl⟩ := List.mem_map.1 hr
    rw [UInt32.toNat_ofNat_of_lt' (hn.idxOf_lt h (h.covers i hi)), h.program_size]
    exact List.idxOf_lt_length_of_mem (h.covers i hi)
  · obtain ⟨i, ref, hcolumn, hi, -⟩ := hchecks c hc
    rw [hcolumn]
    exact (Nat.mod_le _ _).trans_lt (List.getElem?_eq_some_iff.1 hi).1

theorem length_emitAll : ∀ (ps : List Plan) (l : Lowered), (Plan.emitAll ps l).1.length = ps.length
  | [], _ => rfl
  | p :: ps, l => congrArg (· + 1) (length_emitAll ps (p.emit l).2)

theorem Planned.length_sources {sc : Scope} {sources : List Source} {plans : List Plan}
    (h : a.Planned g set sc sources plans) : sources.length = set.entries.length := by
  rw [← (forall₂_of_mapM h.readAll).length_eq]
  simp [sites, ExprSet.texts]

/-- There is an output for every expression. -/
theorem Planned.length_outputs {sc : Scope} {sources : List Source} {plans : List Plan}
    (h : a.Planned g set sc sources plans) : a.outputs.length = set.entries.length := by
  rw [h.outputs, length_emitAll, ← (forall₂_of_mapM h.planned).length_eq, h.length_sources]

/-- All that a listing mentions is spelled by names. -/
theorem Planned.layoutNamed {sc : Scope} {sources : List Source} {plans : List Plan}
    (h : a.Planned g set sc sources plans) (hg : g.Built) : Listing.LayoutNamed a.layout := by
  obtain ⟨hfaithful, -, -⟩ := h.faithful hg
  obtain ⟨rfl, -, lead, hrooted⟩ := Scope.rooted_of_ok hg h.inScope
  refine Listing.layoutNamed_of_faithful hg.valid hfaithful ?_
  rw [h.layout]
  exact hg.valid.isName_of_data? hrooted.data

theorem Planned.newline_not_mem {sc : Scope} {sources : List Source} {plans : List Plan}
    (h : a.Planned g set sc sources plans) : ∀ n ∈ a.normalized, '\n' ∉ n.toList := by
  intro n hn
  rw [h.normalized] at hn
  obtain ⟨s, hs, rfl⟩ := List.mem_map.1 hn
  obtain ⟨site, -, hread⟩ := exists_of_mem_right (forall₂_of_mapM h.readAll) s hs
  obtain ⟨tokens, htree, hnormal⟩ := readSource_ok hread
  rw [hnormal]
  exact Listing.newline_not_mem_normal (Expr.read_ok htree).1

/-- What compiling an analysis gives. -/
theorem Planned.generate_eq {sc : Scope} {sources : List Source} {plans : List Plan}
    (h : a.Planned g set sc sources plans) (hg : g.Built) (hentries : set.entries ≠ [])
    (hw : a.Written mode order slots) (hn : a.Numbered slots) {source : String}
    (hsource : a.listing mode = .ok source) :
    Listing.read source = .ok (a.program mode order slots) ∧ ∀ now, Compiler.generate a mode now =
      .ok ⟨(Request.ofAnalysis a mode).digest, mode, now, Request.ofAnalysis a mode, source,
        a.program mode order slots⟩ := by
  obtain ⟨hsound, -, hsourced, hchecks⟩ := h.sound
  have hout : a.outputs ≠ [] := by
    rw [← List.length_pos_iff, h.length_outputs]
    exact List.length_pos_iff.2 hentries
  have hverify := hw.verify_ok hsound hn hout hsourced hchecks
  have hread := (hw.read_eq hsound (h.layoutNamed hg) h.newline_not_mem hsource).2 ⟨hn, rfl, hverify⟩
  refine ⟨hread, fun now => ?_⟩
  rw [Compiler.generate, hsource]
  simp only [hread]

/-- What can be generated is answered, whatever is remembered and stored. -/
theorem exists_answer {a : Analysis} (ha : analyze g set = .ok a) {now : UInt64} {artifact : Artifact}
    (hgen : Compiler.generate a mode now = .ok artifact) (c : Compiler) (dir : Directory) :
    ∃ k, (c.compile dir now g set mode).answer = .ok k := by
  simp only [Compiler.compile, ha, Compiler.answer]
  split
  · exact ⟨_, rfl⟩
  split
  · exact ⟨_, rfl⟩
  rw [hgen]
  exact ⟨_, rfl⟩

/-- Whatever is asked of a graph, the analysis does not fail on its own account. If it succeeds, and
slots, columns and label tables are numbered by words, then its listing is assembled. The program has
the mode and the layout of the analysis and an output for every expression; its instructions are the
slots that the outputs need, under one renumbering. So no compiler fails on its own account. -/
theorem assembled (hg : g.Built) (set : ExprSet) (mode : Mode) :
    (∀ f, analyze g set = .error f → f.kind ≠ .internal) ∧
    ∀ a, analyze g set = .ok a → a.WordNumbered →
      (∃ (source : String) (p : Program) (reg : SlotId → Nat),
        a.listing mode = .ok source ∧ Listing.read source = .ok p ∧ p.mode = mode ∧
        p.layout = a.layout ∧ p.outputs.length = set.entries.length ∧
        p.outputs.map UInt32.toNat = a.outputs.map reg ∧
        Set.BijOn reg {i | a.slots.Needed a.outputs i} (Set.Iio p.size) ∧
        ∀ i s, a.slots.Needed a.outputs i → a.slots.slots[i]? = some s → a.slots.parents i = s.args ∧
          ∃ instr, p.code[reg i]? = some instr ∧ instr.Renames reg s) ∧
      ∀ (c : Compiler) (dir : Directory) (now : UInt64),
        ∃ k, (c.compile dir now g set mode).answer = .ok k := by
  refine ⟨fun f hf => analyze_blames hg hf, fun a ha hwords => ?_⟩
  obtain ⟨hentries, sc, sources, plans, h⟩ := analyze_ok ha
  obtain ⟨hsound, hlt, -⟩ := h.sound
  obtain ⟨order, slots, hw⟩ := listing_ok hsound hlt mode
  have hn := hwords.numbered hw
  obtain ⟨hread, hgenerate⟩ := h.generate_eq hg hentries hw hn hw.listing
  refine ⟨⟨_, a.program mode order slots, fun j => order.idxOf j, hw.listing, hread, rfl, rfl, ?_, ?_,
    hw.bijOn, fun i s hi hs => ?_⟩, fun c dir now => exists_answer ha (hgenerate now) c dir⟩
  · rw [← h.length_outputs]
    exact List.length_map ..
  · rw [program, List.map_map]
    exact List.map_congr_left fun i hi => UInt32.toNat_ofNat_of_lt' (hn.idxOf_lt hw (hw.covers i hi))
  · have hslot := hw.getElem?_idxOf ((hw.needed i).2 hi) hs
    exact ⟨SlotGraph.parents_eq hsound hs, _, by simp [program, hslot],
      (hw.renames hsound hn hslot).1⟩

/-- The listing of the sample is assembled. -/
theorem assembled_sample : Sample.graph.Built ∧
    analyze Sample.graph Sample.set = .ok (Sample.analysisNamed "cost") ∧
    (Sample.analysisNamed "cost").WordNumbered ∧
    ∃ (source : String) (p : Program), (Sample.analysisNamed "cost").listing .dot = .ok source ∧
      Listing.read source = .ok p ∧ p.mode = .dot ∧
      p.layout = (Sample.analysisNamed "cost").layout ∧ p.outputs.length = 1 := by
  have hwords : (Sample.analysisNamed "cost").WordNumbered := by
    constructor <;> decide
  obtain ⟨⟨source, p, -, hlisting, hread, hmode, hlayout, hout, -⟩, -⟩ :=
    (assembled Sample.graph_built Sample.set .dot).2 _ Sample.analyze_graph hwords
  exact ⟨Sample.graph_built, Sample.analyze_graph, hwords, source, p, hlisting, hread, hmode,
    hlayout, hout⟩

end Analysis

end LinkedTables
