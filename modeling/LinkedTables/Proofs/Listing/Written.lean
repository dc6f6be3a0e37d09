import LinkedTables.Listing.Writer
import LinkedTables.Proofs.Data.Loops
import LinkedTables.Proofs.Flow.Order

/-!
# A listing can be written

Sound slots have an order of evaluation, and in it the slots that a slot reads come before it. So
every operand has a register when its line is written, and the listing is there (`listing_ok`): its
code is, line by line, that of the slots in the order of evaluation.
-/

namespace LinkedTables

namespace Listing

/-- The words after the mnemonic, for a numbering of the slots. -/
def operandTexts (reg : SlotId → Nat) (s : Slot) : List String :=
  let regs := s.args.map fun j => s!"r{reg j}"
  match s.op with
  | .row => []
  | .const => ["0x" ++ Text.hex 16 s.operand.toNat, ";", Number.text (Float.ofBits s.operand)]
  | .load => s!"c{s.operand}" :: regs
  | .label => s!"t{s.operand}" :: regs
  | .stride => regs ++ [s!"{s.operand}"]
  | _ => regs

/-- The line of a slot with a number. -/
def slotText (reg : SlotId → Nat) (r : Nat) (s : Slot) : String :=
  " ".intercalate ([s!"r{r}", "=", s.op.mnemonic] ++ operandTexts reg s) ++ "\n"

theorem registerOf_ok {order : List SlotId} {i : SlotId} (h : i ∈ order) :
    registerOf order i = .ok s!"r{order.idxOf i}" := by
  obtain ⟨r, hr⟩ := Option.isSome_iff_exists.1 (List.isSome_idxOf?.2 h)
  rw [registerOf, hr, List.idxOf_eq_getD_idxOf?, hr]
  rfl

theorem mapM_registerOf {order : List SlotId} : ∀ {js : List SlotId}, (∀ j ∈ js, j ∈ order) →
    js.mapM (registerOf order) = .ok (js.map fun j => s!"r{order.idxOf j}")
  | [], _ => rfl
  | j :: js, h => by
    rw [List.mapM_cons, registerOf_ok (h j (by simp)),
      mapM_registerOf fun k hk => h k (List.mem_cons_of_mem j hk)]
    rfl

theorem writtenOperands_ok {order : List SlotId} {s : Slot} (harity : s.args.length = s.op.arity)
    (h : ∀ j ∈ s.args, j ∈ order) :
    writtenOperands order s s.args = .ok (operandTexts (fun j => order.idxOf j) s) := by
  have htake : s.args.take s.op.arity = s.args := List.take_of_length_le harity.le
  rw [writtenOperands, operandTexts]
  split <;> rename_i hop <;> simp only [hop, Opcode.arity] at htake ⊢ <;>
    first
      | rw [htake, mapM_registerOf h]; rfl
      | rfl
      | exact mapM_registerOf h

theorem writtenSlot_ok {g : SlotGraph} (hg : g.Sound) {order : List SlotId} (r : Nat) {i : SlotId}
    {s : Slot} (hs : g.slots[i]? = some s) (h : ∀ j ∈ s.args, j ∈ order) :
    writtenSlot g order r i = .ok (slotText (fun j => order.idxOf j) r s) := by
  rw [writtenSlot, hs, SlotGraph.parents_eq hg hs]
  simp only [writtenOperands_ok (hg.fits i s hs).arity h]
  rfl

/-- The line of an output. -/
def outputText (reg : SlotId → Nat) (i : SlotId) (normal : String) : String :=
  s!"output r{reg i} ; {normal}\n"

theorem writtenOutput_ok {order : List SlotId} {i : SlotId} (h : i ∈ order) (normal : String) :
    writtenOutput order i normal = .ok (outputText (fun j => order.idxOf j) i normal) := by
  rw [writtenOutput, registerOf_ok h]
  rfl

/-- The lines of slots, the first of which has the number `start`. -/
theorem mapM_writtenSlot {g : SlotGraph} (hg : g.Sound) {order : List SlotId} :
    ∀ {is : List SlotId} {slots : List Slot} (start : Nat),
      List.Forall₂ (fun i s => g.slots[i]? = some s) is slots →
      (∀ s ∈ slots, ∀ j ∈ s.args, j ∈ order) →
      (is.zipIdx start).mapM (fun (i, r) => writtenSlot g order r i) =
        .ok ((slots.zipIdx start).map fun (s, r) => slotText (fun j => order.idxOf j) r s)
  | [], [], _, .nil, _ => rfl
  | i :: is, s :: slots, start, .cons hs hslots, hargs => by
    rw [List.zipIdx_cons, List.zipIdx_cons, List.mapM_cons]
    dsimp only
    rw [writtenSlot_ok hg start hs (hargs s (by simp)),
      mapM_writtenSlot hg (start + 1) hslots fun t ht => hargs t (List.mem_cons_of_mem s ht)]
    rfl

theorem mapM_writtenOutput {order : List SlotId} (normal : Nat → String) : ∀ {is : List SlotId}
    (start : Nat), (∀ i ∈ is, i ∈ order) →
      (is.zipIdx start).mapM (fun (i, e) => writtenOutput order i (normal e)) =
        .ok ((is.zipIdx start).map fun (i, e) => outputText (fun j => order.idxOf j) i (normal e))
  | [], _, _ => rfl
  | i :: is, start, h => by
    rw [List.zipIdx_cons, List.mapM_cons]
    dsimp only
    rw [writtenOutput_ok (h i (by simp)),
      mapM_writtenOutput normal (start + 1) fun j hj => h j (List.mem_cons_of_mem i hj)]
    rfl

end Listing

/-- The slots that a slot of the order reads are in the order. -/
theorem SlotGraph.Placed.args_mem {g : SlotGraph} (hg : g.Sound) {order : List SlotId}
    (h : g.Placed order) {i : SlotId} (hi : i ∈ order) {s : Slot} (hs : g.slots[i]? = some s) :
    ∀ j ∈ s.args, j ∈ order := by
  intro j hj
  refine h.inOrder.mem_of_leads hi (.single ?_)
  rwa [parents_eq hg hs]

namespace Analysis

/-- The lines behind the header. -/
def lines (a : Analysis) (order : List SlotId) (slots : List Slot) : List String :=
  Listing.writtenLayout a.layout
    ++ slots.zipIdx.map (fun (s, r) => Listing.slotText (fun j => order.idxOf j) r s)
    ++ a.outputs.zipIdx.map (fun (i, e) =>
      Listing.outputText (fun j => order.idxOf j) i ((a.normalized[e]?).getD ""))

/-- What the listing of an analysis is made of: an order of its slots, a line for each of them, and
a line for each output. -/
structure Written (a : Analysis) (mode : Mode) (order : List SlotId) (slots : List Slot) : Prop where
  placed : a.slots.Placed order
  covers : ∀ i ∈ a.outputs, i ∈ order
  needed : ∀ i, i ∈ order ↔ a.slots.Needed a.outputs i
  inOrder : List.Forall₂ (fun i s => a.slots.slots[i]? = some s) order slots
  listing : a.listing mode =
    .ok (String.join (s!"kernel mode={mode.name}\n" :: a.lines order slots))

theorem exists_slots {g : SlotGraph} : ∀ {order : List SlotId}, (∀ i ∈ order, i < g.size) →
    ∃ slots, List.Forall₂ (fun i s => g.slots[i]? = some s) order slots
  | [], _ => ⟨[], .nil⟩
  | i :: order, h => by
    obtain ⟨slots, hslots⟩ := exists_slots fun j hj => h j (List.mem_cons_of_mem i hj)
    exact ⟨_, .cons (Array.getElem?_eq_getElem (h i (by simp))) hslots⟩

theorem listing_ok {a : Analysis} (hg : a.slots.Sound) (hout : ∀ i ∈ a.outputs, i < a.slots.size)
    (mode : Mode) : ∃ order slots, a.Written mode order slots := by
  obtain ⟨order, horder, hplaced, hmem, hneeded⟩ := SlotGraph.order_ok hg hout
  obtain ⟨slots, hslots⟩ := exists_slots hplaced.lt
  have hargs : ∀ s ∈ slots, ∀ j ∈ s.args, j ∈ order := fun s hs => by
    obtain ⟨i, hi, hget⟩ := exists_of_mem_right hslots s hs
    exact hplaced.args_mem hg hi hget
  refine ⟨order, slots, hplaced, hmem, hneeded, hslots, ?_⟩
  simp only [listing, horder, bind, Except.bind, pure, Except.pure]
  rw [Listing.mapM_writtenSlot hg 0 hslots hargs]
  simp only
  rw [Listing.mapM_writtenOutput (fun e => (a.normalized[e]?).getD "") 0 hmem]
  simp only [lines, List.append_assoc, List.cons_append, List.nil_append]

end Analysis

end LinkedTables
