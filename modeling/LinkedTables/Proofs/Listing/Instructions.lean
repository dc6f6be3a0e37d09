import LinkedTables.Proofs.Listing.Lines

/-!
# Instruction lines, written and read

The line of a slot says its register, its mnemonic and its operands; the decimal text of a constant
is a remark. Read behind the lines of the slots before it, it gives the instruction of the slot
(`readLine_slot`), provided that its number and those of the registers it reads fit into 32 bits.
-/

namespace LinkedTables

/-- The instruction of a slot, for a numbering of the slots. -/
def Slot.instr (reg : SlotId → Nat) (s : Slot) : Instr :=
  match s.op, s.args.map fun j => UInt32.ofNat (reg j) with
  | .const, _ => .const s.operand
  | .load, [a] => .load s.operand.toUInt32 a
  | .label, [a] => .label s.operand.toUInt32 a
  | .stride, [a, b] => .stride a b s.operand
  | .unary op, [a] => .unary op a
  | .binary op, [a, b] => .binary op a b
  | .ternary op, [a, b, c] => .ternary op a b c
  | _, _ => .row

theorem Opcode.ofMnemonic?_mnemonic (op : Opcode) : ofMnemonic? op.mnemonic = some op := by
  rcases op with _ | _ | _ | _ | _ | op | op | op <;> first | rfl | (cases op <;> rfl)

namespace Listing

open Text (IsWord joined IsPlain bound32 bound64)

def operandWords (reg : SlotId → Nat) (s : Slot) : List (List Char) :=
  let regs := s.args.map fun j => indexed 'r' (reg j)
  match s.op with
  | .row => []
  | .const => ["0x".toList ++ (Text.hex 16 s.operand.toNat).toList]
  | .load => indexed 'c' s.operand.toNat :: regs
  | .label => indexed 't' s.operand.toNat :: regs
  | .stride => regs ++ [(toString s.operand.toNat).toList]
  | _ => regs

def slotWords (reg : SlotId → Nat) (r : Nat) (s : Slot) : List (List Char) :=
  indexed 'r' r :: "=".toList :: s.op.mnemonic.toList :: operandWords reg s

/-- What stands after the words of a line. -/
def slotRemark (s : Slot) : List Char :=
  match s.op with
  | .const => ' ' :: ';' :: ' ' :: (Number.text (Float.ofBits s.operand)).toList
  | _ => []

theorem register_indexed {n : Nat} (h : n < bound32) :
    register (indexed 'r' n) = .ok (UInt32.ofNat n) := by
  rw [register, index?_indexed, if_pos h]

theorem binding_indexed (letter : Char) {n : UInt64} (h : n.toNat < bound32) :
    binding letter (indexed letter n.toNat) = .ok n.toUInt32 := by
  have hn : UInt32.ofNat n.toNat = n.toUInt32 := by
    rw [← UInt32.toNat_inj, UInt32.toNat_ofNat_of_lt' h, UInt64.toNat_toUInt32]
    exact (Nat.mod_eq_of_lt h).symm
  rw [binding, index?_indexed, if_pos h, hn]

theorem immediate_hex (n : UInt64) :
    immediate ("0x".toList ++ (Text.hex 16 n.toNat).toList) = .ok n := by
  have hn : n.toNat < bound64 := n.toNat_lt
  have hread : Text.numeral? 16 bound64 (Text.hex 16 n.toNat).toList = some n.toNat := by
    rw [Text.numeral?_hex, if_pos hn]
  simp [immediate, hread]

theorem step_toString (n : UInt64) : step (toString n.toNat).toList = .ok n := by
  rw [step, Text.numeral?_decimal, if_pos (show n.toNat < bound64 from n.toNat_lt)]
  simp

/-- The operands of a slot are read as those of its instruction. -/
theorem instr_operandWords {reg : SlotId → Nat} {s : Slot} (harity : s.args.length = s.op.arity)
    (hreg : ∀ j ∈ s.args, reg j < bound32)
    (hoperand : s.op = .load ∨ s.op = .label → s.operand.toNat < bound32) :
    instr s.op (operandWords reg s) = .ok (s.instr reg) := by
  obtain ⟨op, args, operand⟩ := s
  rcases op with _ | _ | _ | _ | _ | op | op | op
  · obtain rfl := List.eq_nil_of_length_eq_zero harity
    rfl
  · obtain rfl := List.eq_nil_of_length_eq_zero harity
    simp only [operandWords, instr, immediate_hex, Slot.instr]
    rfl
  · obtain ⟨a, rfl⟩ := List.length_eq_one_iff.1 harity
    simp only [operandWords, List.map_cons, List.map_nil, instr, Slot.instr,
      binding_indexed 'c' (hoperand (Or.inl rfl)), register_indexed (hreg a (by simp))]
    rfl
  · obtain ⟨a, rfl⟩ := List.length_eq_one_iff.1 harity
    simp only [operandWords, List.map_cons, List.map_nil, instr, Slot.instr,
      binding_indexed 't' (hoperand (Or.inr rfl)), register_indexed (hreg a (by simp))]
    rfl
  · obtain ⟨a, b, rfl⟩ := List.length_eq_two.1 harity
    simp only [operandWords, List.map_cons, List.map_nil, List.cons_append, List.nil_append, instr,
      Slot.instr, step_toString, register_indexed (hreg a (by simp)),
      register_indexed (hreg b (by simp))]
    rfl
  · obtain ⟨a, rfl⟩ := List.length_eq_one_iff.1 harity
    simp only [operandWords, List.map_cons, List.map_nil, instr, Slot.instr,
      register_indexed (hreg a (by simp))]
    rfl
  · obtain ⟨a, b, rfl⟩ := List.length_eq_two.1 harity
    simp only [operandWords, List.map_cons, List.map_nil, instr, Slot.instr,
      register_indexed (hreg a (by simp)), register_indexed (hreg b (by simp))]
    rfl
  · obtain ⟨a, b, c, rfl⟩ := List.length_eq_three.1 harity
    simp only [operandWords, List.map_cons, List.map_nil, instr, Slot.instr,
      register_indexed (hreg a (by simp)), register_indexed (hreg b (by simp)),
      register_indexed (hreg c (by simp))]
    rfl

theorem isPart_mnemonic (op : Opcode) : IsPart op.mnemonic.toList := by
  rcases op with _ | _ | _ | _ | _ | op | op | op <;>
    first
      | exact isPart_of_all (by decide) (by decide)
      | cases op <;> exact isPart_of_all (by decide) (by decide)

theorem isPlain_operandWords {reg : SlotId → Nat} {s : Slot} :
    ∀ w ∈ operandWords reg s, w ≠ [] ∧ ∀ c ∈ w, IsPlain c := by
  have hregs : ∀ w ∈ s.args.map (fun j => indexed 'r' (reg j)), w ≠ [] ∧ ∀ c ∈ w, IsPlain c := by
    intro w hw
    obtain ⟨j, -, rfl⟩ := List.mem_map.1 hw
    exact ⟨by simp [indexed], fun c hc => isPlain_indexed rfl hc⟩
  have hindexed : ∀ {letter : Char} {n : Nat}, Text.continuesName letter = true →
      indexed letter n ≠ [] ∧ ∀ c ∈ indexed letter n, IsPlain c := fun hl =>
    ⟨by simp [indexed], fun c hc => isPlain_indexed hl hc⟩
  intro w hw
  rw [operandWords] at hw
  split at hw
  · simp at hw
  · obtain rfl := List.mem_singleton.1 hw
    refine ⟨by simp, fun c hc => ?_⟩
    rcases List.mem_append.1 hc with hc | hc
    · rcases (by simpa using hc : c = '0' ∨ c = 'x') with rfl | rfl <;> rfl
    · exact Text.isPlain_of_mem_hex hc
  · rcases List.mem_cons.1 hw with rfl | hw
    · exact hindexed rfl
    · exact hregs w hw
  · rcases List.mem_cons.1 hw with rfl | hw
    · exact hindexed rfl
    · exact hregs w hw
  · rcases List.mem_append.1 hw with hw | hw
    · exact hregs w hw
    · obtain rfl := List.mem_singleton.1 hw
      exact ⟨(isPart_toString _).1, fun c hc => mem_toString hc⟩
  · exact hregs w hw

theorem isPart_slotWords (reg : SlotId → Nat) (r : Nat) (s : Slot) :
    ∀ w ∈ slotWords reg r s, IsPart w := by
  simp only [slotWords, List.mem_cons]
  rintro w (rfl | rfl | rfl | hw)
  · exact isPart_indexed rfl r
  · exact ⟨by decide, by simp [Text.isBlank]⟩
  · exact isPart_mnemonic s.op
  · obtain ⟨hne, hplain⟩ := isPlain_operandWords w hw
    exact isPart_of_isPlain hne hplain

theorem words_cons_blank (cs : List Char) : Text.words (' ' :: cs) = Text.words cs := by
  simp [Text.words, Text.pieces, Text.isBlank]

/-- A register is none of the words that start the other lines. -/
theorem indexed_ne {n : Nat} {c : Char} (cs : List Char) (hc : c.isDigit = false) :
    String.ofList (indexed 'r' n) ≠ String.ofList ('r' :: c :: cs) := by
  intro h
  have hdigits : (toString n).toList = c :: cs := by
    simpa [indexed] using congrArg String.toList h
  have hmem : c ∈ Nat.toDigits 10 n := by
    rw [← Text.toList_toString, hdigits]
    simp
  rw [Nat.isDigit_of_mem_toDigits (by decide) (by decide) hmem] at hc
  cases hc

/-- A line that starts with a register is an instruction. -/
theorem readLine_indexed (p : Program) {n : Nat} {v : List Char} {ws : List (List Char)}
    (h : ∀ w ∈ indexed 'r' n :: v :: ws, IsPart w) :
    readLine (some p) (joined (indexed 'r' n :: v :: ws)) =
      instrLine p (indexed 'r' n) (joined (v :: ws)) := by
  rw [readLine, keyword_joined h]
  have hother : ∀ (c : Char) (cs : List Char), c ≠ 'r' →
      String.ofList (indexed 'r' n) ≠ String.ofList (c :: cs) := fun c cs hc heq => by
    have := congrArg String.toList heq
    simp only [indexed, String.toList_ofList, List.cons.injEq] at this
    exact hc this.1.symm
  simp only
  split
  · rename_i heq
    exact absurd heq (indexed_ne (c := 'o') ['o', 't'] rfl)
  · rename_i heq
    exact absurd heq (hother 'c' "olumn".toList (by decide))
  · rename_i heq
    exact absurd heq (hother 't' "able".toList (by decide))
  · rename_i heq
    exact absurd heq (hother 'c' "heck".toList (by decide))
  · rename_i heq
    exact absurd heq (hother 's' "hape".toList (by decide))
  · rename_i heq
    exact absurd heq (hother 'o' "utput".toList (by decide))
  · rfl

/-- The line of a slot behind those of all slots before it gives its instruction. -/
theorem readLine_slot {p : Program} {reg : SlotId → Nat} {s : Slot}
    (harity : s.args.length = s.op.arity) (hreg : ∀ j ∈ s.args, reg j < p.size)
    (hoperand : s.op = .load ∨ s.op = .label → s.operand.toNat < bound32) :
    readLine (some p) (joined (slotWords reg p.size s)) =
      if p.size < bound32 then .ok { p with code := p.code.push (s.instr reg) }
      else .error (.wrongIndex 'r' p.size (String.ofList (indexed 'r' p.size))) := by
  have hwords := isPart_slotWords reg p.size s
  rw [slotWords] at hwords ⊢
  rw [readLine_indexed p hwords]
  have hrest : joined ("=".toList :: s.op.mnemonic.toList :: operandWords reg s) =
      '=' :: ' ' :: joined (s.op.mnemonic.toList :: operandWords reg s) := by
    rw [Text.joined_cons_cons]
    rfl
  have htail : ∀ w ∈ s.op.mnemonic.toList :: operandWords reg s, IsWord w := fun w hw =>
    (hwords w (List.mem_cons_of_mem _ (List.mem_cons_of_mem _ hw))).isWord
  simp only [instrLine, hrest, words_cons_blank, Text.words_joined htail, String.ofList_toList,
    Opcode.ofMnemonic?_mnemonic, bind, Except.bind, expectIndex_indexed]
  split_ifs with hsize
  · simp only [instr_operandWords harity (fun j hj => (hreg j hj).trans hsize) hoperand]
    rfl
  · rfl

end Listing

end LinkedTables
