import LinkedTables.Program.Program
import LinkedTables.Proofs.Data.Loops

/-!
# What a sound program has

A program that is verified reads only registers with lower numbers, and its outputs exist. So what a
register rests on has lower numbers too (`Program.lt_of_operand`).
-/

namespace LinkedTables

namespace Program

theorem of_checkInstr {F : Layout} {i : Nat} {instr : Instr}
    (h : checkInstr F i instr = .ok ()) :
    checkSource F i instr = .ok () ∧ ∀ r ∈ instr.reads, r.toNat < i := by
  obtain ⟨_, hsource, hreads⟩ := bind_eq_ok h
  refine ⟨hsource, ?_⟩
  split at hreads
  · cases hreads
  · rename_i hfind
    simpa using hfind

theorem of_checkCode_cons {F : Layout} {i : Nat} {instr : Instr} {rest : List Instr}
    (h : checkCode F i (instr :: rest) = .ok ()) :
    checkInstr F i instr = .ok () ∧ checkCode F (i + 1) rest = .ok () := by
  obtain ⟨_, hinstr, hrest⟩ := bind_eq_ok h
  exact ⟨hinstr, hrest⟩

theorem of_verify {p : Program} (h : p.verify = .ok ()) :
    checkCode p.layout 0 p.code.toList = .ok () ∧ ∀ r ∈ p.outputs, r.toNat < p.size := by
  rw [verify] at h
  split_ifs at h
  · cases h
  obtain ⟨_, hcode, h⟩ := bind_eq_ok h
  refine ⟨hcode, ?_⟩
  rcases hfind : p.outputs.find? fun r => p.size ≤ r.toNat with _ | r
  · simpa using hfind
  · simp only [hfind] at h
    cases h

/-- The registers that a register is computed from. -/
def operands (p : Program) (r : Reg) : List Reg := ((p.code[r.toNat]?).map Instr.reads).getD []

theorem operands_of_getElem? {p : Program} {r : Reg} {instr : Instr}
    (h : p.code[r.toNat]? = some instr) : p.operands r = instr.reads := by
  rw [operands, h]
  rfl

theorem of_checkCode {F : Layout} : ∀ {code : List Instr} {start : Nat},
    checkCode F start code = .ok () → ∀ i instr, code[i]? = some instr →
      checkInstr F (start + i) instr = .ok ()
  | [], _, _, i, instr, h => by simp at h
  | first :: rest, start, h, 0, instr, hi => by
    obtain rfl := Option.some.inj hi
    exact (of_checkCode_cons h).1
  | first :: rest, start, h, i + 1, instr, hi => by
    have ih := of_checkCode (of_checkCode_cons h).2 i instr hi
    rwa [Nat.add_assoc, Nat.add_comm 1] at ih

theorem lt_of_operand {p : Program} (h : p.verify = .ok ()) {r q : Reg} (hq : q ∈ p.operands r) :
    q.toNat < r.toNat := by
  unfold operands at hq
  rcases hinstr : p.code[r.toNat]? with _ | instr
  · rw [hinstr] at hq
    cases hq
  · rw [hinstr] at hq
    have hcheck := of_checkCode (of_verify h).1 r.toNat instr (by simpa using hinstr)
    rw [Nat.zero_add] at hcheck
    exact (of_checkInstr hcheck).2 q hq

end Program

end LinkedTables
