import LinkedTables.Program.Trace
import LinkedTables.Proofs.Data.Ordered
import LinkedTables.Proofs.Program.Sound

/-!
# What a trace says

A line of a trace expands a register at a level, or refers to the level at which it was expanded. The
lines of a register and of all that it rests on are added one after the other, and what they add is
said by counting (`Adds`): a line for each register that is asked for, the first ones and the operands
of those that are expanded by the way. Together with what holds of the lines throughout (`Consistent`),
each register that the output rests on is expanded once, and every other line for it refers to that
(`lines_showsOnce`). A register is computed from earlier ones, so its number is fuel enough, and more
changes nothing (`trace_fuel`).
-/

namespace LinkedTables

/-- What a line of a trace says of a register. -/
inductive Said where
  | expanded (level : Nat) (reg : Reg)
  | referred (level : Nat) (reg : Reg)
  deriving DecidableEq, Repr

namespace Said

def reg : Said → Reg
  | expanded _ r | referred _ r => r

/-- The register that is expanded, with its level. -/
def expansion? : Said → Option (Reg × Nat)
  | expanded level r => some (r, level)
  | referred _ _ => none

/-- The one refers to what the other says. -/
def Refers (x y : Said) : Prop := ∃ level r, x = referred level r ∧ y = expanded level r

/-- The registers that are expanded, with their levels, in order. -/
def expansions (xs : List Said) : List (Reg × Nat) := xs.filterMap expansion?

/-- The registers that are expanded, in order. -/
def shown (xs : List Said) : List Reg := (expansions xs).map Prod.fst

def isReferenceTo (q : Reg) : Said → Bool
  | expanded _ _ => false
  | referred _ r => r == q

theorem mem_expansions {xs : List Said} {r : Reg} {level : Nat} :
    (r, level) ∈ expansions xs ↔ expanded level r ∈ xs := by
  unfold expansions
  rw [List.mem_filterMap]
  constructor
  · rintro ⟨x, hx, heq⟩
    cases x with
    | expanded level' r' =>
      simp only [expansion?, Option.some.injEq, Prod.mk.injEq] at heq
      obtain ⟨rfl, rfl⟩ := heq
      exact hx
    | referred level' r' => cases heq
  · intro h
    exact ⟨_, h, rfl⟩

theorem expansions_append (xs ys : List Said) :
    expansions (xs ++ ys) = expansions xs ++ expansions ys := List.filterMap_append

theorem shown_append (xs ys : List Said) : shown (xs ++ ys) = shown xs ++ shown ys := by
  rw [shown, expansions_append, List.map_append]
  rfl

@[simp] theorem shown_expanded (level : Nat) (r : Reg) (xs : List Said) :
    shown (expanded level r :: xs) = r :: shown xs := rfl

@[simp] theorem shown_referred (level : Nat) (r : Reg) (xs : List Said) :
    shown (referred level r :: xs) = shown xs := rfl

/-- A line for a register refers to it or is its expansion. -/
theorem count_reg (q : Reg) : ∀ xs : List Said,
    (xs.map reg).count q = xs.countP (isReferenceTo q) + (shown xs).count q
  | [] => rfl
  | expanded level r :: xs => by
    rw [List.map_cons, List.count_cons, shown_expanded, List.count_cons, count_reg q xs,
      List.countP_cons_of_neg (by simp [isReferenceTo])]
    exact Nat.add_assoc _ _ _
  | referred level r :: xs => by
    rw [List.map_cons, List.count_cons, shown_referred, List.countP_cons, count_reg q xs]
    simp only [reg, isReferenceTo]
    by_cases h : r = q
    · simp only [h, beq_self_eq_true, if_true]
      omega
    · simp only [beq_eq_false_iff_ne.2 h]
      omega

end Said

def TraceLine.said (l : TraceLine) : Said :=
  match l.description with
  | some _ => .expanded l.level l.reg
  | none => .referred l.level l.reg

namespace Trace

/-- A character of the lines that are drawn to the left. -/
def isDrawn (c : Char) : Bool := c == ' ' || c == '|' || c == '\x60' || c == '-'

/-- What stands on a line: drawn lines to the left, and what the register is at its expansion. -/
structure Written (p : Program) (l : TraceLine) : Prop where
  drawn : ∀ c ∈ l.stem, isDrawn c = true
  described : ∀ d, l.description = some d →
    ∃ instr, p.code[l.reg.toNat]? = some instr ∧ d = describe p.layout instr

/-- A register is computed from another one, directly or by way of others. -/
abbrev Rests (p : Program) : Reg → Reg → Prop :=
  Relation.ReflTransGen fun r q => q ∈ p.operands r

namespace State

def said (s : State) : List Said := s.lines.map TraceLine.said

/-- The registers expanded so far. -/
def regs (s : State) : List Reg := s.seen.map Prod.fst

end State

/-- What holds of the lines throughout: what was seen is what was expanded, nothing was expanded twice,
and a reference comes after the expansion at its level. -/
structure Consistent (p : Program) (s : State) : Prop where
  seen : s.seen = (Said.expansions s.said).reverse
  nodup : s.regs.Nodup
  inOrder : InOrder Said.Refers s.said
  written : ∀ l ∈ s.lines, Written p l

/-- What is added for some registers, one after the other. -/
structure Adds (p : Program) (rs : List Reg) (s s' : State) : Prop where
  /-- A line for each of them and for each operand of a register that is expanded. -/
  said : ∃ new, s'.said = s.said ++ new ∧
    (new.map Said.reg).Perm (rs ++ (Said.shown new).flatMap p.operands)
  grows : s.regs ⊆ s'.regs
  reached : ∀ r ∈ rs, r ∈ s'.regs
  closed : ∀ q ∈ s'.regs, q ∉ s.regs → p.operands q ⊆ s'.regs
  rests : ∀ q ∈ s'.regs, q ∉ s.regs → ∃ r ∈ rs, Rests p r q

variable {p : Program}

section Drawn

theorem hung_snd (stem : List Char) : ∀ rs : List Reg, (hung stem rs).map Prod.snd = rs
  | [] => rfl
  | [r] => rfl
  | r :: q :: rs => by
    rw [hung, List.map_cons, hung_snd stem (q :: rs)]
    simp

theorem below_drawn {stem : List Char} (h : ∀ c ∈ stem, isDrawn c = true) :
    ∀ c ∈ below stem, isDrawn c = true := by
  fun_induction below stem with
  | case1 rest ih | case2 rest ih =>
    simp only [List.forall_mem_cons] at h ⊢
    exact ⟨by decide, by decide, by decide, ih h.2.2.2⟩
  | case3 c rest _ _ ih =>
    rw [List.forall_mem_cons] at h ⊢
    exact ⟨h.1, ih h.2⟩
  | case4 => exact h

theorem corner_drawn : ∀ c ∈ corner, isDrawn c = true := by simp [corner, isDrawn]

theorem branch_drawn : ∀ c ∈ branch, isDrawn c = true := by simp [branch, isDrawn]

theorem hung_drawn {stem : List Char} (h : ∀ c ∈ stem, isDrawn c = true) :
    ∀ {rs : List Reg}, ∀ x ∈ hung stem rs, ∀ c ∈ x.1, isDrawn c = true
  | [], x, hx => by cases hx
  | [r], x, hx => by
    obtain rfl := List.mem_singleton.1 hx
    exact List.forall_mem_append.2 ⟨below_drawn h, corner_drawn⟩
  | r :: q :: rs, x, hx => by
    rw [hung] at hx
    · rcases List.mem_cons.1 hx with rfl | hx
      · exact List.forall_mem_append.2 ⟨below_drawn h, branch_drawn⟩
      · exact hung_drawn h x hx
    · simp

theorem operand_of_mem_hung {r : Reg} {instr : Instr} {stem : List Char} {x : List Char × Reg}
    (hinstr : p.code[r.toNat]? = some instr) (hx : x ∈ hung stem instr.reads) :
    x.2 ∈ p.operands r := by
  rw [Program.operands_of_getElem? hinstr, ← hung_snd stem instr.reads]
  exact List.mem_map_of_mem hx

end Drawn

section Adds

theorem Adds.nil (p : Program) (s : State) : Adds p [] s s where
  said := ⟨[], by simp, List.Perm.refl _⟩
  grows := fun _ h => h
  reached := by simp
  closed := fun q h hnew => absurd h hnew
  rests := fun q h hnew => absurd h hnew

theorem Adds.append {rs rs' : List Reg} {s s' s'' : State} (h : Adds p rs s s')
    (h' : Adds p rs' s' s'') : Adds p (rs ++ rs') s s'' := by
  obtain ⟨new, hsaid, hperm⟩ := h.said
  obtain ⟨new', hsaid', hperm'⟩ := h'.said
  refine ⟨⟨new ++ new', by rw [hsaid', hsaid, List.append_assoc], ?_⟩, List.Subset.trans h.grows h'.grows,
    fun r hr => ?_, fun q hq hnew => ?_, fun q hq hnew => ?_⟩
  · rw [List.map_append, Said.shown_append, List.flatMap_append]
    refine (hperm.append hperm').trans ?_
    -- the operands of the first registers change places with the registers that follow
    rw [List.append_assoc, List.append_assoc]
    refine List.Perm.append_left rs ?_
    rw [← List.append_assoc, ← List.append_assoc]
    exact List.Perm.append_right _ List.perm_append_comm
  · rcases List.mem_append.1 hr with hr | hr
    · exact h'.grows (h.reached r hr)
    · exact h'.reached r hr
  · by_cases hq' : q ∈ s'.regs
    · exact List.Subset.trans (h.closed q hq' hnew) h'.grows
    · exact h'.closed q hq hq'
  · by_cases hq' : q ∈ s'.regs
    · obtain ⟨r, hr, hrests⟩ := h.rests q hq' hnew
      exact ⟨r, List.mem_append_left rs' hr, hrests⟩
    · obtain ⟨r, hr, hrests⟩ := h'.rests q hq hq'
      exact ⟨r, List.mem_append_right rs hr, hrests⟩

theorem foldl_adds {f : State → List Char × Reg → State} : ∀ {xs : List (List Char × Reg)}
    {s : State}, (∀ x ∈ xs, ∀ s, Consistent p s → Consistent p (f s x) ∧ Adds p [x.2] s (f s x)) →
    Consistent p s → Consistent p (xs.foldl f s) ∧ Adds p (xs.map Prod.snd) s (xs.foldl f s)
  | [], s, _, h => ⟨h, Adds.nil p s⟩
  | x :: xs, s, hstep, h => by
    obtain ⟨hfirst, hadds⟩ := hstep x List.mem_cons_self s h
    obtain ⟨hrest, hmore⟩ := foldl_adds (fun y hy => hstep y (List.mem_cons_of_mem x hy)) hfirst
    exact ⟨hrest, hadds.append hmore⟩

end Adds

section Register

variable {s : State} {r : Reg}

theorem mem_regs_of_lookup {level : Nat} (h : s.seen.lookup r = some level) :
    (r, level) ∈ s.seen := by
  obtain ⟨before, after, hseen, -⟩ := List.lookup_eq_some_iff.1 h
  rw [hseen]
  simp

/-- A register that was expanded before is referred to. -/
theorem referred_adds {level : Nat} {stem : List Char} (h : Consistent p s)
    (hstem : ∀ c ∈ stem, isDrawn c = true) (hseen : s.seen.lookup r = some level) :
    Consistent p { s with lines := s.lines ++ [⟨stem, level, r, none⟩] } ∧
      Adds p [r] s { s with lines := s.lines ++ [⟨stem, level, r, none⟩] } := by
  have hmem := mem_regs_of_lookup hseen
  have hsaid : State.said { s with lines := s.lines ++ [⟨stem, level, r, none⟩] } =
      s.said ++ [.referred level r] := by
    simp [State.said, TraceLine.said]
  refine ⟨⟨?_, h.nodup, ?_, ?_⟩, ⟨⟨[.referred level r], hsaid, List.Perm.refl [r]⟩,
    fun _ hq => hq, ?_, fun q hq hnew => absurd hq hnew, fun q hq hnew => absurd hq hnew⟩⟩
  · rw [hsaid, Said.expansions_append, h.seen]
    simp [Said.expansions, Said.expansion?]
  · rw [hsaid]
    refine h.inOrder.concat ?_
    rintro y ⟨level', r', heq, rfl⟩
    cases heq
    rw [h.seen, List.mem_reverse] at hmem
    exact Said.mem_expansions.1 hmem
  · refine List.forall_mem_append.2 ⟨h.written, ?_⟩
    intro l hl
    obtain rfl := List.mem_singleton.1 hl
    exact ⟨hstem, by simp⟩
  · intro q hq
    obtain rfl := List.mem_singleton.1 hq
    exact List.mem_map_of_mem hmem

/-- The line of a register that was not expanded before. -/
theorem expanded_consistent {stem : List Char} {instr : Instr} (level : Nat) (h : Consistent p s)
    (hstem : ∀ c ∈ stem, isDrawn c = true)
    (hinstr : p.code[r.toNat]? = some instr) (hnew : r ∉ s.regs) :
    Consistent p ⟨(r, level) :: s.seen, s.lines ++ [⟨stem, level, r, some (describe p.layout instr)⟩]⟩ := by
  have hsaid : State.said ⟨(r, level) :: s.seen,
      s.lines ++ [⟨stem, level, r, some (describe p.layout instr)⟩]⟩ =
      s.said ++ [.expanded level r] := by
    simp [State.said, TraceLine.said]
  refine ⟨?_, List.nodup_cons.2 ⟨hnew, h.nodup⟩, ?_, ?_⟩
  · rw [hsaid, Said.expansions_append, List.reverse_append, ← h.seen]
    rfl
  · rw [hsaid]
    refine h.inOrder.concat ?_
    rintro y ⟨level', r', heq, -⟩
    cases heq
  · refine List.forall_mem_append.2 ⟨h.written, ?_⟩
    intro l hl
    obtain rfl := List.mem_singleton.1 hl
    refine ⟨hstem, ?_⟩
    rintro d hd
    cases hd
    exact ⟨instr, hinstr, rfl⟩

/-- What is added for the operands of a register and its own line are added for the register. -/
theorem Adds.top {s' : State} {rs : List Reg} {level : Nat} {line : TraceLine}
    (hsaid : line.said = .expanded level r) (hrs : p.operands r = rs)
    (h : Adds p rs ⟨(r, level) :: s.seen, s.lines ++ [line]⟩ s') : Adds p [r] s s' := by
  subst hrs
  obtain ⟨new, hnew, hperm⟩ := h.said
  have hregs : State.regs ⟨(r, level) :: s.seen, s.lines ++ [line]⟩ = r :: s.regs := rfl
  have hr : r ∈ s'.regs := h.grows (hregs ▸ List.mem_cons_self)
  refine ⟨⟨.expanded level r :: new, ?_, ?_⟩, fun q hq => h.grows (hregs ▸ List.mem_cons_of_mem r hq),
    fun q hq => List.mem_singleton.1 hq ▸ hr, fun q hq hfresh => ?_, fun q hq hfresh => ?_⟩
  · rw [hnew]
    simp [State.said, hsaid]
  · rw [List.map_cons, Said.shown_expanded, List.flatMap_cons]
    exact List.Perm.cons r hperm
  · by_cases heq : q = r
    · subst heq
      exact h.reached
    · exact h.closed q hq (hregs ▸ by simp [heq, hfresh])
  · by_cases heq : q = r
    · exact ⟨r, List.mem_singleton_self r, heq ▸ .refl⟩
    · obtain ⟨o, ho, hrests⟩ := h.rests q hq (hregs ▸ by simp [heq, hfresh])
      exact ⟨r, List.mem_singleton_self r, hrests.head ho⟩

/-- What is added for a register. A register is computed from earlier ones, so its number is fuel
enough for all that it rests on. -/
theorem trace_adds (hp : p.verify = .ok ()) : ∀ {fuel level : Nat} {stem : List Char} {r : Reg}
    {s : State}, r.toNat < fuel → r.toNat < p.size → (∀ c ∈ stem, isDrawn c = true) →
    Consistent p s → Consistent p (trace p fuel level stem r s) ∧
      Adds p [r] s (trace p fuel level stem r s)
  | 0, _, _, _, _, hfuel, _, _, _ => by omega
  | fuel + 1, level, stem, r, s, hfuel, hsize, hstem, h => by
    unfold trace
    rcases hseen : s.seen.lookup r with _ | first
    · have hnew : r ∉ s.regs := by
        intro hmem
        obtain ⟨⟨q, level'⟩, hq, rfl⟩ := List.mem_map.1 hmem
        simpa using List.lookup_eq_none_iff.1 hseen _ hq
      obtain ⟨instr, hinstr⟩ : ∃ instr, p.code[r.toNat]? = some instr :=
        ⟨_, Array.getElem?_eq_getElem hsize⟩
      have hstep : ∀ x ∈ hung stem instr.reads, ∀ s, Consistent p s →
          Consistent p (trace p fuel (level + 1) x.1 x.2 s) ∧
            Adds p [x.2] s (trace p fuel (level + 1) x.1 x.2 s) := by
        intro x hx s hs
        have hlt := Program.lt_of_operand hp (operand_of_mem_hung hinstr hx)
        exact trace_adds hp (by omega) (by omega) (hung_drawn hstem x hx) hs
      obtain ⟨hconsistent, hadds⟩ :=
        foldl_adds hstep (expanded_consistent level h hstem hinstr hnew)
      rw [hung_snd] at hadds
      rw [hinstr]
      exact ⟨hconsistent, hadds.top rfl (Program.operands_of_getElem? hinstr)⟩
    · exact referred_adds h hstem hseen

/-- No line is missing for want of fuel. -/
theorem trace_fuel (hp : p.verify = .ok ()) : ∀ {fuel fuel' level : Nat} {stem : List Char} {r : Reg}
    {s : State}, r.toNat < fuel → r.toNat < fuel' →
    trace p fuel level stem r s = trace p fuel' level stem r s
  | 0, _, _, _, _, _, h, _ => by omega
  | _, 0, _, _, _, _, _, h => by omega
  | fuel + 1, fuel' + 1, level, stem, r, s, h, h' => by
    unfold trace
    rcases s.seen.lookup r with _ | first
    · rcases hinstr : p.code[r.toNat]? with _ | instr
      · rfl
      · refine List.foldl_ext _ _ _ fun s x hx => ?_
        have hlt := Program.lt_of_operand hp (operand_of_mem_hung hinstr hx)
        exact trace_fuel hp (by omega) (by omega)
    · rfl

end Register

section Lines

/-- The lines show each register that an output rests on once. -/
structure ShowsOnce (p : Program) (reg : Reg) (said : List Said) : Prop where
  once : (Said.shown said).Nodup
  /-- These registers are expanded, and no other ones. -/
  reached : ∀ q, q ∈ Said.shown said ↔ Rests p reg q
  /-- The level of a reference is the one of an expansion before it. -/
  referred : InOrder Said.Refers said
  /-- A register has its expansion for one of its occurrences, as the output or as an operand of what is
  expanded, and a reference for each other one. -/
  occurrences : ∀ q ∈ Said.shown said, said.countP (Said.isReferenceTo q) + 1 =
    (reg :: (Said.shown said).flatMap p.operands).count q
  length : said.length = 1 + ((Said.shown said).map fun q => (p.operands q).length).sum

theorem consistent_empty (p : Program) : Consistent p ⟨[], []⟩ :=
  ⟨rfl, List.nodup_nil, inOrder_nil, by simp⟩

theorem Consistent.regs_eq {s : State} (h : Consistent p s) :
    s.regs = (Said.shown s.said).reverse := by
  rw [State.regs, h.seen, List.map_reverse]
  rfl

/-- What is added from nothing shows each register once. -/
theorem Adds.showsOnce {reg : Reg} {s : State} (h : Consistent p s) (hadds : Adds p [reg] ⟨[], []⟩ s) :
    ShowsOnce p reg s.said := by
  obtain ⟨new, hsaid, hperm⟩ := hadds.said
  obtain rfl : s.said = new := hsaid
  have hmem : ∀ q, q ∈ s.regs ↔ q ∈ Said.shown s.said := fun q => by
    rw [h.regs_eq, List.mem_reverse]
  have hnodup : (Said.shown s.said).Nodup := List.nodup_reverse.1 (h.regs_eq ▸ h.nodup)
  refine ⟨hnodup, fun q => ⟨fun hq => ?_, fun hrests => ?_⟩, h.inOrder, fun q hq => ?_, ?_⟩
  · obtain ⟨r, hr, hrests⟩ := hadds.rests q ((hmem q).2 hq) List.not_mem_nil
    exact List.mem_singleton.1 hr ▸ hrests
  · induction hrests with
    | refl => exact (hmem reg).1 (hadds.reached reg (List.mem_singleton_self reg))
    | @tail r q _ hread ih =>
      exact (hmem q).1 (hadds.closed r ((hmem r).2 ih) List.not_mem_nil hread)
  · have hcount := hperm.count_eq q
    rw [Said.count_reg, List.count_eq_one_of_mem hnodup hq] at hcount
    exact hcount
  · have hlength := hperm.length_eq
    rw [List.length_map, List.length_append, List.length_flatMap] at hlength
    exact hlength

theorem lines_showsOnce (hp : p.verify = .ok ()) {reg : Reg} (h : reg.toNat < p.size) :
    ShowsOnce p reg ((lines p reg).map TraceLine.said) ∧ ∀ l ∈ lines p reg, Written p l := by
  obtain ⟨hconsistent, hadds⟩ : Consistent p (trace p (p.size + 1) 1 [] reg ⟨[], []⟩) ∧
      Adds p [reg] ⟨[], []⟩ (trace p (p.size + 1) 1 [] reg ⟨[], []⟩) :=
    trace_adds hp (Nat.lt_succ_of_lt h) h (by simp) (consistent_empty p)
  exact ⟨hadds.showsOnce hconsistent, hconsistent.written⟩

end Lines

end Trace

end LinkedTables
