import LinkedTables.Program.Tape
import LinkedTables.Proofs.Listing.RoundTrip
import LinkedTables.Proofs.Program.Traced

/-!
# The text of a trace

Behind the drawn lines, the text of a line has the level and the register of an expansion, or those of
a reference, and no other line has the same ones (`said?_renderLine`). Where no text that is shown
breaks a line, the text of a trace is a header of two lines and the lines of the trace, so what the trace
of an output says can be read off its text (`Tape.trace_showsOnce`).
-/

namespace LinkedTables

open Text (bound32)

/-- Nothing that is shown of a layout breaks a line. -/
structure Layout.OneLine (F : Layout) : Prop where
  root : '\n' ∉ F.root.toList
  columns : ∀ c ∈ F.columns, '\n' ∉ c.table.toList ∧ '\n' ∉ c.var.toList
  tables : ∀ t ∈ F.tables, '\n' ∉ t.link.text.toList

namespace Trace

section Said

/-- A number at the front of a text, and what follows it. -/
def number? (cs : List Char) : Option (Nat × List Char) :=
  let digits := cs.takeWhile Char.isDigit
  if digits.isEmpty then none
  else (Text.digitsValue? 10 0 digits).map fun n => (n, cs.dropWhile Char.isDigit)

/-- A level and a register behind two marks, and what follows them. -/
def levelReg? (opening between cs : List Char) : Option (Nat × Reg × List Char) := do
  let level ← number? (← opening.isPrefixOf? cs)
  let reg ← number? (← between.isPrefixOf? level.2)
  if reg.1 < bound32 then some (level.1, UInt32.ofNat reg.1, reg.2) else none

def expansion? (cs : List Char) : Option Said := do
  let x ← levelReg? ['[', 'L'] [']', ' ', 'r'] cs
  if [' ', '=', ' '].isPrefixOf x.2.2 then some (.expanded x.1 x.2.1) else none

def reference? (cs : List Char) : Option Said := do
  let x ← levelReg? ('>' :: " (Ref to L".toList) [' ', 'r'] cs
  if x.2.2 = [')'] then some (.referred x.1 x.2.1) else none

/-- What a line says behind the drawn lines. -/
def said? (line : List Char) : Option Said :=
  let rest := line.dropWhile isDrawn
  (expansion? rest).or (reference? rest)

theorem isDigit_of_mem_toString {n : Nat} {c : Char} (h : c ∈ (toString n).toList) :
    c.isDigit = true := by
  rw [Text.toList_toString] at h
  exact Nat.isDigit_of_mem_toDigits (by decide) (by decide) h

theorem number?_toString (n : Nat) {rest : List Char} (h : rest.head?.all (!·.isDigit) = true) :
    number? ((toString n).toList ++ rest) = some (n, rest) := by
  have hdigits : ∀ c ∈ (toString n).toList, c.isDigit = true := fun _ => isDigit_of_mem_toString
  have hends : rest.takeWhile Char.isDigit = [] ∧ rest.dropWhile Char.isDigit = rest := by
    rcases rest with _ | ⟨c, rest⟩
    · exact ⟨rfl, rfl⟩
    · have hc : c.isDigit = false := by simpa using h
      simp [hc]
  dsimp only [number?]
  rw [List.takeWhile_append_of_pos hdigits, List.dropWhile_append_of_pos hdigits, hends.1, hends.2,
    List.append_nil, Text.toList_toString, Text.digitsValue?_toDigits (by decide) (by decide)]
  simp [Nat.toDigits_ne_nil]

theorem levelReg?_append (opening between rest : List Char) (level : Nat) (reg : Reg)
    (hbetween : between.head?.all (!·.isDigit) = true) (hne : between ≠ [])
    (hrest : rest.head?.all (!·.isDigit) = true) :
    levelReg? opening between (opening ++ ((toString level).toList ++ (between ++
      ((toString reg).toList ++ rest)))) = some (level, reg, rest) := by
  have hfront : ∀ xs ys : List Char, xs.isPrefixOf? (xs ++ ys) = some ys :=
    fun xs ys => List.isPrefixOf?_eq_some_iff_append_eq.2 rfl
  have hhead : (between ++ ((toString reg).toList ++ rest)).head?.all (!·.isDigit) = true := by
    rcases between with _ | ⟨c, between⟩
    · exact absurd rfl hne
    · exact hbetween
  have hreg : number? ((toString reg).toList ++ rest) = some (reg.toNat, rest) :=
    number?_toString reg.toNat hrest
  unfold levelReg?
  simp only [hfront, number?_toString level hhead, hreg, Option.bind_eq_bind, Option.bind_some]
  rw [if_pos (show reg.toNat < bound32 from reg.toNat_lt), UInt32.ofNat_toNat]

end Said

section Ended

variable {l : TraceLine}

/-- The texts between the parts of an interpolated text stand for themselves. -/
theorem toString_string (s : String) : toString s = s := rfl

theorem toList_expansion {d : String} (h : l.description = some d) :
    (renderLine l).toList = l.stem ++ (['[', 'L'] ++ ((toString l.level).toList ++ ([']', ' ', 'r'] ++
      ((toString l.reg).toList ++ ([' ', '=', ' '] ++ d.toList))))) ++ ['\n'] := by
  simp [renderLine, h, toString_string]

theorem toList_reference (h : l.description = none) :
    (renderLine l).toList = l.stem ++ ('-' :: ('>' :: " (Ref to L".toList ++
      ((toString l.level).toList ++ ([' ', 'r'] ++ ((toString l.reg).toList ++ [')']))))) ++ ['\n'] := by
  simp [renderLine, h, toString_string]

theorem said?_drawn {stem : List Char} (h : ∀ c ∈ stem, isDrawn c = true) (rest : List Char) :
    said? (stem ++ rest) = said? rest := by
  unfold said?
  rw [List.dropWhile_append_of_pos h]

theorem said?_expansion (rest : List Char) : said? ('[' :: rest) =
    (expansion? ('[' :: rest)).or (reference? ('[' :: rest)) := by
  unfold said?
  rw [List.dropWhile_cons_of_neg (by simp [isDrawn])]

/-- No expansion starts with the mark of a reference. -/
theorem said?_reference (rest : List Char) : said? ('-' :: '>' :: rest) = reference? ('>' :: rest) := by
  unfold said?
  rw [List.dropWhile_cons_of_pos (by simp [isDrawn]), List.dropWhile_cons_of_neg (by simp [isDrawn])]
  rfl

/-- What a line says is read off its text. -/
theorem said?_renderLine (h : ∀ c ∈ l.stem, isDrawn c = true) :
    said? (Listing.body (renderLine l)) = some l.said := by
  rcases hd : l.description with _ | d
  · have hread := levelReg?_append ('>' :: " (Ref to L".toList) [' ', 'r'] [')'] l.level l.reg
      rfl (by simp) rfl
    rw [Listing.body, toList_reference hd, List.dropLast_concat, said?_drawn h, List.cons_append,
      said?_reference, ← List.cons_append, reference?, hread]
    simp [TraceLine.said, hd]
  · have hread := levelReg?_append ['[', 'L'] [']', ' ', 'r'] ([' ', '=', ' '] ++ d.toList)
      l.level l.reg rfl (by simp) rfl
    rw [Listing.body, toList_expansion hd, List.dropLast_concat, said?_drawn h, List.cons_append,
      said?_expansion, ← List.cons_append, expansion?, hread]
    simp [TraceLine.said, hd]

end Ended

section Once

theorem newline_not_mem_digits (n : Nat) : '\n' ∉ Nat.toDigits 10 n := fun h =>
  (Text.isPlain_of_mem_toDigits (by decide) (by decide) n h).ne rfl rfl

theorem newline_not_mem_number (n : Nat) : '\n' ∉ (toString n).toList := by
  rw [Text.toList_toString]
  exact newline_not_mem_digits n

theorem newline_not_mem_reg (r : UInt32) : '\n' ∉ (toString r).toList := newline_not_mem_number r.toNat

theorem newline_not_mem_regList : ∀ rs : List Reg, '\n' ∉ (regList rs).toList
  | [] => by simp [regList]
  | [r] => by simp [regList, newline_not_mem_reg, toString_string]
  | r :: q :: rs => by
    have ih := newline_not_mem_regList (q :: rs)
    unfold regList at ih ⊢
    rw [List.map_cons, List.map_cons, String.intercalate_cons_cons]
    simpa [newline_not_mem_reg, toString_string] using ih

theorem newline_not_mem_describe {F : Layout} (h : F.OneLine) (instr : Instr) :
    '\n' ∉ (describe F instr).toList := by
  have hop : ∀ op : Opcode, '\n' ∉ op.mnemonic.toList := fun op hc => by
    simpa [Text.isBlank] using ((Listing.isPart_mnemonic op).chars _ hc).1
  cases instr with
  | row => simp [describe, h.root, toString_string]
  | const bits =>
    intro hc
    have hblank := Number.isBlank_of_mem_text hc
    simp [Text.isBlank] at hblank
  | load c r =>
    rcases hcol : F.columns[c.toNat]? with _ | col
    · simp [describe, hcol, newline_not_mem_reg, toString_string]
    · simp [describe, hcol, newline_not_mem_reg, toString_string,
        h.columns col (List.mem_of_getElem? hcol)]
  | label t r =>
    rcases htab : F.tables[t.toNat]? with _ | tab
    · simp [describe, htab, newline_not_mem_reg, toString_string]
    · simp [describe, htab, newline_not_mem_reg, toString_string,
        h.tables tab (List.mem_of_getElem? htab)]
  | stride a b step =>
    have hstep : '\n' ∉ (toString step).toList := newline_not_mem_number step.toNat
    simp [describe, newline_not_mem_reg, toString_string, hstep]
  | unary op a | binary op a b | ternary op a b c =>
    simp [describe, hop, newline_not_mem_regList, toString_string]

theorem newline_not_mem_shorten {s : String} (h : '\n' ∉ s.toList) (n : Nat) :
    '\n' ∉ (Text.shorten s n).toList := by
  dsimp only [Text.shorten]
  split_ifs
  · exact h
  · have htake : '\n' ∉ s.toList.take (n / 2) := fun hc => h (List.mem_of_mem_take hc)
    have hdrop : '\n' ∉ s.toList.drop (s.toList.length - n / 2) := fun hc =>
      h (List.mem_of_mem_drop hc)
    simp [htake, hdrop]

theorem ended_of_eq {line : String} (cs : List Char) (h : line.toList = cs ++ ['\n'])
    (hcs : '\n' ∉ cs) : Listing.Ended line := by
  have hbody : Listing.body line = cs := by rw [Listing.body, h, List.dropLast_concat]
  exact ⟨hbody ▸ h, hbody ▸ hcs⟩

theorem ended_renderLine {p : Program} (hF : p.layout.OneLine) (h : Written p l) :
    Listing.Ended (renderLine l) := by
  have hstem : '\n' ∉ l.stem := fun hc => by simpa [isDrawn] using h.drawn _ hc
  rcases hd : l.description with _ | d
  · refine ended_of_eq _ (toList_reference hd) ?_
    simp [hstem, newline_not_mem_digits, newline_not_mem_reg]
  · obtain ⟨instr, -, rfl⟩ := h.described d hd
    refine ended_of_eq _ (toList_expansion hd) ?_
    simp [hstem, newline_not_mem_digits, newline_not_mem_reg, newline_not_mem_describe hF]

/-- The header is two lines. -/
theorem exists_header {name : String} (h : '\n' ∉ name.toList) (reg : Reg) :
    ∃ first second, header name reg = first ++ second ∧ Listing.Ended first ∧
      Listing.Ended second := by
  refine ⟨_, String.ofList (List.replicate 50 '-') ++ "\n", String.append_assoc, ?_, ?_⟩
  · refine ended_of_eq ("KERNEL TRACE for '".toList ++ (Text.shorten name 60).toList ++
      "' (r".toList ++ (toString reg).toList ++ "):".toList) ?_ ?_
    · simp [toString_string]
    · simp [newline_not_mem_shorten h, newline_not_mem_reg]
  · exact ended_of_eq (List.replicate 50 '-') (by simp) (by simp)

/-- The text of a trace is its header and its lines. -/
theorem trace_pieces {p : Program} {reg : Reg} {names : List String} {output : Nat}
    (hout : p.outputs[output]? = some reg) (hnames : ∀ n ∈ names, '\n' ∉ n.toList)
    (hended : ∀ l ∈ lines p reg, Listing.Ended (renderLine l)) :
    ∃ text first second, p.trace names output = .ok text ∧ Text.pieces (· == '\n') text.toList =
      first :: second :: ((lines p reg).map fun l => Listing.body (renderLine l)) ++ [[]] := by
  have hname := Listing.newline_not_mem_getD hnames (show '\n' ∉ "?".toList by simp) output
  obtain ⟨first, second, hheader, hfirst, hsecond⟩ := exists_header hname reg
  have hall : ∀ l ∈ first :: second :: (lines p reg).map renderLine, Listing.Ended l := by
    simp only [List.forall_mem_cons, List.forall_mem_map]
    exact ⟨hfirst, hsecond, hended⟩
  have hpieces := Listing.pieces_lines hall
  rw [String.join_cons, String.join_cons, ← String.append_assoc, ← hheader] at hpieces
  refine ⟨_, Listing.body first, Listing.body second, ?_, hpieces.trans ?_⟩
  · unfold Program.trace
    rw [hout]
  · simp

end Once

end Trace

/-- A tape that is verified holds a program, and the trace of each of its outputs, where no name and
nothing that is shown of the layout breaks a line, is a header of two lines and further lines. By their
texts these lines show each register that the output rests on once, and refer to it wherever else it
occurs. The depth to which they go is bounded by the number of the output's register. -/
theorem Tape.trace_showsOnce (t : Tape) (h : t.verify = .ok ()) : ∃ p, t.program = .ok p ∧
    ∀ (names : List String) (output : Nat) (reg : Reg), p.outputs[output]? = some reg →
      (∀ n ∈ names, '\n' ∉ n.toList) → p.layout.OneLine →
        (∀ fuel, reg.toNat < fuel → (Trace.trace p fuel 1 [] reg ⟨[], []⟩).lines = Trace.lines p reg) ∧
        ∃ text first second body said, p.trace names output = .ok text ∧
          Text.pieces (· == '\n') text.toList = first :: second :: body ++ [[]] ∧
          body.map Trace.said? = said.map some ∧ Trace.ShowsOnce p reg said := by
  obtain ⟨p, hprogram, hp⟩ := bind_eq_ok h
  refine ⟨p, hprogram, fun names output reg hout hnames hF => ?_⟩
  have hreg : reg.toNat < p.size := (Program.of_verify hp).2 reg (List.mem_of_getElem? hout)
  obtain ⟨hshows, hwritten⟩ := Trace.lines_showsOnce hp hreg
  obtain ⟨text, first, second, htext, hpieces⟩ := Trace.trace_pieces hout hnames fun l hl =>
    Trace.ended_renderLine hF (hwritten l hl)
  refine ⟨fun fuel hfuel => ?_, text, first, second, _, _, htext, hpieces, ?_, hshows⟩
  · rw [Trace.trace_fuel hp hfuel (Nat.lt_succ_of_lt hreg)]
    rfl
  · rw [List.map_map, List.map_map]
    exact List.map_congr_left fun l hl => Trace.said?_renderLine (hwritten l hl).drawn

/-- A tape that adds one to the square of a column. -/
def Tape.square : Tape :=
  Program.tape {
    mode := .load
    code := #[.row, .load 0 0, .binary .mul 1 1, .const 0x3ff0000000000000, .binary .add 2 3]
    outputs := [4]
    layout := ⟨"a", [⟨"a", "x", ["row"]⟩], [], [], []⟩ }

/-- Its column is read twice by the product. -/
theorem Tape.trace_showsOnce_square : Tape.square.verify = .ok () ∧
    ∃ p, Tape.square.program = .ok p ∧ p.operands 2 = [1, 1] ∧
      ∃ text first second body said, p.trace ["y"] 0 = .ok text ∧
        Text.pieces (· == '\n') text.toList = first :: second :: body ++ [[]] ∧
        body.map Trace.said? = said.map some ∧ Trace.ShowsOnce p 4 said := by
  have hverify : Tape.square.verify = .ok () := eq_ok_of_toOption (by decide +kernel)
  obtain ⟨p, hprogram, hshows⟩ := Tape.trace_showsOnce Tape.square hverify
  have hsample : Tape.square.program.toOption.map (fun p => (p.operands 2, p.outputs, p.layout)) =
      some ([1, 1], [4], ⟨"a", [⟨"a", "x", ["row"]⟩], [], [], []⟩) := by decide +kernel
  rw [hprogram, Except.toOption, Option.map_some] at hsample
  simp only [Option.some.injEq, Prod.mk.injEq] at hsample
  obtain ⟨hoperands, houtputs, hlayout⟩ := hsample
  have hF : p.layout.OneLine := by
    rw [hlayout]
    exact ⟨by simp, by simp, by simp⟩
  exact ⟨hverify, p, hprogram, hoperands, (hshows ["y"] 0 4 (by rw [houtputs]; rfl) (by simp) hF).2⟩

end LinkedTables
