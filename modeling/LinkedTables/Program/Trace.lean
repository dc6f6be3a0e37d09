import LinkedTables.Number.Shortest
import LinkedTables.Program.Program
import LinkedTables.Text.Shorten

/-!
# Traces

The trace of an output shows how its value comes about, as a tree: a line for the register of the
output, below it the registers that it reads, and so on. A register is expanded where it is met
first, and later only referred to, so a register has one expansion however often it is read.

A register reads only earlier ones, so the number of the register bounds the depth.
-/

namespace LinkedTables

/-- One line of a trace under its header. -/
structure TraceLine where
  /-- The lines drawn to the left. -/
  stem : List Char
  level : Nat
  reg : Reg
  /-- What the register is, at its expansion; a later line only names the level of that. -/
  description : Option String
  deriving DecidableEq, Repr

inductive TraceFault where
  | noOutput (count wanted : Nat)
  deriving DecidableEq, Repr

def TraceFault.message : TraceFault → String
  | noOutput n i => s!"kernel has {n} outputs, no output {i}"

namespace Trace

/-- The last child hangs on a corner, the others on a branch. -/
def corner : List Char := ['\x60', '-', '-']

def branch : List Char := ['|', '-', '-']

/-- What stands under a stem: the line goes on below a branch and ends below a corner. -/
def below : List Char → List Char
  | '\x60' :: '-' :: '-' :: rest => ' ' :: ' ' :: ' ' :: below rest
  | '|' :: '-' :: '-' :: rest => '|' :: ' ' :: ' ' :: below rest
  | c :: rest => c :: below rest
  | [] => []

/-- The names of registers with commas between them. -/
def regList (rs : List Reg) : String :=
  ", ".intercalate (rs.map fun r => s!"r{r}")

/-- What an instruction computes. -/
def describe (layout : Layout) : Instr → String
  | .row => s!"row of '{layout.root}'"
  | .const bits => Number.text (Float.ofBits bits)
  | .load c r =>
    match layout.columns[c.toNat]? with
    | some col => s!"{col.table}.{col.var}[r{r}]"
    | none => s!"c{c}[r{r}]"
  | .label t r =>
    match layout.tables[t.toNat]? with
    | some tab => s!"position of ({tab.link.text})[r{r}]"
    | none => s!"t{t}[r{r}]"
  | .stride a b step => s!"r{a} + r{b} * {step}"
  | i => s!"{i.opcode.mnemonic}({regList i.reads})"

/-- The levels at which registers were expanded, and the lines so far. -/
structure State where
  seen : List (Reg × Nat)
  lines : List TraceLine

/-- The registers that a register reads, with what they hang on. -/
def hung (stem : List Char) : List Reg → List (List Char × Reg)
  | [] => []
  | [r] => [(below stem ++ corner, r)]
  | r :: rs => (below stem ++ branch, r) :: hung stem rs

/-- Adds the lines of a register. -/
def trace (p : Program) : Nat → Nat → List Char → Reg → State → State
  | 0, _, _, _, s => s
  | fuel + 1, level, stem, r, s =>
    match s.seen.lookup r with
    | some first => { s with lines := s.lines ++ [⟨stem, first, r, none⟩] }
    | none =>
      match p.code[r.toNat]? with
      | none => s
      | some instr =>
        let line : TraceLine := ⟨stem, level, r, some (describe p.layout instr)⟩
        (hung stem instr.reads).foldl (fun s (stem', r') => trace p fuel (level + 1) stem' r' s)
          ⟨(r, level) :: s.seen, s.lines ++ [line]⟩

/-- The lines of an output's register. -/
def lines (p : Program) (reg : Reg) : List TraceLine :=
  (trace p (p.size + 1) 1 [] reg ⟨[], []⟩).lines

def renderLine (l : TraceLine) : String :=
  let stem := String.ofList l.stem
  match l.description with
  | some d => s!"{stem}[L{l.level}] r{l.reg} = {d}\n"
  | none => s!"{stem}-> (Ref to L{l.level} r{l.reg})\n"

def header (name : String) (reg : Reg) : String :=
  let shown := Text.shorten name 60
  s!"KERNEL TRACE for '{shown}' (r{reg}):\n" ++ String.ofList (List.replicate 50 '-') ++ "\n"

end Trace

/-- The trace of an output, under the name that the output has. -/
def Program.trace (p : Program) (names : List String) (output : Nat) : Except TraceFault String :=
  match p.outputs[output]? with
  | none => .error (.noOutput p.outputs.length output)
  | some reg =>
    let name := (names[output]?).getD "?"
    .ok (Trace.header name reg ++ String.join ((Trace.lines p reg).map Trace.renderLine))

end LinkedTables
