import LinkedTables.Listing.Line

/-!
# Listings, read

The first line that is not blank is the header with the mode. Each line after it adds one thing to
the program: the root, a column, a label table, a check, a shape, an output, or an instruction.
Columns, tables and instructions are numbered in the order of their lines and say their number. What
follows a semicolon is a remark.

A listing that was read is a sound program, and the same listing always gives the same program.
-/

namespace LinkedTables

inductive ListingFault where
  | empty
  | line (number : Nat) (text : String) (cause : LineCause)
  | unsound (fault : ProgramFault)
  deriving DecidableEq, Repr

def ListingFault.message : ListingFault → String
  | empty => "kernel source is empty"
  | line n text cause => s!"kernel source line {n}: {cause.message} ({text})"
  | unsound f => f.message

namespace Listing

/-- The text of a line without its remark. -/
def content (line : List Char) : List Char :=
  Text.trim (((Text.pieces (· == ';') line).head?).getD [])

/-- The first word of a line and the trimmed rest. -/
def keyword (line : List Char) : List Char × List Char :=
  match Text.cut? Text.isBlank line with
  | some (word, rest) => (word, Text.trim rest)
  | none => (line, [])

def header (rest : List Char) : Except LineCause Program :=
  match "mode=".toList.isPrefixOf? rest with
  | some name =>
    match Mode.ofName? (String.ofList name) with
    | some mode => .ok ⟨mode, #[], [], .empty⟩
    | none => .error .unknownMode
  | none => .error .unknownMode

def withLayout (p : Program) (f : Layout → Layout) : Program := { p with layout := f p.layout }

def columnLine (p : Program) (rest : List Char) : Except LineCause Program := do
  let (id, rest) ← wordOr .missingColumnId rest
  expectIndex 'c' p.layout.columns.length id
  let (path, dims) ← wordOr .missingColumnPath rest
  let (table, var) ← pathOr .columnPathWithoutDot path
  let dims ← dimsOr .columnDimsWithoutBrackets dims
  return withLayout p fun l => { l with columns := l.columns ++ [⟨table, var, dims⟩] }

def tableLine (p : Program) (rest : List Char) : Except LineCause Program := do
  let (id, rest) ← wordOr .missingTableId rest
  expectIndex 't' p.layout.tables.length id
  let (dims, rest) ← wordOr .missingTableDims rest
  let dims ← dimsOr .tableDimsWithoutBrackets dims
  let link ← link rest
  return withLayout p fun l => { l with tables := l.tables ++ [⟨link, dims⟩] }

def checkLine (p : Program) (rest : List Char) : Except LineCause Program := do
  let (id, rest) ← wordOr .missingColumnId rest
  match index? 'c' id with
  | none => throw (.badColumnId (String.ofList id))
  | some column =>
    let link ← link rest
    return withLayout p fun l => { l with checks := l.checks ++ [⟨column, link⟩] }

def shapeLine (p : Program) (rest : List Char) : Except LineCause Program := do
  let (path, size) ← wordOr .missingShape rest
  let (table, dim) ← pathOr .shapePathWithoutDot path
  match Text.numeral? 10 Text.bound64 size with
  | none => throw (.badSize (String.ofList size))
  | some n =>
    return withLayout p fun l => { l with shapes := l.shapes ++ [⟨table, dim, UInt64.ofNat n⟩] }

def outputLine (p : Program) (rest : List Char) : Except LineCause Program := do
  let r ← register rest
  return { p with outputs := p.outputs ++ [r] }

def instrLine (p : Program) (target rest : List Char) : Except LineCause Program := do
  expectIndex 'r' p.size target
  match rest with
  | '=' :: rhs =>
    match Text.words rhs with
    | [] => throw .missingOpcode
    | word :: args =>
      match Opcode.ofMnemonic? (String.ofList word) with
      | none => throw (.unknownOpcode (String.ofList word))
      | some op =>
        let i ← instr op args
        return { p with code := p.code.push i }
  | _ => throw .noEquals

/-- The program so far with one more line; there is none before the header. -/
def readLine (p? : Option Program) (line : List Char) : Except LineCause Program :=
  let (word, rest) := keyword line
  let name := String.ofList word
  match p? with
  | none => if name == "kernel" then header rest else .error .noHeader
  | some p =>
    match name with
    | "root" => .ok (withLayout p fun l => { l with root := String.ofList rest })
    | "column" => columnLine p rest
    | "table" => tableLine p rest
    | "check" => checkLine p rest
    | "shape" => shapeLine p rest
    | "output" => outputLine p rest
    | _ => instrLine p word rest

/-- The lines from number `n` on; blank ones are passed over. -/
def readLines : Nat → Option Program → List (List Char) → Except ListingFault (Option Program)
  | _, p?, [] => .ok p?
  | n, p?, line :: rest =>
    let text := content line
    if text.isEmpty then readLines (n + 1) p? rest
    else
      match readLine p? text with
      | .error cause => .error (.line n (String.ofList text) cause)
      | .ok p => readLines (n + 1) (some p) rest

/-- The program that a listing spells. -/
def read (source : String) : Except ListingFault Program := do
  match ← readLines 1 none (Text.pieces (· == '\n') source.toList) with
  | none => throw .empty
  | some p =>
    match p.verify with
    | .error f => throw (.unsound f)
    | .ok () => return p

end Listing

end LinkedTables
