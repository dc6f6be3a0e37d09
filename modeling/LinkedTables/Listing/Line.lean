import LinkedTables.ErrorKind
import LinkedTables.Links.Link
import LinkedTables.Program.Program
import LinkedTables.Text.Numeral

/-!
# Lines of a listing

A listing is a program as text, line by line. This module reads the parts that a line is made of:
words, numbers behind a letter (`c0`, `t1`, `r2`), bracketed dimensions, dotted paths, and the
operands of an instruction. A part that is not there or not of its form is the fault of the line.
-/

namespace LinkedTables

inductive LineCause where
  | noHeader
  | unknownMode
  | missingColumnId
  | missingColumnPath
  | columnPathWithoutDot
  | columnDimsWithoutBrackets
  | missingTableId
  | missingTableDims
  | tableDimsWithoutBrackets
  | badLink (fault : LinkFault)
  | badColumnId (text : String)
  | missingShape
  | shapePathWithoutDot
  | badSize (text : String)
  | wrongIndex (letter : Char) (expected : Nat) (found : String)
  | noEquals
  | missingOpcode
  | unknownOpcode (text : String)
  | wrongOperandCount (expected found : Nat)
  | badRegister (text : String)
  | badImmediate (text : String)
  | badBinding (text : String)
  | badStride (text : String)
  deriving DecidableEq, Repr

def LineCause.message : LineCause → String
  | noHeader => "expected 'kernel' header"
  | unknownMode => "unknown mode"
  | missingColumnId => "missing column id"
  | missingColumnPath => "missing column path"
  | columnPathWithoutDot => "column path needs node.var"
  | columnDimsWithoutBrackets => "column dims must be bracketed"
  | missingTableId => "missing table id"
  | missingTableDims => "missing table dims"
  | tableDimsWithoutBrackets => "table dims must be bracketed"
  | badLink f => ErrorKind.graph.told f.message
  | badColumnId t => s!"bad column id '{t}'"
  | missingShape => "missing shape"
  | shapePathWithoutDot => "shape path needs node.dim"
  | badSize t => s!"bad length '{t}'"
  | wrongIndex letter n found => s!"expected {letter}{n} but found '{found}'"
  | noEquals => "expected '='"
  | missingOpcode => "missing opcode"
  | unknownOpcode t => s!"unknown opcode '{t}'"
  | wrongOperandCount n m => s!"expected {n} operands, found {m}"
  | badRegister t => s!"bad register '{t}'"
  | badImmediate t => s!"bad immediate '{t}'"
  | badBinding t => s!"bad binding '{t}'"
  | badStride t => s!"bad stride '{t}'"

namespace Listing

/-- The first word, and the trimmed rest. -/
def splitWord? (cs : List Char) : Option (List Char × List Char) :=
  let trimmed := Text.trim cs
  if trimmed.isEmpty then none
  else
    match Text.cut? Text.isBlank trimmed with
    | some (word, rest) => some (word, Text.trim rest)
    | none => some (trimmed, [])

def wordOr (fault : LineCause) (cs : List Char) : Except LineCause (List Char × List Char) :=
  match splitWord? cs with
  | some parts => .ok parts
  | none => .error fault

/-- A 32-bit number behind a letter. -/
def index? (letter : Char) : List Char → Option UInt32
  | c :: digits =>
    if c == letter then (Text.numeral? 10 Text.bound32 digits).map UInt32.ofNat else none
  | [] => none

/-- The next number of a row that is counted from zero. -/
def expectIndex (letter : Char) (expected : Nat) (word : List Char) : Except LineCause Unit :=
  match index? letter word with
  | some i =>
    if i.toNat = expected then .ok ()
    else .error (.wrongIndex letter expected (String.ofList word))
  | none => .error (.wrongIndex letter expected (String.ofList word))

def register (word : List Char) : Except LineCause Reg :=
  match index? 'r' word with
  | some r => .ok r
  | none => .error (.badRegister (String.ofList word))

def binding (letter : Char) (word : List Char) : Except LineCause UInt32 :=
  match index? letter word with
  | some i => .ok i
  | none => .error (.badBinding (String.ofList word))

/-- A bit pattern in base sixteen. -/
def immediate (word : List Char) : Except LineCause UInt64 :=
  match word with
  | '0' :: 'x' :: digits =>
    match Text.numeral? 16 Text.bound64 digits with
    | some n => .ok (UInt64.ofNat n)
    | none => .error (.badImmediate (String.ofList word))
  | _ => .error (.badImmediate (String.ofList word))

def step (word : List Char) : Except LineCause UInt64 :=
  match Text.numeral? 10 Text.bound64 word with
  | some n => .ok (UInt64.ofNat n)
  | none => .error (.badStride (String.ofList word))

/-- Names between brackets, with commas between them; an empty name is none. -/
def dims? : List Char → Option (List String)
  | '[' :: rest =>
    if rest.getLast? = some ']' then
      let names := (Text.pieces (· == ',') rest.dropLast).map Text.trim
      some ((names.filter fun n => !n.isEmpty).map String.ofList)
    else none
  | _ => none

def dimsOr (fault : LineCause) (cs : List Char) : Except LineCause (List String) :=
  match dims? cs with
  | some ds => .ok ds
  | none => .error fault

/-- What stands before and after the first point. -/
def pathOr (fault : LineCause) (cs : List Char) : Except LineCause (String × String) :=
  match Text.cut? (· == '.') cs with
  | some (a, b) => .ok (String.ofList a, String.ofList b)
  | none => .error fault

def link (cs : List Char) : Except LineCause Link :=
  match Link.read cs with
  | .ok l => .ok l
  | .error f => .error (.badLink f)

/-- The number of words that an instruction has after its mnemonic. -/
def operandCount : Opcode → Nat
  | .const => 1
  | .load | .label => 2
  | .stride => 3
  | op => op.arity

/-- An instruction from its operands. -/
def instr (op : Opcode) (args : List (List Char)) : Except LineCause Instr :=
  match op, args with
  | .row, [] => return .row
  | .const, [a] => return .const (← immediate a)
  | .load, [c, r] => return .load (← binding 'c' c) (← register r)
  | .label, [t, r] => return .label (← binding 't' t) (← register r)
  | .stride, [a, b, s] => return .stride (← register a) (← register b) (← step s)
  | .unary op, [a] => return .unary op (← register a)
  | .binary op, [a, b] => return .binary op (← register a) (← register b)
  | .ternary op, [a, b, c] => return .ternary op (← register a) (← register b) (← register c)
  | op, args => throw (.wrongOperandCount (operandCount op) args.length)

end Listing

end LinkedTables
