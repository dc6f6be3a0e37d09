import LinkedTables.Expr.Op

/-!
# Operation codes

What one slot or one instruction computes. Four codes read something from outside: the row, a
constant, an entry of a column, an entry of a label table. The others are pure: they depend on their
operands alone, and `stride` is `a + b * c`.
-/

namespace LinkedTables

inductive Opcode where
  | row
  | const
  | load
  | label
  | stride
  | unary (op : Op1)
  | binary (op : Op2)
  | ternary (op : Op3)
  deriving DecidableEq, Repr

namespace Opcode

def all : List Opcode :=
  [row, const, load, label, stride]
    ++ [Op1.neg, .not, .abs, .exp, .log, .sqrt].map unary
    ++ [Op2.add, .sub, .mul, .div, .mod, .pow, .eq, .ne, .lt, .le, .gt, .ge, .and, .or, .min,
      .max].map binary
    ++ [Op3.clip, .select].map ternary

def mnemonic : Opcode → String
  | row => "row"
  | const => "const"
  | load => "load"
  | label => "label"
  | stride => "stride"
  | unary op => op.name
  | binary op => op.name
  | ternary op => op.name

def ofMnemonic? (s : String) : Option Opcode := all.find? fun op => op.mnemonic == s

/-- The number of operands that are registers. -/
def arity : Opcode → Nat
  | row | const => 0
  | load | label => 1
  | stride => 2
  | unary _ => 1
  | binary _ => 2
  | ternary _ => 3

def isPure : Opcode → Bool
  | row | const | load | label => false
  | _ => true

/-- The value for three operands, of which a code uses as many as it has; codes that are not pure
have no value of their own. -/
def apply : Opcode → Float → Float → Float → Float
  | unary op, a, _, _ => op.apply a
  | binary op, a, b, _ => op.apply a b
  | ternary op, a, b, c => op.apply a b c
  | stride, a, b, c => a + b * c
  | row, _, _, _ | const, _, _, _ | load, _, _, _ | label, _, _, _ => Number.nan

/-- The bit pattern of the value for operands given by their bit patterns. -/
def applyBits : Opcode → UInt64 → UInt64 → UInt64 → UInt64
  | unary op, a, _, _ => op.applyBits a
  | binary op, a, b, _ => op.applyBits a b
  | ternary op, a, b, c => op.applyBits a b c
  | stride, a, b, c =>
    Number.patternOr (Number.propagated [a, b, c]) (.ofBits a + .ofBits b * .ofBits c)
  | row, _, _, _ | const, _, _, _ | load, _, _, _ | label, _, _, _ => Number.nanBits

end Opcode

end LinkedTables
