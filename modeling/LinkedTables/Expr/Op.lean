import LinkedTables.Number.Pattern

/-!
# Operations on numbers

The operations of expressions, by the number of their operands. A truth value is a number: anything
but zero counts as true, and the answers are one and zero. Comparisons with a NaN are false, but for
`ne`.

Each operation is given on numbers and on bit patterns. The two agree, and the patterns also say
which NaN it is: a change of sign changes the sign alone, a choice takes the operand as it is,
minimum and maximum give a new NaN, and all others take one over from the operands.
-/

namespace LinkedTables

inductive Op1 where
  | neg | not | abs | exp | log | sqrt
  deriving DecidableEq, Repr

inductive Op2 where
  | add | sub | mul | div | mod | pow
  | eq | ne | lt | le | gt | ge
  | and | or
  | min | max
  deriving DecidableEq, Repr

inductive Op3 where
  /-- The first operand, raised to the second and lowered to the third. -/
  | clip
  /-- The second operand where the first is true, else the third. -/
  | select
  deriving DecidableEq, Repr

open Number (truth ofBool)

def Op1.apply : Op1 → Float → Float
  | neg, a => -a
  | not, a => ofBool (!truth a)
  | abs, a => a.abs
  | exp, a => a.exp
  | log, a => a.log
  | sqrt, a => a.sqrt

def Op2.apply : Op2 → Float → Float → Float
  | add, a, b => a + b
  | sub, a, b => a - b
  | mul, a, b => a * b
  | div, a, b => a / b
  | mod, a, b => Number.floorMod a b
  | pow, a, b => Float.pow a b
  | eq, a, b => ofBool (a == b)
  | ne, a, b => ofBool (a != b)
  | lt, a, b => ofBool (a < b)
  | le, a, b => ofBool (a ≤ b)
  | gt, a, b => ofBool (b < a)
  | ge, a, b => ofBool (b ≤ a)
  | and, a, b => ofBool (truth a && truth b)
  | or, a, b => ofBool (truth a || truth b)
  | min, a, b => Number.minimum a b
  | max, a, b => Number.maximum a b

def Op3.apply : Op3 → Float → Float → Float → Float
  | clip, a, b, c => Number.minimum (Number.maximum a b) c
  | select, a, b, c => if truth a then b else c

def Op1.applyBits (op : Op1) (a : UInt64) : UInt64 :=
  let nanPattern := match op with
    | neg => a ^^^ Number.signBit
    | abs => Number.withoutSign a
    | _ => Number.propagated [a]
  Number.patternOr nanPattern (op.apply (.ofBits a))

def Op2.applyBits (op : Op2) (a b : UInt64) : UInt64 :=
  let nanPattern := match op with
    | min | max => Number.nanBits
    | _ => Number.propagated [a, b]
  Number.patternOr nanPattern (op.apply (.ofBits a) (.ofBits b))

def Op3.applyBits (op : Op3) (a b c : UInt64) : UInt64 :=
  let nanPattern := match op with
    | clip => Number.nanBits
    | select => if truth (.ofBits a) then b else c
  Number.patternOr nanPattern (op.apply (.ofBits a) (.ofBits b) (.ofBits c))

/-- The answer is a truth value. -/
def Op1.isTruth : Op1 → Bool
  | not => true
  | _ => false

/-- The answer is a truth value. -/
def Op2.isTruth : Op2 → Bool
  | eq | ne | lt | le | gt | ge | and | or => true
  | _ => false

def Op1.name : Op1 → String
  | neg => "neg" | not => "not" | abs => "abs" | exp => "exp" | log => "log" | sqrt => "sqrt"

def Op2.name : Op2 → String
  | add => "add" | sub => "sub" | mul => "mul" | div => "div" | mod => "mod" | pow => "pow"
  | eq => "eq" | ne => "ne" | lt => "lt" | le => "le" | gt => "gt" | ge => "ge"
  | and => "and" | or => "or" | min => "min" | max => "max"

def Op3.name : Op3 → String
  | clip => "clip" | select => "where"

/-- The functions that an expression can call. -/
inductive Func where
  | one (op : Op1)
  | two (op : Op2)
  | three (op : Op3)
  deriving DecidableEq, Repr

namespace Func

def arity : Func → Nat
  | one _ => 1
  | two _ => 2
  | three _ => 3

def name : Func → String
  | one op => op.name
  | two op => op.name
  | three op => op.name

def ofName? : String → Option Func
  | "abs" => some (one .abs)
  | "exp" => some (one .exp)
  | "log" => some (one .log)
  | "sqrt" => some (one .sqrt)
  | "min" | "minimum" => some (two .min)
  | "max" | "maximum" => some (two .max)
  | "pow" | "power" => some (two .pow)
  | "clip" => some (three .clip)
  | "where" => some (three .select)
  | _ => none

end Func

end LinkedTables
