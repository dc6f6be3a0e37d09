import LinkedTables.Expr.Op
import LinkedTables.Expr.Token

/-!
# Expressions

An expression as a tree. Every operation has exactly as many operands as it takes; one that was
written as a call of a function remembers where. A name is bare, or the variable of a table.
-/

namespace LinkedTables

inductive Expr where
  | number (value : Float)
  | bool (value : Bool)
  | name (table : Option String) (name : String) (span : Span)
  | unary (op : Op1) (a : Expr) (call : Option Span)
  | binary (op : Op2) (a b : Expr) (call : Option Span)
  | ternary (op : Op3) (a b c : Expr) (call : Option Span)
  deriving DecidableEq

namespace Expr

/-- The names of an expression from left to right. -/
def names : Expr → List (Option String × String × Span)
  | number _ | bool _ => []
  | name table n span => [(table, n, span)]
  | unary _ a _ => a.names
  | binary _ a b _ => a.names ++ b.names
  | ternary _ a b c _ => a.names ++ b.names ++ c.names

/-- The number with its sign changed, if the expression is a number. -/
def negated : Expr → Expr
  | number v => number (-v)
  | e => unary .neg e none

/-- A name as it is written. -/
def dotted (table : Option String) (name : String) : String :=
  match table with
  | some t => s!"{t}.{name}"
  | none => name

end Expr

end LinkedTables
