import LinkedTables.Analysis.Fault
import LinkedTables.Expr.ExprSet

/-!
# What names stand for

A bare name is a constant of the set, or else a variable of the root. A dotted name is a variable of
the named table, which must be reachable from the root unless the variable has no dimensions.
-/

namespace LinkedTables

structure Scope where
  graph : LinkGraph
  root : Table
  constants : List (String × UInt64)

inductive Meaning where
  | constant (bits : UInt64)
  | variable_ (table var : String)
  deriving DecidableEq, Repr

namespace Scope

def dotted (table var : String) : String := s!"{table}.{var}"

def resolveBare (sc : Scope) (site : Site) (name : String) : Except AnalysisFault Meaning :=
  match sc.constants.lookup name with
  | some bits => .ok (.constant bits)
  | none =>
    if (sc.root.data.var? name).isSome then .ok (.variable_ sc.root.name name)
    else .error (.unknownName site name)

def resolveDotted (sc : Scope) (site : Site) (table var : String) : Except AnalysisFault Meaning :=
  match (sc.graph.data? table).bind fun ds => ds.var? var with
  | none => .error (.unknownName site (dotted table var))
  | some v =>
    if !v.dims.isEmpty && !sc.graph.isReachable table then
      .error (.unreachable site (dotted table var) sc.root.name)
    else .ok (.variable_ table var)

def resolve (sc : Scope) (site : Site) (table : Option String) (name : String) :
    Except AnalysisFault Meaning :=
  match table with
  | none => sc.resolveBare site name
  | some t => sc.resolveDotted site t name

/-- A table and one of its variables, both known to be there. -/
def fetch (sc : Scope) (table var : String) : Except AnalysisFault (Dataset × Variable) :=
  match sc.graph.data? table with
  | none => .error (.graph (.unknownTable table))
  | some ds =>
    match ds.var? var with
    | none => .error (.vanished (dotted table var))
    | some v => .ok (ds, v)

end Scope

end LinkedTables
