import LinkedTables.Analysis.Scope
import LinkedTables.Links.Paths

/-!
# Types of expressions

An expression is a number or a truth value, and it is the same in all rows or one value per row. A
variable of texts has the type of labels, which is neither an operand nor a result: texts are only
looked up.

Typing notes every variable that an expression refers to, once, with its dimensions and the links on
the way to its table.
-/

namespace LinkedTables

inductive ValueType where
  | number
  | boolean
  | label
  deriving DecidableEq, Repr

inductive Extent where
  | scalar
  | row
  deriving DecidableEq, Repr

structure Typed where
  type : ValueType
  extent : Extent
  deriving DecidableEq, Repr

structure Reference where
  table : String
  var : String
  dims : List String
  /-- The links on the path to the table, as texts. -/
  path : List String
  deriving DecidableEq, Repr

/-- One value per row as soon as one part has one. -/
def Extent.join : Extent → Extent → Extent
  | scalar, scalar => scalar
  | _, _ => row

def ValueType.ofTruth (isTruth : Bool) : ValueType := if isTruth then boolean else number

/-- Computations that note references. -/
abbrev Noting := StateT (List Reference) (Except AnalysisFault)

namespace Typing

/-- Notes a variable, if it was not noted before. -/
def note (sc : Scope) (table var : String) (dims : List String) : Noting Unit := do
  let noted ← get
  if noted.any fun r => r.table == table && r.var == var then return
  match sc.graph.pathLinks table with
  | .error f => throw (.graph f)
  | .ok links => set (noted ++ [⟨table, var, dims, links.map Link.text⟩])

def ofVariable (sc : Scope) (table var : String) : Noting Typed := do
  let (ds, v) ← sc.fetch table var
  note sc table var (ds.dimNames v.dims)
  let type : ValueType := match v.values.kind with
    | .numeric => .number
    | .string => .label
  return ⟨type, if v.dims.isEmpty then .scalar else .row⟩

/-- How an expression that is a label is called. -/
def labelName : Expr → String
  | .name table name _ => Expr.dotted table name
  | _ => "?"

/-- A label is no operand. -/
def asOperand (site : Site) (e : Expr) (t : Typed) : Noting Typed :=
  if t.type = .label then throw (.type site (.textOperand (labelName e))) else return t

def annotate (sc : Scope) (site : Site) : Expr → Noting Typed
  | .number _ => return ⟨.number, .scalar⟩
  | .bool _ => return ⟨.boolean, .scalar⟩
  | .name table name _ => do
    match ← sc.resolve site table name with
    | .constant _ => return ⟨.number, .scalar⟩
    | .variable_ t v => ofVariable sc t v
  | .unary op a _ => do
    let ta ← asOperand site a (← annotate sc site a)
    return ⟨.ofTruth op.isTruth, ta.extent⟩
  | .binary op a b _ => do
    let ta ← asOperand site a (← annotate sc site a)
    let tb ← asOperand site b (← annotate sc site b)
    return ⟨.ofTruth op.isTruth, ta.extent.join tb.extent⟩
  | .ternary _ a b c _ => do
    let ta ← asOperand site a (← annotate sc site a)
    let tb ← asOperand site b (← annotate sc site b)
    let tc ← asOperand site c (← annotate sc site c)
    return ⟨.number, (ta.extent.join tb.extent).join tc.extent⟩

/-- The type of a whole expression; a label is no result. -/
def ofResult (sc : Scope) (site : Site) (e : Expr) : Noting Typed := do
  let t ← annotate sc site e
  if t.type = .label then throw (.type site (.textResult (labelName e)))
  return t

end Typing

end LinkedTables
