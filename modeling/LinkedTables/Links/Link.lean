import LinkedTables.Text.Blank
import LinkedTables.Text.Name

/-!
# Links

A link leads from a variable of one table into a dimension of another. The values of the variable
are labels of the dimension (`trips.home @ zones.zone`) or positions along it (`trips.row ->
zones.zone`).

A link is written with one blank on each side of its mark. It is read with any blanks around the
names, the points and the mark.
-/

namespace LinkedTables

inductive LinkMode where
  | label
  | position
  deriving DecidableEq, Repr

structure Link where
  sourceTable : String
  sourceVar : String
  targetTable : String
  targetDim : String
  mode : LinkMode
  deriving DecidableEq, Repr

inductive LinkFault where
  | twoMarks (text : String)
  | noMark (text : String)
  | badEndpoint (text : String)
  deriving DecidableEq, Repr

def LinkFault.message : LinkFault → String
  | twoMarks t => s!"relationship '{t}' mixes '@' and '->'"
  | noMark t => s!"relationship '{t}' has no '@' or '->' operator"
  | badEndpoint t => s!"malformed relationship endpoint '{t}', expected 'node.name'"

def LinkMode.mark : LinkMode → String
  | label => "@"
  | position => "->"

namespace Link

def text (l : Link) : String :=
  s!"{l.sourceTable}.{l.sourceVar} {l.mode.mark} {l.targetTable}.{l.targetDim}"

/-- Two names with a point between them. -/
def endpoint (side : List Char) : Except LinkFault (String × String) :=
  let trimmed := Text.trim side
  match Text.pieces (· == '.') trimmed with
  | [a, b] =>
    let (table, member) := (Text.trim a, Text.trim b)
    if Text.isName table && Text.isName member then
      .ok (String.ofList table, String.ofList member)
    else .error (.badEndpoint (String.ofList trimmed))
  | _ => .error (.badEndpoint (String.ofList trimmed))

def ofSides (mode : LinkMode) (left right : List Char) : Except LinkFault Link := do
  let (sourceTable, sourceVar) ← endpoint left
  let (targetTable, targetDim) ← endpoint right
  return ⟨sourceTable, sourceVar, targetTable, targetDim, mode⟩

def read (cs : List Char) : Except LinkFault Link :=
  match Text.cutAt? ['-', '>'] cs, Text.cut? (· == '@') cs with
  | some (l, r), none => ofSides .position l r
  | none, some (l, r) => ofSides .label l r
  | some _, some _ => .error (.twoMarks (String.ofList (Text.trim cs)))
  | none, none => .error (.noMark (String.ofList (Text.trim cs)))

end Link

end LinkedTables
