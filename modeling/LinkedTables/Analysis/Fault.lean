import LinkedTables.ErrorKind
import LinkedTables.Expr.Grammar
import LinkedTables.Links.Graph

/-!
# Faults of an analysis

Why a set of expressions has no meaning over a graph: the graph has no root to walk, the set is
empty, or one expression cannot be read, names something that is not there, or uses it as what it is
not.
-/

namespace LinkedTables

inductive TypeCause where
  | textResult (name : String)
  | textOperand (name : String)
  | unfed (table dim root : String)
  | kinds (link : Link) (values : ValueKind) (labels : LabelKind)
  deriving DecidableEq, Repr

inductive AnalysisFault where
  | graph (fault : GraphFault)
  | emptySet
  | unreadable (site : Site) (fault : ParseFault)
  | unknownName (site : Site) (name : String)
  | unreachable (site : Site) (name root : String)
  | type (site : Site) (cause : TypeCause)
  | missingSource (link : Link)
  | vanished (name : String)
  | tooDeep (table : String)
  deriving DecidableEq

def ValueKind.word : ValueKind → String
  | numeric => "numeric"
  | string => "string"

def LabelKind.word : LabelKind → String
  | integer => "integer"
  | string => "string"

def TypeCause.message : TypeCause → String
  | textResult n => s!"string-valued variable '{n}' cannot be an expression result"
  | textOperand n => s!"string-valued variable '{n}' can only be used as a relationship source"
  | unfed t d r =>
    s!"dimension '{t}.{d}' is not fed by any relationship and cannot broadcast against root '{r}'"
  | kinds l v k =>
    s!"relationship '{l.text}' looks up {v.word} values against {k.word} coordinates"

namespace AnalysisFault

def kind : AnalysisFault → ErrorKind
  | graph _ => .graph
  | emptySet => .compile
  | unreadable _ _ => .compile
  | unknownName _ _ => .resolution
  | unreachable _ _ _ => .resolution
  | type _ _ => .type
  | missingSource _ => .graph
  | vanished _ => .internal
  | tooDeep _ => .internal

def message : AnalysisFault → String
  | graph f => ErrorKind.graph.told f.message
  | emptySet => ErrorKind.compile.told "expression set is empty"
  | unreadable s f => Site.compileMessage (some s.index) s.text f.message
  | unknownName s n => s!"Cannot resolve '{n}' {s.place}"
  | unreachable s n r => s!"Cannot resolve '{n} (no relationship path from root '{r}')' {s.place}"
  | type s c => s!"Type error {s.place}: {c.message}"
  | missingSource l =>
    ErrorKind.graph.told s!"relationship '{l.text}' names a missing variable"
  | vanished n => ErrorKind.internal.told s!"variable '{n}' vanished during analysis"
  | tooDeep t => ErrorKind.internal.told s!"links into '{t}' do not end"

end AnalysisFault

end LinkedTables
