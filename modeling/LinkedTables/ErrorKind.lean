import LinkedTables.Text.Shorten

/-!
# Kinds of errors

What went wrong, roughly: with the graph of tables, with a name, with a type, with a text, with the
files of compiled kernels, with the shape of data, with the data themselves, with the mode of a run,
or with the library itself. Most messages start by saying so. A message about an expression names it
by its number and shows its text, shortened.
-/

namespace LinkedTables

inductive ErrorKind where
  | graph
  | resolution
  | type
  | compile
  | cache
  | shape
  | domain
  | mode
  | internal
  deriving DecidableEq, Repr

namespace ErrorKind

/-- A message of a kind that is not about an expression. -/
def told (kind : ErrorKind) (text : String) : String :=
  match kind with
  | graph => "Graph error: " ++ text
  | compile => "Compile error: " ++ text
  | cache => "Kernel cache unavailable: " ++ text
  | shape => "Shape mismatch: " ++ text
  | domain => "Domain error: " ++ text
  | internal => "Internal error: " ++ text
  | resolution | type | mode => text

end ErrorKind

/-- An expression of a set. -/
structure Site where
  index : Nat
  text : String
  deriving DecidableEq, Repr

namespace Site

/-- The longest that the text of an expression is shown. -/
def shownLength : Nat := 80

def place (s : Site) : String := s!"in expression {s.index} ({Text.shorten s.text shownLength})"

/-- A message about the text of an expression, of which the number or even the text may be missing.
-/
def compileMessage (index : Option Nat) (text cause : String) : String :=
  match index with
  | some i => s!"Compile error {Site.place ⟨i, text⟩}: {cause}"
  | none =>
    if text.isEmpty then ErrorKind.compile.told cause
    else s!"Compile error ({Text.shorten text shownLength}): {cause}"

end Site

end LinkedTables
