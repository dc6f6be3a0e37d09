/-!
# Sets of expressions

Expressions under names, in order, with constants that they may use. A name may stand for several
expressions; a constant has one value, the last one given, and the constants are in the order of
their names. A constant is kept as its bit pattern, so that every NaN stays what it was.
-/

namespace LinkedTables

structure ExprSet where
  /-- Names with texts. -/
  entries : List (String × String)
  /-- Names with bit patterns, in ascending order. -/
  constants : List (String × UInt64)
  deriving DecidableEq, Inhabited

namespace ExprSet

def empty : ExprSet := ⟨[], []⟩

/-- Every text under itself. -/
def ofTexts (texts : List String) : ExprSet := ⟨texts.map fun t => (t, t), []⟩

def push (s : ExprSet) (name text : String) : ExprSet :=
  { s with entries := s.entries ++ [(name, text)] }

/-- Puts a constant in its place, or in the place of the one with its name. -/
def insertConstant (name : String) (bits : UInt64) : List (String × UInt64) → List (String × UInt64)
  | [] => [(name, bits)]
  | (n, b) :: rest =>
    if n == name then (name, bits) :: rest
    else if name < n then (name, bits) :: (n, b) :: rest
    else (n, b) :: insertConstant name bits rest

def withConstant (s : ExprSet) (name : String) (bits : UInt64) : ExprSet :=
  { s with constants := insertConstant name bits s.constants }

def names (s : ExprSet) : List String := s.entries.map (·.1)

def texts (s : ExprSet) : List String := s.entries.map (·.2)

def constant? (s : ExprSet) (name : String) : Option UInt64 := s.constants.lookup name

end ExprSet

end LinkedTables
