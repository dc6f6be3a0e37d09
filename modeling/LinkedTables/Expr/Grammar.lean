import LinkedTables.Expr.Tree

/-!
# The grammar of expressions

From the loosest to the tightest: `or`, `and`, `not`, one comparison, `+` and `-`, `*` and `/` and
`%`, the signs `-` and `+` and `!`, and `**`, whose right side may carry a sign again. Operators of
one level group to the left, `**` to the right, and comparisons do not group at all. A sign before a
number is part of the number.

Each rule takes the tokens at its start and gives back the rest. The fuel bounds the nesting of
rules: at most thirteen of them are entered before a token is taken, so sixteen for each token and
for the end of the text are enough.
-/

namespace LinkedTables

/-- What a rule wanted to see. -/
inductive Wanted where
  | closing
  | commaOrClosing
  deriving DecidableEq, Repr

inductive ParseCause where
  | lexical (cause : LexCause)
  | empty
  | trailing (found : TokenKind)
  | unexpected (found : TokenKind)
  | endOfText
  | wanted (what : Wanted) (found : Option TokenKind)
  | nameAfterDot (found : Option TokenKind)
  | notCallable (path : List String)
  | unknownFunction (name : String)
  | wrongArity (func : Func) (given : Nat)
  | tooManyDots (path : List String)
  | chainedComparison
  | tooDeep
  deriving DecidableEq

structure ParseFault where
  pos : Nat
  cause : ParseCause
  deriving DecidableEq

def Wanted.message : Wanted → String
  | closing => "')'"
  | commaOrClosing => "',' or ')'"

def ParseCause.message : ParseCause → String
  | lexical cause => cause.message
  | empty => "empty expression"
  | trailing t => s!"unexpected {t.describe} after expression"
  | unexpected t => s!"unexpected {t.describe}"
  | endOfText => "unexpected end of expression"
  | wanted what (some t) => s!"expected {what.message} but found {t.describe}"
  | wanted what none => s!"expected {what.message} but input ended"
  | nameAfterDot (some t) => s!"expected a name after '.' but found {t.describe}"
  | nameAfterDot none => "expected a name after '.'"
  | notCallable path => "'" ++ ".".intercalate path ++ "' is not a callable function"
  | unknownFunction name => s!"unsupported function '{name}'"
  | wrongArity f n => s!"{f.name}() takes {f.arity} arguments but {n} were given"
  | tooManyDots path =>
    "'" ++ ".".intercalate path ++ "' has too many '.' separators, expected 'node.variable'"
  | chainedComparison => "chained comparisons are not supported; combine them with 'and'"
  | tooDeep => "expression is nested too deeply"

def ParseFault.message (f : ParseFault) : String := s!"{f.cause.message} at offset {f.pos}"

namespace Grammar

/-- The levels of operators that group to the left. -/
inductive Level where
  | disjunction
  | conjunction
  | sum
  | product
  deriving DecidableEq, Repr

def Level.op? : Level → TokenKind → Option Op2
  | disjunction, .or => some .or
  | conjunction, .and => some .and
  | sum, .plus => some .add
  | sum, .minus => some .sub
  | product, .star => some .mul
  | product, .slash => some .div
  | product, .percent => some .mod
  | _, _ => none

def comparison? : TokenKind → Option Op2
  | .eq => some .eq
  | .ne => some .ne
  | .lt => some .lt
  | .le => some .le
  | .gt => some .gt
  | .ge => some .ge
  | _ => none

/-- A fault at the next token, or at the end of the text. -/
def faultAt (eof : Nat) (ts : List Token) (cause : Option TokenKind → ParseCause) : ParseFault :=
  match ts with
  | t :: _ => ⟨t.span.start, cause (some t.kind)⟩
  | [] => ⟨eof, cause none⟩

/-- The names after the first one of a dotted path, and where the path ends. -/
def pathRest (eof : Nat) : List String → Nat → List Token →
    Except ParseFault ((List String × Nat) × List Token)
  | path, stop, t :: ts =>
    match t.kind, ts with
    | .dot, t' :: rest =>
      match t'.kind with
      | .ident s => pathRest eof (path ++ [s]) t'.span.stop rest
      | _ => .error (faultAt eof ts .nameAfterDot)
    | .dot, [] => .error (faultAt eof ts .nameAfterDot)
    | _, _ => .ok ((path, stop), t :: ts)
  | path, stop, [] => .ok ((path, stop), [])

/-- The function that a path names, a library in front of it being passed over. -/
def callee (start : Nat) (path : List String) : Except ParseFault Func :=
  let named := fun (f : String) =>
    match Func.ofName? f with
    | some func => Except.ok func
    | none => .error ⟨start, .unknownFunction f⟩
  match path with
  | [f] => named f
  | ["np", f] => named f
  | ["numpy", f] => named f
  | _ => .error ⟨start, .notCallable path⟩

/-- A name that is not called. -/
def variable_ (span : Span) : List String → Except ParseFault Expr
  | [name] => .ok (.name none name span)
  | [table, name] => .ok (.name (some table) name span)
  | path => .error ⟨span.start, .tooManyDots path⟩

/-- A call with its arguments. -/
def call (func : Func) (args : List Expr) (span : Span) : Except ParseFault Expr :=
  match func, args with
  | .one op, [a] => .ok (.unary op a (some span))
  | .two op, [a, b] => .ok (.binary op a b (some span))
  | .three op, [a, b, c] => .ok (.ternary op a b c (some span))
  | _, _ => .error ⟨span.start, .wrongArity func args.length⟩

/-- The closing parenthesis, and where it ends. -/
def closing (eof : Nat) (what : Wanted) : List Token → Except ParseFault (Nat × List Token)
  | t :: ts =>
    if t.kind = .rparen then .ok (t.span.stop, ts)
    else .error ⟨t.span.start, .wanted what (some t.kind)⟩
  | [] => .error ⟨eof, .wanted what none⟩

mutual

/-- Operands of one level with its operators between them. -/
def chain (eof : Nat) : Nat → Level → List Token → Except ParseFault (Expr × List Token)
  | 0, _, _ => .error ⟨eof, .tooDeep⟩
  | fuel + 1, level, ts => do
    let (a, rest) ← operand eof fuel level ts
    chainRest eof fuel level a rest

def chainRest (eof : Nat) : Nat → Level → Expr → List Token → Except ParseFault (Expr × List Token)
  | 0, _, _, _ => .error ⟨eof, .tooDeep⟩
  | _ + 1, _, a, [] => .ok (a, [])
  | fuel + 1, level, a, t :: ts =>
    match level.op? t.kind with
    | none => .ok (a, t :: ts)
    | some op => do
      let (b, rest) ← operand eof fuel level ts
      chainRest eof fuel level (.binary op a b none) rest

def operand (eof : Nat) : Nat → Level → List Token → Except ParseFault (Expr × List Token)
  | 0, _, _ => .error ⟨eof, .tooDeep⟩
  | fuel + 1, .disjunction, ts => chain eof fuel .conjunction ts
  | fuel + 1, .conjunction, ts => negation eof fuel ts
  | fuel + 1, .sum, ts => chain eof fuel .product ts
  | fuel + 1, .product, ts => signed eof fuel ts

def negation (eof : Nat) : Nat → List Token → Except ParseFault (Expr × List Token)
  | 0, _ => .error ⟨eof, .tooDeep⟩
  | fuel + 1, [] => comparison eof fuel []
  | fuel + 1, t :: ts =>
    if t.kind = .not then do
      let (a, rest) ← negation eof fuel ts
      return (.unary .not a none, rest)
    else comparison eof fuel (t :: ts)

def comparison (eof : Nat) : Nat → List Token → Except ParseFault (Expr × List Token)
  | 0, _ => .error ⟨eof, .tooDeep⟩
  | fuel + 1, ts => do
    let (a, rest) ← chain eof fuel .sum ts
    match rest with
    | [] => return (a, [])
    | t :: ts' =>
      match comparison? t.kind with
      | none => return (a, t :: ts')
      | some op =>
        let (b, rest') ← chain eof fuel .sum ts'
        match rest' with
        | [] => return (.binary op a b none, [])
        | t' :: _ =>
          if (comparison? t'.kind).isSome then throw ⟨t'.span.start, .chainedComparison⟩
          else return (.binary op a b none, rest')

def signed (eof : Nat) : Nat → List Token → Except ParseFault (Expr × List Token)
  | 0, _ => .error ⟨eof, .tooDeep⟩
  | fuel + 1, [] => power eof fuel []
  | fuel + 1, t :: ts =>
    match t.kind with
    | .minus => do
      let (a, rest) ← signed eof fuel ts
      return (a.negated, rest)
    | .plus => signed eof fuel ts
    | .bang => do
      let (a, rest) ← signed eof fuel ts
      return (.unary .not a none, rest)
    | _ => power eof fuel (t :: ts)

def power (eof : Nat) : Nat → List Token → Except ParseFault (Expr × List Token)
  | 0, _ => .error ⟨eof, .tooDeep⟩
  | fuel + 1, ts => do
    let (a, rest) ← atom eof fuel ts
    match rest with
    | [] => return (a, [])
    | t :: ts' =>
      if t.kind = .starStar then
        let (b, rest') ← signed eof fuel ts'
        return (.binary .pow a b none, rest')
      else return (a, t :: ts')

def atom (eof : Nat) : Nat → List Token → Except ParseFault (Expr × List Token)
  | 0, _ => .error ⟨eof, .tooDeep⟩
  | _ + 1, [] => .error ⟨eof, .endOfText⟩
  | fuel + 1, t :: ts =>
    match t.kind with
    | .number v => .ok (.number v, ts)
    | .bool b => .ok (.bool b, ts)
    | .lparen => do
      let (a, rest) ← chain eof fuel .disjunction ts
      let (_, rest') ← closing eof .closing rest
      return (a, rest')
    | .ident first => do
      let ((path, stop), rest) ← pathRest eof [first] t.span.stop ts
      named eof fuel path ⟨t.span.start, stop⟩ rest
    | kind => .error ⟨t.span.start, .unexpected kind⟩

/-- A path, called if a parenthesis follows. -/
def named (eof : Nat) : Nat → List String → Span → List Token →
    Except ParseFault (Expr × List Token)
  | 0, _, _, _ => .error ⟨eof, .tooDeep⟩
  | _ + 1, path, span, [] => (variable_ span path).map fun e => (e, [])
  | fuel + 1, path, span, t :: ts =>
    if t.kind = .lparen then do
      let func ← callee span.start path
      let ((args, stop), rest) ← arguments eof fuel ts
      let e ← call func args ⟨span.start, stop⟩
      return (e, rest)
    else (variable_ span path).map fun e => (e, t :: ts)

def arguments (eof : Nat) : Nat → List Token →
    Except ParseFault ((List Expr × Nat) × List Token)
  | 0, _ => .error ⟨eof, .tooDeep⟩
  | fuel + 1, [] => argumentsRest eof fuel [] []
  | fuel + 1, t :: ts =>
    if t.kind = .rparen then .ok (([], t.span.stop), ts)
    else argumentsRest eof fuel [] (t :: ts)

/-- At least one more argument. -/
def argumentsRest (eof : Nat) : Nat → List Expr → List Token →
    Except ParseFault ((List Expr × Nat) × List Token)
  | 0, _, _ => .error ⟨eof, .tooDeep⟩
  | fuel + 1, args, ts => do
    let (a, rest) ← chain eof fuel .disjunction ts
    match rest with
    | [] => throw ⟨eof, .wanted .commaOrClosing none⟩
    | t :: ts' =>
      if t.kind = .comma then argumentsRest eof fuel (args ++ [a]) ts'
      else
        let (stop, rest') ← closing eof .commaOrClosing (t :: ts')
        return ((args ++ [a], stop), rest')

end

/-- The tree of a whole list of tokens; the text they come from ends at `eof`. -/
def parse (eof : Nat) (ts : List Token) : Except ParseFault Expr := do
  if ts.isEmpty then throw ⟨0, .empty⟩
  let (e, rest) ← chain eof (16 * (ts.length + 1)) .disjunction ts
  match rest with
  | [] => return e
  | t :: _ => throw ⟨t.span.start, .trailing t.kind⟩

end Grammar

/-- The tree of a text, and its tokens. -/
def Expr.read (text : String) : Except ParseFault (Expr × List Token) := do
  let cs := text.toList
  match Token.scan cs with
  | .error f => throw ⟨f.pos, .lexical f.cause⟩
  | .ok tokens =>
    let e ← Grammar.parse (Token.byteLength cs) tokens
    return (e, tokens)

end LinkedTables
