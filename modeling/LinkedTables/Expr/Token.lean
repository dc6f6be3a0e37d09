import LinkedTables.Number.Decimal
import LinkedTables.Number.Shortest
import LinkedTables.Text.Name

/-!
# Tokens

The text of an expression is cut into lexemes, with blanks between them. How far a lexeme goes is
read off the text at its start, and what token it is depends on the characters of the lexeme alone.
Of two lexemes that could start at the same place the longer one wins: `**` before `*`, `1.5` before
`1`.

A lexeme keeps its characters and its place, counted in bytes of UTF-8. Written with one space
between them, the lexemes of a text are its normal form: two texts that differ in blanks alone have
the same.
-/

namespace LinkedTables

/-- A stretch of a text, in bytes of UTF-8. -/
structure Span where
  start : Nat
  stop : Nat
  deriving DecidableEq, Repr

inductive TokenKind where
  | number (value : Float)
  | ident (name : String)
  | bool (value : Bool)
  | dot | comma | lparen | rparen
  | plus | minus | star | starStar | slash | percent
  | eq | ne | lt | le | gt | ge
  | and | or | bang | not
  deriving DecidableEq

structure Token where
  kind : TokenKind
  text : List Char
  span : Span
  deriving DecidableEq

inductive LexCause where
  | badNumber (text : List Char)
  | badChar (c : Char)
  deriving DecidableEq, Repr

structure LexFault where
  pos : Nat
  cause : LexCause
  deriving DecidableEq, Repr

def LexCause.message : LexCause → String
  | badNumber text => s!"invalid number literal '{String.ofList text}'"
  | badChar c => s!"unexpected character '{String.ofList [c]}'"

/-- How a token is called. -/
def TokenKind.describe : TokenKind → String
  | number v => s!"number {Number.text v}"
  | ident s => s!"name '{s}'"
  | bool true => "True"
  | bool false => "False"
  | dot => "Dot" | comma => "Comma" | lparen => "LParen" | rparen => "RParen"
  | plus => "Plus" | minus => "Minus" | star => "Star" | starStar => "StarStar"
  | slash => "Slash" | percent => "Percent"
  | eq => "Eq" | ne => "Ne" | lt => "Lt" | le => "Le" | gt => "Gt" | ge => "Ge"
  | and => "And" | or => "Or" | bang => "Bang" | not => "Not"

namespace Token

/-- The blanks between lexemes; a vertical tab is none of them. -/
def isBlank (c : Char) : Bool := c == ' ' || c == '\t' || c == '\n' || c == '\r' || c == '\x0c'

/-- Two characters that are one lexeme. -/
def pair? : Char → Char → Option TokenKind
  | '*', '*' => some .starStar
  | '=', '=' => some .eq
  | '!', '=' => some .ne
  | '<', '=' => some .le
  | '>', '=' => some .ge
  | '&', '&' => some .and
  | '|', '|' => some .or
  | _, _ => none

/-- A character that is a lexeme. -/
def single? : Char → Option TokenKind
  | '.' => some .dot
  | ',' => some .comma
  | '(' => some .lparen
  | ')' => some .rparen
  | '+' => some .plus
  | '-' => some .minus
  | '*' => some .star
  | '/' => some .slash
  | '%' => some .percent
  | '<' => some .lt
  | '>' => some .gt
  | '&' => some .and
  | '|' => some .or
  | '!' | '~' => some .bang
  | _ => none

/-- What a name stands for; some names are words of the grammar. -/
def word (cs : List Char) : TokenKind :=
  match String.ofList cs with
  | "true" | "True" => .bool true
  | "false" | "False" => .bool false
  | "and" => .and
  | "or" => .or
  | "not" => .not
  | s => .ident s

/-- A digit, or a point with a digit after it. -/
def startsNumber : List Char → Bool
  | '.' :: d :: _ => d.isDigit
  | c :: _ => c.isDigit
  | [] => false

/-- The length of an exponent with at least one digit; without one there is no exponent. -/
def exponentLength : List Char → Nat
  | c :: cs =>
    if c == 'e' || c == 'E' then
      let (sign, ds) : Nat × List Char := match cs with
        | '+' :: rest => (1, rest)
        | '-' :: rest => (1, rest)
        | _ => (0, cs)
      match (ds.takeWhile Char.isDigit).length with
      | 0 => 0
      | n + 1 => sign + n + 2
    else 0
  | [] => 0

def inMantissa (c : Char) : Bool := c.isDigit || c == '.'

def numberLength (cs : List Char) : Nat :=
  (cs.takeWhile inMantissa).length + exponentLength (cs.dropWhile inMantissa)

/-- The number of characters of the lexeme at the start of a text that starts with no blank. -/
def lexemeLength : List Char → Nat
  | [] => 0
  | c :: cs =>
    if (cs.head?.bind (pair? c)).isSome then 2
    else if startsNumber (c :: cs) then numberLength (c :: cs)
    else if Text.startsName c then 1 + (cs.takeWhile Text.continuesName).length
    else 1

/-- The token that a lexeme is. -/
def kind? (lexeme : List Char) : Option TokenKind :=
  match lexeme with
  | [] => none
  | c :: cs =>
    if startsNumber lexeme then (Number.read? lexeme).map .number
    else if Text.startsName c then some (word lexeme)
    else match cs with
      | [] => single? c
      | [d] => pair? c d
      | _ => none

/-- Why a lexeme is no token. -/
def cause (lexeme : List Char) : LexCause :=
  if startsNumber lexeme then .badNumber lexeme else .badChar (lexeme.headD ' ')

def byteLength (cs : List Char) : Nat := cs.foldl (fun n c => n + c.utf8Size) 0

/-- The tokens of a text that starts at a place. Every call takes a character, so the length of the
text is fuel enough. -/
def scanFrom : Nat → Nat → List Char → Except LexFault (List Token)
  | _, _, [] => .ok []
  | 0, _, _ => .ok []
  | fuel + 1, pos, c :: cs =>
    if isBlank c then scanFrom fuel (pos + c.utf8Size) cs
    else
      let n := lexemeLength (c :: cs)
      let lexeme := (c :: cs).take n
      let stop := pos + byteLength lexeme
      match kind? lexeme with
      | none => .error ⟨pos, cause lexeme⟩
      | some kind => do
        let rest ← scanFrom fuel stop ((c :: cs).drop n)
        return ⟨kind, lexeme, ⟨pos, stop⟩⟩ :: rest

def scan (cs : List Char) : Except LexFault (List Token) := scanFrom cs.length 0 cs

/-- The normal form: the lexemes with one space between them. -/
def normal (tokens : List Token) : String :=
  " ".intercalate (tokens.map fun t => String.ofList t.text)

end Token

end LinkedTables
