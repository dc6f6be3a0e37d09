import LinkedTables.Json.Basic
import LinkedTables.Text.Numeral

/-!
# JSON text, read

One value with blanks around it, and nothing else. Each reader takes the text at its start and gives
back the rest. The fuel bounds the nesting of calls; every second call takes a character, so twice
the length of the text is enough.
-/

namespace LinkedTables

namespace Json

def isSpace (c : Char) : Bool := c == ' ' || c == '\t' || c == '\n' || c == '\r'

def skipSpace (cs : List Char) : List Char := cs.dropWhile isSpace

/-- Four digits in base sixteen. -/
def unit16? : List Char → Option (Nat × List Char)
  | a :: b :: c :: d :: rest => (Text.digitsValue? 16 0 [a, b, c, d]).map fun n => (n, rest)
  | _ => none

def isHighUnit (n : Nat) : Bool := 0xD800 ≤ n && n < 0xDC00

def isLowUnit (n : Nat) : Bool := 0xDC00 ≤ n && n < 0xE000

/-- The character of a `\u` escape, `none` for half of a surrogate pair, and the rest. -/
def escapedUnit? (cs : List Char) : Option (Option Char × List Char) :=
  match unit16? cs with
  | none => none
  | some (n, rest) =>
    if isHighUnit n then
      match rest with
      | '\\' :: 'u' :: more =>
        match unit16? more with
        | some (m, rest') =>
          if isLowUnit m then
            some (some (Char.ofNat (0x10000 + (n - 0xD800) * 0x400 + (m - 0xDC00))), rest')
          else some (none, rest)
        | none => some (none, rest)
      | _ => some (none, rest)
    else if isLowUnit n then some (none, rest)
    else some (some (Char.ofNat n), rest)

/-- The rest of a text after its opening quote: its characters, whether it is broken, what follows.
-/
def textRest? : Nat → List Char → Bool → List Char → Option (List Char × Bool × List Char)
  | 0, _, _, _ => none
  | _ + 1, acc, broken, '"' :: rest => some (acc.reverse, broken, rest)
  | fuel + 1, acc, broken, '\\' :: c :: rest =>
    match c with
    | '"' => textRest? fuel ('"' :: acc) broken rest
    | '\\' => textRest? fuel ('\\' :: acc) broken rest
    | '/' => textRest? fuel ('/' :: acc) broken rest
    | 'b' => textRest? fuel ('\x08' :: acc) broken rest
    | 'f' => textRest? fuel ('\x0c' :: acc) broken rest
    | 'n' => textRest? fuel ('\n' :: acc) broken rest
    | 'r' => textRest? fuel ('\r' :: acc) broken rest
    | 't' => textRest? fuel ('\t' :: acc) broken rest
    | 'u' =>
      match escapedUnit? rest with
      | some (some ch, rest') => textRest? fuel (ch :: acc) broken rest'
      | some (none, rest') => textRest? fuel acc true rest'
      | none => none
    | _ => none
  | fuel + 1, acc, broken, c :: rest =>
    if c.val < 0x20 || c == '\\' then none else textRest? fuel (c :: acc) broken rest
  | _ + 1, _, _, [] => none

def textFrom? (afterQuote : List Char) : Option (List Char × Bool × List Char) :=
  textRest? (afterQuote.length + 1) [] false afterQuote

/-- At least one digit. -/
def digitsFrom? (cs : List Char) : Option (List Char × List Char) :=
  let ds := cs.takeWhile Char.isDigit
  if ds.isEmpty then none else some (ds, cs.dropWhile Char.isDigit)

/-- Digits without needless zeros in front. -/
def wholePart? : List Char → Option (List Char × List Char)
  | '0' :: rest => some (['0'], rest)
  | cs => digitsFrom? cs

def fractionPart? : List Char → Option (List Char × List Char)
  | '.' :: rest => (digitsFrom? rest).map fun (ds, more) => ('.' :: ds, more)
  | cs => some ([], cs)

def exponentPart? : List Char → Option (List Char × List Char)
  | c :: cs =>
    if c == 'e' || c == 'E' then
      match cs with
      | '-' :: rest => (digitsFrom? rest).map fun (ds, more) => (c :: '-' :: ds, more)
      | '+' :: rest => (digitsFrom? rest).map fun (ds, more) => (c :: '+' :: ds, more)
      | _ => (digitsFrom? cs).map fun (ds, more) => (c :: ds, more)
    else some ([], c :: cs)
  | [] => some ([], [])

def numberFrom? (cs : List Char) : Option (Json × List Char) := do
  let (sign, body) : List Char × List Char := match cs with
    | '-' :: rest => (['-'], rest)
    | _ => ([], cs)
  let (whole, r₁) ← wholePart? body
  let (fraction, r₂) ← fractionPart? r₁
  let (exponent, r₃) ← exponentPart? r₂
  return (.number (sign ++ whole ++ fraction ++ exponent), r₃)

mutual

def valueFrom? : Nat → List Char → Option (Json × List Char)
  | 0, _ => none
  | fuel + 1, cs =>
    match skipSpace cs with
    | '\x7b' :: rest =>
      match skipSpace rest with
      | '\x7d' :: rest' => some (.object [], rest')
      | rest' =>
        (fieldsFrom? fuel [] false rest').map fun (fs, broken, more) =>
          (if broken then .halved else .object fs, more)
    | '[' :: rest =>
      match skipSpace rest with
      | ']' :: rest' => some (.list [], rest')
      | rest' => (itemsFrom? fuel [] rest').map fun (js, more) => (.list js, more)
    | '"' :: rest =>
      (textFrom? rest).map fun (s, broken, more) =>
        (if broken then .halved else .text (String.ofList s), more)
    | 'n' :: 'u' :: 'l' :: 'l' :: rest => some (.null, rest)
    | 't' :: 'r' :: 'u' :: 'e' :: rest => some (.bool true, rest)
    | 'f' :: 'a' :: 'l' :: 's' :: 'e' :: rest => some (.bool false, rest)
    | rest => numberFrom? rest

/-- Values up to a closing bracket. -/
def itemsFrom? : Nat → List Json → List Char → Option (List Json × List Char)
  | 0, _, _ => none
  | fuel + 1, acc, cs =>
    match valueFrom? fuel cs with
    | none => none
    | some (j, rest) =>
      match skipSpace rest with
      | ',' :: rest' => itemsFrom? fuel (j :: acc) rest'
      | ']' :: rest' => some ((j :: acc).reverse, rest')
      | _ => none

/-- Named values up to a closing brace, and whether a name is broken. -/
def fieldsFrom? : Nat → List (String × Json) → Bool → List Char →
    Option (List (String × Json) × Bool × List Char)
  | 0, _, _, _ => none
  | fuel + 1, acc, broken, cs =>
    match skipSpace cs with
    | '"' :: rest =>
      match textFrom? rest with
      | none => none
      | some (name, brokenName, rest₁) =>
        match skipSpace rest₁ with
        | ':' :: rest₂ =>
          match valueFrom? fuel rest₂ with
          | none => none
          | some (j, rest₃) =>
            let fields := (String.ofList name, j) :: acc
            match skipSpace rest₃ with
            | ',' :: rest₄ => fieldsFrom? fuel fields (broken || brokenName) rest₄
            | '\x7d' :: rest₄ => some (fields.reverse, broken || brokenName, rest₄)
            | _ => none
        | _ => none
    | _ => none

end

/-- The value that a text spells. -/
def read? (cs : List Char) : Option Json :=
  match valueFrom? (2 * cs.length + 2) cs with
  | some (j, rest) => if (skipSpace rest).isEmpty then some j else none
  | none => none

end Json

end LinkedTables
