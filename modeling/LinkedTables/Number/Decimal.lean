/-!
# Decimal numerals

A numeral is digits with at most one point among them, then perhaps an exponent: `12`, `1.5`, `.5`,
`1.`, `2e-3`. At least one digit stands before the exponent. Its value is the nearest double, ties
to even; one too large is infinite.
-/

namespace LinkedTables

namespace Number

/-- The value of a row of decimal digits, most significant first. -/
def digitsToNat (ds : List Char) : Nat :=
  ds.foldl (fun acc c => acc * 10 + (c.val.toNat - 0x30)) 0

/-- The double nearest to `m · 10 ^ e`. -/
def scaled (m : Nat) (e : Int) : Float := Float.ofScientific m (decide (e < 0)) e.natAbs

/-- The exponent that a numeral ends with; none is the exponent zero. -/
def exponent? : List Char → Option Int
  | [] => some 0
  | c :: cs =>
    if c == 'e' || c == 'E' then
      let (sign, ds) : Int × List Char := match cs with
        | '-' :: rest => (-1, rest)
        | '+' :: rest => (1, rest)
        | _ => (1, cs)
      if !ds.isEmpty && ds.all Char.isDigit then some (sign * (digitsToNat ds : Int)) else none
    else none

/-- Digits up to the point, digits after it, and the rest. -/
def mantissa (cs : List Char) : List Char × List Char × List Char :=
  let whole := cs.takeWhile Char.isDigit
  match cs.dropWhile Char.isDigit with
  | '.' :: rest => (whole, rest.takeWhile Char.isDigit, rest.dropWhile Char.isDigit)
  | rest => (whole, [], rest)

/-- The double that a numeral without a sign denotes. -/
def read? (cs : List Char) : Option Float :=
  let (whole, fraction, rest) := mantissa cs
  let digits := whole ++ fraction
  if digits.isEmpty then none
  else (exponent? rest).map fun e => scaled (digitsToNat digits) (e - fraction.length)

end Number

end LinkedTables
