/-!
# Numerals

Reading of unsigned numerals with a bound, and writing in base sixteen. A numeral may start with
one `+`; it has at least one digit, any number of leading zeros, and a value below the bound.
-/

namespace LinkedTables

namespace Text

def digit? (base : Nat) (c : Char) : Option Nat :=
  let n := c.val.toNat
  let v :=
    if 0x30 ≤ n && n ≤ 0x39 then n - 0x30
    else if 0x61 ≤ n && n ≤ 0x66 then n - 0x61 + 10
    else if 0x41 ≤ n && n ≤ 0x46 then n - 0x41 + 10
    else base
  if v < base then some v else none

/-- The value of a row of digits, most significant first, on top of what was read before. -/
def digitsValue? (base : Nat) : Nat → List Char → Option Nat
  | acc, [] => some acc
  | acc, c :: cs => (digit? base c).bind fun d => digitsValue? base (acc * base + d) cs

/-- The value of a numeral, if there is one and it is below the bound. -/
def numeral? (base bound : Nat) (cs : List Char) : Option Nat :=
  let digits := match cs with
    | '+' :: rest => rest
    | _ => cs
  if digits.isEmpty then none
  else (digitsValue? base 0 digits).filter (· < bound)

/-- The number of values of a 32-bit word. -/
def bound32 : Nat := 4294967296

/-- The number of values of a 64-bit word. -/
def bound64 : Nat := 18446744073709551616

/-- A number in base sixteen, filled with zeros on the left to a width. -/
def hex (width n : Nat) : String :=
  let digits := Nat.toDigits 16 n
  String.ofList (List.replicate (width - digits.length) '0' ++ digits)

end Text

end LinkedTables
