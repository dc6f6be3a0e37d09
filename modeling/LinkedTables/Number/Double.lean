/-!
# Doubles as numbers

The parts of the arithmetic of doubles that programs of this library rely on beyond the four
operations: the remainder, whole numbers below a bound, clamped whole parts, and the two orders of
minimum and maximum. Each is given by the exact value of its arguments.
-/

namespace LinkedTables

namespace Number

open Float.Model (UnpackedFloat)

def nan : Float := 0.0 / 0.0

def infinity : Float := 1.0 / 0.0

/-- The remainder of the division rounded toward zero: exact, with the sign of the first argument.
-/
def remainder (a b : Float) : Float :=
  match a.toModel.unpack, b.toModel.unpack with
  | .notANumber, _ => nan
  | _, .notANumber => nan
  | .infinity _, _ => nan
  | _, .zero _ => nan
  | .zero _, _ => a
  | .finite .., .infinity _ => a
  | .finite s m p _, .finite _ n q _ =>
    let e := min p q
    let r := m * Nat.pow 2 (p - e).toNat % (n * Nat.pow 2 (q - e).toNat)
    .ofModel (.pack (UnpackedFloat.normalize .binary64 (s.apply r) e s))

/-- The remainder that has the sign of the divisor. -/
def floorMod (a b : Float) : Float :=
  let r := remainder a b
  if r != 0.0 && (decide (r < 0.0) != decide (b < 0.0)) then r + b else r

/-- The lesser of two numbers, a NaN if either is one. -/
def minimum (a b : Float) : Float :=
  if a.isNaN || b.isNaN then nan else if b < a then b else a

/-- The greater of two numbers, a NaN if either is one. -/
def maximum (a b : Float) : Float :=
  if a.isNaN || b.isNaN then nan else if a < b then b else a

/-- The greater of two numbers; a NaN gives way to a number. -/
def maxNumber (a b : Float) : Float :=
  if a.isNaN then b else if b.isNaN then a else if a < b then b else a

/-- The greatest number of a list that starts from negative infinity; NaNs do not count. -/
def greatest (xs : List Float) : Float := xs.foldl maxNumber (-infinity)

/-- A whole number from zero on, below a bound. -/
def isIndexBelow (x : Float) (n : Nat) : Bool :=
  decide (0.0 ≤ x) && x.toUInt64.toFloat == x && decide (x.toUInt64.toNat < n)

/-- The whole part, clamped to what a position can be; a NaN and a negative number count as zero. -/
def toIndex (x : Float) : Nat := x.toUInt64.toNat

def ofIndex (n : Nat) : Float := (UInt64.ofNat n).toFloat

/-- The whole part, clamped to 64 bits with a sign; a NaN counts as zero. -/
def toInt64 (x : Float) : Int64 := x.toModel.toInt64

/-- A double near a whole number; it is the number itself if that is a double. -/
def ofInt64 (n : Int64) : Float := .ofModel (.ofInt64 n)

/-- Other than zero; a NaN counts as true. -/
def truth (x : Float) : Bool := x != 0.0

def ofBool (b : Bool) : Float := if b then 1.0 else 0.0

end Number

end LinkedTables
