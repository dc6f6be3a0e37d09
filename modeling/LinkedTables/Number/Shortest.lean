/-!
# The shortest decimal of a double

A double is `m · 2 ^ q`, and every real in an interval around it rounds to it; the ends belong to
the interval when `m` is even. Among the decimals in the interval those with fewest digits are
taken, of them the nearest, and of two equally near ones the larger.

The search walks the decimal grids from one digit on. On each grid only the two neighbours of the
value matter: if any point of the grid lies in the interval, one of these does. Seventeen digits
always suffice.

The text is always positional: `1000000000000000000000`, `0.001`, never an exponent, no point after
a whole number. The sign of zero is shown, that of a NaN is not.
-/

namespace LinkedTables

namespace Number

open Float.Model (UnpackedFloat)

/-- The interval of reals that round to a value, all over one denominator. -/
structure Around where
  low : Nat
  value : Nat
  high : Nat
  den : Nat
  closed : Bool

/-- The mantissa is a power of two above the least normal double: the gap below is half the gap
above. -/
def atBinade (m : Nat) (q : Int) : Bool := m == Nat.pow 2 52 && decide (-1074 < q)

def around (m : Nat) (q : Int) : Around :=
  let up := Nat.pow 2 q.toNat
  { low := (if atBinade m q then 4 * m - 1 else 4 * m - 2) * up
    value := 4 * m * up
    high := (4 * m + 2) * up
    den := 4 * Nat.pow 2 (-q).toNat
    closed := m % 2 == 0 }

/-- The least `p` with the value below `10 ^ p`. -/
def magnitude (a : Around) : Int :=
  if a.den ≤ a.value then ((Nat.toDigits 10 (a.value / a.den)).length : Int)
  else 1 - ((Nat.toDigits 10 (a.den / a.value)).length : Int)

/-- The multiple of `10 ^ k` in the interval nearest to the value, as its count. -/
def onGrid? (a : Around) (k : Int) : Option Nat :=
  let up := Nat.pow 10 (-k).toNat
  let unit := a.den * Nat.pow 10 k.toNat
  let inside := fun (n : Nat) =>
    let x := n * unit
    if a.closed then a.low * up ≤ x && x ≤ a.high * up else a.low * up < x && x < a.high * up
  let below := a.value * up / unit
  let above := below + 1
  match inside below, inside above with
  | true, true =>
    if a.value * up - below * unit < above * unit - a.value * up then some below else some above
  | true, false => some below
  | false, true => some above
  | false, false => none

/-- The first grid with a hit, from `digits` on: a count and the exponent of its unit. -/
def search (a : Around) (p : Int) (digits : Nat) : Nat → Nat × Int
  | 0 =>
    let up := Nat.pow 10 (digits - p).toNat
    (a.value * up / (a.den * Nat.pow 10 (p - digits).toNat), p - digits)
  | fuel + 1 =>
    match onGrid? a (p - digits) with
    | some n => (n, p - digits)
    | none => search a p (digits + 1) fuel

/-- The shortest decimal `n · 10 ^ k` of `m · 2 ^ q`, for a positive `m`. -/
def shortest (m : Nat) (q : Int) : Nat × Int :=
  let a := around m q
  search a (magnitude a) 1 17

/-- The number `n · 10 ^ k` without an exponent and without needless zeros. -/
def positional (n : Nat) (k : Int) : List Char :=
  let digits := Nat.toDigits 10 n
  if 0 ≤ k then digits ++ List.replicate k.toNat '0'
  else
    let places := (-k).toNat
    let padded := List.replicate (places + 1 - digits.length) '0' ++ digits
    let whole := padded.take (padded.length - places)
    let fraction := (padded.drop (padded.length - places)).reverse.dropWhile (· == '0')
    if fraction.isEmpty then whole else whole ++ '.' :: fraction.reverse

def signed (negative : Bool) (text : List Char) : String :=
  String.ofList (if negative then '-' :: text else text)

def isNegative : UnpackedFloat.Sign → Bool
  | .negative => true
  | .positive => false

/-- The text of a double. -/
def text (x : Float) : String :=
  match x.toModel.unpack with
  | .notANumber => "NaN"
  | .infinity s => signed (isNegative s) ['i', 'n', 'f']
  | .zero s => signed (isNegative s) ['0']
  | .finite s m q _ =>
    let (n, k) := shortest m q
    signed (isNegative s) (positional n k)

end Number

end LinkedTables
