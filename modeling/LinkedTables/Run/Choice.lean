import LinkedTables.Number.Double

/-!
# Choices drawn from utilities

An alternative is available if its utility is neither a NaN nor negative infinity. The weight of an
available alternative is the exponential of its distance from the greatest utility; if some utility
is infinite, the alternatives that have it share the weight. A draw from `[0, 1)` picks the first
alternative at which the shares, added up from left to right, exceed it. Should rounding keep the
whole sum from exceeding the draw, the last alternative with a share is picked.

The exponential function is a parameter of the draw; `choose` takes the one of the machine, whose
last digit is not fixed.
-/

namespace LinkedTables

namespace Choice

/-- The weight of a utility, beside the greatest one. -/
def weight (exp : Float → Float) (top u : Float) : Float :=
  if u.isNaN then 0.0
  else if top == Number.infinity then (if u == Number.infinity then 1.0 else 0.0)
  else exp (u - top)

/-- Picks from weights, counted from `j` on: `reached` is the sum of the shares so far, `last` the
last alternative with a share. -/
def pick (draw sum : Float) : Nat → Float → Option (Nat × Float) → List Float → Option (Nat × Float)
  | _, _, last, [] => last
  | j, reached, last, w :: ws =>
    if w ≤ 0.0 then pick draw sum (j + 1) reached last ws
    else
      let share := w / sum
      let reached' := reached + share
      if draw < reached' then some (j, share)
      else pick draw sum (j + 1) reached' (some (j, share)) ws

/-- The alternative that a draw picks, and its probability; none if no alternative is available. -/
def chooseBy (exp : Float → Float) (utilities : List Float) (draw : Float) :
    Option (Nat × Float) :=
  let top := Number.greatest utilities
  if top == -Number.infinity then none
  else
    let weights := utilities.map (weight exp top)
    let sum := weights.foldl (· + ·) 0.0
    pick draw sum 0 0.0 none weights

def choose (utilities : List Float) (draw : Float) : Option (Nat × Float) :=
  chooseBy Float.exp utilities draw

end Choice

end LinkedTables
