import LinkedTables.Proofs.Number.Signs

/-!
# Numbers in order

Numbers are compared by their kind and sign first, then by their exponents, then by their mantissas
(`compare_eq_place`). So all but the NaN are as in a linear order, in which the two zeros stand at one
place, and a bound below another one is passed by whatever passes the other (`lt_of_le_of_lt`).
-/

namespace LinkedTables

namespace Number

open Float.Model (UnpackedFloat)
open Float.Model.UnpackedFloat

/-- Where a number stands among the others. -/
def place : UnpackedFloat → Option (Int ×ₗ Int ×ₗ Int)
  | .notANumber => none
  | .infinity .negative => some (toLex (-2, toLex (0, 0)))
  | .finite .negative m e _ => some (toLex (-1, toLex (-e, -(m : Int))))
  | .zero _ => some (toLex (0, toLex (0, 0)))
  | .finite .positive m e _ => some (toLex (1, toLex (e, (m : Int))))
  | .infinity .positive => some (toLex (2, toLex (0, 0)))

theorem compare_neg (a b : Int) : compare (-a) (-b) = (compare a b).swap := by
  rw [← cmp_eq_compare, ← cmp_eq_compare, cmp_swap]
  exact StrictAnti.cmp_map_eq (fun _ _ h => neg_lt_neg h) a b

theorem compare_natCast (m n : Nat) : compare (m : Int) (n : Int) = compare m n := by
  rw [← cmp_eq_compare, ← cmp_eq_compare]
  exact Nat.strictMono_cast.cmp_map_eq m n

/-- Numbers are compared as their places are. -/
theorem compare_eq_place (u v : UnpackedFloat) : u.compare v =
    (place u).bind fun p => (place v).map fun q => compare p q := by
  rcases u with s | _ | s | ⟨s, m, e, hm⟩ <;> rcases v with t | _ | t | ⟨t, n, f, hn⟩ <;>
    try cases s
  all_goals try cases t
  -- but for two finite numbers of one sign, the kinds and signs decide
  all_goals try rfl
  · simp [UnpackedFloat.compare, place, Prod.Lex.compare_def, compareLex, compareOn, compare_neg,
      compare_natCast, Ordering.swap_then]
  · simp [UnpackedFloat.compare, place, Prod.Lex.compare_def, compareLex, compareOn,
      compare_natCast]

theorem lt_iff_place {x y : Float} : x < y ↔ ∃ p q, place x.toModel.unpack = some p ∧
    place y.toModel.unpack = some q ∧ p < q := by
  rw [lt_iff, UnpackedFloat.lt, compare_eq_place]
  rcases place x.toModel.unpack with _ | p <;> rcases place y.toModel.unpack with _ | q <;>
    simp [compare_lt_iff_lt]

theorem le_iff_place {x y : Float} : x ≤ y ↔ ∃ p q, place x.toModel.unpack = some p ∧
    place y.toModel.unpack = some q ∧ p ≤ q := by
  rw [le_iff, UnpackedFloat.le, compare_eq_place]
  rcases place x.toModel.unpack with _ | p <;> rcases place y.toModel.unpack with _ | q <;>
    simp [Ordering.isLE_iff_ne_gt, compare_gt_iff_gt]

theorem lt_of_le_of_lt {x y z : Float} (h : x ≤ y) (h' : y < z) : x < z := by
  obtain ⟨p, q, hp, hq, hle⟩ := le_iff_place.1 h
  obtain ⟨q', r, hq', hr, hlt⟩ := lt_iff_place.1 h'
  obtain rfl := Option.some.inj (hq.symm.trans hq')
  exact lt_iff_place.2 ⟨p, r, hp, hr, hle.trans_lt hlt⟩

end Number

end LinkedTables
