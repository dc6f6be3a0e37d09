import LinkedTables.Proofs.Number.Whole

/-!
# Doubles that are positions or labels

A double passes as a position below a bound exactly when it is a whole number below it
(`isIndexBelow_iff`), and what is then read is that number (`toIndex_of_whole`). A double is its own
whole part, clamped to 64 bits, exactly when it is a whole number (`beq_toInt64_iff`), with one
exception: the clamped part of `2 ^ 63` is one less, and as a double it is `2 ^ 63` again.
-/

namespace LinkedTables

namespace Number

open Float.Model (UnpackedFloat Format)
open Float.Model.UnpackedFloat

section Equality

theorem beq_eq (x y : Float) : (x == y) = x.toModel.unpack.beq y.toModel.unpack := rfl

theorem whole?_eq_of_beq {x y : Float} (h : (x == y) = true) : whole? x = whole? y := by
  obtain ⟨-, -, rfl | ⟨rfl, rfl⟩ | ⟨rfl, rfl⟩⟩ := Float.beq_iff_ne_nan_and_eq.1 h <;> rfl

theorem whole?_nan : whole? Float.nan = none := rfl

/-- A whole number is equal to every double with its value. -/
theorem beq_of_whole {x y : Float} {k : Int} (hx : whole? x = some k) (hy : whole? y = some k) :
    (x == y) = true := by
  by_cases hk : k = 0
  · subst hk
    obtain ⟨s, hxs⟩ := unpack_of_whole_zero hx
    obtain ⟨t, hyt⟩ := unpack_of_whole_zero hy
    rw [beq_eq, hxs, hyt]
    rfl
  · have heq : x = y := by
      rw [← pack_unpack x, ← pack_unpack y, unpack_eq_round hx hk, unpack_eq_round hy hk]
    rw [heq, Float.beq_self_iff]
    rintro rfl
    rw [whole?_nan] at hy
    cases hy

end Equality

section Whole

variable {x : Float}

theorem mantissa_shiftRight (em : ExtendedMantissa) (n : Nat) :
    (em >>> n).mantissa = em.mantissa / 2 ^ n := by
  show (n.repeat ExtendedMantissa.shiftRightOne em).mantissa = _
  induction n with
  | zero => simp [Nat.repeat]
  | succ n ih =>
    rw [Nat.repeat, ExtendedMantissa.shiftRightOne, ih, Nat.div_div_eq_div_mul, pow_succ]

theorem roundToInt_eq (s : Sign) (m : Nat) (e : Int) : roundToInt s m e =
    s.apply (if 0 ≤ e then m * 2 ^ e.toNat else m / 2 ^ (-e).toNat : Nat) := by
  simp only [roundToInt, decreaseExponent, shiftToExponent,
    ExtendedMantissa.ofMantissaAndAccuracy, mantissa_shiftRight, Nat.shiftLeft_eq]
  split_ifs with he
  · rw [show (0 - (e - ((e - 0).toNat : Int))).toNat = 0 by omega, Int.sub_zero]
    simp
  · rw [show (e - 0).toNat = 0 by omega]
    simp

/-- The whole part of a double with a fraction has few digits. -/
theorem quotient_lt {s : Sign} {m : Nat} {e : Int} {hm : 0 < m}
    (hx : x.toModel.unpack = .finite s m e hm) (n : Nat) : m / 2 ^ n < 2 ^ 53 := by
  refine lt_of_le_of_lt (Nat.div_le_self _ _) ?_
  rcases unpack_finite hx with h | h <;> omega

theorem toInt_of_whole {k : Int} (h : whole? x = some k) (low high : Int) :
    x.toModel.unpack.toInt low high = k := by
  rcases hx : x.toModel.unpack with s | _ | s | ⟨s, m, e, hm⟩ <;> simp only [whole?, hx] at h
  · cases h
  · cases h
  · simpa [UnpackedFloat.toInt] using h
  · simp only [UnpackedFloat.toInt, roundToInt_eq]
    split_ifs at h with he hmod
    · simpa [he] using h
    · simpa [he] using h

theorem toUInt64_of_whole {n : Nat} (h : whole? x = some (n : Int)) (hn : n < 2 ^ 64) :
    x.toUInt64.toNat = n := by
  show (UInt64.ofNatClamp (x.toModel.unpack.toInt 0 (UInt64.size - 1)).toNat).toNat = n
  rw [toInt_of_whole h, Int.toNat_natCast, UInt64.toNat_ofNatClamp_of_lt hn]

theorem toUInt32_of_whole {n : Nat} (h : whole? x = some (n : Int)) (hn : n < 2 ^ 32) :
    x.toUInt32.toNat = n := by
  show (UInt32.ofNatClamp (x.toModel.unpack.toInt 0 (UInt32.size - 1)).toNat).toNat = n
  rw [toInt_of_whole h, Int.toNat_natCast, UInt32.toNat_ofNatClamp_of_lt hn]

theorem toIndex_of_whole {n : Nat} (h : whole? x = some (n : Int)) (hn : n < 2 ^ 64) :
    toIndex x = n := toUInt64_of_whole h hn

/-- A whole number that is a double is the double of itself. -/
theorem beq_toFloat_of_whole {n : UInt64} (h : whole? x = some (n.toNat : Int)) :
    (n.toFloat == x) = true := by
  rcases Nat.eq_zero_or_pos n.toNat with hzero | hpos
  · refine beq_of_whole (k := 0) ?_ (by simpa [hzero] using h)
    simpa [hzero] using whole?_toFloat (n := n) (by omega)
  · have hcompare : compare (n.toNat : Int) 0 = .gt := Int.compare_eq_gt.2 (by omega)
    have hround := unpack_eq_round h (by omega)
    rw [if_neg (by omega), Int.natAbs_natCast] at hround
    have heq : n.toFloat = x := by
      rw [← pack_unpack x, hround]
      show Float.ofModel (.pack (UnpackedFloat.normalize .binary64 n.toNat 0 .positive)) = _
      simp only [UnpackedFloat.normalize, hcompare, Int.toNat_natCast]
    rw [heq, Float.beq_self_iff]
    rintro rfl
    rw [whole?_nan] at h
    cases h

end Whole

section Positions

variable {x : Float}

theorem zero_le_eq (x : Float) :
    decide ((0.0 : Float) ≤ x) = (UnpackedFloat.zero .positive).le x.toModel.unpack := by
  have hzero : (0.0 : Float).toModel.unpack = .zero .positive := by with_unfolding_all rfl
  rw [← hzero, Bool.eq_iff_iff, decide_eq_true_iff]
  exact decide_eq_true_iff

theorem toNat_toUInt64 {k : Int} (h : x.toModel.unpack.toInt 0 (UInt64.size - 1) = k) :
    x.toUInt64.toNat = (UInt64.ofNatClamp k.toNat).toNat := by
  subst h
  rfl

/-- A number that is clamped is no position. -/
theorem lt_of_clamp {k n : Nat} (h : (UInt64.ofNatClamp k).toNat < n) (hn : n < 2 ^ 64) :
    k < 2 ^ 64 := by
  have hsize : UInt64.size = 2 ^ 64 := rfl
  by_contra hlarge
  rw [UInt64.toNat_ofNatClamp_of_le (by omega)] at h
  omega

theorem whole_of_isIndexBelow {n : Nat} (hn : n < 2 ^ 64) (h : isIndexBelow x n = true) :
    ∃ p : Nat, whole? x = some (p : Int) ∧ p < n := by
  simp only [isIndexBelow, Bool.and_eq_true, decide_eq_true_eq] at h
  obtain ⟨⟨hle, hbeq⟩, hlt⟩ := h
  have hle' := (zero_le_eq x).symm.trans (decide_eq_true hle)
  rcases hx : x.toModel.unpack with s | _ | s | ⟨s, m, e, hm⟩ <;> rw [hx] at hle'
  · cases s
    · cases hle'
    · have hclamp : x.toUInt64.toNat = 2 ^ 64 - 1 :=
        toNat_toUInt64 (congrArg (·.toInt 0 (UInt64.size - 1)) hx)
      omega
  · cases hle'
  · exact ⟨0, whole?_of_zero hx, by omega⟩
  · cases s
    · cases hle'
    · have hclamp := toNat_toUInt64 ((congrArg (·.toInt 0 (UInt64.size - 1)) hx).trans
        (roundToInt_eq .positive m e))
      rw [Sign.apply, Int.toNat_natCast] at hclamp
      have hsmall := lt_of_clamp (hclamp ▸ hlt) hn
      rw [UInt64.toNat_ofNatClamp_of_lt hsmall] at hclamp
      split_ifs at hclamp hsmall with he
      · refine ⟨m * 2 ^ e.toNat, ?_, by omega⟩
        simp [whole?, hx, he, Sign.apply]
      · -- the whole part of a number with a fraction is a double, and equal to no such number
        have hquotient := quotient_lt hx (-e).toNat
        refine ⟨m / 2 ^ (-e).toNat, ?_, by omega⟩
        rw [← whole?_eq_of_beq hbeq, whole?_toFloat (by omega), hclamp]

theorem zero_le_of_whole {p : Nat} (h : whole? x = some (p : Int)) : (0.0 : Float) ≤ x := by
  refine of_decide_eq_true ((zero_le_eq x).trans ?_)
  rcases hx : x.toModel.unpack with s | _ | s | ⟨s, m, e, hm⟩ <;> simp only [whole?, hx] at h
  · cases h
  · cases h
  · rfl
  · cases s
    · have happly : ∀ k : Nat, Sign.negative.apply k = (p : Int) → k = 0 := by
        intro k hk
        simp only [Sign.apply] at hk
        omega
      split_ifs at h with he hmod
      · have hzero := happly (m * 2 ^ e.toNat) (by simpa using h)
        exact absurd hzero (by positivity)
      · have hzero := happly (m / 2 ^ (-e).toNat) (by simpa using h)
        have hdvd := Nat.div_mul_cancel (Nat.dvd_of_mod_eq_zero hmod)
        rw [hzero, zero_mul] at hdvd
        omega
    · rfl

/-- What passes as a position is a whole number below the bound. -/
theorem isIndexBelow_iff {n : Nat} (hn : n < 2 ^ 64) :
    isIndexBelow x n = true ↔ ∃ p : Nat, whole? x = some (p : Int) ∧ p < n := by
  refine ⟨whole_of_isIndexBelow hn, fun ⟨p, hp, hlt⟩ => ?_⟩
  have htoNat := toUInt64_of_whole hp (by omega)
  simp only [isIndexBelow, Bool.and_eq_true, decide_eq_true_eq]
  exact ⟨⟨zero_le_of_whole hp, beq_toFloat_of_whole (by rwa [htoNat])⟩, by omega⟩

end Positions

section Labels

variable {x : Float}

/-- Rounding a whole number that is a double gives the double. -/
theorem beq_ofInt_of_whole {k : Int} (h : whole? x = some k) :
    (Float.ofModel (.ofInt k) == x) = true := by
  by_cases hk : k = 0
  · subst hk
    exact beq_of_whole (whole?_of_zero (unpack_pack_zero .positive)) h
  · have hround := unpack_eq_round h hk
    have heq : Float.ofModel (.ofInt k) = x := by
      rw [← pack_unpack x, hround]
      show Float.ofModel (.pack (UnpackedFloat.normalize .binary64 k 0 .positive)) = _
      rcases lt_trichotomy k 0 with hneg | hzero | hpos
      · simp only [UnpackedFloat.normalize, Int.compare_eq_lt.2 hneg, if_pos hneg]
        rw [show (-k).toNat = k.natAbs by omega]
      · exact absurd hzero hk
      · simp only [UnpackedFloat.normalize, Int.compare_eq_gt.2 hpos, if_neg (show ¬ k < 0 by omega)]
        rw [show k.toNat = k.natAbs by omega]
    rw [heq, Float.beq_self_iff]
    rintro rfl
    rw [whole?_nan] at h
    cases h

theorem whole?_ofInt_small {k : Int} (hk : k.natAbs < 2 ^ 53) :
    whole? (.ofModel (.ofInt k)) = some k := by
  rcases lt_trichotomy k 0 with hneg | rfl | hpos
  · have hround := round_whole (n := k.natAbs) (by omega) hk .negative 0
    simp only [pow_zero, mul_one, Nat.cast_zero, neg_zero] at hround
    have hpack := whole?_pack (n := k.natAbs) (by omega) hk (s := .negative)
      (u := UnpackedFloat.ofInt .binary64 k) ?_
    · rw [show Sign.negative.apply (k.natAbs : Int) = k by simp only [Sign.apply]; omega] at hpack
      exact hpack
    · simp only [UnpackedFloat.ofInt, UnpackedFloat.normalize, Int.compare_eq_lt.2 hneg]
      rw [show (-k).toNat = k.natAbs by omega, hround]
  · exact whole?_of_zero (unpack_pack_zero .positive)
  · obtain ⟨n, rfl⟩ := Int.eq_ofNat_of_zero_le hpos.le
    exact whole?_ofNat hk

/-- The whole part clamped to 64 bits. -/
theorem toInt_toInt64 (x : Float) {k : Int}
    (h : x.toModel.unpack.toInt Int64.minValue.toInt Int64.maxValue.toInt = k) :
    (toInt64 x).toInt = max Int64.minValue.toInt (min k Int64.maxValue.toInt) := by
  show (Int64.ofIntClamp (x.toModel.unpack.toInt Int64.minValue.toInt Int64.maxValue.toInt)).toInt = _
  have hle : Int64.minValue.toInt ≤ Int64.maxValue.toInt := by decide
  rw [h, Int64.ofIntClamp]
  split_ifs with h1 h2
  · rw [Int64.toInt_ofIntLE]
    omega
  · omega
  · omega

theorem beq_toInt64_infinite {s : Sign} (hx : x.toModel.unpack = .infinity s) :
    (ofInt64 (toInt64 x) == x) = false := by
  have hmin : Int64.minValue.toInt = -2 ^ 63 := rfl
  have hmax : Int64.maxValue.toInt = 2 ^ 63 - 1 := rfl
  cases s
  · have hclamp := toInt_toInt64 x (k := Int64.minValue.toInt) (by rw [hx]; rfl)
    have heq : toInt64 x = Int64.minValue := Int64.toInt_inj.1 (by omega)
    rw [beq_eq, heq, hx]
    decide +kernel
  · have hclamp := toInt_toInt64 x (k := Int64.maxValue.toInt) (by rw [hx]; rfl)
    have heq : toInt64 x = Int64.maxValue := Int64.toInt_inj.1 (by omega)
    rw [beq_eq, heq, hx]
    decide +kernel

/-- The double `2 ^ 63` is clamped to the greatest number of 64 bits. -/
theorem toInt64_of_exception (h : whole? x = some (2 ^ 63)) : toInt64 x = Int64.maxValue := by
  have hmin : Int64.minValue.toInt = -2 ^ 63 := rfl
  have hmax : Int64.maxValue.toInt = 2 ^ 63 - 1 := rfl
  have hclamp := toInt_toInt64 x (toInt_of_whole h _ _)
  exact Int64.toInt_inj.1 (by omega)

/-- The greatest number of 64 bits is no double. -/
theorem whole?_ofInt64_maxValue : whole? (ofInt64 Int64.maxValue) = some (2 ^ 63) := by
  decide +kernel

/-- A whole number that is its clamped part was not clamped: the least number of 64 bits is a double,
and the greatest one is rounded to the exception. -/
theorem toInt64_of_beq {k : Int} (hk : whole? x = some k) (hexception : k ≠ 2 ^ 63)
    (hbeq : (ofInt64 (toInt64 x) == x) = true) : (toInt64 x).toInt = k := by
  have hmin : Int64.minValue.toInt = -2 ^ 63 := rfl
  have hmax : Int64.maxValue.toInt = 2 ^ 63 - 1 := rfl
  have hclamp := toInt_toInt64 x (toInt_of_whole hk _ _)
  have hsame := whole?_eq_of_beq hbeq
  rcases lt_or_ge k Int64.minValue.toInt with hlow | hlow
  · have heq : toInt64 x = Int64.minValue := Int64.toInt_inj.1 (by omega)
    have hminWhole : whole? (ofInt64 Int64.minValue) = some (-2 ^ 63) := by decide +kernel
    rw [heq, hminWhole, hk, Option.some.injEq] at hsame
    omega
  rcases lt_or_ge Int64.maxValue.toInt k with hhigh | hhigh
  · have heq : toInt64 x = Int64.maxValue := Int64.toInt_inj.1 (by omega)
    rw [heq, whole?_ofInt64_maxValue, hk, Option.some.injEq] at hsame
    exact absurd hsame.symm hexception
  · omega

/-- The whole part of a double with a fraction is a double. -/
theorem whole?_toInt64_of_fraction {s : Sign} {m : Nat} {e : Int} {hm : 0 < m}
    (hx : x.toModel.unpack = .finite s m e hm) (he : ¬ 0 ≤ e) :
    whole? (ofInt64 (toInt64 x)) = some (toInt64 x).toInt := by
  have hmin : Int64.minValue.toInt = -2 ^ 63 := rfl
  have hmax : Int64.maxValue.toInt = 2 ^ 63 - 1 := rfl
  have hint : x.toModel.unpack.toInt Int64.minValue.toInt Int64.maxValue.toInt =
      s.apply (m / 2 ^ (-e).toNat : Nat) := by
    rw [hx]
    simp only [UnpackedFloat.toInt, roundToInt_eq, if_neg he]
  have hclamp := toInt_toInt64 x hint
  have hquotient := quotient_lt hx (-e).toNat
  have hbounds : (s.apply (m / 2 ^ (-e).toNat : Nat)).natAbs < 2 ^ 53 := by
    cases s
    · rwa [Sign.apply, Int.natAbs_neg, Int.natAbs_natCast]
    · rwa [Sign.apply, Int.natAbs_natCast]
  refine whole?_ofInt_small ?_
  omega

/-- A number of 64 bits that a double is exactly is what the double is converted to. -/
theorem toInt64_of_whole {label : Int64} (h : whole? x = some label.toInt) : toInt64 x = label := by
  have hclamp := toInt_toInt64 x (toInt_of_whole h _ _)
  have hmin := label.minValue_le_toInt
  have hmax := label.toInt_le
  exact Int64.toInt_inj.1 (by omega)

/-- A double is its clamped whole part only if it is that number, but for one double. -/
theorem beq_toInt64_iff (hexception : whole? x ≠ some (2 ^ 63)) :
    (ofInt64 (toInt64 x) == x) = true ↔ whole? x = some (toInt64 x).toInt := by
  refine ⟨fun hbeq => ?_, beq_ofInt_of_whole⟩
  have hwhole : ∀ {k : Int}, whole? x = some k → whole? x = some (toInt64 x).toInt := by
    intro k hk
    rw [toInt64_of_beq hk (fun h => hexception (h ▸ hk)) hbeq]
    exact hk
  rcases hx : x.toModel.unpack with s | _ | s | ⟨s, m, e, hm⟩
  · rw [beq_toInt64_infinite hx] at hbeq
    cases hbeq
  · have hnan : x = Float.nan := by rw [← pack_unpack x, hx]; rfl
    rw [hnan, Float.beq_nan_eq_false] at hbeq
    cases hbeq
  · exact hwhole (whole?_of_zero hx)
  · by_cases he : 0 ≤ e
    · exact hwhole (k := s.apply (m * 2 ^ e.toNat)) (by simp [whole?, hx, he])
    · rw [← whole?_eq_of_beq hbeq]
      exact whole?_toInt64_of_fraction hx he

end Labels

end Number

end LinkedTables
