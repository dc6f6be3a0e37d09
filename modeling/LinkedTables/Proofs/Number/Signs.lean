import LinkedTables.Proofs.Number.Bits
import LinkedTables.Proofs.Number.Positions

/-!
# Signs of sums and quotients

Rounding keeps signs: a number other than zero is never rounded to zero by an addition, so a sum of
numbers from zero on is above zero as soon as one of them is (`add_pos`). Adding a zero changes nothing
but perhaps the sign of a zero, and not even that if the other summand has no sign
(`Unsigned.add_zero`). So a sum without a sign that passes a bound with one more summand has passed it
because of a summand above zero (`Unsigned.pos_of_passes`).
-/

namespace LinkedTables

namespace Number

open Float.Model (UnpackedFloat Format)
open Float.Model.UnpackedFloat

section Rounding

theorem mantissa_ofMantissaAndAccuracy (m : Nat) (acc : Accuracy) :
    (ExtendedMantissa.ofMantissaAndAccuracy m acc).mantissa = m := by
  rcases acc with _ | o
  · rfl
  · cases o <;> rfl

theorem le_roundToNearestEven (m : Nat) (acc : Accuracy) : m ≤ acc.roundToNearestEven m := by
  rcases acc with _ | o
  · exact le_rfl
  · cases o <;> simp only [Accuracy.roundToNearestEven] <;> omega

/-- A mantissa above zero that is shifted to its place stays above zero and takes at most 53 bits. -/
theorem shifted_bounds {m : Nat} (hm : 0 < m) {e : Int} (he : -1074 ≤ e) :
    0 < m / 2 ^ (Format.binary64.targetExponent (Float.Model.totalExponent m e) - e).toNat ∧
      m / 2 ^ (Format.binary64.targetExponent (Float.Model.totalExponent m e) - e).toNat < 2 ^ 53 := by
  have hbits : (Format.binary64.mantissaBits : Int) = 53 := rfl
  have hmin : Format.binary64.minExponent = -1074 := rfl
  simp only [Format.targetExponent, Float.Model.totalExponent, hbits, hmin]
  have hlow := Nat.log2_self_le hm.ne'
  have hhigh := Nat.lt_log2_self (n := m)
  rcases Nat.le_total 52 m.log2 with hlog | hlog
  · have hshift : (max ((m.log2 : Int) + 1 + e - 53) (-1074) - e).toNat = m.log2 - 52 := by omega
    rw [hshift]
    constructor
    · refine Nat.div_pos (le_trans (Nat.pow_le_pow_right (by omega) (by omega)) hlow) (by positivity)
    · rw [Nat.div_lt_iff_lt_mul (by positivity), ← pow_add]
      exact hhigh.trans_le (Nat.pow_le_pow_right (by omega) (by omega))
  · have hshift : (max ((m.log2 : Int) + 1 + e - 53) (-1074) - e).toNat = 0 := by omega
    rw [hshift, pow_zero, Nat.div_one]
    exact ⟨hm, hhigh.trans_le (Nat.pow_le_pow_right (by omega) (by omega))⟩

/-- What is rounded at an exponent of doubles is no zero, and takes at most 53 bits. -/
theorem roundWithAccuracy_finite (s : Sign) {m : Nat} (hm : 0 < m) {e : Int} (he : -1074 ≤ e)
    (acc : Accuracy) : ∃ m' e' h, roundWithAccuracy .binary64 s m e acc = .finite s m' e' h ∧
      m' < 2 ^ 53 ∧ -1074 ≤ e' := by
  set k := (Format.binary64.targetExponent (Float.Model.totalExponent m e) - e).toNat with hk
  have hrounded : 0 < (ExtendedMantissa.ofMantissaAndAccuracy m acc >>> k).roundedMantissa := by
    have hshifted : (ExtendedMantissa.ofMantissaAndAccuracy m acc >>> k).mantissa = m / 2 ^ k := by
      rw [mantissa_shiftRight, mantissa_ofMantissaAndAccuracy]
    refine lt_of_lt_of_le (shifted_bounds hm he).1 ?_
    rw [← hk, ← hshifted]
    exact le_roundToNearestEven _ _
  obtain ⟨hpos, hlt⟩ := shifted_bounds hrounded (e := e + k) (by omega)
  simp only [roundWithAccuracy, shiftToTargetExponent, shiftToExponent, ← hk, mantissa_shiftRight,
    mantissa_ofMantissaAndAccuracy, dif_neg hpos.ne']
  exact ⟨_, _, hpos, rfl, hlt, by omega⟩

theorem round_finite (s : Sign) {m : Nat} (hm : 0 < m) {e : Int} (he : -1074 ≤ e) :
    ∃ m' e' h, UnpackedFloat.round .binary64 s m e = .finite s m' e' h ∧ m' < 2 ^ 53 ∧
      -1074 ≤ e' := by
  have hmin : Format.binary64.minExponent = -1074 := rfl
  refine roundWithAccuracy_finite s (by rw [Nat.shiftLeft_eq]; positivity) ?_ .exact
  simp only [Format.targetExponent, hmin]
  omega

theorem unpack_pack_infinity (s : Sign) : (Float.Model.pack (.infinity s)).unpack = .infinity s := by
  cases s <;> rfl

/-- The sign that is packed is unpacked. -/
theorem unpack_packComponents (s : Sign) {exponent : BitVec 11} (mantissa : BitVec 52)
    (hexponent : exponent ≠ -1#11) :
    (exponent = 0#11 ∧ mantissa = 0#52 ∧
      UnpackedFloat.unpack .binary64 (packComponents .binary64 s exponent mantissa) = .zero s) ∨
    ∃ m e h, UnpackedFloat.unpack .binary64 (packComponents .binary64 s exponent mantissa) =
      .finite s m e h := by
  simp only [UnpackedFloat.unpack, unpackMantissa_packComponents, unpackExponent_packComponents,
    unpackSign_packComponents, Sign.ofBitVec_toBitVec, if_neg hexponent]
  split_ifs with hzero hmantissa
  · exact Or.inl ⟨hzero, hmantissa, rfl⟩
  · exact Or.inr ⟨_, _, BitVec.toNat_pos_of_ne_zero hmantissa, rfl⟩
  · refine Or.inr ⟨_, _, ?_, rfl⟩
    rw [BitVec.toNat_append, ← Nat.shiftLeft_add_eq_or_of_lt mantissa.isLt]
    simp [Nat.shiftLeft_eq]

/-- Packing keeps the sign of a finite number, and makes it zero only if it takes more than 53 bits or
lies below all doubles. -/
theorem unpack_pack_finite {s : Sign} {m : Nat} {e : Int} (hm : 0 < m) :
    (Float.Model.pack (.finite s m e hm)).unpack = .infinity s ∨
      (∃ m' e' h, (Float.Model.pack (.finite s m e hm)).unpack = .finite s m' e' h) ∨
      (Float.Model.pack (.finite s m e hm)).unpack = .zero s ∧ ¬ (m < 2 ^ 53 ∧ -1074 ≤ e) := by
  have hbias : ((Format.binary64.exponentBias : Nat) : Int) = 1023 := rfl
  have hwidth : ((Format.binary64.mantissaBitsWithoutImplicit : Nat) : Int) = 52 := rfl
  set u := (Float.Model.pack (.finite s m e hm)).unpack with hu
  replace hu : u = UnpackedFloat.unpack .binary64
    (UnpackedFloat.pack .binary64 (.finite s m e hm)) := hu
  simp only [UnpackedFloat.pack] at hu
  split_ifs at hu with hlarge hnormal
  · exact Or.inl (hu.trans (unpack_pack_infinity s))
  · -- the exponent is that of a normal number
    have hlarge : ¬ 2 ^ 11 ≤ (e + Format.binary64.exponentBias +
      Format.binary64.mantissaBitsWithoutImplicit).toNat + 1 := hlarge
    have hvalue : (BitVec.ofNat 11 (e + Format.binary64.exponentBias +
        Format.binary64.mantissaBitsWithoutImplicit).toNat).toNat = (e + 1075).toNat := by
      rw [BitVec.toNat_ofNat]
      omega
    have hexponent : BitVec.ofNat 11 (e + Format.binary64.exponentBias +
        Format.binary64.mantissaBitsWithoutImplicit).toNat ≠ -1#11 := fun h => by
      rw [h] at hvalue
      change 2047 = _ at hvalue
      omega
    rcases unpack_packComponents s _ hexponent with ⟨hzero, -, hunpack⟩ | hunpack
    · refine Or.inr (Or.inr ⟨hu.trans hunpack, fun h => ?_⟩)
      rw [hzero] at hvalue
      change 0 = _ at hvalue
      omega
    · exact Or.inr (Or.inl (hu ▸ hunpack))
  · -- the mantissa takes fewer bits
    rcases unpack_packComponents s (BitVec.ofNat 52 m) (show 0#11 ≠ -1#11 by decide) with
      ⟨-, hzero, hunpack⟩ | hunpack
    · refine Or.inr (Or.inr ⟨hu.trans hunpack, fun h => ?_⟩)
      have hlog : m.log2 < 53 := (Nat.log2_lt hm.ne').2 h.1
      have hne : m.log2 ≠ 52 := fun h52 => hnormal (by rw [h52]; rfl)
      have hsmall : m < 2 ^ 52 := (Nat.log2_lt hm.ne').1 (by omega)
      have := congrArg BitVec.toNat hzero
      rw [BitVec.toNat_ofNat] at this
      change m % 2 ^ 52 = 0 at this
      omega
    · exact Or.inr (Or.inl (hu ▸ hunpack))

/-- A number above zero, at an exponent of doubles, is rounded to one above zero. -/
theorem normalize_pos {m : Int} (hm : 0 < m) {e : Int} (he : -1074 ≤ e) (z : Sign) :
    (Float.Model.pack (normalize .binary64 m e z)).unpack = .infinity .positive ∨
      ∃ m' e' h, (Float.Model.pack (normalize .binary64 m e z)).unpack =
        .finite .positive m' e' h := by
  obtain ⟨n, f, hn, hround, hlt, hf⟩ := round_finite .positive (m := m.toNat) (by omega) he
  have hnormalize : normalize .binary64 m e z = .finite .positive n f hn := by
    simp only [UnpackedFloat.normalize, Int.compare_eq_gt.2 hm]
    exact hround
  rw [hnormalize]
  rcases unpack_pack_finite hn with h | h | ⟨-, h⟩
  · exact Or.inl h
  · exact Or.inr h
  · exact absurd ⟨hlt, hf⟩ h

end Rounding

section Positive

variable {x : Float}

theorem unpack_zero : (0.0 : Float).toModel.unpack = .zero .positive := by with_unfolding_all rfl

theorem lt_iff {x y : Float} : x < y ↔ x.toModel.unpack.lt y.toModel.unpack = true := by
  show decide (x.toModel < y.toModel) = true ↔ _
  rw [decide_eq_true_iff]
  rfl

theorem le_iff {x y : Float} : x ≤ y ↔ x.toModel.unpack.le y.toModel.unpack = true := by
  show decide (x.toModel ≤ y.toModel) = true ↔ _
  rw [decide_eq_true_iff]
  rfl

theorem zero_lt_iff : 0.0 < x ↔ x.toModel.unpack = .infinity .positive ∨
    ∃ m e h, x.toModel.unpack = .finite .positive m e h := by
  rw [lt_iff, unpack_zero]
  rcases x.toModel.unpack with s | _ | s | ⟨s, m, e, hm⟩
  · cases s <;> simp [UnpackedFloat.lt, UnpackedFloat.compare]
  · simp [UnpackedFloat.lt, UnpackedFloat.compare]
  · simp [UnpackedFloat.lt, UnpackedFloat.compare]
  · cases s <;> simp [UnpackedFloat.lt, UnpackedFloat.compare, hm]

theorem zero_le_iff : 0.0 ≤ x ↔ 0.0 < x ∨ ∃ s, x.toModel.unpack = .zero s := by
  rw [zero_lt_iff, le_iff, unpack_zero]
  rcases x.toModel.unpack with s | _ | s | ⟨s, m, e, hm⟩
  · cases s <;> simp [UnpackedFloat.le, UnpackedFloat.compare]
  · simp [UnpackedFloat.le, UnpackedFloat.compare]
  · simp [UnpackedFloat.le, UnpackedFloat.compare]
  · cases s <;> simp [UnpackedFloat.le, UnpackedFloat.compare, hm]

theorem not_le_zero (h : 0.0 < x) : ¬ x ≤ 0.0 := by
  rw [le_iff, unpack_zero]
  rcases zero_lt_iff.1 h with hx | ⟨m, e, hm, hx⟩ <;>
    simp [hx, UnpackedFloat.le, UnpackedFloat.compare]

theorem le_zero_of_unpack {s : Sign} (h : x.toModel.unpack = .zero s) : x ≤ 0.0 := by
  rw [le_iff, unpack_zero, h]
  rfl

/-- From zero on, a number is zero or above zero. -/
theorem eq_zero_of_le (h : 0.0 ≤ x) (hle : x ≤ 0.0) : ∃ s, x.toModel.unpack = .zero s :=
  (zero_le_iff.1 h).resolve_left fun hpos => not_le_zero hpos hle

end Positive

section Unsigned

variable {x y : Float}

/-- A NaN, the zero without a sign, or a number above zero. -/
def Unsigned (x : Float) : Prop :=
  x = Float.nan ∨ x.toModel.unpack = .zero .positive ∨ 0.0 < x

theorem unsigned_zero : Unsigned 0.0 := Or.inr (Or.inl unpack_zero)

theorem not_lt_nan (x : Float) : ¬ x < Float.nan := by
  rw [lt_iff]
  have hnan : Float.nan.toModel.unpack = .notANumber := rfl
  rw [hnan]
  rcases x.toModel.unpack with s | _ | s | ⟨s, m, e, hm⟩ <;> try cases s
  all_goals simp [UnpackedFloat.lt, UnpackedFloat.compare]

theorem add_nan (x : Float) : x + Float.nan = Float.nan := by
  have hnan : Float.nan.toModel.unpack = .notANumber := rfl
  rw [add_eq, hnan]
  rcases x.toModel.unpack with s | _ | s | ⟨s, m, e, hm⟩ <;> rfl

/-- Adding a zero of either sign. -/
theorem Unsigned.add_zero {x z : Float} (hx : Unsigned x) {s : Sign}
    (hz : z.toModel.unpack = .zero s) : x + z = x := by
  have hsame : UnpackedFloat.add .binary64 x.toModel.unpack (.zero s) = x.toModel.unpack := by
    rcases hx with rfl | hx | hx
    · rfl
    · rw [hx]
      cases s <;> rfl
    · rcases zero_lt_iff.1 hx with hx | ⟨m, e, hm, hx⟩ <;> rw [hx] <;> rfl
  rw [add_eq, hz, hsame, pack_unpack]

/-- The sum of a number from zero on and one above zero. -/
theorem add_pos (hx : 0.0 ≤ x) (hy : 0.0 < y) : 0.0 < x + y := by
  rcases zero_le_iff.1 hx with hxpos | ⟨s, hzero⟩
  · have hunpack : (x + y).toModel.unpack =
      (Float.Model.pack (UnpackedFloat.add .binary64 x.toModel.unpack y.toModel.unpack)).unpack := rfl
    rw [zero_lt_iff, hunpack]
    rcases zero_lt_iff.1 hxpos with hxu | ⟨m, e, hm, hxu⟩ <;>
      rcases zero_lt_iff.1 hy with hyu | ⟨m', e', hm', hyu⟩ <;> rw [hxu, hyu]
    · exact Or.inl (unpack_pack_infinity _)
    · exact Or.inl (unpack_pack_infinity _)
    · exact Or.inl (unpack_pack_infinity _)
    · -- both summands at the smaller of their exponents, which is one of doubles
      refine normalize_pos (Int.add_pos ?_ ?_) ?_ .positive
      · simp only [Sign.apply, Nat.shiftLeft_eq]
        positivity
      · simp only [Sign.apply, Nat.shiftLeft_eq]
        positivity
      · have he := unpack_finite hxu
        have he' := unpack_finite hyu
        omega
  · have hsame : UnpackedFloat.add .binary64 x.toModel.unpack y.toModel.unpack =
        y.toModel.unpack := by
      rw [hzero]
      rcases zero_lt_iff.1 hy with hyu | ⟨m, e, hm, hyu⟩ <;> rw [hyu] <;> rfl
    rwa [add_eq, hsame, pack_unpack]

theorem add_pos_left (hx : 0.0 < x) (hy : 0.0 ≤ y) : 0.0 < x + y := by
  rcases zero_le_iff.1 hy with hpos | ⟨s, hs⟩
  · exact add_pos (zero_le_iff.2 (Or.inl hx)) hpos
  · rwa [Unsigned.add_zero (Or.inr (Or.inr hx)) hs]

theorem add_nonneg (hx : 0.0 ≤ x) (hy : 0.0 ≤ y) : 0.0 ≤ x + y := by
  rcases zero_le_iff.1 hy with hpos | ⟨t, ht⟩
  · exact zero_le_iff.2 (Or.inl (add_pos hx hpos))
  · rcases zero_le_iff.1 hx with hpos | ⟨s, hs⟩
    · rwa [Unsigned.add_zero (Or.inr (Or.inr hpos)) ht]
    · refine zero_le_iff.2 (Or.inr ?_)
      rw [add_eq, hs, ht]
      simp only [UnpackedFloat.add]
      split_ifs <;> exact ⟨_, unpack_pack_zero _⟩

theorem Unsigned.add (hx : Unsigned x) (hy : Unsigned y) : Unsigned (x + y) := by
  rcases hy with rfl | hy | hy
  · exact Or.inl (add_nan x)
  · rwa [hx.add_zero hy]
  · rcases hx with rfl | hx | hx
    · exact Or.inl rfl
    · exact Or.inr (Or.inr (add_pos (zero_le_iff.2 (Or.inr ⟨_, hx⟩)) hy))
    · exact Or.inr (Or.inr (add_pos (zero_le_iff.2 (Or.inl hx)) hy))

/-- If one more summand makes a sum pass a bound then the summand is above zero. -/
theorem Unsigned.pos_of_passes {bound : Float} (hx : Unsigned x) (hy : Unsigned y)
    (hbelow : ¬ bound < x) (hpasses : bound < x + y) : 0.0 < y := by
  rcases hy with rfl | hzero | hpos
  · rw [add_nan] at hpasses
    exact absurd hpasses (not_lt_nan bound)
  · rw [hx.add_zero hzero] at hpasses
    exact absurd hpasses hbelow
  · exact hpos

end Unsigned

section Quotients

theorem div_eq (x y : Float) : x / y =
    .ofModel (.pack (UnpackedFloat.div .binary64 x.toModel.unpack y.toModel.unpack)) := rfl

theorem zero_div {x y : Float} {s : Sign} (hx : x.toModel.unpack = .zero s) (hy : 0.0 < y) :
    ∃ t, (x / y).toModel.unpack = .zero t := by
  rcases zero_lt_iff.1 hy with hyu | ⟨m, e, hm, hyu⟩ <;>
    · rw [div_eq, hx, hyu]
      exact ⟨_, unpack_pack_zero _⟩

/-- The quotient of two numbers above zero, which may be rounded to zero, or be that of infinities. -/
theorem Unsigned.div {x y : Float} (hx : 0.0 < x) (hy : 0.0 < y) : Unsigned (x / y) := by
  have hunpack : (x / y).toModel.unpack =
    (Float.Model.pack (UnpackedFloat.div .binary64 x.toModel.unpack y.toModel.unpack)).unpack := rfl
  have hpack : ∀ {u : UnpackedFloat}, UnpackedFloat.div .binary64 x.toModel.unpack y.toModel.unpack =
      u → (u = .infinity .positive ∨ u = .zero .positive ∨ ∃ m e h, u = .finite .positive m e h) →
      Unsigned (x / y) := by
    rintro u hu h
    rw [hu] at hunpack
    rcases h with rfl | rfl | ⟨m, e, hm, rfl⟩
    · exact Or.inr (Or.inr (zero_lt_iff.2 (Or.inl (hunpack.trans (unpack_pack_infinity _)))))
    · exact Or.inr (Or.inl (hunpack.trans (unpack_pack_zero _)))
    · rcases unpack_pack_finite hm with h | ⟨m', e', hm', h⟩ | ⟨h, -⟩
      · exact Or.inr (Or.inr (zero_lt_iff.2 (Or.inl (hunpack.trans h))))
      · exact Or.inr (Or.inr (zero_lt_iff.2 (Or.inr ⟨m', e', hm', hunpack.trans h⟩)))
      · exact Or.inr (Or.inl (hunpack.trans h))
  rcases zero_lt_iff.1 hx with hxu | ⟨m, e, hm, hxu⟩ <;>
    rcases zero_lt_iff.1 hy with hyu | ⟨m', e', hm', hyu⟩ <;> rw [hxu, hyu] at hpack
  · refine Or.inl (eq_nan_of_unpack ?_)
    rw [hunpack, hxu, hyu]
    exact Float.Model.UnpackedFloat.unpack_packedNaN
  · exact hpack rfl (Or.inl rfl)
  · exact hpack rfl (Or.inr (Or.inl rfl))
  · refine hpack rfl (Or.inr ?_)
    simp only [UnpackedFloat.div, roundWithAccuracy]
    split_ifs with hzero
    · exact Or.inl rfl
    · exact Or.inr ⟨_, _, Nat.pos_of_ne_zero hzero, rfl⟩

end Quotients

section Differences

theorem sub_eq (x y : Float) : x - y =
    .ofModel (.pack (UnpackedFloat.sub .binary64 x.toModel.unpack y.toModel.unpack)) := rfl

/-- A number other than a NaN is rounded to no NaN. -/
theorem normalize_ne (m e : Int) (z : Sign) : normalize .binary64 m e z ≠ notANumber := by
  simp only [UnpackedFloat.normalize]
  have hround : ∀ s n f, UnpackedFloat.round .binary64 s n f ≠ notANumber := fun s n f => by
    simp only [UnpackedFloat.round, roundWithAccuracy]
    split_ifs <;> simp
  split
  · exact hround _ _ _
  · simp
  · exact hround _ _ _

/-- A number less itself, unless it is a NaN or infinite. -/
theorem sub_self {x : Float} (hnan : x ≠ Float.nan) (hinf : ∀ s, x.toModel.unpack ≠ .infinity s) :
    x - x = 0.0 := by
  have hzero : UnpackedFloat.sub .binary64 x.toModel.unpack x.toModel.unpack = .zero .positive := by
    rcases hx : x.toModel.unpack with s | _ | s | ⟨s, m, e, hm⟩
    · exact absurd hx (hinf s)
    · exact absurd (eq_nan_of_unpack hx) hnan
    · cases s <;> rfl
    · simp only [UnpackedFloat.sub, Int.sub_self, UnpackedFloat.normalize]
      rfl
  rw [sub_eq, hzero, ← unpack_zero, pack_unpack]

/-- A number less a finite one. -/
theorem sub_ne_nan {x y : Float} (hx : x ≠ Float.nan) (hy : y ≠ Float.nan)
    (hinf : ∀ s, y.toModel.unpack ≠ .infinity s) : x - y ≠ Float.nan := fun h => by
  have hsub := unpack_eq_notANumber h
  rcases hxu : x.toModel.unpack with s | _ | s | ⟨s, m, e, hm⟩
  case notANumber => exact hx (eq_nan_of_unpack hxu)
  all_goals
    rcases hyu : y.toModel.unpack with s' | _ | s' | ⟨s', m', e', hm'⟩
    case notANumber => exact hy (eq_nan_of_unpack hyu)
    case infinity => exact hinf s' hyu
    all_goals rw [hxu, hyu] at hsub
  case finite.finite => exact normalize_ne _ _ _ hsub
  case zero.zero =>
    simp only [UnpackedFloat.sub] at hsub
    split_ifs at hsub
  all_goals cases hsub

end Differences

end Number

end LinkedTables
