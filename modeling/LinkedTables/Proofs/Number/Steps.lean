import LinkedTables.Proofs.Number.Signs

/-!
# Steps of any size

A word of 64 bits is rounded to a finite double, however many of its bits this takes
(`unpack_toFloat`). So a step of an offset leaves the offset as it is if the position is zero, and as
long as the result stays below `2 ^ 53` it is exact, whatever the size of the step (`whole?_step`).
-/

namespace LinkedTables

namespace Number

open Float.Model (UnpackedFloat Format)
open Float.Model.UnpackedFloat

theorem roundToNearestEven_le (m : Nat) (acc : Accuracy) : acc.roundToNearestEven m ≤ m + 1 := by
  rcases acc with _ | o
  · exact Nat.le_succ m
  · cases o <;> simp only [Accuracy.roundToNearestEven] <;> omega

/-- Rounding moves the exponent to the one that the number of bits asks for, and on by one at most. -/
theorem exponent_le_of_roundWithAccuracy {s t : Sign} {m n : Nat} {e f : Int} {acc : Accuracy}
    {hn : 0 < n} (hm : 0 < m) (he : -1074 ≤ e)
    (h : roundWithAccuracy .binary64 s m e acc = .finite t n f hn) :
    f ≤ max e ((m.log2 : Int) + e - 52) + 1 := by
  have hbits : (Format.binary64.mantissaBits : Int) = 53 := rfl
  have hmin : Format.binary64.minExponent = -1074 := rfl
  set k := (Format.binary64.targetExponent (Float.Model.totalExponent m e) - e).toNat with hk
  set r := (ExtendedMantissa.ofMantissaAndAccuracy m acc >>> k).roundedMantissa with hr
  have hrounded : r ≤ 2 ^ 53 := by
    have hshifted : (ExtendedMantissa.ofMantissaAndAccuracy m acc >>> k).mantissa = m / 2 ^ k := by
      rw [mantissa_shiftRight, mantissa_ofMantissaAndAccuracy]
    have hlt := (shifted_bounds hm he).2
    have hle := roundToNearestEven_le (m / 2 ^ k)
      (ExtendedMantissa.ofMantissaAndAccuracy m acc >>> k).accuracy
    rw [hr, ExtendedMantissa.roundedMantissa, hshifted]
    exact hle.trans hlt
  have hlog : r.log2 ≤ 53 := by
    rcases Nat.eq_zero_or_pos r with hzero | hpos
    · simp [hzero]
    · exact Nat.lt_succ_iff.1 ((Nat.log2_lt hpos.ne').2 (by omega))
  simp only [roundWithAccuracy, shiftToTargetExponent, shiftToExponent, ← hk, ← hr] at h
  split_ifs at h
  simp only [UnpackedFloat.finite.injEq] at h
  obtain ⟨-, -, rfl⟩ := h
  simp only [Format.targetExponent, Float.Model.totalExponent, hbits, hmin] at hk ⊢
  omega

/-- A number whose exponent is that of a double is not packed as infinity. -/
theorem unpack_pack_of_le {s : Sign} {m : Nat} {e : Int} (hm : 0 < m) (he : e ≤ 971) :
    (Float.Model.pack (.finite s m e hm)).unpack = .zero s ∨
      ∃ m' e' h, (Float.Model.pack (.finite s m e hm)).unpack = .finite s m' e' h := by
  rcases unpack_pack_finite (s := s) (e := e) hm with h | h | h
  · exfalso
    replace h : UnpackedFloat.unpack .binary64
      (UnpackedFloat.pack .binary64 (.finite s m e hm)) = .infinity s := h
    have hbias : ((Format.binary64.exponentBias : Nat) : Int) = 1023 := rfl
    have hwidth : ((Format.binary64.mantissaBitsWithoutImplicit : Nat) : Int) = 52 := rfl
    simp only [UnpackedFloat.pack] at h
    split_ifs at h with hlarge hnormal
    · omega
    · have hexponent : BitVec.ofNat 11 (e + Format.binary64.exponentBias +
          Format.binary64.mantissaBitsWithoutImplicit).toNat ≠ -1#11 := fun heq => by
        have hvalue := congrArg BitVec.toNat heq
        rw [BitVec.toNat_ofNat] at hvalue
        change _ = 2047 at hvalue
        omega
      rcases unpack_packComponents s _ hexponent with ⟨-, -, h'⟩ | ⟨_, _, _, h'⟩ <;>
        exact absurd (h'.symm.trans h) (by simp)
    · rcases unpack_packComponents s (BitVec.ofNat 52 m) (show 0#11 ≠ -1#11 by decide) with
        ⟨-, -, h'⟩ | ⟨_, _, _, h'⟩ <;> exact absurd (h'.symm.trans h) (by simp)
  · exact Or.inr h
  · exact Or.inl h.1

theorem log2_shiftLeft {m : Nat} (hm : 0 < m) (d : Nat) : (m <<< d).log2 = m.log2 + d := by
  rw [Nat.shiftLeft_eq]
  refine (Nat.log2_eq_iff (by positivity)).2 ⟨?_, ?_⟩
  · rw [pow_add]
    exact Nat.mul_le_mul_right _ (Nat.log2_self_le hm.ne')
  · rw [show m.log2 + d + 1 = m.log2 + 1 + d by omega, pow_add]
    exact Nat.mul_lt_mul_of_pos_right Nat.lt_log2_self (by positivity)

/-- A word is rounded to a number that is neither infinite nor below zero. -/
theorem unpack_toFloat (n : UInt64) : n.toFloat.toModel.unpack = .zero .positive ∨
    ∃ m e h, n.toFloat.toModel.unpack = .finite .positive m e h := by
  have hunpack : n.toFloat.toModel.unpack =
      (Float.Model.pack (UnpackedFloat.normalize .binary64 n.toNat 0 .positive)).unpack := rfl
  rw [hunpack]
  rcases Nat.eq_zero_or_pos n.toNat with hzero | hpos
  · rw [hzero]
    exact Or.inl (unpack_pack_zero .positive)
  · obtain ⟨m, e, hm, hround, -, -⟩ := round_finite .positive hpos (e := 0) (by omega)
    have hmin : Format.binary64.minExponent = -1074 := rfl
    have hlog : n.toNat.log2 < 64 := (Nat.log2_lt hpos.ne').2 n.toNat_lt
    have hround' := hround
    simp only [UnpackedFloat.round, decreaseExponent] at hround'
    have hle := exponent_le_of_roundWithAccuracy (by rw [Nat.shiftLeft_eq]; positivity)
      (by simp only [Format.targetExponent, hmin]; omega) hround'
    rw [log2_shiftLeft hpos] at hle
    simp only [UnpackedFloat.normalize, Int.compare_eq_gt.2 (Int.natCast_pos.2 hpos),
      Int.toNat_natCast, hround]
    exact unpack_pack_of_le hm (by omega)

/-- Zero steps of any size are zero. -/
theorem whole?_zero_mul {y : Float} (hy : whole? y = some 0) (step : UInt64) :
    whole? (y * step.toFloat) = some 0 := by
  obtain ⟨s, hys⟩ := unpack_of_whole_zero hy
  rw [mul_eq, hys]
  rcases unpack_toFloat step with hz | ⟨m, e, hm, hf⟩
  · rw [hz]
    exact whole?_of_zero (unpack_pack_zero _)
  · rw [hf]
    exact whole?_of_zero (unpack_pack_zero _)

/-- A step of an offset is exact as long as the result stays below `2 ^ 53`. -/
theorem whole?_step {x y : Float} {inner pos : Nat} {step : UInt64}
    (hx : whole? x = some (inner : Int)) (hy : whole? y = some (pos : Int))
    (h : inner + pos * step.toNat < 2 ^ 53) (hstep : step ≠ 0) :
    whole? (x + y * step.toFloat) = some ((inner + pos * step.toNat : Nat) : Int) := by
  have hsteps : 0 < step.toNat := Nat.pos_of_ne_zero fun h0 => hstep (UInt64.toNat_inj.1 h0)
  rcases Nat.eq_zero_or_pos pos with rfl | hpos
  · have hmul := whole?_zero_mul hy step
    rw [Nat.zero_mul] at h ⊢
    exact whole?_add hx hmul h
  · have hle := Nat.le_mul_of_pos_right pos hsteps
    have hle' := Nat.le_mul_of_pos_left step.toNat hpos
    rw [Nat.add_comm] at h ⊢
    exact whole?_stride hx hy (by omega) (by omega) h

end Number

end LinkedTables
