import LinkedTables.Number.Double
import Mathlib

/-!
# Doubles that are whole numbers

The exact value of a double, if it is a whole number (`whole?`). A whole number below `2 ^ 53` is a
double in one way, up to the sign of zero (`unpack_of_whole`), and sums and products that stay below
are exact (`whole?_add`, `whole?_mul`). So positions can be computed with as doubles: the row-major
offset of positions is the double of the offset (`whole?_stride`).
-/

namespace LinkedTables

namespace Number

open Float.Model (UnpackedFloat Format)
open Float.Model.UnpackedFloat

/-- The exact value of a double that is a whole number. -/
def whole? (x : Float) : Option Int :=
  match x.toModel.unpack with
  | .notANumber | .infinity _ => none
  | .zero _ => some 0
  | .finite s m e _ =>
    if 0 ≤ e then some (s.apply (m * 2 ^ e.toNat))
    else if m % 2 ^ (-e).toNat = 0 then some (s.apply (m / 2 ^ (-e).toNat))
    else none

section Rounding

variable {m n : Nat}

theorem shiftRight_exact (a : Nat) : ∀ n : Nat,
    (⟨a * 2 ^ n, false, false⟩ : ExtendedMantissa) >>> n = ⟨a, false, false⟩ := by
  have hrepeat : ∀ (n a : Nat), n.repeat ExtendedMantissa.shiftRightOne ⟨a * 2 ^ n, false, false⟩ =
      ⟨a, false, false⟩ := by
    intro n
    induction n with
    | zero => intro a; simp [Nat.repeat]
    | succ n ih =>
      intro a
      have hpow : a * 2 ^ (n + 1) = (a * 2) * 2 ^ n := by ring
      rw [Nat.repeat, hpow, ih]
      simp [ExtendedMantissa.shiftRightOne]
  exact fun n => hrepeat n a

theorem log2_mul_two_pow (hlow : 2 ^ 52 ≤ m) (hhigh : m < 2 ^ 53) (d : Nat) :
    (m * 2 ^ d).log2 = 52 + d := by
  refine (Nat.log2_eq_iff (by positivity)).2 ⟨?_, ?_⟩
  · rw [pow_add]
    exact Nat.mul_le_mul_right _ hlow
  · rw [show 52 + d + 1 = 53 + d by omega, pow_add]
    exact Nat.mul_lt_mul_of_pos_right hhigh (by positivity)

/-- A mantissa of 53 bits stays what it is, with zeros behind it or without. -/
theorem roundWithAccuracy_exact (hlow : 2 ^ 52 ≤ m) (hhigh : m < 2 ^ 53) (s : Sign) (d : Nat)
    {e : Int} (he : -1074 ≤ e + d) :
    roundWithAccuracy .binary64 s (m * 2 ^ d) e .exact =
      .finite s m (e + d) (by omega) := by
  have hbits : (Format.binary64.mantissaBits : Int) = 53 := rfl
  have hmin : Format.binary64.minExponent = -1074 := rfl
  have hfirst : shiftToTargetExponent .binary64 (m * 2 ^ d) e .exact =
      (⟨m, false, false⟩, e + d) := by
    have hamount : (max ((52 + d : Nat) + 1 + e - 53) (-1074) - e).toNat = d := by omega
    simp only [shiftToTargetExponent, shiftToExponent, Float.Model.totalExponent,
      log2_mul_two_pow hlow hhigh, Format.targetExponent, hbits, hmin, hamount,
      ExtendedMantissa.ofMantissaAndAccuracy, shiftRight_exact]
  have hsecond : shiftToTargetExponent .binary64 m (e + d) .exact =
      (⟨m, false, false⟩, e + d) := by
    have hamount : (max ((52 + 0 : Nat) + 1 + (e + d) - 53) (-1074) - (e + d)).toNat = 0 := by omega
    have hlog := log2_mul_two_pow hlow hhigh 0
    have hshift := shiftRight_exact m 0
    rw [pow_zero, mul_one] at hlog hshift
    simp only [shiftToTargetExponent, shiftToExponent, Float.Model.totalExponent, hlog,
      Format.targetExponent, hbits, hmin, hamount, ExtendedMantissa.ofMantissaAndAccuracy, hshift]
    simp
  have hrounded : (⟨m, false, false⟩ : ExtendedMantissa).roundedMantissa = m := rfl
  have hne : m ≠ 0 := by omega
  simp only [roundWithAccuracy, hfirst, hrounded, hsecond, dif_neg hne]

theorem round_down {d : Nat} (hn : n = m * 2 ^ d) (hlow : 2 ^ 52 ≤ m) (hhigh : m < 2 ^ 53)
    (s : Sign) {e : Int} (he : -1074 ≤ e) :
    UnpackedFloat.round .binary64 s n (e - d) = .finite s m e (by omega) := by
  subst hn
  have hbits : (Format.binary64.mantissaBits : Int) = 53 := rfl
  have hmin : Format.binary64.minExponent = -1074 := rfl
  have hamount : (e - d - max ((52 + d : Nat) + 1 + (e - d) - 53) (-1074)).toNat = 0 := by omega
  simp only [UnpackedFloat.round, Float.Model.totalExponent, log2_mul_two_pow hlow hhigh, Format.targetExponent,
    hbits, hmin, decreaseExponent, hamount, Nat.shiftLeft_zero]
  have := roundWithAccuracy_exact hlow hhigh s d (e := e - d) (by omega)
  simpa using this

theorem round_up {d : Nat} (hm : n * 2 ^ d = m) (hlow : 2 ^ 52 ≤ m) (hhigh : m < 2 ^ 53) (s : Sign)
    {e : Int} (he : -1074 ≤ e) :
    UnpackedFloat.round .binary64 s n (e + d) = .finite s m e (by omega) := by
  subst hm
  have hbits : (Format.binary64.mantissaBits : Int) = 53 := rfl
  have hmin : Format.binary64.minExponent = -1074 := rfl
  have hn : n ≠ 0 := by rintro rfl; simp at hlow
  have hlog : n.log2 + d = 52 := by
    have hsum : (n * 2 ^ d).log2 = n.log2 + d := by
      refine (Nat.log2_eq_iff (by positivity)).2 ⟨?_, ?_⟩
      · rw [pow_add]
        exact Nat.mul_le_mul_right _ (Nat.log2_self_le hn)
      · rw [show n.log2 + d + 1 = n.log2 + 1 + d by omega, pow_add]
        exact Nat.mul_lt_mul_of_pos_right Nat.lt_log2_self (by positivity)
    have h52 : (n * 2 ^ d).log2 = 52 := (Nat.log2_eq_iff (by omega)).2 ⟨hlow, hhigh⟩
    omega
  have hamount : (e + d - max ((n.log2 : Int) + 1 + (e + d) - 53) (-1074)).toNat = d := by omega
  simp only [UnpackedFloat.round, Float.Model.totalExponent, Format.targetExponent, hbits, hmin, decreaseExponent,
    hamount, Nat.shiftLeft_eq]
  have := roundWithAccuracy_exact hlow hhigh s 0 (e := e + d - d) (by omega)
  simpa using this

/-- The mantissa of a whole number that takes 53 bits. -/
def significand (n : Nat) : Nat := n * 2 ^ (52 - n.log2)

theorem log2_lt (hpos : 0 < n) (hn : n < 2 ^ 53) : n.log2 < 53 :=
  (Nat.log2_lt (by omega)).2 hn

theorem significand_bounds (hpos : 0 < n) (hn : n < 2 ^ 53) :
    2 ^ 52 ≤ significand n ∧ significand n < 2 ^ 53 := by
  have hlog := log2_lt hpos hn
  constructor
  · calc 2 ^ 52 = 2 ^ n.log2 * 2 ^ (52 - n.log2) := by rw [← pow_add]; congr 1; omega
      _ ≤ significand n := Nat.mul_le_mul_right _ (Nat.log2_self_le (by omega))
  · calc significand n < 2 ^ (n.log2 + 1) * 2 ^ (52 - n.log2) :=
        Nat.mul_lt_mul_of_pos_right Nat.lt_log2_self (by positivity)
      _ = 2 ^ 53 := by rw [← pow_add]; congr 1; omega

/-- A whole number that takes at most 53 bits has one form, however it was written. -/
theorem round_whole (hpos : 0 < n) (hn : n < 2 ^ 53) (s : Sign) (d : Nat) :
    UnpackedFloat.round .binary64 s (n * 2 ^ d) (-d) =
      .finite s (significand n) (n.log2 - 52) (by have := (significand_bounds hpos hn).1; omega) := by
  have hlog := log2_lt hpos hn
  obtain ⟨hlow, hhigh⟩ := significand_bounds hpos hn
  rcases Nat.le_total d (52 - n.log2) with hle | hle
  · have hsplit : n * 2 ^ d * 2 ^ (52 - n.log2 - d) = significand n := by
      rw [significand, mul_assoc, ← pow_add]
      congr 2
      omega
    have hround := round_up hsplit hlow hhigh s (e := (n.log2 : Int) - 52) (by omega)
    have hexp : ((n.log2 : Int) - 52) + ((52 - n.log2 - d : Nat) : Int) = -(d : Int) := by omega
    rwa [hexp] at hround
  · have hsplit : n * 2 ^ d = significand n * 2 ^ (d - (52 - n.log2)) := by
      rw [significand, mul_assoc, ← pow_add]
      congr 2
      omega
    have hround := round_down hsplit hlow hhigh s (e := (n.log2 : Int) - 52) (by omega)
    have hexp : ((n.log2 : Int) - 52) - ((d - (52 - n.log2) : Nat) : Int) = -(d : Int) := by omega
    rwa [hexp] at hround

end Rounding

section Packing

/-- A number of 53 bits is unpacked as it was packed. -/
theorem unpack_pack {m : Nat} {e : Int} (hlow : 2 ^ 52 ≤ m) (hhigh : m < 2 ^ 53)
    (helow : -1074 ≤ e) (hehigh : e ≤ 971) (s : Sign) (hm : 0 < m) :
    (Float.Model.pack (.finite s m e hm)).unpack = .finite s m e hm := by
  have hlog : m.log2 = 52 := (Nat.log2_eq_iff (by omega)).2 ⟨hlow, hhigh⟩
  have hbiased : (e + Format.binary64.exponentBias + Format.binary64.mantissaBitsWithoutImplicit).toNat
      = (e + 1075).toNat := by
    have hbias : ((Format.binary64.exponentBias : Nat) : Int) = 1023 := rfl
    have hwidth : ((Format.binary64.mantissaBitsWithoutImplicit : Nat) : Int) = 52 := rfl
    omega
  have hpack : UnpackedFloat.pack .binary64 (.finite s m e hm) =
      packComponents .binary64 s (BitVec.ofNat 11 (e + 1075).toNat) (BitVec.ofNat 52 m) := by
    simp only [UnpackedFloat.pack, hlog, hbiased]
    rw [if_neg (by omega), if_pos (show 52 + 1 = Format.binary64.mantissaBits from rfl)]
  have hbits : (BitVec.ofNat 11 (e + 1075).toNat).toNat = (e + 1075).toNat := by
    rw [BitVec.toNat_ofNat]
    omega
  have hinfinite : BitVec.ofNat 11 (e + 1075).toNat ≠ -1#11 := fun h => by
    have := congrArg BitVec.toNat h
    rw [hbits] at this
    have hones : (-1#11 : BitVec 11).toNat = 2047 := rfl
    omega
  have hzero : BitVec.ofNat 11 (e + 1075).toNat ≠ 0#11 := fun h => by
    have := congrArg BitVec.toNat h
    rw [hbits] at this
    simp at this
    omega
  have hmantissa : (1#1 ++ BitVec.ofNat 52 m).toNat = m := by
    rw [BitVec.toNat_append, ← Nat.shiftLeft_add_eq_or_of_lt (BitVec.ofNat 52 m).isLt,
      BitVec.toNat_ofNat, Nat.shiftLeft_eq]
    simp only [BitVec.toNat_ofNat]
    omega
  have hexp : ((e + 1075).toNat : Int) -
      ((Format.binary64.exponentBias : Int) + (Format.binary64.mantissaBitsWithoutImplicit : Nat)) =
        e := by
    have hbias : ((Format.binary64.exponentBias : Nat) : Int) = 1023 := rfl
    have hwidth : ((Format.binary64.mantissaBitsWithoutImplicit : Nat) : Int) = 52 := rfl
    omega
  show UnpackedFloat.unpack .binary64 (UnpackedFloat.pack .binary64 (.finite s m e hm)) = _
  rw [hpack, UnpackedFloat.unpack]
  simp only [unpackMantissa_packComponents, unpackExponent_packComponents, unpackSign_packComponents,
    Sign.ofBitVec_toBitVec, if_neg hinfinite, if_neg hzero, hbits, hmantissa, hexp]

theorem unpack_pack_zero (s : Sign) : (Float.Model.pack (.zero s)).unpack = .zero s :=
  unpack_packedZero

theorem pack_unpack (x : Float) : Float.ofModel (Float.Model.pack x.toModel.unpack) = x :=
  Float.ofBits_toBits x

/-- The forms that doubles have: a mantissa of 53 bits, or the least exponent. -/
theorem unpack_finite {b : BitVec Format.binary64.numBits} {s : Sign} {m : Nat} {e : Int}
    {hm : 0 < m} (h : UnpackedFloat.unpack .binary64 b = .finite s m e hm) :
    (2 ^ 52 ≤ m ∧ m < 2 ^ 53 ∧ -1074 ≤ e ∧ e ≤ 971) ∨ (m < 2 ^ 52 ∧ e = -1074) := by
  have hbias : ((Format.binary64.exponentBias : Nat) : Int) = 1023 := rfl
  have hwidth : ((Format.binary64.mantissaBitsWithoutImplicit : Nat) : Int) = 52 := rfl
  have hmlt : (unpackMantissa b).toNat < 2 ^ 52 := BitVec.isLt _
  have helt : (unpackExponent b).toNat < 2048 := BitVec.isLt _
  rw [UnpackedFloat.unpack] at h
  simp only at h
  split_ifs at h with hinf hman hzero hman
  · simp only [UnpackedFloat.finite.injEq] at h
    have hevec : (unpackExponent b).toNat = 0 := by rw [hzero]; rfl
    right
    omega
  · simp only [UnpackedFloat.finite.injEq] at h
    have hmantissa : (1#1 ++ unpackMantissa b).toNat = 2 ^ 52 + (unpackMantissa b).toNat := by
      rw [BitVec.toNat_append, ← Nat.shiftLeft_add_eq_or_of_lt (BitVec.isLt _)]
      rfl
    have hevec : (unpackExponent b).toNat ≠ 0 := fun h0 => hzero (BitVec.eq_of_toNat_eq h0)
    have hones : (unpackExponent b).toNat ≠ 2047 := fun h1 => hinf (BitVec.eq_of_toNat_eq h1)
    left
    omega

end Packing

section Form

variable {x : Float} {n : Nat}

theorem whole?_of_zero {s : Sign} (h : x.toModel.unpack = .zero s) : whole? x = some 0 := by
  simp [whole?, h]

/-- A whole number other than zero is what rounding makes of it. -/
theorem unpack_eq_round {k : Int} (h : whole? x = some k) (hk : k ≠ 0) :
    x.toModel.unpack = UnpackedFloat.round .binary64 (if k < 0 then .negative else .positive)
      k.natAbs 0 := by
  rcases hx : x.toModel.unpack with s | _ | s | ⟨s, m, e, hm⟩ <;> simp only [whole?, hx] at h
  · cases h
  · cases h
  · simp only [Option.some.injEq] at h
    exact absurd h.symm hk
  · have happly : ∀ n : Nat, s.apply n = k → 0 < n →
        n = k.natAbs ∧ s = if k < 0 then .negative else .positive := by
      intro n hn hpos
      cases s <;> simp only [Sign.apply] at hn <;> split_ifs <;>
        first | exact ⟨by omega, rfl⟩ | omega
    have hform := unpack_finite hx
    split_ifs at h with he hmod
    · simp only [Option.some.injEq] at h
      obtain ⟨habs, hs⟩ := happly (m * 2 ^ e.toNat) (by simpa using h) (by positivity)
      rcases hform with ⟨hlow, hhigh, -, -⟩ | ⟨-, rfl⟩
      · have hround := round_down habs.symm hlow hhigh s (e := e) (by omega)
        rw [show e - (e.toNat : Int) = 0 by omega] at hround
        rw [← hs, hround]
      · omega
    · simp only [Option.some.injEq] at h
      have hdvd : m / 2 ^ (-e).toNat * 2 ^ (-e).toNat = m :=
        Nat.div_mul_cancel (Nat.dvd_of_mod_eq_zero hmod)
      have hquotient : 0 < m / 2 ^ (-e).toNat := by
        by_contra h0
        rw [Nat.le_zero.1 (not_lt.1 h0), zero_mul] at hdvd
        omega
      obtain ⟨habs, hs⟩ := happly (m / 2 ^ (-e).toNat) (by simpa using h) hquotient
      rcases hform with ⟨hlow, hhigh, helow, -⟩ | ⟨hsmall, rfl⟩
      · have hround := round_up (habs ▸ hdvd) hlow hhigh s (e := e) helow
        rw [show e + ((-e).toNat : Int) = 0 by omega] at hround
        rw [← hs, hround]
      · -- a subnormal number lies strictly between two whole numbers
        have : 2 ^ 52 ≤ 2 ^ (-(-1074 : Int)).toNat := Nat.pow_le_pow_right (by omega) (by decide)
        have hle : 2 ^ (-(-1074 : Int)).toNat ≤ m :=
          Nat.le_of_dvd hm (Nat.dvd_of_mod_eq_zero hmod)
        omega

theorem unpack_of_whole (h : whole? x = some (n : Int)) (hpos : 0 < n) (hn : n < 2 ^ 53) :
    x.toModel.unpack = .finite .positive (significand n) (n.log2 - 52)
      (by have := (significand_bounds hpos hn).1; omega) := by
  have hround := round_whole hpos hn .positive 0
  rw [unpack_eq_round h (by omega), if_neg (by omega)]
  simpa using hround

theorem unpack_of_whole_zero (h : whole? x = some 0) : ∃ s, x.toModel.unpack = .zero s := by
  rcases hx : x.toModel.unpack with s | _ | s | ⟨s, m, e, hm⟩ <;> simp only [whole?, hx] at h
  · cases h
  · cases h
  · exact ⟨s, rfl⟩
  · have happly : ∀ n : Nat, 0 < n → s.apply n ≠ 0 := by
      intro n hn
      cases s <;> simp only [Sign.apply] <;> omega
    split_ifs at h with he hmod
    · simp only [Option.some.injEq] at h
      exact absurd (by simpa using h) (happly (m * 2 ^ e.toNat) (by positivity))
    · simp only [Option.some.injEq] at h
      have hdvd : m / 2 ^ (-e).toNat * 2 ^ (-e).toNat = m :=
        Nat.div_mul_cancel (Nat.dvd_of_mod_eq_zero hmod)
      refine absurd (by simpa using h) (happly (m / 2 ^ (-e).toNat) (Nat.pos_of_ne_zero fun h0 => ?_))
      rw [h0, zero_mul] at hdvd
      omega

theorem whole?_pack (hpos : 0 < n) (hn : n < 2 ^ 53) {u : UnpackedFloat} {s : Sign}
    (hu : u = .finite s (significand n) (n.log2 - 52)
      (by have := (significand_bounds hpos hn).1; omega)) :
    whole? (.ofModel (.pack u)) = some (s.apply n) := by
  obtain ⟨hlow, hhigh⟩ := significand_bounds hpos hn
  have hlog := log2_lt hpos hn
  have hunpack := unpack_pack hlow hhigh (e := (n.log2 : Int) - 52) (by omega) (by omega) s (by omega)
  subst hu
  simp only [whole?, hunpack]
  split_ifs with he hmod
  · have h52 : n.log2 = 52 := by omega
    simp [significand, h52]
  · have hexp : (-((n.log2 : Int) - 52)).toNat = 52 - n.log2 := by omega
    rw [hexp, significand]
    simp
  · have hexp : (-((n.log2 : Int) - 52)).toNat = 52 - n.log2 := by omega
    rw [hexp, significand] at hmod
    simp at hmod

/-- Whole numbers that take at most 53 bits are doubles. -/
theorem whole?_ofNat (hn : n < 2 ^ 53) : whole? (.ofModel (.ofNat n)) = some (n : Int) := by
  rcases Nat.eq_zero_or_pos n with rfl | hpos
  · exact whole?_of_zero (unpack_pack_zero .positive)
  · have hcompare : compare (n : Int) 0 = .gt := Int.compare_eq_gt.2 (by omega)
    have hround := round_whole hpos hn .positive 0
    simp only [pow_zero, mul_one, Nat.cast_zero, neg_zero] at hround
    refine whole?_pack hpos hn (s := .positive) ?_
    simp only [UnpackedFloat.ofNat, UnpackedFloat.ofInt, UnpackedFloat.normalize, hcompare,
      Int.toNat_natCast, hround]

theorem whole?_ofIndex (hn : n < 2 ^ 53) : whole? (ofIndex n) = some (n : Int) := by
  have htoNat : (UInt64.ofNat n).toNat = n := by
    rw [UInt64.toNat_ofNat']
    exact Nat.mod_eq_of_lt (by omega)
  show whole? (.ofModel (.ofNat (UInt64.ofNat n).toNat)) = _
  rw [htoNat]
  exact whole?_ofNat hn

theorem whole?_toFloat {n : UInt64} (hn : n.toNat < 2 ^ 53) :
    whole? n.toFloat = some (n.toNat : Int) := whole?_ofNat hn

end Form

section Arithmetic

variable {x y : Float} {a b : Nat}

theorem add_eq (x y : Float) : x + y =
    .ofModel (.pack (UnpackedFloat.add .binary64 x.toModel.unpack y.toModel.unpack)) := rfl

theorem mul_eq (x y : Float) : x * y =
    .ofModel (.pack (UnpackedFloat.mul .binary64 x.toModel.unpack y.toModel.unpack)) := rfl

theorem shiftLeft_significand {n : Nat} (hpos : 0 < n) (hn : n < 2 ^ 53) {e : Int}
    (he : e ≤ (n.log2 : Int) - 52) :
    significand n <<< ((n.log2 : Int) - 52 - e).toNat = n * 2 ^ (-e).toNat := by
  have hlog := log2_lt hpos hn
  rw [Nat.shiftLeft_eq, significand, mul_assoc, ← pow_add]
  congr 2
  omega

/-- A zero leaves a finite number as it is. -/
theorem zero_add_finite {s t : Sign} {m : Nat} {e : Int} {hm : 0 < m}
    (hx : x.toModel.unpack = .zero s) (hy : y.toModel.unpack = .finite t m e hm) : x + y = y := by
  rw [add_eq, hx, hy, UnpackedFloat.add, ← hy, pack_unpack] <;> simp

theorem finite_add_zero {s t : Sign} {m : Nat} {e : Int} {hm : 0 < m}
    (hx : x.toModel.unpack = .finite s m e hm) (hy : y.toModel.unpack = .zero t) : x + y = x := by
  rw [add_eq, hx, hy, UnpackedFloat.add, ← hx, pack_unpack] <;> simp

theorem whole?_add_pos (hx : whole? x = some (a : Int)) (hy : whole? y = some (b : Int))
    (ha : 0 < a) (hb : 0 < b) (h : a + b < 2 ^ 53) :
    whole? (x + y) = some ((a + b : Nat) : Int) := by
  have hxf := unpack_of_whole hx ha (by omega)
  have hyf := unpack_of_whole hy hb (by omega)
  have hloga := log2_lt ha (by omega)
  have hlogb := log2_lt hb (by omega)
  -- both summands at the smaller of their exponents
  set e : Int := min ((a.log2 : Int) - 52) ((b.log2 : Int) - 52) with he
  have hcompare : compare (((a + b) * 2 ^ (-e).toNat : Nat) : Int) 0 = .gt :=
    Int.compare_eq_gt.2 (by positivity)
  have hround := round_whole (n := a + b) (by omega) h .positive (-e).toNat
  rw [show -((-e).toNat : Int) = e by omega] at hround
  have hadd : UnpackedFloat.add .binary64 x.toModel.unpack y.toModel.unpack =
      .finite .positive (significand (a + b)) ((a + b).log2 - 52)
        (by have := (significand_bounds (n := a + b) (by omega) h).1; omega) := by
    rw [hxf, hyf]
    simp only [UnpackedFloat.add, decreaseExponent, ← he, Sign.apply,
      shiftLeft_significand ha (by omega) (show e ≤ (a.log2 : Int) - 52 by omega),
      shiftLeft_significand hb (by omega) (show e ≤ (b.log2 : Int) - 52 by omega)]
    rw [← Nat.cast_add, ← Nat.add_mul]
    simp only [UnpackedFloat.normalize, hcompare, Int.toNat_natCast]
    exact hround
  rw [add_eq]
  exact whole?_pack (by omega) h hadd

/-- A sum of whole numbers is exact if it takes at most 53 bits. -/
theorem whole?_add (hx : whole? x = some (a : Int)) (hy : whole? y = some (b : Int))
    (h : a + b < 2 ^ 53) :
    whole? (x + y) = some ((a + b : Nat) : Int) := by
  rcases Nat.eq_zero_or_pos a with rfl | ha
  · obtain ⟨s, hxs⟩ := unpack_of_whole_zero hx
    rcases Nat.eq_zero_or_pos b with rfl | hb
    · obtain ⟨t, hyt⟩ := unpack_of_whole_zero hy
      rw [add_eq, hxs, hyt]
      simp only [UnpackedFloat.add]
      split_ifs <;> exact whole?_of_zero (unpack_pack_zero _)
    · rw [zero_add_finite hxs (unpack_of_whole hy hb (by omega)), hy, Nat.zero_add]
  · rcases Nat.eq_zero_or_pos b with rfl | hb
    · obtain ⟨t, hyt⟩ := unpack_of_whole_zero hy
      rw [finite_add_zero (unpack_of_whole hx ha (by omega)) hyt, hx, Nat.add_zero]
    · exact whole?_add_pos hx hy ha hb h

/-- The product of two significands is that of the product, shifted by some bits. -/
theorem significand_mul (ha : 0 < a) (hb : 0 < b) (h : a * b < 2 ^ 53) :
    a.log2 + b.log2 ≤ (a * b).log2 ∧ significand a * significand b =
      significand (a * b) * 2 ^ (52 + (a * b).log2 - (a.log2 + b.log2)) := by
  have hpos : 0 < a * b := Nat.mul_pos ha hb
  have hloga := log2_lt ha ((Nat.le_mul_of_pos_right a hb).trans_lt h)
  have hlogb := log2_lt hb ((Nat.le_mul_of_pos_left b ha).trans_lt h)
  have hlogab := log2_lt hpos h
  have hlog : a.log2 + b.log2 ≤ (a * b).log2 := by
    refine (Nat.le_log2 (by omega)).2 ?_
    rw [pow_add]
    exact Nat.mul_le_mul (Nat.log2_self_le (by omega)) (Nat.log2_self_le (by omega))
  set d : Nat := 52 + (a * b).log2 - (a.log2 + b.log2) with hd
  refine ⟨hlog, ?_⟩
  calc significand a * significand b
      = a * b * (2 ^ (52 - a.log2) * 2 ^ (52 - b.log2)) := by simp only [significand]; ring
    _ = a * b * (2 ^ (52 - (a * b).log2) * 2 ^ d) := by
        rw [← pow_add, ← pow_add]
        congr 2
        omega
    _ = significand (a * b) * 2 ^ d := by simp only [significand]; ring

theorem whole?_mul_pos (hx : whole? x = some (a : Int)) (hy : whole? y = some (b : Int))
    (ha : 0 < a) (hb : 0 < b) (h : a * b < 2 ^ 53) :
    whole? (x * y) = some ((a * b : Nat) : Int) := by
  have hxf := unpack_of_whole hx ha ((Nat.le_mul_of_pos_right a hb).trans_lt h)
  have hyf := unpack_of_whole hy hb ((Nat.le_mul_of_pos_left b ha).trans_lt h)
  have hpos : 0 < a * b := Nat.mul_pos ha hb
  have hlogab := log2_lt hpos h
  obtain ⟨hlow, hhigh⟩ := significand_bounds hpos h
  obtain ⟨hlog, hproduct⟩ := significand_mul ha hb h
  have hround := roundWithAccuracy_exact hlow hhigh .positive
    (52 + (a * b).log2 - (a.log2 + b.log2)) (e := ((a.log2 : Int) - 52) + ((b.log2 : Int) - 52))
    (by omega)
  rw [mul_eq]
  refine whole?_pack hpos h (s := .positive) ?_
  rw [hxf, hyf]
  simp only [UnpackedFloat.mul, hproduct]
  refine hround.trans ?_
  simp only [UnpackedFloat.finite.injEq, true_and]
  omega

/-- So is a product. -/
theorem whole?_mul (hx : whole? x = some (a : Int)) (hy : whole? y = some (b : Int))
    (ha : a < 2 ^ 53) (hb : b < 2 ^ 53) (h : a * b < 2 ^ 53) :
    whole? (x * y) = some ((a * b : Nat) : Int) := by
  rcases Nat.eq_zero_or_pos a with rfl | hapos
  · obtain ⟨s, hxs⟩ := unpack_of_whole_zero hx
    have hzero : ∃ t, UnpackedFloat.mul .binary64 x.toModel.unpack y.toModel.unpack = .zero t := by
      rcases Nat.eq_zero_or_pos b with rfl | hbpos
      · obtain ⟨t, hyt⟩ := unpack_of_whole_zero hy
        exact ⟨s * t, by rw [hxs, hyt]; rfl⟩
      · exact ⟨_, by rw [hxs, unpack_of_whole hy hbpos hb]; rfl⟩
    obtain ⟨t, ht⟩ := hzero
    rw [mul_eq, ht, Nat.zero_mul]
    exact whole?_of_zero (unpack_pack_zero t)
  · rcases Nat.eq_zero_or_pos b with rfl | hbpos
    · obtain ⟨t, hyt⟩ := unpack_of_whole_zero hy
      rw [mul_eq, unpack_of_whole hx hapos ha, hyt, Nat.mul_zero]
      exact whole?_of_zero (unpack_pack_zero _)
    · exact whole?_mul_pos hx hy hapos hbpos h

/-- One step of a row-major offset: the offset inside, plus a position times the size inside. -/
theorem whole?_stride {inner pos : Nat} {step : UInt64} (hx : whole? x = some (inner : Int))
    (hy : whole? y = some (pos : Int)) (hpos : pos < 2 ^ 53) (hstep : step.toNat < 2 ^ 53)
    (h : pos * step.toNat + inner < 2 ^ 53) :
    whole? (x + y * step.toFloat) = some ((pos * step.toNat + inner : Nat) : Int) := by
  have hmul := whole?_mul hy (whole?_toFloat hstep) hpos hstep (by omega)
  rw [Nat.add_comm]
  exact whole?_add hx hmul (by omega)

end Arithmetic

end Number

end LinkedTables
