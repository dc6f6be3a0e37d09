import LinkedTables.Program.Opcode
import Mathlib

/-!
# Bit patterns and the numbers they are

An operation on bit patterns gives the pattern of what the operation gives on the numbers
(`ofBits_applyBits`): the two differ in nothing but which NaN it is, and the patterns that are given
for NaNs are patterns of NaNs.
-/

namespace LinkedTables

namespace Number

open Float.Model (Format)
open Float.Model.UnpackedFloat

theorem toBitVec_ofBits (b : UInt64) : (Float.ofBits b).toBits.toBitVec =
    if @isNaNBits .binary64 b.toBitVec then packedNaN .binary64 else b.toBitVec :=
  @Float.Model.UnpackedFloat.pack_unpack .binary64 b.toBitVec (by decide)

theorem ofBits_eq_nan_iff (b : UInt64) :
    Float.ofBits b = Float.nan ↔ @isNaNBits .binary64 b.toBitVec = true := by
  rw [← Float.toBits_inj, ← UInt64.toBitVec_inj, toBitVec_ofBits]
  have hnan : Float.nan.toBits.toBitVec = packedNaN .binary64 := rfl
  rw [hnan]
  split_ifs with h
  · simp [h]
  · refine ⟨fun heq => ?_, fun h' => absurd h' h⟩
    exact (h (heq ▸ isNaNBits_packedNaN)).elim

theorem toNat_withoutSign (b : UInt64) : (withoutSign b).toNat = b.toNat % 2 ^ 63 := by
  rw [withoutSign, UInt64.toNat_and]
  exact Nat.and_two_pow_sub_one_eq_mod b.toNat 63

/-- A pattern above that of infinity, but for the sign, is one of a NaN. -/
theorem isNaNPattern_iff (b : UInt64) :
    isNaNPattern b = true ↔ @isNaNBits .binary64 b.toBitVec = true := by
  have hlt : b.toNat < 2 ^ 64 := b.toNat_lt
  have hexponent : (@unpackExponent .binary64 b.toBitVec).toNat = b.toNat / 2 ^ 52 % 2 ^ 11 := by
    rw [unpackExponent_def, BitVec.extractLsb'_toNat, Nat.shiftRight_eq_div_pow]
    rfl
  have hmantissa : (@unpackMantissa .binary64 b.toBitVec).toNat = b.toNat % 2 ^ 52 := by
    rw [unpackMantissa_def, BitVec.extractLsb'_toNat, Nat.shiftRight_zero]
    rfl
  have hones : (-1#11 : BitVec 11).toNat = 2047 := rfl
  have hinfinity : infinityBits.toNat = 2047 * 2 ^ 52 := rfl
  rw [isNaNPattern, decide_eq_true_iff, UInt64.lt_iff_toNat_lt, toNat_withoutSign, hinfinity,
    isNaNBits, decide_eq_true_iff, ← BitVec.toNat_inj, ne_eq, ← BitVec.toNat_inj, hexponent,
    hmantissa, hones]
  simp only [BitVec.toNat_ofNat, Nat.zero_mod]
  omega

theorem ofBits_of_isNaNPattern {b : UInt64} (h : isNaNPattern b = true) :
    Float.ofBits b = Float.nan :=
  (ofBits_eq_nan_iff b).2 ((isNaNPattern_iff b).1 h)

theorem isNaNPattern_of_ofBits {b : UInt64} (h : Float.ofBits b = Float.nan) :
    isNaNPattern b = true :=
  (isNaNPattern_iff b).2 ((ofBits_eq_nan_iff b).1 h)

/-- The pattern of a number is one of that number, whichever pattern NaNs are given. -/
theorem ofBits_patternOr {nanPattern : UInt64} {x : Float}
    (h : x = Float.nan → Float.ofBits nanPattern = Float.nan) :
    Float.ofBits (patternOr nanPattern x) = x := by
  simp only [patternOr, Float.isNaN_eq_decide_eq_nan, decide_eq_true_eq]
  split_ifs with hnan
  · rw [h hnan, hnan]
  · exact Float.ofBits_toBits x

theorem ofBits_nanBits : Float.ofBits nanBits = Float.nan := rfl

theorem ofBits_bits (x : Float) : Float.ofBits (bits x) = x :=
  ofBits_patternOr fun _ => ofBits_nanBits

section Patterns

/-- Making a pattern quiet, or changing or dropping its sign, leaves it one of a NaN. -/
theorem isNaNPattern_quiet {b : UInt64} (h : isNaNPattern b = true) :
    isNaNPattern (b ||| quietBit) = true := by
  simp only [isNaNPattern, decide_eq_true_iff, UInt64.lt_iff_toNat_lt] at h ⊢
  refine lt_of_lt_of_le h ?_
  have hle : (withoutSign b).toNat ≤ (withoutSign (b ||| quietBit)).toNat := by
    simp only [withoutSign, UInt64.toNat_and, UInt64.toNat_or, Nat.and_or_distrib_right]
    exact Nat.left_le_or
  exact hle

theorem ofBits_propagated (operands : List UInt64) :
    Float.ofBits (propagated operands) = Float.nan := by
  rw [propagated]
  split
  · rename_i b hb
    exact ofBits_of_isNaNPattern (isNaNPattern_quiet (List.find?_some hb))
  · rfl

theorem isNaNPattern_congr {a b : UInt64} (h : withoutSign a = withoutSign b) :
    isNaNPattern a = isNaNPattern b := by
  rw [isNaNPattern, isNaNPattern, h]

theorem withoutSign_xor_signBit (b : UInt64) : withoutSign (b ^^^ signBit) = withoutSign b := by
  rw [← UInt64.toNat_inj, withoutSign, withoutSign, UInt64.toNat_and, UInt64.toNat_and,
    UInt64.toNat_xor, Nat.and_xor_distrib_right]
  have : signBit.toNat &&& (0x7fffffffffffffff : UInt64).toNat = 0 := by decide
  rw [this, Nat.xor_zero]

theorem withoutSign_withoutSign (b : UInt64) : withoutSign (withoutSign b) = withoutSign b := by
  rw [← UInt64.toNat_inj, toNat_withoutSign, toNat_withoutSign]
  exact Nat.mod_mod _ _

theorem ofBits_eq_nan_congr {a b : UInt64} (h : withoutSign a = withoutSign b)
    (hb : Float.ofBits b = Float.nan) : Float.ofBits a = Float.nan :=
  ofBits_of_isNaNPattern ((isNaNPattern_congr h).trans (isNaNPattern_of_ofBits hb))

end Patterns

section Signs

/-- Only a NaN is packed as one. -/
theorem eq_notANumber_of_pack {u : Float.Model.UnpackedFloat}
    (h : pack .binary64 u = packedNaN .binary64) : u = notANumber := by
  have hones : unpackExponent (packedNaN .binary64) = -1#11 := unpackExponent_packComponents
  rcases u with s | _ | s | ⟨s, m, e, hm⟩
  · cases s <;> exact absurd h (by decide)
  · rfl
  · cases s <;> exact absurd h (by decide)
  · exfalso
    rw [← h, pack] at hones
    split_ifs at hones with hlarge hnormal
    · simp only [pack, if_pos hlarge] at h
      cases s <;> exact absurd h (by decide)
    · rw [unpackExponent_packComponents, ← BitVec.toNat_inj, BitVec.toNat_ofNat] at hones
      have hvalue : (-1#11 : BitVec 11).toNat = 2047 := rfl
      have hbits : Format.binary64.exponentBits = 11 := rfl
      rw [hvalue] at hones
      rw [hbits] at hones hlarge
      omega
    · rw [unpackExponent_packComponents] at hones
      exact absurd hones (by decide)

theorem eq_nan_of_unpack {x : Float} (h : x.toModel.unpack = notANumber) : x = Float.nan := by
  rw [← Float.ofBits_toBits x]
  show Float.ofModel (.pack x.toModel.unpack) = Float.nan
  rw [h]
  rfl

theorem unpack_eq_notANumber {u : Float.Model.UnpackedFloat}
    (h : Float.ofModel (.pack u) = Float.nan) : u = notANumber := by
  refine eq_notANumber_of_pack ?_
  have := congrArg (fun x : Float => x.toBits.toBitVec) h
  exact this

/-- Only a NaN has a NaN for its negation, or for its absolute value. -/
theorem eq_nan_of_neg {x : Float} (h : -x = Float.nan) : x = Float.nan := by
  have hneg : x.toModel.unpack.neg = notANumber := unpack_eq_notANumber h
  refine eq_nan_of_unpack ?_
  rcases hx : x.toModel.unpack with s | _ | s | ⟨s, m, e, hm⟩ <;> rw [hx] at hneg
  · cases hneg
  · cases hneg
  · cases hneg

theorem eq_nan_of_abs {x : Float} (h : x.abs = Float.nan) : x = Float.nan := by
  have habs : x.toModel.unpack.abs = notANumber := unpack_eq_notANumber h
  refine eq_nan_of_unpack ?_
  rcases hx : x.toModel.unpack with s | _ | s | ⟨s, m, e, hm⟩ <;> rw [hx] at habs
  · cases habs
  · cases habs
  · cases habs

end Signs

end Number

open Number

theorem Op1.ofBits_applyBits (op : Op1) (a : UInt64) :
    Float.ofBits (op.applyBits a) = op.apply (.ofBits a) := by
  refine ofBits_patternOr fun hnan => ?_
  cases op
  case neg => exact ofBits_eq_nan_congr (withoutSign_xor_signBit a) (eq_nan_of_neg hnan)
  case abs => exact ofBits_eq_nan_congr (withoutSign_withoutSign a) (eq_nan_of_abs hnan)
  all_goals exact ofBits_propagated _

theorem Op2.ofBits_applyBits (op : Op2) (a b : UInt64) :
    Float.ofBits (op.applyBits a b) = op.apply (.ofBits a) (.ofBits b) := by
  refine ofBits_patternOr fun _ => ?_
  cases op
  case min | max => exact ofBits_nanBits
  all_goals exact ofBits_propagated _

theorem Op3.ofBits_applyBits (op : Op3) (a b c : UInt64) :
    Float.ofBits (op.applyBits a b c) = op.apply (.ofBits a) (.ofBits b) (.ofBits c) := by
  refine ofBits_patternOr fun hnan => ?_
  cases op
  case clip => exact ofBits_nanBits
  case select =>
    simp only [Op3.apply] at hnan
    simp only
    split_ifs at hnan ⊢ <;> exact hnan

/-- A pure operation gives the pattern of its number. -/
theorem Opcode.ofBits_applyBits (op : Opcode) (a b c : UInt64) (h : op.isPure = true) :
    Float.ofBits (op.applyBits a b c) = op.apply (.ofBits a) (.ofBits b) (.ofBits c) := by
  cases op with
  | row | const | load | label => cases h
  | stride => exact ofBits_patternOr fun _ => ofBits_propagated _
  | unary op => exact op.ofBits_applyBits a
  | binary op => exact op.ofBits_applyBits a b
  | ternary op => exact op.ofBits_applyBits a b c

end LinkedTables
