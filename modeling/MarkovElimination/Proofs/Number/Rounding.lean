import Mathlib
import MarkovElimination.Number.Binary64

/-! # Rounding to binary64

The **last place** of a number is the exponent of the last bit that a binary64 number of its size
has. The binary64 number nearest to a rational number is at most half a unit in the last place away
from it (`abs_sub_toRat_floatOfRat_le`): the exponent is found from the leading bit, the significand
is a rounded quotient, and the bits that are put together stand for their product. -/

open Float.Model Float.Model.UnpackedFloat

namespace MarkovElimination

namespace Binary64

/-! ### The last place -/

/-- The exponent of the last bit that a binary64 number of this size has. -/
def lastPlace (v : ℚ) : ℤ := max (Int.log 2 v - 52) (-1074)

theorem le_lastPlace (v : ℚ) : -1074 ≤ lastPlace v := le_max_right _ _

/-- The bits down to the last place are at most 53. -/
theorem lt_two_pow_lastPlace (v : ℚ) : v < 2 ^ 53 * 2 ^ lastPlace v := by
  have hlt : v < 2 ^ (Int.log 2 v + 1) := Int.lt_zpow_succ_log_self one_lt_two v
  have hle : Int.log 2 v + 1 ≤ 53 + lastPlace v := by
    have := le_max_left (Int.log 2 v - 52) (-1074)
    rw [lastPlace]
    omega
  calc v < 2 ^ (Int.log 2 v + 1) := hlt
    _ ≤ 2 ^ (53 + lastPlace v) := zpow_le_zpow_right₀ one_le_two hle
    _ = 2 ^ 53 * 2 ^ lastPlace v := by rw [zpow_add₀ two_ne_zero]; norm_cast

/-- They are all 53, except for the smallest numbers. -/
theorem two_pow_lastPlace_le {v : ℚ} (hv : 0 < v) :
    2 ^ 52 * 2 ^ lastPlace v ≤ v ∨ lastPlace v = -1074 := by
  rcases max_choice (Int.log 2 v - 52) (-1074) with h | h
  · left
    have hle : (2 : ℚ) ^ Int.log 2 v ≤ v := Int.zpow_log_le_self one_lt_two hv
    calc (2 : ℚ) ^ 52 * 2 ^ lastPlace v = 2 ^ (52 + lastPlace v) := by
          rw [zpow_add₀ two_ne_zero]; norm_cast
      _ = 2 ^ Int.log 2 v := by rw [lastPlace, h]; congr 1; omega
      _ ≤ v := hle
  · exact .inr h

/-- The logarithm is the exponent of the leading bit. -/
theorem log_eq_of_le_of_lt {v : ℚ} {k : ℤ} (hle : 2 ^ k ≤ v) (hlt : v < 2 ^ (k + 1)) :
    Int.log 2 v = k := by
  have hv : 0 < v := (zpow_pos two_pos k).trans_le hle
  have hge := (Int.zpow_le_iff_le_log one_lt_two hv).1 (by exact_mod_cast hle)
  have hlt' := (Int.lt_zpow_iff_log_lt one_lt_two hv).1 (by exact_mod_cast hlt)
  omega

/-! ### Rounding quotients -/

/-- A rounded quotient times the divisor misses the dividend by at most half the divisor. -/
theorem roundQuotient_mul (num : ℕ) {den : ℕ} (hden : 0 < den) :
    2 * num ≤ 2 * (roundQuotient num den * den) + den ∧
      2 * (roundQuotient num den * den) ≤ 2 * num + den := by
  have hsplit : num / den * den + num % den = num := Nat.div_add_mod' num den
  have hmod : num % den < den := Nat.mod_lt num hden
  have hsucc : (num / den + 1) * den = num / den * den + den := Nat.succ_mul _ _
  simp only [roundQuotient]
  split_ifs <;> omega

/-- A quotient is rounded by at most one half. -/
theorem abs_sub_roundQuotient_le (num : ℕ) {den : ℕ} (hden : 0 < den) :
    |(num / den : ℚ) - roundQuotient num den| ≤ 1 / 2 := by
  have hpos : (0 : ℚ) < den := by exact_mod_cast hden
  obtain ⟨hlo, hhi⟩ := roundQuotient_mul num hden
  have hlo' : (2 * num : ℚ) ≤ 2 * (roundQuotient num den * den) + den := by exact_mod_cast hlo
  have hhi' : (2 * (roundQuotient num den * den) : ℚ) ≤ 2 * num + den := by exact_mod_cast hhi
  rw [div_sub' hpos.ne', abs_div, abs_of_pos hpos, div_le_iff₀ hpos, abs_le]
  constructor <;> linarith

/-- A power of two as a quotient of natural powers, one of which is one. -/
theorem two_zpow_eq_div (k : ℤ) : (2 : ℚ) ^ k = 2 ^ k.toNat / 2 ^ (-k).toNat := by
  rw [eq_div_iff (by positivity), ← zpow_natCast, ← zpow_natCast, ← zpow_add₀ two_ne_zero]
  congr 1
  omega

/-- Comparing a quotient with a power of two without dividing. -/
theorem compareScaled_eq_lt {num den : ℕ} (hden : 0 < den) (k : ℤ) :
    compareScaled num 2 0 den 2 k = .lt ↔ (num / den : ℚ) < 2 ^ k := by
  have hpos : (0 : ℚ) < den := by exact_mod_cast hden
  rw [two_zpow_eq_div, div_lt_div_iff₀ hpos (by positivity), compareScaled, Nat.compare_eq_lt]
  simp only [Int.toNat_zero, neg_zero, Nat.pow_eq, pow_zero, mul_one]
  rw [mul_comm (2 ^ k.toNat : ℚ)]
  norm_cast

/-- The leading bit of a quotient is found from the leading bits of its parts. -/
theorem leading_eq_log {num den : ℕ} (hnum : 0 < num) (hden : 0 < den) :
    (if compareScaled num 2 0 den 2 ((Nat.log2 num : ℤ) - Nat.log2 den) = .lt
      then (Nat.log2 num : ℤ) - Nat.log2 den - 1 else (Nat.log2 num : ℤ) - Nat.log2 den) =
      Int.log 2 (num / den : ℚ) := by
  have hpos : (0 : ℚ) < den := by exact_mod_cast hden
  have hnlo : (2 : ℚ) ^ (Nat.log2 num : ℤ) ≤ num := by
    exact_mod_cast Nat.log2_self_le hnum.ne'
  have hnhi : (num : ℚ) < 2 ^ (Nat.log2 num + 1 : ℤ) := by exact_mod_cast Nat.lt_log2_self
  have hdlo : (2 : ℚ) ^ (Nat.log2 den : ℤ) ≤ den := by
    exact_mod_cast Nat.log2_self_le hden.ne'
  have hdhi : (den : ℚ) < 2 ^ (Nat.log2 den + 1 : ℤ) := by exact_mod_cast Nat.lt_log2_self
  generalize (Nat.log2 num : ℤ) = i at *
  generalize (Nat.log2 den : ℤ) = j at *
  have hlo : (2 : ℚ) ^ (i - j - 1) ≤ num / den := by
    rw [le_div_iff₀ hpos]
    calc (2 : ℚ) ^ (i - j - 1) * den ≤ 2 ^ (i - j - 1) * 2 ^ (j + 1) := by gcongr
      _ = 2 ^ i := by rw [← zpow_add₀ two_ne_zero]; congr 1; omega
      _ ≤ num := hnlo
  have hhi : (num / den : ℚ) < 2 ^ (i - j + 1) := by
    rw [div_lt_iff₀ hpos]
    calc (num : ℚ) < 2 ^ (i + 1) := hnhi
      _ = 2 ^ (i - j + 1) * 2 ^ j := by rw [← zpow_add₀ two_ne_zero]; congr 1; omega
      _ ≤ 2 ^ (i - j + 1) * den := by gcongr
  symm
  split_ifs with hcmp <;> rw [compareScaled_eq_lt hden] at hcmp
  · exact log_eq_of_le_of_lt hlo (by rwa [sub_add_cancel])
  · exact log_eq_of_le_of_lt (not_lt.1 hcmp) hhi

/-- **The bits of a quotient**: the last place and the significand that is nearest there. -/
theorem bitsOfQuotient_eq {num den : ℕ} (hnum : 0 < num) (hden : 0 < den) :
    ∃ m : ℕ, Magnitude.bitsOfQuotient num den =
        min ((lastPlace (num / den) + 1074).toNat * fractionBound + m) Magnitude.infinityBits ∧
      |(num / den : ℚ) - m * 2 ^ lastPlace (num / den)| ≤ 2 ^ lastPlace (num / den) / 2 := by
  have hmax : max (Int.log 2 (num / den : ℚ) - 52) (-1074) = lastPlace (num / den) := rfl
  rw [Magnitude.bitsOfQuotient, if_neg hnum.ne']
  simp only [leading_eq_log hnum hden, hmax]
  generalize lastPlace (num / den) = q
  refine ⟨_, rfl, ?_⟩
  have hden' : 0 < den * Nat.pow 2 q.toNat := Nat.mul_pos hden (Nat.pow_pos two_pos)
  have herr := abs_sub_roundQuotient_le (num * Nat.pow 2 (-q).toNat) hden'
  have hquot : ((num * Nat.pow 2 (-q).toNat : ℕ) / (den * Nat.pow 2 q.toNat : ℕ) : ℚ) =
      num / den / 2 ^ q := by
    rw [two_zpow_eq_div]
    push_cast [Nat.pow_eq]
    field_simp
  rw [hquot] at herr
  generalize roundQuotient _ _ = m at herr ⊢
  have hpos : (0 : ℚ) < 2 ^ q := by positivity
  calc |(num / den : ℚ) - m * 2 ^ q| = |(num / den / 2 ^ q - m : ℚ)| * 2 ^ q := by
        rw [← abs_of_pos hpos, ← abs_mul, abs_of_pos hpos, sub_mul,
          div_mul_cancel₀ _ hpos.ne']
    _ ≤ 1 / 2 * 2 ^ q := by gcongr
    _ = 2 ^ q / 2 := by ring

/-- The nearest significand fills its 53 bits, or is carried into the next one. -/
theorem significand_bounds {v : ℚ} (hv : 0 < v) {m : ℕ}
    (herr : |v - m * 2 ^ lastPlace v| ≤ 2 ^ lastPlace v / 2) :
    m ≤ 2 ^ 53 ∧ (2 ^ 52 ≤ m ∨ lastPlace v = -1074) := by
  have hu : (0 : ℚ) < 2 ^ lastPlace v := by positivity
  obtain ⟨hlo, hhi⟩ := abs_le.1 herr
  constructor
  · have hlt : (m : ℚ) < 2 ^ 53 + 1 := by
      refine lt_of_mul_lt_mul_right ?_ hu.le
      linarith [lt_two_pow_lastPlace v]
    exact Nat.le_of_lt_succ (by exact_mod_cast hlt)
  · refine (two_pow_lastPlace_le hv).imp_left fun hle => ?_
    have hlt : (2 ^ 52 : ℚ) < m + 1 := by
      refine lt_of_mul_lt_mul_right ?_ hu.le
      linarith
    exact Nat.le_of_lt_succ (by exact_mod_cast hlt)

end Binary64

/-! ### The numbers that bits stand for -/

/-- Bits that are put together from an exponent and a significand stand for their product. -/
theorem Magnitude.ofBits_eq {k m : ℕ} (hm : m ≤ 2 ^ 53) (hlead : 2 ^ 52 ≤ m ∨ k = 0)
    (hbits : k * fractionBound + m < infinityBits) :
    ((ofBits (k * fractionBound + m)).m * 2 ^ (ofBits (k * fractionBound + m)).q : ℚ) =
      m * 2 ^ (k - 1074 : ℤ) := by
  have hbound : fractionBound = 2 ^ 52 := rfl
  have hinf : infinityBits = 2047 * 2 ^ 52 := rfl
  rw [hbound, hinf] at hbits
  simp only [ofBits, hbound]
  rcases lt_or_ge m (2 ^ 52) with hsmall | hnormal
  · -- Only the numbers without a leading bit have the exponent field zero.
    obtain rfl : k = 0 := by omega
    have hfield : (0 * 2 ^ 52 + m) / 2 ^ 52 % 2048 = 0 := by omega
    have hfraction : (0 * 2 ^ 52 + m) % 2 ^ 52 = m := by omega
    rw [if_pos hfield, hfraction]
    norm_num
  · rcases hm.lt_or_eq with hlt | rfl
    · have hfield : (k * 2 ^ 52 + m) / 2 ^ 52 % 2048 = k + 1 := by omega
      have hfraction : 2 ^ 52 + (k * 2 ^ 52 + m) % 2 ^ 52 = m := by omega
      have hexp : ((k + 1 : ℕ) : ℤ) - 1075 = k - 1074 := by omega
      rw [hfield, if_neg (Nat.succ_ne_zero k), hfraction, hexp]
    · -- Rounding up to the next power of two moves the leading bit.
      have hfield : (k * 2 ^ 52 + 2 ^ 53) / 2 ^ 52 % 2048 = k + 2 := by omega
      have hfraction : 2 ^ 52 + (k * 2 ^ 52 + 2 ^ 53) % 2 ^ 52 = 2 ^ 52 := by omega
      have hexp : ((k + 2 : ℕ) : ℤ) - 1075 = 1 + (k - 1074) := by omega
      rw [hfield, if_neg (Nat.succ_ne_zero _), hfraction, hexp, zpow_add₀ two_ne_zero]
      norm_num
      ring

namespace Binary64

/-- The number that an unpacked binary64 number stands for; what is not finite counts as zero. -/
def unpackedValue : UnpackedFloat → ℚ
  | .finite sign mantissa exponent _ => sign.apply mantissa * 2 ^ exponent
  | _ => 0

/-- The number that a binary64 number stands for; what is not finite counts as zero. -/
def toRat (x : Float) : ℚ := unpackedValue x.toModel.unpack

/-- The number with the given parts, where the significand may be zero. -/
def assemble (sign : Sign) (m : ℕ) (e : ℤ) : UnpackedFloat :=
  if h : m = 0 then .zero sign else .finite sign m e (Nat.pos_of_ne_zero h)

theorem assemble_of_pos (sign : Sign) {m : ℕ} (hm : 0 < m) (e : ℤ) :
    assemble sign m e = .finite sign m e hm := dif_neg hm.ne'

@[simp] theorem unpackedValue_assemble (sign : Sign) (m : ℕ) (e : ℤ) :
    unpackedValue (assemble sign m e) = sign.apply m * 2 ^ e := by
  rcases Nat.eq_zero_or_pos m with rfl | hm
  · cases sign <;> simp [assemble, unpackedValue, Sign.apply]
  · rw [assemble_of_pos sign hm, unpackedValue]

/-- **Unpacking a word** that is finite. The leading bit of the significand is only written down
for the smallest numbers. -/
theorem unpack_eq_assemble {word : BitVec 64} (h : (@unpackExponent .binary64 word).toNat < 2047) :
    UnpackedFloat.unpack .binary64 word =
      if (@unpackExponent .binary64 word).toNat = 0 then
        assemble (.ofBitVec (@unpackSign .binary64 word))
          (@unpackMantissa .binary64 word).toNat (-1074)
      else
        assemble (.ofBitVec (@unpackSign .binary64 word))
          (2 ^ 52 + (@unpackMantissa .binary64 word).toNat)
          ((@unpackExponent .binary64 word).toNat - 1075) := by
  have hfinite : @unpackExponent .binary64 word ≠ -1#11 := by
    intro hones
    rw [hones] at h
    exact absurd h (by decide)
  rw [UnpackedFloat.unpack, if_neg hfinite]
  by_cases hfield : @unpackExponent .binary64 word = 0#11
  · rw [if_pos hfield, if_pos (by rw [hfield]; rfl)]
    split
    · next hmantissa =>
      rw [hmantissa]
      rfl
    · next hmantissa =>
      have hpos : 0 < (@unpackMantissa .binary64 word).toNat := by
        rw [Nat.pos_iff_ne_zero]
        intro hzero
        exact hmantissa (BitVec.eq_of_toNat_eq hzero)
      rw [assemble_of_pos _ hpos, hfield]
      rfl
  · have hfield' : (@unpackExponent .binary64 word).toNat ≠ 0 := by
      intro hzero
      exact hfield (BitVec.eq_of_toNat_eq hzero)
    have hmantissa : (1#1 ++ @unpackMantissa .binary64 word).toNat =
        2 ^ 52 + (@unpackMantissa .binary64 word).toNat := by
      rw [BitVec.toNat_append, ← Nat.shiftLeft_add_eq_or_of_lt (BitVec.isLt _)]
      rfl
    rw [if_neg hfield, if_neg hfield', assemble_of_pos _ (by positivity)]
    congr 1

theorem toNat_unpackMantissa (word : BitVec 64) :
    (@unpackMantissa .binary64 word).toNat = word.toNat % 2 ^ 52 := by
  rw [unpackMantissa_def]
  exact BitVec.extractLsb'_toNat 0 52 word

theorem toNat_unpackExponent (word : BitVec 64) :
    (@unpackExponent .binary64 word).toNat = word.toNat / 2 ^ 52 % 2048 := by
  rw [unpackExponent_def, ← Nat.shiftRight_eq_div_pow]
  exact BitVec.extractLsb'_toNat 52 11 word

theorem toNat_unpackSign (word : BitVec 64) :
    (@unpackSign .binary64 word).toNat = word.toNat / 2 ^ 63 % 2 := by
  rw [unpackSign_def, ← Nat.shiftRight_eq_div_pow]
  exact BitVec.extractLsb'_toNat 63 1 word

/-- Bits are taken as they are, except that all that are not a number are the same. -/
theorem unpack_ofBits (bits : UInt64) :
    (Float.ofBits bits).toModel.unpack = UnpackedFloat.unpack .binary64 bits.toBitVec := by
  show UnpackedFloat.unpack .binary64
    (UnpackedFloat.pack .binary64 (UnpackedFloat.unpack .binary64 bits.toBitVec)) = _
  rw [pack_unpack]
  split_ifs with hnan
  · simp only [isNaNBits, decide_eq_true_eq] at hnan
    rw [unpack_packedNaN, UnpackedFloat.unpack, if_pos hnan.1, if_neg hnan.2]
  · rfl

/-- The sign that a flag stands for. -/
def signOf (negative : Bool) : Sign := if negative then .negative else .positive

/-- A word below the infinite ones is unpacked into the parts of its magnitude. -/
theorem unpackedValue_unpack {word : BitVec 64} {negative : Bool} {bits : ℕ}
    (hword : word.toNat = if negative then bits + 2 ^ 63 else bits)
    (hbits : bits < Magnitude.infinityBits) :
    unpackedValue (UnpackedFloat.unpack .binary64 word) =
      (signOf negative).apply (Magnitude.ofBits bits).m * 2 ^ (Magnitude.ofBits bits).q := by
  have hinf : Magnitude.infinityBits = 2047 * 2 ^ 52 := rfl
  have hbound : fractionBound = 2 ^ 52 := rfl
  rw [hinf] at hbits
  have hfraction : (@unpackMantissa .binary64 word).toNat = bits % 2 ^ 52 := by
    rw [toNat_unpackMantissa, hword]
    split_ifs <;> omega
  have hfield : (@unpackExponent .binary64 word).toNat = bits / 2 ^ 52 % 2048 := by
    rw [toNat_unpackExponent, hword]
    split_ifs <;> omega
  have hsign : @unpackSign .binary64 word = (signOf negative).toBitVec := by
    refine BitVec.eq_of_toNat_eq ?_
    rw [toNat_unpackSign, hword]
    cases negative
    · show bits / 2 ^ 63 % 2 = 0
      omega
    · show (bits + 2 ^ 63) / 2 ^ 63 % 2 = 1
      omega
  rw [unpack_eq_assemble (by rw [hfield]; omega), hfraction, hfield, hsign, Sign.ofBitVec_toBitVec]
  simp only [Magnitude.ofBits, hbound]
  split_ifs <;> exact unpackedValue_assemble _ _ _

/-- The number that finite bits stand for. -/
theorem toRat_floatOfBits (negative : Bool) {bits : ℕ} (hbits : bits < Magnitude.infinityBits) :
    toRat (floatOfBits negative bits) =
      (signOf negative).apply (Magnitude.ofBits bits).m * 2 ^ (Magnitude.ofBits bits).q := by
  have hinf : Magnitude.infinityBits = 2047 * 2 ^ 52 := rfl
  have hsign : signBit = 2 ^ 63 := rfl
  have hword : (UInt64.ofNat (if negative then bits + signBit else bits)).toBitVec.toNat =
      if negative then bits + 2 ^ 63 else bits := by
    rw [hinf] at hbits
    rw [hsign]
    show (if negative then bits + 2 ^ 63 else bits) % 2 ^ 64 = _
    split_ifs <;> omega
  rw [toRat, floatOfBits, unpack_ofBits]
  exact unpackedValue_unpack hword hbits

/-- Bits from infinity on are not finite. -/
theorem isFinite_floatOfBits_infinityBits (negative : Bool) :
    (floatOfBits negative Magnitude.infinityBits).isFinite = false := by
  cases negative <;> rfl

/-- **Rounding to the nearest**: the binary64 number nearest to a rational number is at most half a
unit in the last place away from it. -/
theorem abs_sub_toRat_floatOfRat_le {r : ℚ} (hfinite : (floatOfRat r).isFinite = true) :
    |r - toRat (floatOfRat r)| ≤ 2 ^ lastPlace |r| / 2 := by
  rcases eq_or_ne r 0 with rfl | hr
  · have hzero : toRat (floatOfRat 0) = 0 := rfl
    rw [hzero, sub_zero, abs_zero]
    positivity
  have hnum : 0 < r.num.natAbs := Int.natAbs_pos.2 (Rat.num_ne_zero.2 hr)
  have habs : (r.num.natAbs / r.den : ℚ) = |r| := by
    rw [Nat.cast_natAbs, Int.cast_abs, ← Nat.abs_cast r.den, ← abs_div, Rat.num_div_den]
  obtain ⟨m, hbits, herr⟩ := bitsOfQuotient_eq hnum r.den_pos
  rw [habs] at hbits herr
  obtain ⟨hm, hlead⟩ := significand_bounds (abs_pos.2 hr) herr
  have hmin := le_lastPlace |r|
  obtain ⟨k, hk⟩ : ∃ k : ℕ, lastPlace |r| = k - 1074 :=
    ⟨(lastPlace |r| + 1074).toNat, by omega⟩
  have hk' : (lastPlace |r| + 1074).toNat = k := by omega
  rw [floatOfRat, hbits, hk'] at hfinite ⊢
  rcases lt_or_ge (k * fractionBound + m) Magnitude.infinityBits with hlt | hge
  · have hvalue := Magnitude.ofBits_eq hm (hlead.imp_right (by omega)) hlt
    rw [← hk] at hvalue
    rw [min_eq_left hlt.le, toRat_floatOfBits _ hlt]
    rcases lt_or_ge r 0 with hneg | hpos
    · rw [decide_eq_true (Rat.num_neg.2 hneg), signOf, if_pos rfl, Sign.apply, Int.cast_neg,
        Int.cast_natCast, neg_mul, hvalue, sub_neg_eq_add, ← abs_neg, neg_add, ← sub_eq_add_neg]
      rwa [abs_of_neg hneg] at herr ⊢
    · rw [decide_eq_false (not_lt.2 (Rat.num_nonneg.2 hpos)), signOf, if_neg Bool.false_ne_true,
        Sign.apply, Int.cast_natCast, hvalue]
      rwa [abs_of_nonneg hpos] at herr ⊢
  · rw [min_eq_right hge, isFinite_floatOfBits_infinityBits] at hfinite
    cases hfinite

end Binary64

end MarkovElimination
