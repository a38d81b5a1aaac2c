import Mathlib
import MarkovElimination.Proofs.Number.Rounding

/-! # Comparing differences of binary64 numbers

A difference of binary64 numbers is computed exactly and then rounded. Rounding never goes below the
bits that fit, so a computed difference of at most `n * 2^k` has an exact value below
`(n + 1) * 2^k` (`abs_toRat_sub_lt`), and only equal numbers have a difference of zero
(`beq_of_sub_beq_zero`). Two consequences say what tests of a rounded rational number tell about the
number itself: not being negative leaves it above `-2^-1075` (`neg_le_of_floatOfRat_nonneg`), and
being close to one leaves it close to one (`abs_sub_one_lt_of_floatOfRat`). -/

open Float.Model Float.Model.UnpackedFloat

namespace MarkovElimination

namespace Binary64

/-- A significand and an exponent in the one form in which a binary64 number is kept: a leading bit
that is as high as possible. -/
structure Canonical (m : ℕ) (e : ℤ) : Prop where
  lt : m < 2 ^ 53
  le_exponent : -1074 ≤ e
  leading : 2 ^ 52 ≤ m ∨ e = -1074

/-! ### Rounding a significand -/

/-- A number is shifted until its last bit is in the last place. -/
theorem targetExponent_eq {m : ℕ} (hm : 0 < m) (e : ℤ) :
    Format.binary64.targetExponent (totalExponent m e) = lastPlace (m * 2 ^ e) := by
  have hlog : Int.log 2 (m * 2 ^ e : ℚ) = Nat.log2 m + e := by
    have hlo : (2 : ℚ) ^ (Nat.log2 m : ℤ) ≤ m := by exact_mod_cast Nat.log2_self_le hm.ne'
    have hhi : (m : ℚ) < 2 ^ (Nat.log2 m + 1 : ℤ) := by exact_mod_cast Nat.lt_log2_self
    apply log_eq_of_le_of_lt
    · rw [zpow_add₀ two_ne_zero]
      gcongr
    · rw [add_right_comm, zpow_add₀ two_ne_zero]
      gcongr
  rw [lastPlace, hlog]
  show max ((Nat.log2 m : ℤ) + 1 + e - 53) (-1074) = _
  congr 1
  omega

theorem mantissa_shiftRight (x : ExtendedMantissa) (k : ℕ) :
    (x >>> k).mantissa = x.mantissa / 2 ^ k := by
  induction k with
  | zero => simp [HShiftRight.hShiftRight, Nat.repeat]
  | succ k ih =>
    show (x >>> k).mantissa / 2 = _
    rw [ih, Nat.div_div_eq_div_mul, Nat.pow_succ]

theorem roundedMantissa_bounds (x : ExtendedMantissa) :
    x.mantissa ≤ x.roundedMantissa ∧ x.roundedMantissa ≤ x.mantissa + 1 := by
  obtain ⟨m, roundBit, stickyBit⟩ := x
  cases roundBit <;> cases stickyBit <;>
    simp only [ExtendedMantissa.roundedMantissa, ExtendedMantissa.accuracy,
      Accuracy.roundToNearestEven] <;> omega

/-- A significand that fits is not shifted again. -/
theorem shiftToTargetExponent_of_lt {m : ℕ} {e : ℤ} (hm : m < 2 ^ 53) (he : -1074 ≤ e) :
    shiftToTargetExponent .binary64 m e .exact = (⟨m, false, false⟩, e) := by
  have hlog : Nat.log2 m ≤ 52 := by
    rcases Nat.eq_zero_or_pos m with rfl | hpos
    · simp
    · exact Nat.le_of_lt_succ ((Nat.log2_lt hpos.ne').2 hm)
  have hshift : (Format.binary64.targetExponent (totalExponent m e) - e).toNat = 0 := by
    show (max ((Nat.log2 m : ℤ) + 1 + e - 53) (-1074) - e).toNat = 0
    omega
  simp only [shiftToTargetExponent, shiftToExponent, hshift]
  exact congrArg (Prod.mk _) (add_zero e)

/-- A carry into the next bit is shifted once more. -/
theorem shiftToTargetExponent_two_pow {e : ℤ} (he : -1074 ≤ e) :
    shiftToTargetExponent .binary64 (2 ^ 53) e .exact = (⟨2 ^ 52, false, false⟩, e + 1) := by
  have hshift : (Format.binary64.targetExponent (totalExponent (2 ^ 53) e) - e).toNat = 1 := by
    show (max ((Nat.log2 (2 ^ 53) : ℤ) + 1 + e - 53) (-1074) - e).toNat = 1
    rw [Nat.log2_two_pow]
    omega
  simp only [shiftToTargetExponent, shiftToExponent, hshift]
  rfl

/-- Rounding a number that has bits beyond the last place. -/
theorem roundWithAccuracy_eq_assemble (sign : Sign) {m : ℕ} (hm : 0 < m) {e : ℤ}
    (he : e ≤ lastPlace (m * 2 ^ e)) :
    ∃ r : ℕ, ∃ q : ℤ, (m * 2 ^ e : ℚ) < (r + 1) * 2 ^ q ∧ Canonical r q ∧
      roundWithAccuracy .binary64 sign m e .exact = assemble sign r q := by
  have hv : (0 : ℚ) < m * 2 ^ e := by positivity
  set t := lastPlace (m * 2 ^ e) with ht
  have hmin : -1074 ≤ t := le_lastPlace _
  obtain ⟨k, hk⟩ : ∃ k : ℕ, t = e + k := ⟨(t - e).toNat, by omega⟩
  have hvalue : (m * 2 ^ e : ℚ) = m / 2 ^ k * 2 ^ t := by
    rw [hk, zpow_add₀ two_ne_zero, zpow_natCast]
    field_simp
  set x : ExtendedMantissa := ExtendedMantissa.ofMantissaAndAccuracy m .exact >>> k
  have hfirst : shiftToTargetExponent .binary64 m e .exact = (x, t) := by
    have hk' : (t - e).toNat = k := by omega
    rw [shiftToTargetExponent, targetExponent_eq hm, ← ht, shiftToExponent, hk', ← hk]
  have hfloor : x.mantissa = m / 2 ^ k := mantissa_shiftRight _ _
  obtain ⟨hge, hle⟩ := roundedMantissa_bounds x
  rw [hfloor] at hge hle
  have hu : (0 : ℚ) < 2 ^ t := by positivity
  -- The exact significand lies between its floor and the next natural number.
  have hlower : ((m / 2 ^ k : ℕ) : ℚ) ≤ m / 2 ^ k := by
    exact_mod_cast @Nat.cast_div_le ℚ _ _ _ m (2 ^ k)
  have hupper : (m / 2 ^ k : ℚ) < (m / 2 ^ k : ℕ) + 1 := by
    rw [div_lt_iff₀ (by positivity), mul_comm]
    exact_mod_cast Nat.lt_mul_div_succ m (Nat.two_pow_pos k)
  have hr : x.roundedMantissa ≤ 2 ^ 53 := by
    have hlt := lt_two_pow_lastPlace (m * 2 ^ e)
    rw [← ht, hvalue] at hlt
    have hlt' := hlower.trans_lt (lt_of_mul_lt_mul_right hlt hu.le)
    exact hle.trans (by exact_mod_cast hlt')
  have hlead : 2 ^ 52 ≤ x.roundedMantissa ∨ t = -1074 := by
    refine (two_pow_lastPlace_le hv).imp_left fun hle' => ?_
    rw [← ht, hvalue] at hle'
    have hlt := (le_of_mul_le_mul_right hle' hu).trans_lt hupper
    exact le_trans (Nat.le_of_lt_succ (by exact_mod_cast hlt)) hge
  have hlt : (m * 2 ^ e : ℚ) < (x.roundedMantissa + 1) * 2 ^ t := by
    have hge' : ((m / 2 ^ k : ℕ) : ℚ) ≤ x.roundedMantissa := by exact_mod_cast hge
    rw [hvalue]
    gcongr
    linarith
  rw [roundWithAccuracy, hfirst]
  rcases hr.lt_or_eq with hsmall | hcarry
  · refine ⟨x.roundedMantissa, t, hlt, ⟨hsmall, hmin, hlead⟩, ?_⟩
    simp only [shiftToTargetExponent_of_lt hsmall hmin, assemble]
  · refine ⟨2 ^ 52, t + 1, ?_, ⟨by norm_num, by omega, .inl le_rfl⟩, ?_⟩
    · rw [hcarry] at hlt
      push_cast at hlt ⊢
      rw [zpow_add_one₀ two_ne_zero]
      linarith
    · simp only [hcarry, shiftToTargetExponent_two_pow hmin, assemble]

/-- Moving bits into the significand keeps the number. -/
theorem decreaseExponent_mul (m : ℕ) (e t : ℤ) :
    ((decreaseExponent m e t).1 * 2 ^ (decreaseExponent m e t).2 : ℚ) = m * 2 ^ e := by
  rw [decreaseExponent]
  push_cast [Nat.shiftLeft_eq]
  rw [mul_assoc, ← zpow_natCast, ← zpow_add₀ two_ne_zero]
  congr 2
  omega

/-- **Rounding a positive number** gives a significand that it does not exceed by a whole unit. -/
theorem round_eq_assemble (sign : Sign) {m : ℕ} (hm : 0 < m) (e : ℤ) :
    ∃ r : ℕ, ∃ q : ℤ, (m * 2 ^ e : ℚ) < (r + 1) * 2 ^ q ∧ Canonical r q ∧
      UnpackedFloat.round .binary64 sign m e = assemble sign r q := by
  have hvalue := decreaseExponent_mul m e (lastPlace (m * 2 ^ e))
  have hround : UnpackedFloat.round .binary64 sign m e = roundWithAccuracy .binary64 sign
      (decreaseExponent m e (lastPlace (m * 2 ^ e))).1
      (decreaseExponent m e (lastPlace (m * 2 ^ e))).2 .exact := by
    rw [UnpackedFloat.round, targetExponent_eq hm]
  have hpos : 0 < (decreaseExponent m e (lastPlace (m * 2 ^ e))).1 := by
    rw [decreaseExponent, Nat.shiftLeft_eq]
    positivity
  have hle : (decreaseExponent m e (lastPlace (m * 2 ^ e))).2 ≤ lastPlace (m * 2 ^ e) := by
    rw [decreaseExponent]
    omega
  generalize decreaseExponent m e (lastPlace (m * 2 ^ e)) = d at *
  rw [← hvalue] at hle ⊢
  rw [hround]
  exact roundWithAccuracy_eq_assemble sign hpos hle

/-! ### Differences -/

/-- Rounding a number of either sign. -/
theorem normalize_eq_assemble (d e : ℤ) :
    ∃ sign : Sign, ∃ r : ℕ, ∃ q : ℤ, (|d * 2 ^ e| : ℚ) < (r + 1) * 2 ^ q ∧
    Canonical r q ∧
      normalize .binary64 d e .positive = assemble sign r q := by
  have hpos : (0 : ℚ) < 2 ^ e := by positivity
  rw [UnpackedFloat.normalize, abs_mul, abs_of_pos hpos]
  rcases lt_trichotomy d 0 with hlt | rfl | hgt
  · have hcast : |(d : ℚ)| = (-d).toNat := by
      rw [abs_of_neg (by exact_mod_cast hlt)]
      exact_mod_cast (Int.toNat_of_nonneg (by omega)).symm
    rw [Int.compare_eq_lt.2 hlt, hcast]
    exact ⟨.negative, round_eq_assemble .negative (by omega) e⟩
  · refine ⟨.positive, 0, -1074, ?_, ⟨by norm_num, le_rfl, .inr rfl⟩, rfl⟩
    norm_num
  · have hcast : |(d : ℚ)| = d.toNat := by
      rw [abs_of_pos (by exact_mod_cast hgt)]
      exact_mod_cast (Int.toNat_of_nonneg (by omega)).symm
    rw [Int.compare_eq_gt.2 hgt, hcast]
    exact ⟨.positive, round_eq_assemble .positive (by omega) e⟩

theorem abs_apply (sign : Sign) (m : ℕ) : |((sign.apply m : ℤ) : ℚ)| = m := by
  cases sign <;> simp [Sign.apply]

theorem apply_decreaseExponent (sign : Sign) (m : ℕ) {e t : ℤ} (h : t ≤ e) :
    (sign.apply (decreaseExponent m e t).1 * 2 ^ t : ℚ) = sign.apply m * 2 ^ e := by
  have hexp : (decreaseExponent m e t).2 = t := by
    rw [decreaseExponent]
    omega
  have hvalue := decreaseExponent_mul m e t
  rw [hexp] at hvalue
  cases sign <;> simp [Sign.apply, hvalue]

/-- **A difference** of finite numbers is rounded by less than a unit. -/
theorem sub_eq_assemble {x : UnpackedFloat} (hx : x.isFinite = true) (sign : Sign) {m : ℕ}
    {e : ℤ} (hm : 0 < m) (hcanonical : Canonical m e) :
    ∃ sign' : Sign, ∃ r : ℕ, ∃ q : ℤ, |unpackedValue x - sign.apply m * 2 ^ e| <
    (r + 1) * 2 ^ q ∧
      Canonical r q ∧
      UnpackedFloat.sub .binary64 x (.finite sign m e hm) = assemble sign' r q := by
  cases x with
  | infinity s => cases hx
  | notANumber => cases hx
  | zero s =>
    refine ⟨-sign, m, e, ?_, hcanonical, ?_⟩
    · have hpos : (0 : ℚ) < 2 ^ e := by positivity
      rw [unpackedValue, zero_sub, abs_neg, abs_mul, abs_apply, abs_of_pos hpos]
      · gcongr
        exact lt_add_one _
      · simp
    · exact (assemble_of_pos (-sign) hm e).symm
  | finite s n k hn =>
    -- Both numbers are written with the smaller exponent, and the significands are subtracted.
    obtain ⟨sign', r, q, hlt, hround, heq⟩ :=
      normalize_eq_assemble (s.apply (decreaseExponent n k (min k e)).1 -
        sign.apply (decreaseExponent m e (min k e)).1) (min k e)
    refine ⟨sign', r, q, ?_, hround, heq⟩
    rwa [Int.cast_sub, sub_mul, apply_decreaseExponent s n (min_le_left k e),
      apply_decreaseExponent sign m (min_le_right k e)] at hlt

/-! ### Packing -/

theorem unpack_pack_infinity (sign : Sign) :
    (Float.Model.pack (.infinity sign)).unpack = .infinity sign := by
  cases sign <;> rfl

theorem unpack_pack_notANumber : (Float.Model.pack .notANumber).unpack = .notANumber := rfl

/-- Packing the fields of a word and reading them again gives the same fields. -/
theorem unpack_packComponents (sign : Sign) {field : BitVec 11} (fraction : BitVec 52)
    (h : field.toNat < 2047) :
    UnpackedFloat.unpack .binary64 (packComponents .binary64 sign field fraction) =
      if field.toNat = 0 then assemble sign fraction.toNat (-1074)
      else assemble sign (2 ^ 52 + fraction.toNat) (field.toNat - 1075) := by
  rw [unpack_eq_assemble]
  all_goals simp only [unpackExponent_packComponents, unpackMantissa_packComponents,
    unpackSign_packComponents, Sign.ofBitVec_toBitVec]
  exact h

/-- Packing keeps what is in canonical form, unless it is too large. -/
theorem unpack_pack_finite (sign : Sign) {m : ℕ} {e : ℤ} (hm : 0 < m) (h : Canonical m e) :
    (Float.Model.pack (.finite sign m e hm)).unpack =
      if e ≤ 971 then .finite sign m e hm else .infinity sign := by
  obtain ⟨hlt, hmin, hlead⟩ := h
  have hbias : e + Format.binary64.exponentBias + Format.binary64.mantissaBitsWithoutImplicit =
      e + 1075 := add_assoc e _ _
  have hfraction : (BitVec.ofNat 52 m).toNat = m % 2 ^ 52 := rfl
  show UnpackedFloat.unpack .binary64 (UnpackedFloat.pack .binary64 (.finite sign m e hm)) = _
  rw [UnpackedFloat.pack, hbias]
  by_cases hmax : e ≤ 971
  · have hfield : (BitVec.ofNat 11 (e + 1075).toNat).toNat = (e + 1075).toNat :=
      Nat.mod_eq_of_lt (show (e + 1075).toNat < 2 ^ 11 by omega)
    rw [if_pos hmax, if_neg (by show ¬2 ^ 11 ≤ _; omega), ← assemble_of_pos sign hm]
    split_ifs with hlog
    · have hge : 2 ^ 52 ≤ m := (Nat.le_log2 hm.ne').1 (Nat.succ_injective hlog).ge
      have hlead' : 2 ^ 52 + m % 2 ^ 52 = m := by omega
      have hexp : ((e + 1075).toNat : ℤ) - 1075 = e := by omega
      rw [unpack_packComponents sign _ (by rw [hfield]; omega), if_neg (by rw [hfield]; omega),
        hfield, hfraction, hlead', hexp]
    · have hsmall : m < 2 ^ 52 := by
        by_contra hge
        exact hlog (congrArg Nat.succ ((Nat.log2_eq_iff hm.ne').2 ⟨not_lt.1 hge, hlt⟩))
      obtain rfl : e = -1074 := hlead.resolve_left (by omega)
      rw [unpack_packComponents sign _ (by decide), if_pos (by rfl), hfraction,
        Nat.mod_eq_of_lt hsmall]
  · rw [if_neg hmax, if_pos (by show 2 ^ 11 ≤ _; omega)]
    exact unpack_pack_infinity sign

/-! ### Comparisons -/

/-- Numbers in canonical form are compared by their exponents first, and that is the right order. -/
theorem add_one_mul_le_of_le {sign : Sign} {r n : ℕ} {q k : ℤ} (hr : Canonical r q)
    (hn : Canonical n k) (hpos : 0 < n)
    (hle : (Float.Model.pack (Float.Model.pack (assemble sign r q)).unpack.abs).unpack.le
      (.finite .positive n k hpos) = true) : ((r : ℚ) + 1) * 2 ^ q ≤ (n + 1) * 2 ^ k := by
  rcases Nat.eq_zero_or_pos r with rfl | hrpos
  · have hq : q = -1074 := hr.leading.resolve_left (by norm_num)
    have hk : q ≤ k := hq ▸ hn.le_exponent
    gcongr
    norm_num
  rw [assemble_of_pos sign hrpos, unpack_pack_finite sign hrpos hr] at hle
  by_cases hmax : q ≤ 971
  · rw [if_pos hmax, UnpackedFloat.abs, unpack_pack_finite .positive hrpos hr, if_pos hmax] at hle
    have hcmp : ((compare q k).then (compare r n)).isLE = true := hle
    rcases lt_trichotomy q k with hlt | rfl | hgt
    · have hn' : 2 ^ 52 ≤ n := hn.leading.resolve_right (by have := hr.le_exponent; omega)
      have hn'' : (2 : ℚ) ^ 52 ≤ n := by exact_mod_cast hn'
      have hr' : (r : ℚ) + 1 ≤ 2 ^ 53 := by exact_mod_cast hr.lt
      calc ((r : ℚ) + 1) * 2 ^ q ≤ 2 ^ 53 * 2 ^ q := by gcongr
        _ = 2 ^ 52 * 2 ^ (q + 1) := by rw [zpow_add_one₀ two_ne_zero]; ring
        _ ≤ 2 ^ 52 * 2 ^ k := by gcongr; exacts [one_le_two, hlt]
        _ ≤ (n + 1) * 2 ^ k := by gcongr; linarith
    · have hrn : r ≤ n := by simpa [Std.compare_self, Nat.isLE_compare] using hcmp
      gcongr
    · rw [Int.compare_eq_gt.2 hgt] at hcmp
      cases hcmp
  · rw [if_neg hmax, UnpackedFloat.abs, unpack_pack_infinity] at hle
    cases hle

/-- **A computed difference that is small** belongs to numbers that are close. -/
theorem abs_toRat_sub_lt {x y t : Float} {sign : Sign} {m n : ℕ} {e k : ℤ} {hm : 0 < m}
    {hn : 0 < n}
    (hy : y.toModel.unpack = .finite sign m e hm) (ht : t.toModel.unpack = .finite .positive n k hn)
    (hm' : Canonical m e) (hn' : Canonical n k) (h : (x - y).abs ≤ t) :
    x.isFinite = true ∧ |toRat x - toRat y| < (n + 1) * 2 ^ k := by
  have hle : (Float.Model.pack (Float.Model.pack (UnpackedFloat.sub .binary64 x.toModel.unpack
      y.toModel.unpack)).unpack.abs).unpack.le t.toModel.unpack = true := of_decide_eq_true h
  rw [hy, ht] at hle
  have hfinite : x.toModel.unpack.isFinite = true := by
    cases hx : x.toModel.unpack with
    | infinity s =>
      have hsub : UnpackedFloat.sub .binary64 (.infinity s) (.finite sign m e hm) = .infinity s :=
        rfl
      rw [hx, hsub, unpack_pack_infinity, UnpackedFloat.abs, unpack_pack_infinity] at hle
      cases hle
    | notANumber =>
      rw [hx, UnpackedFloat.sub, unpack_pack_notANumber, UnpackedFloat.abs,
        unpack_pack_notANumber] at hle
      cases hle
    | zero s => rfl
    | finite s n k hn => rfl
  obtain ⟨sign', r, q, hlt, hr, heq⟩ := sub_eq_assemble hfinite sign hm hm'
  rw [heq] at hle
  have hvalue : toRat y = sign.apply m * 2 ^ e := by rw [toRat, hy, unpackedValue]
  rw [hvalue]
  exact ⟨hfinite, hlt.trans_le (add_one_mul_le_of_le hr hn' hn hle)⟩

/-- A binary64 number that is not negative stands for a number that is not. -/
theorem toRat_nonneg {x : Float} (h : 0 ≤ x) : 0 ≤ toRat x := by
  have hle : (UnpackedFloat.zero .positive).le x.toModel.unpack = true := of_decide_eq_true h
  rw [toRat]
  cases hx : x.toModel.unpack with
  | infinity s => exact le_rfl
  | notANumber => exact le_rfl
  | zero s => exact le_rfl
  | finite s m e hm =>
    rw [hx] at hle
    cases s with
    | negative => cases hle
    | positive =>
      rw [unpackedValue, Sign.apply, Int.cast_natCast]
      positivity

/-! ### Differences that are zero -/

/-- What is unpacked is in canonical form. -/
theorem canonical_of_unpack {x : Float} {sign : Sign} {m : ℕ} {e : ℤ} {hm : 0 < m}
    (h : x.toModel.unpack = .finite sign m e hm) : Canonical m e := by
  set word : BitVec 64 := x.toModel.toBits.toBitVec with hword
  have hunpack : UnpackedFloat.unpack .binary64 word = .finite sign m e hm := h
  have hfraction : (@unpackMantissa .binary64 word).toNat < 2 ^ 52 := BitVec.isLt _
  by_cases hlt : (@unpackExponent .binary64 word).toNat < 2047
  · rw [unpack_eq_assemble hlt] at hunpack
    split_ifs at hunpack with hfield
    · -- The smallest numbers have no leading bit.
      rcases Nat.eq_zero_or_pos (@unpackMantissa .binary64 word).toNat with hzero | hpos
      · rw [assemble, dif_pos hzero] at hunpack
        cases hunpack
      · rw [assemble_of_pos _ hpos] at hunpack
        cases hunpack
        exact ⟨by omega, le_rfl, .inr rfl⟩
    · rw [assemble_of_pos _ (by positivity)] at hunpack
      cases hunpack
      exact ⟨by omega, by omega, .inl (by omega)⟩
  · -- The greatest exponent marks what is not finite.
    have hones : @unpackExponent .binary64 word = -1#11 := by
      refine BitVec.eq_of_toNat_eq ?_
      have hbound : (@unpackExponent .binary64 word).toNat < 2 ^ 11 := BitVec.isLt _
      show (@unpackExponent .binary64 word).toNat = 2047
      omega
    rw [UnpackedFloat.unpack, if_pos hones] at hunpack
    split_ifs at hunpack

/-- A number in canonical form is a multiple of the smallest positive one. -/
theorem exists_eq_mul_two_pow (sign : Sign) {m : ℕ} {e : ℤ} (h : Canonical m e) :
    ∃ k : ℤ, (sign.apply m * 2 ^ e : ℚ) = k * 2 ^ (-1074 : ℤ) := by
  have hle := h.le_exponent
  obtain ⟨n, hn⟩ : ∃ n : ℕ, e = n + -1074 := ⟨(e + 1074).toNat, by omega⟩
  refine ⟨sign.apply m * 2 ^ n, ?_⟩
  rw [hn, zpow_add₀ two_ne_zero, zpow_natCast, Int.cast_mul, Int.cast_pow, Int.cast_ofNat,
    mul_assoc]

/-- Every number is a multiple of the smallest positive one. -/
theorem exists_unpackedValue_eq (x : Float) :
    ∃ k : ℤ, unpackedValue x.toModel.unpack = k * 2 ^ (-1074 : ℤ) := by
  cases hx : x.toModel.unpack with
  | finite s m e hm => exact exists_eq_mul_two_pow s (canonical_of_unpack hx)
  | _ => exact ⟨0, by rw [Int.cast_zero, zero_mul]; rfl⟩

/-- Multiples of a unit that differ by less than the unit are equal. -/
theorem eq_of_abs_sub_lt {a b u : ℚ} (ha : ∃ k : ℤ, a = k * u) (hb : ∃ k : ℤ, b = k * u)
    (h : |a - b| < u) : a = b := by
  obtain ⟨k, rfl⟩ := ha
  obtain ⟨l, rfl⟩ := hb
  have hu : 0 < u := (abs_nonneg _).trans_lt h
  rw [← sub_mul, abs_mul, abs_of_pos hu, mul_lt_iff_lt_one_left hu] at h
  have hkl : |k - l| < 1 := by exact_mod_cast h
  rw [sub_eq_zero.1 (Int.abs_lt_one_iff.1 hkl)]

/-- A number has one canonical form. -/
theorem canonical_unique {m n : ℕ} {e k : ℤ} (hm : Canonical m e) (hn : Canonical n k)
    (h : (m * 2 ^ e : ℚ) = n * 2 ^ k) : m = n ∧ e = k := by
  -- With a smaller exponent the significand would be too large.
  have hle {m n : ℕ} {e k : ℤ} (hm : Canonical m e) (hn : Canonical n k)
      (h : (m * 2 ^ e : ℚ) = n * 2 ^ k) : k ≤ e := by
    by_contra! hlt
    have hlead : 2 ^ 52 ≤ n := hn.leading.resolve_right (by have := hm.le_exponent; omega)
    have hlead' : (2 : ℚ) ^ 52 ≤ n := by exact_mod_cast hlead
    have hlt' : (m : ℚ) < 2 ^ 53 := by exact_mod_cast hm.lt
    have hstep : (2 : ℚ) ^ (e + 1) ≤ 2 ^ k := zpow_le_zpow_right₀ one_le_two (by omega)
    have : (m * 2 ^ e : ℚ) < n * 2 ^ k :=
      calc (m * 2 ^ e : ℚ) < 2 ^ 53 * 2 ^ e := by gcongr
        _ = 2 ^ 52 * 2 ^ (e + 1) := by rw [zpow_add_one₀ two_ne_zero]; ring
        _ ≤ n * 2 ^ k := by gcongr
    exact this.ne h
  obtain rfl : e = k := le_antisymm (hle hn hm h.symm) (hle hm hn h)
  have hpos : (2 : ℚ) ^ e ≠ 0 := by positivity
  exact ⟨by exact_mod_cast mul_right_cancel₀ hpos h, rfl⟩

/-- Only zero is equal to zero, also after packing. -/
theorem eq_zero_of_pack_beq {sign : Sign} {r : ℕ} {q : ℤ} (hr : Canonical r q)
    (h : (Float.Model.pack (assemble sign r q)).unpack.beq (.zero .positive) = true) : r = 0 := by
  by_contra hne
  have hpos := Nat.pos_of_ne_zero hne
  rw [assemble_of_pos sign hpos, unpack_pack_finite sign hpos hr] at h
  split_ifs at h <;> cases sign <;> cases h

theorem beq_self_finite (sign : Sign) {m : ℕ} (e : ℤ) (hm : 0 < m) :
    (UnpackedFloat.finite sign m e hm).beq (.finite sign m e hm) = true := by
  cases sign <;> simp [UnpackedFloat.beq, UnpackedFloat.compare]

/-- Equal numbers are equal in all parts. -/
theorem eq_of_apply_mul_eq {sign sign' : Sign} {m n : ℕ} {e k : ℤ} (hpos : 0 < m)
    (hm : Canonical m e) (hn : Canonical n k)
    (h : (sign.apply m * 2 ^ e : ℚ) = sign'.apply n * 2 ^ k) :
    sign = sign' ∧ m = n ∧ e = k := by
  have he : (0 : ℚ) < 2 ^ e := by positivity
  have hk : (0 : ℚ) < 2 ^ k := by positivity
  have habs : (m * 2 ^ e : ℚ) = n * 2 ^ k := by
    have := congrArg (fun a : ℚ => |a|) h
    rwa [abs_mul, abs_mul, abs_apply, abs_apply, abs_of_pos he, abs_of_pos hk] at this
  refine ⟨?_, canonical_unique hm hn habs⟩
  have hvalue : (0 : ℚ) < m * 2 ^ e := by positivity
  cases sign <;> cases sign' <;> simp only [Sign.apply, Int.cast_neg, Int.cast_natCast] at h ⊢ <;>
    linarith

/-- What is equal to zero after packing is finite. -/
theorem isFinite_of_pack_beq {x : UnpackedFloat}
    (h : (Float.Model.pack x).unpack.beq (.zero .positive) = true) : x.isFinite = true := by
  cases x with
  | infinity s =>
    rw [unpack_pack_infinity] at h
    cases s <;> cases h
  | notANumber =>
    rw [unpack_pack_notANumber] at h
    cases h
  | zero s => rfl
  | finite s m e hm => rfl

/-- A finite number is a zero, or it has a sign, a significand and an exponent. -/
theorem cases_of_isFinite {x : UnpackedFloat} (h : x.isFinite = true) :
    (∃ s, x = .zero s) ∨ ∃ s m e hm, x = .finite s m e hm := by
  cases x with
  | infinity s => cases h
  | notANumber => cases h
  | zero s => exact .inl ⟨s, rfl⟩
  | finite s m e hm => exact .inr ⟨s, m, e, hm, rfl⟩

/-- A difference is finite only if both numbers are. -/
theorem isFinite_of_sub {x y : UnpackedFloat}
    (h : (UnpackedFloat.sub .binary64 x y).isFinite = true) :
    x.isFinite = true ∧ y.isFinite = true := by
  cases x with
  | infinity s => cases s <;> rcases y with (_ | _) | _ | _ | _ <;> cases h
  | notANumber => cases h
  | zero s => cases y <;> first | exact ⟨rfl, rfl⟩ | cases h
  | finite s m e hm => cases y <;> first | exact ⟨rfl, rfl⟩ | cases h

/-- **A computed difference is zero** only between equal numbers: numbers that are not equal differ
by at least the smallest positive number, and rounding does not make that zero. -/
theorem beq_of_sub_beq_zero {x y : Float} (h : (x - y == 0) = true) : (y == x) = true := by
  have hzero : (Float.Model.pack (UnpackedFloat.sub .binary64 x.toModel.unpack
      y.toModel.unpack)).unpack.beq (.zero .positive) = true := h
  show y.toModel.unpack.beq x.toModel.unpack = true
  obtain ⟨hfinite, hfinite'⟩ := isFinite_of_sub (isFinite_of_pack_beq hzero)
  rcases cases_of_isFinite hfinite' with ⟨s, hy⟩ | ⟨s, m, e, hm, hy⟩
  · rcases cases_of_isFinite hfinite with ⟨t, hx⟩ | ⟨t, m, e, hm, hx⟩
    · rw [hx, hy]
      rfl
    · -- Taking zero away leaves the number as it is.
      have hsub : UnpackedFloat.sub .binary64 (.finite t m e hm) (.zero s) = assemble t m e :=
        (assemble_of_pos t hm e).symm
      rw [hx, hy, hsub] at hzero
      exact absurd (eq_zero_of_pack_beq (canonical_of_unpack hx) hzero) hm.ne'
  · have hm' := canonical_of_unpack hy
    obtain ⟨sign, r, q, hlt, hr, heq⟩ := sub_eq_assemble hfinite s hm hm'
    rw [hy, heq] at hzero
    obtain rfl := eq_zero_of_pack_beq hr hzero
    obtain rfl : q = -1074 := hr.leading.resolve_left (by norm_num)
    have hvalue := eq_of_abs_sub_lt (exists_unpackedValue_eq x)
      (exists_eq_mul_two_pow s hm') (by simpa only [Nat.cast_zero, zero_add, one_mul] using hlt)
    rcases cases_of_isFinite hfinite with ⟨t, hx⟩ | ⟨t, n, k, hn, hx⟩
    · -- A number that is not zero differs from zero.
      rw [hx, ← unpackedValue_assemble, assemble_of_pos s hm] at hvalue
      have hpos : (0 : ℚ) < m * 2 ^ e := by positivity
      cases s <;>
        simp only [unpackedValue, Sign.apply, Int.cast_neg, Int.cast_natCast] at hvalue <;>
        linarith
    · rw [hx, unpackedValue] at hvalue
      obtain ⟨rfl, rfl, rfl⟩ := eq_of_apply_mul_eq hn (canonical_of_unpack hx) hm' hvalue
      rw [hx, hy]
      exact beq_self_finite t k hn

/-! ### Rational numbers seen through binary64 -/

/-- **A rational number whose nearest binary64 number is not negative** is at least `-2^-1075`: all
below are rounded to a negative number, and those that are not are rounded to zero. -/
theorem neg_le_of_floatOfRat_nonneg {r : ℚ} (hfinite : (floatOfRat r).isFinite = true)
    (hnonneg : 0 ≤ floatOfRat r) : -2 ^ (-1075 : ℤ) ≤ r := by
  by_contra! hlt
  have hr : r < 0 := hlt.trans (neg_lt_zero.2 (by positivity))
  have herr := (neg_le_abs _).trans (abs_sub_toRat_floatOfRat_le hfinite)
  have hvalue := toRat_nonneg hnonneg
  have hu : (0 : ℚ) < 2 ^ lastPlace |r| := by positivity
  have habs : |r| = -r := abs_of_neg hr
  rcases two_pow_lastPlace_le (abs_pos.2 hr.ne) with hle | hmin
  · linarith
  · have hhalf : (2 : ℚ) ^ (-1074 : ℤ) = 2 * 2 ^ (-1075 : ℤ) := by
      rw [← zpow_one_add₀ two_ne_zero]
      norm_num
    rw [hmin] at herr
    linarith

/-- **A rational number whose nearest binary64 number is close to one** is close to one: the
tolerance is exceeded by less than the distance of one from the next binary64 number. -/
theorem abs_sub_one_lt_of_floatOfRat {r : ℚ} (h : (floatOfRat r - 1).abs ≤ 1e-6) :
    |r - 1| < 1 / 10 ^ 6 + 1 / 2 ^ 52 := by
  have hone : (1 : Float).toModel.unpack = .finite .positive (2 ^ 52) (-52) (by norm_num) := rfl
  have htolerance : (1e-6 : Float).toModel.unpack =
      .finite .positive 4722366482869645 (-72) (by norm_num) := rfl
  obtain ⟨hfinite, hlt⟩ := abs_toRat_sub_lt hone htolerance
    ⟨by norm_num, by norm_num, .inl le_rfl⟩ ⟨by norm_num, by norm_num, .inl (by norm_num)⟩ h
  have hvalue : toRat 1 = 1 := by
    rw [toRat, hone, unpackedValue, Sign.apply]
    norm_num
  have hnear : |toRat (floatOfRat r) - 1| < 1 / 10 ^ 6 + 1 / 2 ^ 60 := by
    rw [hvalue] at hlt
    exact hlt.trans (by norm_num)
  have herr := abs_sub_toRat_floatOfRat_le hfinite
  have htriangle := abs_sub_le r (toRat (floatOfRat r)) 1
  have hr : r ≠ 0 := by
    rintro rfl
    have hzero : toRat (floatOfRat 0) = 0 := rfl
    norm_num [hzero] at hnear
  -- A number this close to one has at most 52 bits after the point.
  have hplace : lastPlace |r| ≤ -52 := by
    rcases two_pow_lastPlace_le (abs_pos.2 hr) with hle | hmin
    · have hsize := abs_sub_abs_le_abs_sub r 1
      rw [abs_one] at hsize
      have hlt' : (2 : ℚ) ^ lastPlace |r| < 2 ^ (-51 : ℤ) := by
        norm_num
        linarith
      have := (zpow_lt_zpow_iff_right₀ (one_lt_two : (1 : ℚ) < 2)).1 hlt'
      omega
    · omega
  have hunit : (2 : ℚ) ^ lastPlace |r| ≤ 1 / 2 ^ 52 :=
    calc (2 : ℚ) ^ lastPlace |r| ≤ 2 ^ (-52 : ℤ) := zpow_le_zpow_right₀ one_le_two hplace
      _ = 1 / 2 ^ 52 := by norm_num
  calc |r - 1| ≤ |r - toRat (floatOfRat r)| + |toRat (floatOfRat r) - 1| := htriangle
    _ < 1 / 10 ^ 6 + 1 / 2 ^ 52 := by linarith

end Binary64

end MarkovElimination
