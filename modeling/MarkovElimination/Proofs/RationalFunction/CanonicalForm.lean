import MarkovElimination.Proofs.Polynomial.Checked
import MarkovElimination.Proofs.RationalFunction.Homomorphism

/-! # The canonical form of a fraction

Simplification cancels the greatest common divisor of both parts and makes the denominator monic.
What it returns is a **canonical form**: coprime parts in range with a monic denominator, and two
fractions have the same value exactly if their canonical forms are identical
(`same_iff_simplify_eq`); a fraction is found constant exactly if it has the value of a number
(`constant?_eq_some_iff`). The only thing that can go wrong is that a product leaves the range of
exponents. A simplification with at most one parameter never leaves it. A comparison multiplies
crosswise and can leave it even then; and with several parameters there are canonical forms that
cannot be simplified again. -/

namespace MarkovElimination.RationalFunction

variable {r s : RationalFunction}

/-- All exponents of a fraction are in range. -/
def InRange (r : RationalFunction) : Prop := r.numerator.InRange ∧ r.denominator.InRange

instance (r : RationalFunction) : Decidable r.InRange := inferInstanceAs (Decidable (_ ∧ _))

/-- **A canonical fraction**: both parts are in range and coprime, and the denominator is monic. -/
structure IsCanonical (r : RationalFunction) : Prop where
  wellFormed : r.WellFormed
  inRange : r.InRange
  coprime : IsRelPrime r.numerator.toMv r.denominator.toMv
  monic : r.denominator.IsMonic

/-- **The canonical form can be computed**: the fraction is in range, and it has at most one
parameter or the products formed by the simplification are in range. -/
structure Simplifiable (r : RationalFunction) : Prop where
  wellFormed : r.WellFormed
  inRange : r.InRange
  fits : r.parameters.length ≤ 1 ∨ r.simplifyFits = true

/-! ### Simplification -/

/-- With at most one parameter the range is never left. -/
theorem Simplifiable.simplifyFits (h : r.Simplifiable) : r.simplifyFits = true := by
  refine h.fits.elim (fun hlength => ?_) id
  have hgcd := Polynomial.gcdFits_of_length_le_one h.wellFormed.1 h.wellFormed.2.1 h.inRange.1
    h.inRange.2 hlength
  rw [RationalFunction.simplifyFits, hgcd, Bool.or_true]

theorem Simplifiable.checkedSimplify_eq (h : r.Simplifiable) :
    Weight.checkedSimplify r = .ok r.simplify :=
  (Weight.returnsIf_checkedSimplify r).eq_ok h.simplifyFits

/-- The canonical form of zero is `0/1`. -/
theorem simplify_of_numerator_eq_zero (h : r.numerator = 0) : r.simplify = 0 := by
  rw [simplify, h]
  rfl

/-- **Both divisions by the greatest common divisor** are exact and stay in range. -/
theorem exists_divExact_gcd (hr : r.WellFormed) (hrange : r.InRange) {g : Polynomial}
    (hg : r.numerator.checkedGcd r.denominator = .ok g) :
    ∃ n d, r.numerator.divExact g = .ok (some n) ∧ r.denominator.divExact g = .ok (some d) := by
  obtain ⟨-, rfl⟩ :=
    (Polynomial.returnsIf_checkedGcd hr.1 hr.2.1 hrange.1 hrange.2).eq_of_eq_ok hg
  obtain ⟨hwf, hgcd⟩ := Polynomial.gcd_isGcd hr.1 hr.2.1
  -- a divisor of the denominator is not zero
  have hne := ne_zero_of_dvd_ne_zero hr.toMv_denominator_ne_zero hgcd.dvd_right
  obtain ⟨n, hn, -⟩ := Polynomial.divExact_spec hr.1 hrange.1 hwf hne hgcd.dvd_left
  obtain ⟨d, hd, -⟩ := Polynomial.divExact_spec hr.2.1 hrange.2 hwf hne hgcd.dvd_right
  exact ⟨n, d, hn, hd⟩

/-- The parts of a reduced fraction divide those of the fraction. -/
theorem Reduces.dvd (h : r.Reduces s) :
    s.numerator.toMv ∣ r.numerator.toMv ∧ s.denominator.toMv ∣ r.denominator.toMv := by
  obtain ⟨c, hn, hd⟩ := h.factor
  exact ⟨⟨c, hn.symm⟩, ⟨c, hd.symm⟩⟩

/-- **The canonical form is canonical.** -/
theorem isCanonical_simplify (hr : r.WellFormed) (hrange : r.InRange) : r.simplify.IsCanonical := by
  obtain ⟨hred, hprime, hmonic⟩ := simplify_reduces hr
  refine ⟨hred.wellFormed, ⟨?_, ?_⟩, hprime, hmonic⟩
  · by_cases hzero : r.numerator = 0
    · rw [simplify_of_numerator_eq_zero hzero]
      decide
    · exact hrange.1.of_dvd hr.1 hred.wellFormed.1 (hr.1.eq_zero_iff.not.1 hzero) hred.dvd.1
  · exact hrange.2.of_dvd hr.2.1 hred.wellFormed.2.1 hr.toMv_denominator_ne_zero hred.dvd.2

/-- Simplification brings in no parameters. -/
theorem length_parameters_simplify_le (hr : r.WellFormed) :
    r.simplify.parameters.length ≤ r.parameters.length := by
  obtain ⟨hred, -⟩ := simplify_reduces hr
  obtain ⟨hn, hd⟩ := hred.dvd
  have hnodup : r.simplify.parameters.Nodup :=
    (Polynomial.pairwise_jointParameters _ _).imp fun hlt => hlt.ne
  refine (hnodup.subperm fun x hx => ?_).length_le
  rw [parameters, Polynomial.mem_jointParameters_iff hred.wellFormed.1 hred.wellFormed.2.1] at hx
  rw [parameters, Polynomial.mem_jointParameters_iff hr.1 hr.2.1]
  refine hx.imp (fun hfree hfree' => hfree ?_) (fun hfree hfree' => hfree ?_)
  · -- the polynomial zero has all others as divisors, but its canonical form has no parameters
    by_cases hzero : r.numerator = 0
    · rw [simplify_of_numerator_eq_zero hzero]
      exact free_zero x
    · exact hfree'.of_dvd (hr.1.eq_zero_iff.not.1 hzero) hn
  · exact hfree'.of_dvd hr.toMv_denominator_ne_zero hd

/-! ### Comparison -/

/-- **Comparison** compares the cross products. -/
theorem same_iff_cross (hr : r.WellFormed) (hs : s.WellFormed) : r.same s = true ↔
    r.numerator.toMv * s.denominator.toMv = s.numerator.toMv * r.denominator.toMv := by
  rw [same]
  split
  case isTrue heq =>
    rw [decide_eq_true_iff, heq, mul_left_inj' hs.toMv_denominator_ne_zero]
    exact ⟨congrArg Polynomial.toMv, Polynomial.toMv_injective hr.1 hs.1⟩
  case isFalse =>
    rw [decide_eq_true_iff, ← Polynomial.toMv_mul hr.1 hs.2.1,
      ← Polynomial.toMv_mul hs.1 hr.2.1]
    exact ⟨congrArg Polynomial.toMv,
      Polynomial.toMv_injective (hr.1.mul hs.2.1) (hs.1.mul hr.2.1)⟩

/-- **Reducing** a fraction keeps its value. -/
theorem Reduces.same (hr : r.WellFormed) (h : r.Reduces s) : r.same s = true := by
  obtain ⟨c, hn, hd⟩ := h.factor
  rw [same_iff_cross hr h.wellFormed, ← hn, ← hd]
  ring

/-- **Fractions have the same value** exactly if they have the same canonical form. -/
theorem same_iff_simplify_eq (hr : r.WellFormed) (hs : s.WellFormed) :
    r.same s = true ↔ r.simplify = s.simplify := by
  rw [same_iff_cross hr hs]
  refine ⟨simplify_eq_of_cross hr hs, fun heq => ?_⟩
  obtain ⟨c, hn, hd⟩ := (simplify_reduces hr).1.factor
  obtain ⟨c', hn', hd'⟩ := (simplify_reduces hs).1.factor
  rw [← hn, ← hd, ← hn', ← hd', heq]
  ring

/-- The canonical form of a canonical form is itself. -/
theorem simplify_simplify (hr : r.WellFormed) : r.simplify.simplify = r.simplify := by
  obtain ⟨hred, -⟩ := simplify_reduces hr
  exact ((same_iff_simplify_eq hr hred.wellFormed).1 (hred.same hr)).symm

/-! ### Constants -/

theorem wellFormed_const (c : ℚ) : (const c).WellFormed := by
  have hone : (1 : Polynomial) ≠ 0 := by decide
  exact ⟨Polynomial.wellFormed_const c, Polynomial.wellFormed_one, hone⟩

/-- The canonical form of a number shows the number. -/
theorem constantParts?_simplify_const (c : ℚ) : (const c).simplify.constantParts? = some c := by
  by_cases hc : c = 0
  · rw [hc]
    cbv
  · have hconst : Polynomial.const c = ⟨[⟨.one, c⟩]⟩ := if_neg hc
    have hone : (1 : Polynomial) = ⟨[⟨.one, 1⟩]⟩ := rfl
    simp [const, ofPolynomial, hconst, hone, simplify, cancel, normalize, Polynomial.leading?,
      Polynomial.isZero, Polynomial.isConstant, Polynomial.constant?, Polynomial.scale,
      Monomial.isOne, Monomial.one, constantParts?]

/-- Different numbers have different canonical forms. -/
theorem simplify_const_inj {c c' : ℚ} : (const c).simplify = (const c').simplify ↔ c = c' := by
  refine ⟨fun h => ?_, fun h => congrArg _ (congrArg _ h)⟩
  have hparts := congrArg constantParts? h
  rw [constantParts?_simplify_const, constantParts?_simplify_const] at hparts
  exact Option.some.inj hparts

/-- A fraction with constant parts has the value of their quotient. -/
theorem same_of_constantParts? (hr : r.WellFormed) {c : ℚ} (h : r.constantParts? = some c) :
    r.same (const c) = true := by
  rw [constantParts?, Option.bind_eq_bind, Option.bind_eq_some_iff] at h
  obtain ⟨n, hn, h⟩ := h
  obtain ⟨d, hd, h⟩ := Option.bind_eq_some_iff.1 h
  obtain rfl := Option.some.inj h
  have hden := hr.toMv_denominator_ne_zero
  rw [same_iff_cross hr (wellFormed_const _)]
  show _ * (1 : Polynomial).toMv = (Polynomial.const _).toMv * _
  rw [Polynomial.toMv_of_constant? hd] at hden ⊢
  rw [Polynomial.toMv_of_constant? hn, Polynomial.toMv_one, Polynomial.toMv_const, mul_one,
    ← MvPolynomial.C_mul, div_mul_cancel₀ _ (MvPolynomial.C_ne_zero.1 hden)]

/-- **A fraction is found constant** exactly if it has the value of the number. -/
theorem constant?_eq_some_iff (hr : r.WellFormed) {c : ℚ} :
    r.constant? = some c ↔ r.same (const c) = true := by
  have hred := (simplify_reduces hr).1.wellFormed
  rw [same_iff_simplify_eq hr (wellFormed_const c), constant?]
  split
  case isTrue hzero =>
    have hnum := hr.1.eq_zero_iff.2 ((Polynomial.isZero_iff hr.1).1 hzero)
    rw [simplify_of_numerator_eq_zero hnum, Option.some_inj, ← simplify_const_inj]
    rfl
  case isFalse =>
    -- the parts that are looked at first give the same number as those of the canonical form
    cases hparts : r.constantParts? with
    | some c' =>
      have hsame := same_of_constantParts? hr hparts
      rw [same_iff_simplify_eq hr (wellFormed_const c')] at hsame
      rw [hsame, simplify_const_inj]
      exact Option.some_inj
    | none =>
      constructor
      · intro h
        have hsame := same_of_constantParts? hred h
        rwa [same_iff_simplify_eq hred (wellFormed_const c), simplify_simplify hr] at hsame
      · intro h
        show r.simplify.constantParts? = some c
        rw [h]
        exact constantParts?_simplify_const c

/-! ### The canonical form -/

theorem checkedSame_eq (h : r.sameFits s = true) : Weight.checkedSame r s = .ok (r.same s) :=
  (Weight.returnsIf_checkedSame r s).eq_ok h

/-- **The canonical form.** As long as the products of the simplification are in range, and always
with at most one parameter, simplification returns: both divisions are exact, and what it returns is
canonical and has the same value. If that can be simplified again, nothing changes, and two
fractions have the same value exactly if both parts of their canonical forms agree. -/
theorem checkedSimplify_canonical (hr : r.Simplifiable) :
    ∃ s, Weight.checkedSimplify r = .ok s ∧ s.IsCanonical ∧ (r.numerator = 0 → s = 0) ∧
      (∀ g, r.numerator.checkedGcd r.denominator = .ok g → ∃ n d,
        r.numerator.divExact g = .ok (some n) ∧ r.denominator.divExact g = .ok (some d)) ∧
      (r.sameFits s = true → Weight.checkedSame r s = .ok true) ∧
      (r.parameters.length ≤ 1 ∨ s.simplifyFits = true → Weight.checkedSimplify s = .ok s) ∧
      ∀ r', r'.Simplifiable → r.sameFits r' = true →
        ∃ s' b, Weight.checkedSimplify r' = .ok s' ∧ Weight.checkedSame r r' = .ok b ∧
          (b = true ↔ s.numerator = s'.numerator ∧ s.denominator = s'.denominator) := by
  have hwf := hr.wellFormed
  have hcanonical := isCanonical_simplify hwf hr.inRange
  refine ⟨r.simplify, hr.checkedSimplify_eq, hcanonical, simplify_of_numerator_eq_zero,
    fun g hg => exists_divExact_gcd hwf hr.inRange hg, fun hfits => ?_, fun hfits => ?_,
    fun r' hr' hfits => ?_⟩
  · rw [checkedSame_eq hfits, (simplify_reduces hwf).1.same hwf]
  · have hagain : r.simplify.Simplifiable := by
      refine ⟨hcanonical.wellFormed, hcanonical.inRange, hfits.imp (fun hlength => ?_) id⟩
      exact (length_parameters_simplify_le hwf).trans hlength
    rw [hagain.checkedSimplify_eq, simplify_simplify hwf]
  · refine ⟨r'.simplify, r.same r', hr'.checkedSimplify_eq, checkedSame_eq hfits, ?_⟩
    rw [same_iff_simplify_eq hwf hr'.wellFormed]
    cases r.simplify
    cases r'.simplify
    rw [mk.injEq]

/-- The fraction `(p ^ 2 - q ^ 2) / (2 * p - 2 * q)`. -/
def chord : RationalFunction :=
  ⟨⟨[⟨⟨[⟨"p", 2⟩]⟩, 1⟩, ⟨⟨[⟨"q", 2⟩]⟩, -1⟩]⟩,
    ⟨[⟨⟨[⟨"p", 1⟩]⟩, 2⟩, ⟨⟨[⟨"q", 1⟩]⟩, -2⟩]⟩⟩

/-- The fraction `(p + q) / 2`. -/
def mean : RationalFunction :=
  ⟨⟨[⟨⟨[⟨"p", 1⟩]⟩, 1⟩, ⟨⟨[⟨"q", 1⟩]⟩, 1⟩]⟩, ⟨[⟨.one, 2⟩]⟩⟩

theorem checkedSimplify_chord : chord.Simplifiable ∧ mean.Simplifiable ∧
    ∃ s, Weight.checkedSimplify chord = .ok s ∧ s.IsCanonical ∧
      Weight.checkedSame chord mean = .ok true ∧ Weight.checkedSimplify mean = .ok s := by
  have hchord : chord.Simplifiable := ⟨by decide, by decide, .inr (by cbv)⟩
  have hmean : mean.Simplifiable := ⟨by decide, by decide, .inr (by cbv)⟩
  have hsame : Weight.checkedSame chord mean = .ok true := by cbv
  obtain ⟨s, hs, hcanonical, -, -, -, -, hiff⟩ := checkedSimplify_canonical hchord
  obtain ⟨s', b, hs', hb, hparts⟩ := hiff mean hmean (by cbv)
  obtain rfl : b = true := Except.ok.inj (hb.symm.trans hsame)
  obtain ⟨hn, hd⟩ := hparts.1 rfl
  obtain rfl : s = s' := by
    cases s
    cases s'
    rw [mk.injEq]
    exact ⟨hn, hd⟩
  exact ⟨hchord, hmean, s, hs, hcanonical, hsame, hs'⟩

/-- The fraction `(p + q ^ n) / (2 * p + 2 * q ^ n + 2)`. -/
def tall (n : ℕ) : RationalFunction :=
  ⟨⟨[⟨⟨[⟨"p", 1⟩]⟩, 1⟩, ⟨⟨[⟨"q", n⟩]⟩, 1⟩]⟩,
    ⟨[⟨⟨[⟨"p", 1⟩]⟩, 2⟩, ⟨⟨[⟨"q", n⟩]⟩, 2⟩, ⟨.one, 2⟩]⟩⟩

/-- The degrees of numerator and denominator are added when a fraction is compared with its
canonical form. -/
theorem checkedSame_tall_overflow :
    ∃ s, Weight.checkedSimplify (tall 2147483648) = .ok s ∧
      Weight.checkedSame (tall 2147483648) s = .error .degreeOverflow :=
  ⟨(tall 2147483648).simplify, by cbv, by cbv⟩

/-- The fraction `(p * c + 2 * p + c + 1) / (p + 1)` with `c = q * r ^ n`. -/
def bare (n : ℕ) : RationalFunction :=
  ⟨⟨[⟨⟨[⟨"p", 1⟩, ⟨"q", 1⟩, ⟨"r", n⟩]⟩, 1⟩, ⟨⟨[⟨"p", 1⟩]⟩, 2⟩,
    ⟨⟨[⟨"q", 1⟩, ⟨"r", n⟩]⟩, 1⟩, ⟨.one, 1⟩]⟩,
    ⟨[⟨⟨[⟨"p", 1⟩]⟩, 1⟩, ⟨.one, 1⟩]⟩⟩

/-- The fraction `bare n` with both parts multiplied by `1 - p`. -/
def covered (n : ℕ) : RationalFunction :=
  ⟨⟨[⟨⟨[⟨"p", 2⟩, ⟨"q", 1⟩, ⟨"r", n⟩]⟩, -1⟩, ⟨⟨[⟨"p", 2⟩]⟩, -2⟩,
    ⟨⟨[⟨"p", 1⟩]⟩, 1⟩, ⟨⟨[⟨"q", 1⟩, ⟨"r", n⟩]⟩, 1⟩, ⟨.one, 1⟩]⟩,
    ⟨[⟨⟨[⟨"p", 2⟩]⟩, -1⟩, ⟨.one, 1⟩]⟩⟩

/-- The coefficients in `p` of the covered numerator have a constant among them, which is not so
after the factor `1 - p` is cancelled. -/
theorem checkedSimplify_covered_overflow :
    ∃ s, Weight.checkedSimplify (covered 2147483648) = .ok s ∧
      Weight.checkedSimplify s = .error .degreeOverflow :=
  ⟨bare 2147483648, by cbv, by cbv⟩

/-- With several parameters a simplification can leave the range, and so can a comparison with the
canonical form, or a second simplification. -/
theorem checkedSimplify_overflow :
    (RationalFunction.WellFormed ⟨.steep 2147483648 1, .steep 2147483648 2⟩ ∧
      RationalFunction.InRange ⟨.steep 2147483648 1, .steep 2147483648 2⟩ ∧
      Weight.checkedSimplify (RationalFunction.mk (.steep 2147483648 1) (.steep 2147483648 2)) =
        .error .degreeOverflow) ∧
    ((tall 2147483648).WellFormed ∧ (tall 2147483648).InRange ∧
      ∃ s, Weight.checkedSimplify (tall 2147483648) = .ok s ∧
        Weight.checkedSame (tall 2147483648) s = .error .degreeOverflow) ∧
    (covered 2147483648).WellFormed ∧ (covered 2147483648).InRange ∧
      ∃ s, Weight.checkedSimplify (covered 2147483648) = .ok s ∧
        Weight.checkedSimplify s = .error .degreeOverflow :=
  ⟨⟨by decide, by decide, by cbv⟩, ⟨by decide, by decide, checkedSame_tall_overflow⟩,
    by decide, by decide, checkedSimplify_covered_overflow⟩

end MarkovElimination.RationalFunction
