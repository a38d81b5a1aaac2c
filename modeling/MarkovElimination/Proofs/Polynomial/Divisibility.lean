import MarkovElimination.Proofs.Polynomial.Checked

/-! # Exact division decides divisibility

A quotient that is returned times the divisor is the dividend, and the division of a multiple runs
to its end. So **a quotient is returned exactly if the divisor divides the dividend**, and it is the
only polynomial whose product with the divisor is the dividend (`quotient?_eq_some_iff`). The
division of a multiple stays in range, and so does every division with a single parameter. With
several parameters a polynomial that is no multiple may be refused too late: the leading monomial
descends, but a parameter behind the first one can gain degrees on the way
(`divExact_diagonal_overflow`). -/

namespace MarkovElimination.Polynomial

variable {p q d : Polynomial}

/-- Products of well-formed polynomials are compared term by term. -/
theorem mul_eq_iff (hp : p.WellFormed) (hq : q.WellFormed) (hd : d.WellFormed) :
    q * d = p ↔ q.toMv * d.toMv = p.toMv := by
  rw [← toMv_mul hq hd]
  exact ⟨congrArg toMv, toMv_injective (hq.mul hd) hp⟩

/-- **The quotient** is the only polynomial whose product with the divisor is the dividend. -/
theorem quotient?_eq_some_iff (hp : p.WellFormed) (hd : d.WellFormed) (hd₀ : d.toMv ≠ 0) :
    p.quotient? d = some q ↔ q.WellFormed ∧ q * d = p := by
  constructor
  · intro hrun
    obtain ⟨hq, hval⟩ := mul_of_quotient? hp hd hd₀ hrun
    exact ⟨hq, (mul_eq_iff hp hq hd).2 hval⟩
  · rintro ⟨hq, hval⟩
    rw [mul_eq_iff hp hq hd] at hval
    obtain ⟨k, hrun, hk, hkval⟩ := quotient?_spec hp hd hd₀ (Dvd.intro_left _ hval)
    -- the divisor cancels, so both quotients have the same view
    obtain rfl : k = q := toMv_injective hk hq (mul_right_cancel₀ hd₀ (hkval.trans hval.symm))
    exact hrun

/-- **A quotient is found** exactly if the divisor divides the dividend. -/
theorem isSome_quotient?_iff (hp : p.WellFormed) (hd : d.WellFormed) (hd₀ : d.toMv ≠ 0) :
    (p.quotient? d).isSome = true ↔ d.toMv ∣ p.toMv := by
  rw [Option.isSome_iff_exists]
  constructor
  · rintro ⟨q, hrun⟩
    exact Dvd.intro_left _ (mul_of_quotient? hp hd hd₀ hrun).2
  · intro hdvd
    obtain ⟨q, hrun, -⟩ := quotient?_spec hp hd hd₀ hdvd
    exact ⟨q, hrun⟩

/-- A quotient of a polynomial in range is in range. -/
theorem InRange.of_mul_eq (hrange : p.InRange) (hq : q.WellFormed) (hd : d.WellFormed)
    (hd₀ : d.toMv ≠ 0) (h : q * d = p) : q.InRange := by
  subst h
  by_cases hq₀ : q.toMv = 0
  · rw [hq.eq_zero_iff.2 hq₀]
    decide
  · have hval := toMv_mul hq hd
    refine hrange.of_dvd (hq.mul hd) hq ?_ (Dvd.intro _ hval.symm)
    rw [hval]
    exact mul_ne_zero hq₀ hd₀

/-- **Exact division decides divisibility.** If the divisor divides the dividend, and otherwise with
at most one parameter or as long as the products formed on the way have their exponents in range,
the division ends. It returns a quotient exactly if the divisor divides the dividend. The quotient
is in range, and it is the only polynomial whose product with the divisor is the dividend. -/
theorem divExact_decides (hp : p.WellFormed) (hprange : p.InRange) (hd : d.WellFormed)
    (hd₀ : d ≠ 0)
    (hfits : d.toMv ∣ p.toMv ∨ (jointParameters p d).length ≤ 1 ∨ p.quotientFits d = true) :
    ∃ result, p.divExact d = .ok result ∧ (result.isSome = true ↔ d.toMv ∣ p.toMv) ∧
      ∀ q, (result = some q ↔ q.WellFormed ∧ q * d = p) ∧
      (result = some q → q.InRange) := by
  rw [Ne, hd.eq_zero_iff] at hd₀
  have hrun : p.quotientFits d = true := by
    rcases hfits with hdvd | hlength | hfits
    · exact quotientFits_of_dvd hp hprange hd hdvd
    · exact quotientFits_of_length_le_one hp hprange hd hlength
    · exact hfits
  refine ⟨p.quotient? d, (returnsIf_divExact hp hd hd₀).eq_ok hrun,
    isSome_quotient?_iff hp hd hd₀,
    fun q => ⟨quotient?_eq_some_iff hp hd hd₀, fun hq => ?_⟩⟩
  obtain ⟨hqwf, hval⟩ := (quotient?_eq_some_iff hp hd hd₀).1 hq
  exact hprange.of_mul_eq hqwf hd hd₀ hval

/-- The polynomial `p + c * q`. -/
def diagonal (c : ℚ) : Polynomial :=
  ⟨[⟨⟨[⟨"p", 1⟩]⟩, 1⟩, ⟨⟨[⟨"q", 1⟩]⟩, c⟩]⟩

/-- The polynomial `p ^ 2 - q ^ 2`. -/
def squares : Polynomial := ⟨[⟨⟨[⟨"p", 2⟩]⟩, 1⟩, ⟨⟨[⟨"q", 2⟩]⟩, -1⟩]⟩

theorem divExact_decides_squares : squares.quotientFits (diagonal (-1)) = true ∧
    squares.divExact (diagonal (-1)) = .ok (some (diagonal 1)) ∧
    (diagonal (-1)).toMv ∣ squares.toMv := by
  have hfits : squares.quotientFits (diagonal (-1)) = true := by cbv
  obtain ⟨result, hrun, hdvd, hquotient⟩ := divExact_decides (p := squares) (d := diagonal (-1))
    (by decide) (by decide) (by decide) (by decide) (.inr (.inr hfits))
  obtain rfl : result = some (diagonal 1) :=
    (hquotient (diagonal 1)).1.2 ⟨by decide, by cbv⟩
  exact ⟨hfits, hrun, hdvd.1 rfl⟩

/-- The polynomial `p * q ^ n`. -/
def slope (n : ℕ) : Polynomial := ⟨[⟨⟨[⟨"p", 1⟩, ⟨"q", n⟩]⟩, 1⟩]⟩

/-- Two parameters: `p + q` does not divide `p * q ^ n`, but the division cancels `p * q ^ n`
against `p` before it finds out, and the exponent of `q` grows by one. -/
theorem divExact_diagonal_overflow :
    (slope 4294967295).WellFormed ∧ (slope 4294967295).InRange ∧ (diagonal 1).WellFormed ∧
      (diagonal 1).InRange ∧ diagonal 1 ≠ 0 ∧
      ¬(diagonal 1).toMv ∣ (slope 4294967295).toMv ∧
      (slope 4294967295).divExact (diagonal 1) = .error .degreeOverflow := by
  have hnone : (slope 4294967295).quotient? (diagonal 1) = none := by cbv
  have hfits : (slope 4294967295).quotientFits (diagonal 1) = false := by cbv
  have hd₀ : (diagonal 1).toMv ≠ 0 := (WellFormed.eq_zero_iff (by decide)).not.1 (by decide)
  refine ⟨by decide, by decide, by decide, by decide, by decide, ?_, ?_⟩
  · rw [← isSome_quotient?_iff (by decide) (by decide) hd₀, hnone]
    decide
  · exact (returnsIf_divExact (by decide) (by decide) hd₀).eq_error hfits

end MarkovElimination.Polynomial
