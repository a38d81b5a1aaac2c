import MarkovElimination.Proofs.Polynomial.Evaluation
import MarkovElimination.Proofs.RationalFunction.Homomorphism

/-! # Values of rational functions

A fraction **has a value** under a valuation that defines the parameters of both parts and does not
make the denominator zero. The value is the image under evaluation, so arithmetic computes with it;
what is left to show is that the parameters stay defined. Simplification divides by a common factor,
and the parameters of a divisor are among those of the polynomial it divides. Every valuation is
thus an interpretation of rational functions as weights. -/

namespace MarkovElimination

namespace Valuation.Defines

variable {v : Valuation} {f g : MvPolynomial Parameter ℚ}

theorem add (hf : v.Defines f) (hg : v.Defines g) : v.Defines (f + g) :=
  fun x hx => (hf x hx).add (hg x hx)

theorem neg (hf : v.Defines f) : v.Defines (-f) :=
  fun x hx => (hf x hx).neg

theorem mul (hf : v.Defines f) (hg : v.Defines g) : v.Defines (f * g) :=
  fun x hx => (hf x hx).mul (hg x hx)

theorem of_dvd (hf : v.Defines f) (hne : f ≠ 0) (h : g ∣ f) : v.Defines g :=
  fun x hx => (hf x hx).of_dvd hne h

end Valuation.Defines

namespace RationalFunction

variable {v : Valuation} {r s : RationalFunction}

/-- **The fraction has a value** under the valuation. -/
structure HasValue (v : Valuation) (r : RationalFunction) : Prop where
  wf_numerator : r.numerator.WellFormed
  wf_denominator : r.denominator.WellFormed
  defines_numerator : v.Defines r.numerator.toMv
  defines_denominator : v.Defines r.denominator.toMv
  denominator_ne_zero : MvPolynomial.eval v.point r.denominator.toMv ≠ 0

/-- The value of a fraction. -/
noncomputable def valueAt (v : Valuation) (r : RationalFunction) : ℚ :=
  MvPolynomial.eval v.point r.numerator.toMv / MvPolynomial.eval v.point r.denominator.toMv

/-- **A fraction that has a value evaluates to it.** -/
theorem HasValue.evaluate (h : HasValue v r) : r.evaluate v = some (valueAt v r) := by
  have hd := (Polynomial.evaluate_eq_some_iff h.wf_denominator).2 ⟨h.defines_denominator, rfl⟩
  have hn := (Polynomial.evaluate_eq_some_iff h.wf_numerator).2 ⟨h.defines_numerator, rfl⟩
  rw [RationalFunction.evaluate, hd]
  simp only [Option.bind_eq_bind, Option.bind_some, if_neg h.denominator_ne_zero, hn]
  rfl

/-- A well-formed fraction that evaluates to something has a value. -/
theorem WellFormed.hasValue (h : r.WellFormed) {y : ℚ} (hy : r.evaluate v = some y) :
    HasValue v r := by
  rw [RationalFunction.evaluate, Option.bind_eq_bind, Option.bind_eq_some_iff] at hy
  obtain ⟨d, hd, hy⟩ := hy
  split at hy
  case isTrue => cases hy
  case isFalse hne =>
    rw [Option.bind_eq_some_iff] at hy
    obtain ⟨n, hn, -⟩ := hy
    obtain ⟨hddef, rfl⟩ := (Polynomial.evaluate_eq_some_iff h.2.1).1 hd
    obtain ⟨hndef, -⟩ := (Polynomial.evaluate_eq_some_iff h.1).1 hn
    exact ⟨h.1, h.2.1, hndef, hddef, hne⟩

/-- The value is the image under evaluation. -/
theorem HasValue.hasImage (h : HasValue v r) : HasImage (MvPolynomial.eval v.point) r :=
  ⟨h.wf_numerator, h.wf_denominator, h.denominator_ne_zero⟩

/-- A fraction with an image has a value where the parameters of its parts are defined. -/
theorem HasImage.hasValue (h : HasImage (MvPolynomial.eval v.point) r)
    (hn : v.Defines r.numerator.toMv) (hd : v.Defines r.denominator.toMv) : HasValue v r :=
  ⟨h.wf_numerator, h.wf_denominator, hn, hd, h.denominator_ne_zero⟩

/-! ### Arithmetic -/

/-- Polynomials have values as fractions. -/
theorem hasValue_ofPolynomial {p : Polynomial} (h : p.WellFormed) (hdef : v.Defines p.toMv) :
    HasValue v (ofPolynomial p) := by
  refine (hasImage_ofPolynomial h).1.hasValue hdef fun x _ => ?_
  rw [ofPolynomial, Polynomial.toMv_one]
  exact free_one x

theorem hasValue_zero : HasValue v 0 :=
  hasValue_ofPolynomial Polynomial.wellFormed_zero fun x _ => free_zero x

theorem hasValue_one : HasValue v 1 :=
  hasValue_ofPolynomial Polynomial.wellFormed_one fun x _ => by
    rw [Polynomial.toMv_one]
    exact free_one x

/-- The sum of two fractions. -/
theorem HasValue.add (hr : HasValue v r) (hs : HasValue v s) : HasValue v (r + s) := by
  have himage := (hr.hasImage.add hs.hasImage).1
  change HasImage _ (RationalFunction.add r s) at himage
  change HasValue v (RationalFunction.add r s)
  unfold RationalFunction.add at himage ⊢
  by_cases heq : r.denominator = s.denominator
  · -- a common denominator is kept
    rw [if_pos heq] at himage ⊢
    refine himage.hasValue ?_ hr.defines_denominator
    rw [Polynomial.toMv_add]
    exact hr.defines_numerator.add hs.defines_numerator
  · rw [if_neg heq] at himage ⊢
    refine himage.hasValue ?_ ?_
    · rw [Polynomial.toMv_add, Polynomial.toMv_mul hr.wf_numerator hs.wf_denominator,
        Polynomial.toMv_mul hs.wf_numerator hr.wf_denominator]
      exact (hr.defines_numerator.mul hs.defines_denominator).add
        (hs.defines_numerator.mul hr.defines_denominator)
    · rw [Polynomial.toMv_mul hr.wf_denominator hs.wf_denominator]
      exact hr.defines_denominator.mul hs.defines_denominator

theorem HasValue.neg (hr : HasValue v r) : HasValue v (-r) := by
  refine hr.hasImage.neg.1.hasValue ?_ hr.defines_denominator
  show v.Defines (-r.numerator).toMv
  rw [Polynomial.toMv_neg]
  exact hr.defines_numerator.neg

/-- The difference of two fractions. -/
theorem HasValue.sub (hr : HasValue v r) (hs : HasValue v s) : HasValue v (r - s) := hr.add hs.neg

/-- The product of two fractions. -/
theorem HasValue.mul (hr : HasValue v r) (hs : HasValue v s) : HasValue v (r * s) := by
  refine (hr.hasImage.mul hs.hasImage).1.hasValue ?_ ?_
  · show v.Defines (r.numerator * s.numerator).toMv
    rw [Polynomial.toMv_mul hr.wf_numerator hs.wf_numerator]
    exact hr.defines_numerator.mul hs.defines_numerator
  · show v.Defines (r.denominator * s.denominator).toMv
    rw [Polynomial.toMv_mul hr.wf_denominator hs.wf_denominator]
    exact hr.defines_denominator.mul hs.defines_denominator

/-- The quotient of two fractions, the second of which has a value other than zero. -/
theorem HasValue.quotient (hr : HasValue v r) (hs : HasValue v s) (hne : valueAt v s ≠ 0) :
    HasValue v (r.quotient s) := by
  refine (hr.hasImage.quotient hs.hasImage hne).1.hasValue ?_ ?_
  · show v.Defines (r.numerator * s.denominator).toMv
    rw [Polynomial.toMv_mul hr.wf_numerator hs.wf_denominator]
    exact hr.defines_numerator.mul hs.defines_denominator
  · show v.Defines (r.denominator * s.numerator).toMv
    rw [Polynomial.toMv_mul hr.wf_denominator hs.wf_numerator]
    exact hr.defines_denominator.mul hs.defines_numerator

/-- **Simplification keeps values**: the parameters of what it divides by are defined. -/
theorem HasValue.of_reduces (hr : HasValue v r) (h : r.Reduces s) : HasValue v s := by
  obtain ⟨c, hn, hd⟩ := h.factor
  have hden := hr.hasImage.wellFormed.toMv_denominator_ne_zero
  refine (hr.hasImage.of_reduces h).1.hasValue ?_
    (hr.defines_denominator.of_dvd hden ⟨c, hd.symm⟩)
  by_cases hr₀ : r.numerator.toMv = 0
  · -- the common factor is not zero, so the numerator is
    rw [hr₀] at hn
    rw [← hd] at hden
    rw [(mul_eq_zero.1 hn).resolve_right (right_ne_zero_of_mul hden)]
    exact fun x _ => free_zero x
  · exact hr.defines_numerator.of_dvd hr₀ ⟨c, hn.symm⟩

end RationalFunction

/-- **Every valuation interprets rational functions** by their values. -/
noncomputable def Interpretation.ofValuation (v : Valuation) :
    Interpretation RationalFunction ℚ where
  Valid := RationalFunction.HasValue v
  value := RationalFunction.valueAt v
  Overflow := True
  unbounded := RationalFunction.unbounded_of_not_true
  valid_zero := RationalFunction.hasValue_zero
  value_zero := RationalFunction.hasImage_zero.2
  valid_one := RationalFunction.hasValue_one
  value_one := RationalFunction.hasImage_one.2
  valid_add ha hb := ha.add hb
  value_add ha hb := (ha.hasImage.add hb.hasImage).2
  valid_sub ha hb := ha.sub hb
  value_sub ha hb := (ha.hasImage.sub hb.hasImage).2
  valid_mul ha hb := ha.mul hb
  value_mul ha hb := (ha.hasImage.mul hb.hasImage).2
  valid_simplify ha :=
    ha.of_reduces (RationalFunction.simplify_reduces ha.hasImage.wellFormed).1
  value_simplify ha :=
    (ha.hasImage.of_reduces (RationalFunction.simplify_reduces ha.hasImage.wellFormed).1).2
  divide_meets ha hb hne := hb.hasImage.divide_meets hne
    ⟨ha.quotient hb hne, (ha.hasImage.quotient hb.hasImage hne).2⟩
  value_of_isZero ha h := ha.hasImage.image_of_isZero h
  value_of_isOne ha h := ha.hasImage.image_of_isOne h

end MarkovElimination
