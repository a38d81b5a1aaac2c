import Mathlib.Algebra.MvPolynomial.Eval
import MarkovElimination.Proofs.Polynomial.Degree

/-! # Values of polynomials

A polynomial has a value under a valuation exactly if **the valuation defines** all parameters that
occur in it, and its value is then that of its view. Parameters that cancel do not matter, since no
well-formed polynomial mentions them. -/

namespace MarkovElimination

/-- The point of a valuation; parameters without a value are put to zero. -/
def Valuation.point (v : Valuation) (x : Parameter) : ℚ := (v x).getD 0

/-- **The valuation defines** all parameters that occur in the polynomial. -/
def Valuation.Defines (v : Valuation) (f : MvPolynomial Parameter ℚ) : Prop :=
  ∀ x, v x = none → Free x f

namespace Polynomial

variable {v : Valuation}

/-- The value of a product of powers. -/
theorem evaluateFactors_eq_some_iff {fs : List Factor} {y : ℚ} :
    evaluateFactors v fs = some y ↔ (∀ f ∈ fs, v f.parameter ≠ none) ∧
      y = MvPolynomial.eval v.point (MvPolynomial.monomial (Monomial.exponentSum fs) 1) := by
  induction fs generalizing y with
  | nil => simp [evaluateFactors, eq_comm]
  | cons f fs ih =>
    -- both sides split off the power of the first factor
    have hvalue : MvPolynomial.eval v.point
        (MvPolynomial.monomial (Monomial.exponentSum (f :: fs)) 1) =
        v.point f.parameter ^ f.exponent *
          MvPolynomial.eval v.point (MvPolynomial.monomial (Monomial.exponentSum fs) 1) := by
      rw [Monomial.exponentSum_cons, MvPolynomial.monomial_single_add, map_mul, map_pow,
        MvPolynomial.eval_X]
    rw [List.forall_mem_cons, hvalue]
    simp only [evaluateFactors, Option.bind_eq_bind, Option.bind_eq_some_iff, Option.some_inj, ih]
    constructor
    · rintro ⟨a, ha, b, ⟨hdef, rfl⟩, rfl⟩
      exact ⟨⟨by simp [ha], hdef⟩, by simp [Valuation.point, ha]⟩
    · rintro ⟨⟨hne, hdef⟩, rfl⟩
      obtain ⟨a, ha⟩ := Option.ne_none_iff_exists'.1 hne
      exact ⟨a, ha, _, ⟨hdef, rfl⟩, by simp [Valuation.point, ha]⟩

/-- The value of a sum of terms. -/
theorem evaluateTerms_eq_some_iff {ts : List Term} {y : ℚ} :
    evaluateTerms v ts = some y ↔
      (∀ t ∈ ts, ∀ f ∈ t.monomial.factors, v f.parameter ≠ none) ∧
        y = MvPolynomial.eval v.point (termSum ts) := by
  induction ts generalizing y with
  | nil => simp [evaluateTerms, eq_comm]
  | cons t ts ih =>
    have hvalue : MvPolynomial.eval v.point t.toMv = t.coefficient *
        MvPolynomial.eval v.point (MvPolynomial.monomial t.monomial.toFinsupp 1) := by
      rw [Term.toMv, ← mul_one t.coefficient, ← MvPolynomial.C_mul_monomial, map_mul,
        MvPolynomial.eval_C, mul_one]
    rw [List.forall_mem_cons, termSum_cons, map_add, hvalue]
    simp only [evaluateTerms, Option.bind_eq_bind, Option.bind_eq_some_iff, Option.some_inj, ih,
      evaluateFactors_eq_some_iff]
    constructor
    · rintro ⟨a, ⟨ht, rfl⟩, b, ⟨hts, rfl⟩, rfl⟩
      exact ⟨⟨ht, hts⟩, rfl⟩
    · rintro ⟨⟨ht, hts⟩, rfl⟩
      exact ⟨_, ⟨ht, rfl⟩, _, ⟨hts, rfl⟩, rfl⟩

/-- **The value of a well-formed polynomial.** -/
theorem evaluate_eq_some_iff {p : Polynomial} (h : p.WellFormed) {y : ℚ} :
    p.evaluate v = some y ↔ v.Defines p.toMv ∧ y = MvPolynomial.eval v.point p.toMv := by
  rw [evaluate, evaluateTerms_eq_some_iff]
  refine and_congr_left fun _ => ⟨fun hdef x hx => ?_, fun hdef t ht f hf hnone => ?_⟩
  · rw [free_iff_forall_terms h]
    intro t ht
    by_contra hne
    obtain ⟨f, hf, rfl⟩ := List.mem_map.1 ((Monomial.mem_parameters_iff (h.2 t ht).1).2 hne)
    exact hdef t ht f hf hx
  · have hzero := (free_iff_forall_terms h).1 (hdef _ hnone) t ht
    exact (Monomial.mem_parameters_iff (h.2 t ht).1).1 (List.mem_map.2 ⟨f, hf, rfl⟩) hzero

end Polynomial

end MarkovElimination
