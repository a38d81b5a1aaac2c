import Mathlib.Algebra.MvPolynomial.Nilpotent
import MarkovElimination.Proofs.Polynomial.Ring

/-! # Canonical polynomials

A well-formed polynomial is **determined by its view** in the ring of polynomials: a term belongs to
it exactly if the view has that coefficient there (`Decreasing.mem_iff`), and two decreasing lists
of the same terms are equal (`toMv_injective`). Among the polynomials that differ by a unit, one is
**monic**, so that a property that fixes a polynomial up to a unit fixes its terms if it is to be
monic (`IsMonic.eq_of_associated`). -/

namespace MarkovElimination.Polynomial

/-! ### Terms and coefficients -/

/-- **The terms of a polynomial** are the coefficients of its view. -/
theorem Decreasing.mem_iff {ts : List Term} (h : Decreasing ts) {t : Term} :
    t ∈ ts ↔ t.monomial.WellFormed ∧ t.coefficient ≠ 0 ∧
      (termSum ts).coeff t.monomial.toFinsupp = t.coefficient := by
  constructor
  · intro ht
    exact ⟨(h.2 t ht).1, (h.2 t ht).2, coeff_termSum_of_mem h ht⟩
  · rintro ⟨hm, hc, hcoeff⟩
    rw [← hcoeff] at hc
    obtain ⟨u, hu, hexp⟩ := (coeff_termSum_ne_zero_iff h).1 hc
    have hmono : u.monomial = t.monomial := Monomial.toFinsupp_injective (h.2 u hu).1 hm hexp
    have hcoef : u.coefficient = t.coefficient := by
      rw [← hcoeff, ← hmono, coeff_termSum_of_mem h hu]
    obtain rfl : u = t := by
      cases u
      cases t
      simp_all
    exact hu

/-- No term is listed twice. -/
theorem Decreasing.nodup {ts : List Term} (h : Decreasing ts) : ts.Nodup := by
  refine h.1.imp fun {t u} hlt heq => ?_
  rw [heq] at hlt
  exact hlt.false

/-- **A well-formed polynomial is determined by its view.** -/
theorem toMv_injective {p q : Polynomial} (hp : p.WellFormed) (hq : q.WellFormed)
    (h : p.toMv = q.toMv) : p = q := by
  rw [wellFormed_iff] at hp hq
  have hperm : p.terms.Perm q.terms := by
    refine (List.perm_ext_iff_of_nodup hp.nodup hq.nodup).2 fun t => ?_
    rw [hp.mem_iff, hq.mem_iff]
    exact Iff.of_eq (congrArg (fun f : MvPolynomial Parameter ℚ => t.monomial.WellFormed ∧
      t.coefficient ≠ 0 ∧ f.coeff t.monomial.toFinsupp = t.coefficient) h)
  have hterms : p.terms = q.terms := by
    refine hperm.eq_of_pairwise (fun t u _ _ htu hut => ?_) hp.1 hq.1
    exact absurd (htu.trans hut) (lt_irrefl _)
  cases p
  cases q
  exact congrArg Polynomial.mk hterms

/-- The zero polynomial is the one whose view is zero. -/
theorem WellFormed.eq_zero_iff {p : Polynomial} (h : p.WellFormed) : p = 0 ↔ p.toMv = 0 := by
  constructor
  · rintro rfl
    exact toMv_zero
  · intro hzero
    exact toMv_injective h wellFormed_zero hzero

/-! ### Monic polynomials -/

/-- **A monic polynomial** has leading coefficient one; the zero polynomial counts as monic. -/
def IsMonic (p : Polynomial) : Prop := ∀ t ∈ p.leading?, t.coefficient = 1

instance (p : Polynomial) : Decidable p.IsMonic :=
  inferInstanceAs (Decidable (∀ t ∈ p.leading?, t.coefficient = 1))

theorem isMonic_zero : (0 : Polynomial).IsMonic := by decide

theorem isMonic_one : (1 : Polynomial).IsMonic := by decide

/-- The monic multiple is monic. -/
theorem isMonic_monic (p : Polynomial) : p.monic.IsMonic := by
  obtain ⟨ts⟩ := p
  cases ts with
  | nil => exact isMonic_zero
  | cons t ts =>
    show (scale t.coefficient⁻¹ ⟨t :: ts⟩).IsMonic
    unfold scale
    split
    case isTrue => exact isMonic_zero
    case isFalse hne =>
      intro u hu
      obtain rfl : ⟨t.monomial, t.coefficient * t.coefficient⁻¹⟩ = u := Option.some.inj hu
      exact mul_inv_cancel₀ (inv_eq_zero.not.1 hne)

/-- The leading coefficient of a multiple by a number. -/
theorem leading?_of_C_mul {p q : Polynomial} (hp : p.WellFormed) (hq : q.WellFormed) {c : ℚ}
    (hc : c ≠ 0) (h : q.toMv = MvPolynomial.C c * p.toMv) {t u : Term} (ht : p.leading? = some t)
    (hu : q.leading? = some u) : u.coefficient = c * t.coefficient := by
  obtain ⟨-, htc, htcoeff, htmax⟩ := leading?_spec hp ht
  obtain ⟨-, huc, hucoeff, humax⟩ := leading?_spec hq hu
  have hcoeff (e : Parameter →₀ ℕ) : q.toMv.coeff e = c * p.toMv.coeff e := by
    rw [h, MvPolynomial.coeff_C_mul]
  -- both polynomials have the same exponent vectors, so the greatest ones agree
  have hle : u.exponents ≤ t.exponents := by
    apply htmax
    intro hzero
    rw [hcoeff, hzero, mul_zero] at hucoeff
    exact huc hucoeff.symm
  have hge : t.exponents ≤ u.exponents := by
    apply humax
    rw [hcoeff, htcoeff]
    exact mul_ne_zero hc htc
  have hexp : u.monomial.toFinsupp = t.monomial.toFinsupp := toLex.injective (le_antisymm hle hge)
  rw [← hucoeff, hexp, hcoeff, htcoeff]

/-- **Monic polynomials that differ by a unit are equal.** -/
theorem IsMonic.eq_of_associated {p q : Polynomial} (hp : p.WellFormed) (hq : q.WellFormed)
    (hpm : p.IsMonic) (hqm : q.IsMonic) (h : Associated p.toMv q.toMv) : p = q := by
  by_cases hp₀ : p.toMv = 0
  · rw [hp.eq_zero_iff.2 hp₀, hq.eq_zero_iff.2 (h.eq_zero_iff.1 hp₀)]
  · obtain ⟨t, ht⟩ := exists_leading? hp₀
    obtain ⟨u, hu⟩ := exists_leading? (h.ne_zero_iff.1 hp₀)
    obtain ⟨unit, hunit⟩ := h
    -- the units of the ring are the constants other than zero
    obtain ⟨c, hc, hval⟩ := MvPolynomial.isUnit_iff_eq_C_of_isReduced.1 unit.isUnit
    have hmul : q.toMv = MvPolynomial.C c * p.toMv := by
      rw [← hunit, hval, mul_comm]
    have hlead := leading?_of_C_mul hp hq hc.ne_zero hmul ht hu
    rw [hpm t ht, hqm u hu, mul_one] at hlead
    rw [← hlead, MvPolynomial.C_1, one_mul] at hmul
    exact toMv_injective hp hq hmul.symm

end MarkovElimination.Polynomial
