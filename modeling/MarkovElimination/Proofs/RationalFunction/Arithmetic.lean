import MarkovElimination.Proofs.Polynomial.Range
import MarkovElimination.Proofs.RationalFunction.CanonicalForm

/-! # Checked arithmetic of fractions

A product is in range exactly if the degrees of its factors in every parameter add up to less than
the bound. From this follows what checked arithmetic does, in both directions. A fraction that
**presents** a quotient of two polynomials is that quotient up to a number in both parts; where the
degrees allow it, arithmetic succeeds and presents what it should (`Presents`). And whatever
arithmetic returns is in range again and has no parameters but those of its arguments (`Over`). -/

namespace MarkovElimination

open MvPolynomial (C X C_1 C_mul C_pow)

namespace RationalFunction

variable {r s : RationalFunction}

/-- The parts of a power are powers of the parts. -/
theorem pow_parts (hr : r.WellFormed) (k : ℕ) : (r.pow k).WellFormed ∧
    (r.pow k).numerator.toMv = r.numerator.toMv ^ k ∧
    (r.pow k).denominator.toMv = r.denominator.toMv ^ k := by
  induction k with
  | zero =>
    have hone : (1 : RationalFunction).WellFormed := by decide
    rw [pow_zero, pow_zero]
    exact ⟨hone, Polynomial.toMv_one, Polynomial.toMv_one⟩
  | succ k ih =>
    obtain ⟨hwf, hn, hd⟩ := ih
    have hn' : ((r.pow k).numerator * r.numerator).toMv = r.numerator.toMv ^ (k + 1) := by
      rw [Polynomial.toMv_mul hwf.1 hr.1, hn, pow_succ]
    have hd' : ((r.pow k).denominator * r.denominator).toMv = r.denominator.toMv ^ (k + 1) := by
      rw [Polynomial.toMv_mul hwf.2.1 hr.2.1, hd, pow_succ]
    refine ⟨wellFormed_of_parts (hwf.1.mul hr.1) (hwf.2.1.mul hr.2.1) ?_, hn', hd'⟩
    show ((r.pow k).denominator * r.denominator).toMv ≠ 0
    rw [hd']
    exact pow_ne_zero _ hr.toMv_denominator_ne_zero

theorem addFits_neg (r s : RationalFunction) : r.addFits (-s) = r.addFits s := by
  show (decide (r.denominator = s.denominator) || (decide (r.denominator = s.denominator) ||
    r.numerator.mulFits s.denominator && (-s.numerator).mulFits r.denominator) &&
      r.denominator.mulFits s.denominator) = _
  rw [Polynomial.neg_mulFits]
  rfl

/-- A simplification that does not return has left the range, with several parameters. -/
theorem checkedSimplify_meets (hwf : r.WellFormed) (hrange : r.InRange) :
    Meets (fun f => f = .degreeOverflow ∧ 2 ≤ r.parameters.length) (· = r.simplify)
      (Weight.checkedSimplify r) := by
  by_cases hlength : r.parameters.length ≤ 1
  · rw [Simplifiable.checkedSimplify_eq ⟨hwf, hrange, .inl hlength⟩]
    rfl
  · have hmeets : Meets (· = .degreeOverflow) (· = r.simplify) (Weight.checkedSimplify r) :=
      (Weight.returnsIf_checkedSimplify r).meets fun _ => rfl
    exact hmeets.weaken fun f hf => ⟨hf, by omega⟩

/-! ### Fractions over some parameters -/

/-- **A fraction over some parameters**: it has no others, and it is in range. -/
structure Over (S : Parameter → Prop) (r : RationalFunction) : Prop where
  numerator : r.numerator.Over S
  denominator : r.denominator.Over S
  denominator_ne_zero : r.denominator.toMv ≠ 0

namespace Over

variable {S : Parameter → Prop}

theorem wellFormed (h : r.Over S) : r.WellFormed :=
  wellFormed_of_parts h.numerator.wellFormed h.denominator.wellFormed h.denominator_ne_zero

theorem inRange (h : r.Over S) : r.InRange := ⟨h.numerator.inRange, h.denominator.inRange⟩

theorem of_polynomial {p : Polynomial} (h : p.Over S) : (ofPolynomial p).Over S := by
  refine ⟨h, Polynomial.over_const 1, ?_⟩
  show (1 : Polynomial).toMv ≠ 0
  rw [Polynomial.toMv_one]
  exact one_ne_zero

theorem neg (h : r.Over S) : (-r).Over S :=
  ⟨h.numerator.neg, h.denominator, h.denominator_ne_zero⟩

/-- A fraction of two products that fit. -/
theorem mul_mul {a b c d : Polynomial} (ha : a.Over S) (hb : b.Over S) (hc : c.Over S)
    (hd : d.Over S) (hc₀ : c.toMv ≠ 0) (hd₀ : d.toMv ≠ 0) (hab : a.mulFits b = true)
    (hcd : c.mulFits d = true) : Over S ⟨a * b, c * d⟩ := by
  refine ⟨ha.mul hb hab, hc.mul hd hcd, ?_⟩
  show (c * d).toMv ≠ 0
  rw [Polynomial.toMv_mul hc.wellFormed hd.wellFormed]
  exact mul_ne_zero hc₀ hd₀

theorem mul (hr : r.Over S) (hs : s.Over S) (hfits : r.mulFits s = true) : (r * s).Over S := by
  obtain ⟨hn, hd⟩ := Bool.and_eq_true_iff.1 hfits
  exact mul_mul hr.numerator hs.numerator hr.denominator hs.denominator hr.denominator_ne_zero
    hs.denominator_ne_zero hn hd

theorem quotient (hr : r.Over S) (hs : s.Over S) (hzero : s.isZero = false)
    (hfits : r.quotientFits s = true) : (r.quotient s).Over S := by
  have hs₀ : s.numerator.toMv ≠ 0 := by
    rw [Ne, ← Polynomial.isZero_iff hs.numerator.wellFormed]
    exact ne_true_of_eq_false hzero
  obtain ⟨hn, hd⟩ := Bool.and_eq_true_iff.1 hfits
  exact mul_mul hr.numerator hs.denominator hr.denominator hs.numerator hr.denominator_ne_zero hs₀
    hn hd

theorem add (hr : r.Over S) (hs : s.Over S) (hfits : r.addFits s = true) : (r + s).Over S := by
  show (RationalFunction.add r s).Over S
  rw [addFits, sameFits] at hfits
  rw [RationalFunction.add]
  split
  case isTrue heq =>
    exact ⟨hr.numerator.add hs.numerator, hr.denominator, hr.denominator_ne_zero⟩
  case isFalse hne =>
    simp only [decide_eq_false hne, Bool.false_or, Bool.and_eq_true] at hfits
    obtain ⟨⟨hrs, hsr⟩, hd⟩ := hfits
    refine ⟨(hr.numerator.mul hs.denominator hrs).add (hs.numerator.mul hr.denominator hsr),
      hr.denominator.mul hs.denominator hd, ?_⟩
    show (r.denominator * s.denominator).toMv ≠ 0
    rw [Polynomial.toMv_mul hr.denominator.wellFormed hs.denominator.wellFormed]
    exact mul_ne_zero hr.denominator_ne_zero hs.denominator_ne_zero

theorem sub (hr : r.Over S) (hs : s.Over S) (hfits : r.addFits s = true) : (r - s).Over S :=
  hr.add hs.neg ((addFits_neg r s).trans hfits)

theorem pow (hr : r.Over S) {k : ℕ}
    (hfits : (r.numerator.powFits k && r.denominator.powFits k) = true) : (r.pow k).Over S := by
  obtain ⟨hwf, hn, hd⟩ := pow_parts hr.wellFormed k
  obtain ⟨hnfits, hdfits⟩ := Bool.and_eq_true_iff.1 hfits
  exact ⟨hr.numerator.pow hnfits hwf.1 hn, hr.denominator.pow hdfits hwf.2.1 hd,
    hwf.toMv_denominator_ne_zero⟩

/-- The canonical form has no other parameters. -/
theorem simplify (hr : r.Over S) : r.simplify.Over S := by
  obtain ⟨hred, -⟩ := simplify_reduces hr.wellFormed
  by_cases hzero : r.numerator = 0
  · rw [simplify_of_numerator_eq_zero hzero]
    exact of_polynomial (Polynomial.over_const 0)
  · have hne := hr.numerator.wellFormed.eq_zero_iff.not.1 hzero
    exact ⟨hr.numerator.of_dvd hne hred.wellFormed.1 hred.dvd.1,
      hr.denominator.of_dvd hr.denominator_ne_zero hred.wellFormed.2.1 hred.dvd.2,
      hred.wellFormed.toMv_denominator_ne_zero⟩

end Over

/-! ### Fractions that present a quotient -/

/-- **The fraction is the quotient `n / d`**, up to a number in both parts. -/
structure Presents (r : RationalFunction) (n d : MvPolynomial Parameter ℚ) : Prop where
  wellFormed : r.WellFormed
  multiple : ∃ c : ℚ, c ≠ 0 ∧ r.numerator.toMv = C c * n ∧ r.denominator.toMv = C c * d

/-- A polynomial is itself over one. -/
theorem presents_ofPolynomial {p : Polynomial} (h : p.WellFormed) :
    Presents (ofPolynomial p) p.toMv 1 := by
  have hone : (1 : Polynomial).toMv ≠ 0 := by
    rw [Polynomial.toMv_one]
    exact one_ne_zero
  refine ⟨wellFormed_of_parts h Polynomial.wellFormed_one hone, 1, one_ne_zero, ?_, ?_⟩
  · rw [C_1, one_mul]
    rfl
  · rw [C_1, one_mul]
    exact Polynomial.toMv_one

theorem presents_const (c : ℚ) : Presents (const c) (C c) 1 := by
  have h := presents_ofPolynomial (Polynomial.wellFormed_const c)
  rwa [Polynomial.toMv_const] at h

theorem presents_ofParameter (x : Parameter) : Presents (ofParameter x) (X x) 1 := by
  have h := presents_ofPolynomial
    (Polynomial.wellFormed_ofTerm (t := ⟨.ofParameter x, 1⟩)
      (Monomial.wellFormed_ofParameter x))
  rw [Polynomial.toMv_ofTerm, Term.toMv, Monomial.toFinsupp_ofParameter] at h
  exact h

/-- A fraction presents its own parts. -/
theorem WellFormed.presents (h : r.WellFormed) : Presents r r.numerator.toMv r.denominator.toMv :=
  ⟨h, 1, one_ne_zero, by rw [C_1, one_mul], by rw [C_1, one_mul]⟩

namespace Presents

variable {n d n' d' : MvPolynomial Parameter ℚ}

theorem degreeIn_numerator (h : Presents r n d) (x : Parameter) :
    r.numerator.degreeIn x = degree x n := by
  obtain ⟨c, hc, hn, -⟩ := h.multiple
  rw [h.wellFormed.1.degreeIn_eq, hn, degree_C_mul hc]

theorem degreeIn_denominator (h : Presents r n d) (x : Parameter) :
    r.denominator.degreeIn x = degree x d := by
  obtain ⟨c, hc, -, hd⟩ := h.multiple
  rw [h.wellFormed.2.1.degreeIn_eq, hd, degree_C_mul hc]

theorem denominator_ne_zero (h : Presents r n d) : d ≠ 0 := by
  obtain ⟨c, -, -, hd⟩ := h.multiple
  have hne := h.wellFormed.toMv_denominator_ne_zero
  rw [hd] at hne
  exact right_ne_zero_of_mul hne

theorem neg (h : Presents r n d) : Presents (-r) (-n) d := by
  obtain ⟨c, hc, hn, hd⟩ := h.multiple
  refine ⟨⟨h.wellFormed.1.neg, h.wellFormed.2⟩, c, hc, ?_, hd⟩
  show (-r.numerator).toMv = _
  rw [Polynomial.toMv_neg, hn, mul_neg]

/-- A fraction of two products. -/
theorem mul_mul {p q p' q' : Polynomial} {a b : ℚ} (ha : a ≠ 0) (hb : b ≠ 0)
    (hp : p.WellFormed) (hq : q.WellFormed) (hp' : p'.WellFormed) (hq' : q'.WellFormed)
    (hpn : p.toMv = C a * n) (hqd : q.toMv = C a * d) (hpn' : p'.toMv = C b * n')
    (hqd' : q'.toMv = C b * d') (hd : d * d' ≠ 0) :
    Presents ⟨p * p', q * q'⟩ (n * n') (d * d') := by
  have hn : (p * p').toMv = C (a * b) * (n * n') := by
    rw [Polynomial.toMv_mul hp hp', hpn, hpn', C_mul]
    ring
  have hd' : (q * q').toMv = C (a * b) * (d * d') := by
    rw [Polynomial.toMv_mul hq hq', hqd, hqd', C_mul]
    ring
  refine ⟨wellFormed_of_parts (hp.mul hp') (hq.mul hq') ?_, a * b, mul_ne_zero ha hb, hn, hd'⟩
  show (q * q').toMv ≠ 0
  rw [hd']
  exact mul_ne_zero (MvPolynomial.C_ne_zero.2 (mul_ne_zero ha hb)) hd

theorem checkedMul (h : Presents r n d) (h' : Presents s n' d')
    (hn : ∀ x, degree x n + degree x n' < degreeBound)
    (hd : ∀ x, degree x d + degree x d' < degreeBound) :
    ∃ t, Weight.checkedMul r s = .ok t ∧ Presents t (n * n') (d * d') := by
  refine ⟨r * s,
    (Weight.returnsIf_checkedMul r s).eq_ok (Bool.and_eq_true_iff.2 ⟨?_, ?_⟩), ?_⟩
  · refine (Polynomial.mulFits_iff h.wellFormed.1 h'.wellFormed.1).2 fun x => ?_
    rw [h.degreeIn_numerator, h'.degreeIn_numerator]
    exact hn x
  · refine (Polynomial.mulFits_iff h.wellFormed.2.1 h'.wellFormed.2.1).2 fun x => ?_
    rw [h.degreeIn_denominator, h'.degreeIn_denominator]
    exact hd x
  · obtain ⟨a, ha, hrn, hrd⟩ := h.multiple
    obtain ⟨b, hb, hsn, hsd⟩ := h'.multiple
    exact mul_mul ha hb h.wellFormed.1 h.wellFormed.2.1 h'.wellFormed.1 h'.wellFormed.2.1 hrn hrd
      hsn hsd (mul_ne_zero h.denominator_ne_zero h'.denominator_ne_zero)

theorem checkedQuotient (h : Presents r n d) (h' : Presents s n' d') (hne : n' ≠ 0)
    (hn : ∀ x, degree x n + degree x d' < degreeBound)
    (hd : ∀ x, degree x d + degree x n' < degreeBound) :
    s.isZero = false ∧ ∃ t, r.checkedQuotient s = .ok t ∧ Presents t (n * d') (d * n') := by
  obtain ⟨a, ha, hrn, hrd⟩ := h.multiple
  obtain ⟨b, hb, hsn, hsd⟩ := h'.multiple
  refine ⟨?_, r.quotient s, ReturnsIf.eq_ok rfl (Bool.and_eq_true_iff.2 ⟨?_, ?_⟩), ?_⟩
  · rw [← Bool.not_eq_true, RationalFunction.isZero, Polynomial.isZero_iff h'.wellFormed.1, hsn]
    exact mul_ne_zero (MvPolynomial.C_ne_zero.2 hb) hne
  · refine (Polynomial.mulFits_iff h.wellFormed.1 h'.wellFormed.2.1).2 fun x => ?_
    rw [h.degreeIn_numerator, h'.degreeIn_denominator]
    exact hn x
  · refine (Polynomial.mulFits_iff h.wellFormed.2.1 h'.wellFormed.1).2 fun x => ?_
    rw [h.degreeIn_denominator, h'.degreeIn_numerator]
    exact hd x
  · exact mul_mul ha hb h.wellFormed.1 h.wellFormed.2.1 h'.wellFormed.2.1 h'.wellFormed.1 hrn hrd
      hsd hsn (mul_ne_zero h.denominator_ne_zero hne)

theorem checkedPow (h : Presents r n 1) {k : ℕ} (hn : ∀ x, degree x n * k < degreeBound) :
    ∃ t, r.checkedPow k = .ok t ∧ Presents t (n ^ k) 1 := by
  obtain ⟨hwf, hrn, hrd⟩ := pow_parts h.wellFormed k
  refine ⟨r.pow k, ReturnsIf.eq_ok rfl (Bool.and_eq_true_iff.2 ⟨?_, ?_⟩), hwf, ?_⟩
  · refine (Polynomial.powFits_iff h.wellFormed.1).2 fun x => ?_
    rw [h.degreeIn_numerator]
    exact hn x
  · refine (Polynomial.powFits_iff h.wellFormed.2.1).2 fun x => ?_
    rw [h.degreeIn_denominator, degree_one, Nat.zero_mul]
    decide
  · obtain ⟨c, hc, hcn, hcd⟩ := h.multiple
    refine ⟨c ^ k, pow_ne_zero k hc, ?_, ?_⟩
    · rw [hrn, hcn, mul_pow, C_pow]
    · rw [hrd, hcd, mul_one, mul_one, C_pow]

/-- A sum of two polynomials. -/
theorem add (h : Presents r n 1) (h' : Presents s n' 1) : Presents (r + s) (n + n') 1 := by
  obtain ⟨a, ha, hrn, hrd⟩ := h.multiple
  obtain ⟨b, hb, hsn, hsd⟩ := h'.multiple
  obtain ⟨hr, hr', -⟩ := h.wellFormed
  obtain ⟨hs, hs', -⟩ := h'.wellFormed
  show Presents (RationalFunction.add r s) (n + n') 1
  rw [RationalFunction.add]
  split
  case isTrue heq =>
    -- a common denominator is a common number
    have hab : C a * n' = s.numerator.toMv := by
      rw [hsn, ← mul_one (C a), ← hrd, heq, hsd, mul_one]
    refine ⟨⟨hr.add hs, h.wellFormed.2⟩, a, ha, ?_, hrd⟩
    rw [Polynomial.toMv_add, hrn, ← hab, mul_add]
  case isFalse =>
    have hd : (r.denominator * s.denominator).toMv = C (a * b) * 1 := by
      rw [Polynomial.toMv_mul hr' hs', hrd, hsd, C_mul]
      ring
    refine ⟨wellFormed_of_parts ((hr.mul hs').add (hs.mul hr')) (hr'.mul hs') ?_, a * b,
      mul_ne_zero ha hb, ?_, hd⟩
    · show (r.denominator * s.denominator).toMv ≠ 0
      rw [hd, mul_one]
      exact MvPolynomial.C_ne_zero.2 (mul_ne_zero ha hb)
    · show (r.numerator * s.denominator + s.numerator * r.denominator).toMv = _
      rw [Polynomial.toMv_add, Polynomial.toMv_mul hr hs', Polynomial.toMv_mul hs hr', hrn, hrd,
        hsn, hsd, C_mul]
      ring

/-- Sums of polynomials in range are in range. -/
theorem addFits (h : Presents r n 1) (h' : Presents s n' 1) (hn : ∀ x, degree x n < degreeBound)
    (hn' : ∀ x, degree x n' < degreeBound) : r.addFits s = true := by
  have hcross {t u : RationalFunction} {m m' : MvPolynomial Parameter ℚ} (ht : Presents t m 1)
      (hu : Presents u m' 1) (hm : ∀ x, degree x m < degreeBound) :
      t.numerator.mulFits u.denominator = true := by
    refine (Polynomial.mulFits_iff ht.wellFormed.1 hu.wellFormed.2.1).2 fun x => ?_
    rw [ht.degreeIn_numerator, hu.degreeIn_denominator, degree_one]
    exact hm x
  have hden : r.denominator.mulFits s.denominator = true := by
    refine (Polynomial.mulFits_iff h.wellFormed.2.1 h'.wellFormed.2.1).2 fun x => ?_
    rw [h.degreeIn_denominator, h'.degreeIn_denominator, degree_one]
    decide
  rw [RationalFunction.addFits, sameFits, hcross h h' hn, hcross h' h hn', hden]
  simp

theorem checkedAdd (h : Presents r n 1) (h' : Presents s n' 1)
    (hn : ∀ x, degree x n < degreeBound) (hn' : ∀ x, degree x n' < degreeBound) :
    ∃ t, Weight.checkedAdd r s = .ok t ∧ Presents t (n + n') 1 :=
  ⟨r + s, (Weight.returnsIf_checkedAdd r s).eq_ok (h.addFits h' hn hn'), h.add h'⟩

theorem checkedSub (h : Presents r n 1) (h' : Presents s n' 1)
    (hn : ∀ x, degree x n < degreeBound) (hn' : ∀ x, degree x n' < degreeBound) :
    ∃ t, Weight.checkedSub r s = .ok t ∧ Presents t (n - n') 1 := by
  rw [sub_eq_add_neg]
  exact ⟨r - s, ReturnsIf.eq_ok rfl (h.addFits h' hn hn'), h.add h'.neg⟩

/-- Fractions that present the same quotient have the same canonical form. -/
theorem simplify_eq (h : Presents r n d) (h' : Presents s n d) : r.simplify = s.simplify := by
  obtain ⟨a, -, hrn, hrd⟩ := h.multiple
  obtain ⟨b, -, hsn, hsd⟩ := h'.multiple
  refine simplify_eq_of_cross h.wellFormed h'.wellFormed ?_
  rw [hrn, hrd, hsn, hsd]
  ring

/-- Fractions that present the same quotient have the same parameters. -/
theorem parameters_eq (h : Presents r n d) (h' : Presents s n d) : r.parameters = s.parameters := by
  have hmem {t : RationalFunction} (ht : Presents t n d) (x : Parameter) :
      x ∈ t.parameters ↔ degree x n ≠ 0 ∨ degree x d ≠ 0 := by
    rw [parameters, Polynomial.mem_jointParameters_iff ht.wellFormed.1 ht.wellFormed.2.1,
      ← ht.degreeIn_numerator, ← ht.degreeIn_denominator, ht.wellFormed.1.degreeIn_eq,
      ht.wellFormed.2.1.degreeIn_eq]
    rfl
  have hsorted (t : RationalFunction) : t.parameters.Pairwise (· < ·) :=
    Polynomial.pairwise_jointParameters _ _
  exact (hsorted r).eq_of_mem_iff (hsorted s) fun x => by rw [hmem h, hmem h']

/-- Fractions that present the same quotient are in range together. -/
theorem inRange (h : Presents r n d) (h' : Presents s n d) (hs : s.InRange) : r.InRange := by
  refine ⟨(Polynomial.inRange_iff h.wellFormed.1).2 fun x => ?_,
    (Polynomial.inRange_iff h.wellFormed.2.1).2 fun x => ?_⟩
  · rw [h.degreeIn_numerator, ← h'.degreeIn_numerator]
    exact hs.1.degreeIn_lt x
  · rw [h.degreeIn_denominator, ← h'.degreeIn_denominator]
    exact hs.2.degreeIn_lt x

/-- The canonical form is compared like the fraction. -/
theorem simplify_same (h : Presents r n d) (hs : s.WellFormed) : r.simplify.same s = r.same s := by
  rw [Bool.eq_iff_iff, same_iff_simplify_eq (simplify_reduces h.wellFormed).1.wellFormed hs,
    same_iff_simplify_eq h.wellFormed hs, simplify_simplify h.wellFormed]

/-- A quotient of two numbers is a number. -/
theorem of_number {a b : ℚ} (h : Presents r (C a) (C b)) (hb : b ≠ 0) :
    Presents r (C (a / b)) 1 := by
  obtain ⟨c, hc, hn, hd⟩ := h.multiple
  refine ⟨h.wellFormed, c * b, mul_ne_zero hc hb, ?_, ?_⟩
  · rw [hn, ← C_mul, ← C_mul, mul_assoc, mul_div_cancel₀ _ hb]
  · rw [hd, C_mul, mul_one]

/-- The canonical form of a number is constant. -/
theorem constant?_simplify {c : ℚ} (h : Presents r (C c) 1) : r.simplify.constant? = some c := by
  have hwf := wellFormed_const c
  rw [constant?_eq_some_iff (simplify_reduces h.wellFormed).1.wellFormed, h.simplify_same hwf,
    same_iff_simplify_eq h.wellFormed hwf]
  exact h.simplify_eq (presents_const c)

end Presents

end RationalFunction

end MarkovElimination
