import MarkovElimination.Proofs.Polynomial.DivisionRange

/-! # Degrees and the range of exponents

A product is in range exactly if the degrees of its factors in every parameter add up to less than
the bound (`mulFits_iff`), and a power exactly if the multiples of the degrees are (`powFits_iff`).
What is computed from polynomials in range stays in range, and it has no parameters but those of its
arguments (`Over`). -/

namespace MarkovElimination

open MvPolynomial (C C_0)

/-! ### Degrees -/

section Degree

variable {f g : MvPolynomial Parameter ℚ} {x : Parameter}

/-- The degree of a polynomial in a parameter. -/
noncomputable def degree (x : Parameter) (f : MvPolynomial Parameter ℚ) : ℕ :=
  (univariate x f).natDegree

theorem degree_mul_le : degree x (f * g) ≤ degree x f + degree x g := by
  rw [degree, map_mul]
  exact Polynomial.natDegree_mul_le

theorem degree_pow {k : ℕ} : degree x (f ^ k) = k * degree x f := by
  rw [degree, map_pow, Polynomial.natDegree_pow, degree]

theorem degree_add_le : degree x (f + g) ≤ max (degree x f) (degree x g) := by
  rw [degree, map_add]
  exact Polynomial.natDegree_add_le _ _

@[simp] theorem degree_neg : degree x (-f) = degree x f := by
  rw [degree, map_neg, Polynomial.natDegree_neg, degree]

@[simp] theorem degree_C (c : ℚ) : degree x (C c) = 0 := by
  rw [degree, ← MvPolynomial.algebraMap_eq, AlgHom.commutes]
  exact Polynomial.natDegree_C _

@[simp] theorem degree_one : degree x 1 = 0 := degree_C 1

@[simp] theorem degree_zero : degree x 0 = 0 := by
  rw [← C_0, degree_C]

/-- A factor that is a number does not change the degree. -/
theorem degree_C_mul {c : ℚ} (hc : c ≠ 0) : degree x (C c * f) = degree x f := by
  by_cases hf : f = 0
  · rw [hf, mul_zero]
  · have hC : (C c : MvPolynomial Parameter ℚ) ≠ 0 := MvPolynomial.C_ne_zero.2 hc
    rw [degree, natDegree_univariate_mul hC hf]
    exact (congrArg (· + degree x f) (degree_C c)).trans (Nat.zero_add _)

theorem degree_monomial {c : ℚ} (hc : c ≠ 0) (e : Parameter →₀ ℕ) :
    degree x (MvPolynomial.monomial e c) = e x := by
  rw [degree, univariate_monomial, Polynomial.natDegree_monomial,
    if_neg (MvPolynomial.monomial_eq_zero.not.2 hc)]

/-- A divisor has no greater degree. -/
theorem degree_le_of_dvd (hf : f ≠ 0) (h : g ∣ f) : degree x g ≤ degree x f := by
  obtain ⟨k, rfl⟩ := h
  rw [degree, degree, natDegree_univariate_mul (left_ne_zero_of_mul hf) (right_ne_zero_of_mul hf)]
  exact Nat.le_add_right _ _

end Degree

namespace Polynomial

variable {p q : Polynomial} {n : ℕ}

/-- The degree in a parameter is that of the view. -/
theorem WellFormed.degreeIn_eq (h : p.WellFormed) (x : Parameter) :
    p.degreeIn x = degree x p.toMv :=
  degreeIn_eq_natDegree h x

/-- A parameter that does not occur has degree zero. -/
theorem degreeIn_of_not_mem (h : p.WellFormed) {x : Parameter} (hx : x ∉ p.parameters) :
    p.degreeIn x = 0 := by
  rw [mem_parameters_iff h, not_not] at hx
  rw [degreeIn_eq_natDegree h]
  exact hx

/-- **A product is in range** exactly if all its degrees are. -/
theorem mulFits_iff (hp : p.WellFormed) (hq : q.WellFormed) :
    p.mulFits q = true ↔ ∀ x, p.degreeIn x + q.degreeIn x < degreeBound := by
  obtain ⟨hpin, hqin⟩ := within_jointParameters hp hq
  refine ⟨fun h x => ?_, fun h => mulFits_of_within hp hq hpin hqin fun x _ => h x⟩
  by_cases hx : x ∈ jointParameters p q
  · rw [mulFits, List.all_eq_true] at h
    exact of_decide_eq_true (h x hx)
  · have hp₀ : p.degreeIn x = 0 := (degreeIn_eq_natDegree hp x).trans (hpin x hx)
    have hq₀ : q.degreeIn x = 0 := (degreeIn_eq_natDegree hq x).trans (hqin x hx)
    rw [hp₀, hq₀]
    decide

/-- **A power is in range** exactly if all its degrees are. -/
theorem powFits_iff (hp : p.WellFormed) :
    p.powFits n = true ↔ ∀ x, p.degreeIn x * n < degreeBound := by
  rw [powFits, List.all_eq_true]
  refine ⟨fun h x => ?_, fun h x _ => decide_eq_true (h x)⟩
  by_cases hx : x ∈ p.parameters
  · exact of_decide_eq_true (h x hx)
  · rw [degreeIn_of_not_mem hp hx, Nat.zero_mul]
    decide

/-- The signs of the terms do not matter for the range. -/
theorem neg_mulFits (p q : Polynomial) : (-p).mulFits q = p.mulFits q := by
  have hparameters : (-p).parameters = p.parameters := by
    show ((p.terms.map _).flatMap _).foldr insertKey [] = _
    rw [List.flatMap_map, parameters]
  have hdegree (x : Parameter) : (-p).degreeIn x = p.degreeIn x := by
    show ((p.terms.map _).map _).foldl max 0 = _
    rw [List.map_map, degreeIn]
    rfl
  rw [mulFits, mulFits, jointParameters, jointParameters, hparameters]
  simp only [hdegree]

/-! ### Polynomials over some parameters -/

/-- **A polynomial over some parameters**: it has no others, and it is in range. -/
structure Over (S : Parameter → Prop) (p : Polynomial) : Prop where
  wellFormed : p.WellFormed
  degreeIn_lt : ∀ x, p.degreeIn x < degreeBound
  degreeIn_eq_zero : ∀ x, ¬S x → p.degreeIn x = 0

variable {S : Parameter → Prop}

theorem over_const (c : ℚ) : (const c).Over S := by
  have hdeg (x : Parameter) : (const c).degreeIn x = 0 := by
    rw [(wellFormed_const c).degreeIn_eq, toMv_const, degree_C]
  refine ⟨wellFormed_const c, fun x => ?_, fun x _ => hdeg x⟩
  rw [hdeg]
  decide

theorem over_ofParameter {x : Parameter} (hx : S x) : (ofParameter x).Over S := by
  have hwf : (ofParameter x).WellFormed := wellFormed_ofTerm (Monomial.wellFormed_ofParameter x)
  have hdeg (y : Parameter) : (ofParameter x).degreeIn y = Finsupp.single x 1 y := by
    rw [hwf.degreeIn_eq, ofParameter, toMv_ofTerm, Term.toMv, degree_monomial one_ne_zero,
      Monomial.toFinsupp_ofParameter]
  refine ⟨hwf, fun y => ?_, fun y hy => ?_⟩
  · rw [hdeg, Finsupp.single_apply]
    split <;> decide
  · rw [hdeg, Finsupp.single_apply, if_neg]
    rintro rfl
    exact hy hx

theorem Over.inRange (h : p.Over S) : p.InRange := (inRange_iff h.wellFormed).2 h.degreeIn_lt

/-- A polynomial over the parameters of a list has only those. -/
theorem Over.within {ps : List Parameter} (h : p.Over (· ∈ ps)) : Within ps p.toMv := fun x hx =>
  (degreeIn_eq_natDegree h.wellFormed x).symm.trans (h.degreeIn_eq_zero x hx)

theorem over_of_within {ps : List Parameter} (h : p.WellFormed) (hrange : p.InRange)
    (hin : Within ps p.toMv) : p.Over (· ∈ ps) :=
  ⟨h, hrange.degreeIn_lt, fun x hx => (degreeIn_eq_natDegree h x).trans (hin x hx)⟩

/-- A polynomial without the first of the listed parameters is one over the others. -/
theorem Over.tail {ps : List Parameter} {x : Parameter} (h : p.Over (· ∈ x :: ps))
    (hx : p.degreeIn x = 0) : p.Over (· ∈ ps) := by
  refine over_of_within h.wellFormed h.inRange (h.within.tail ?_)
  exact (degreeIn_eq_natDegree h.wellFormed x).symm.trans hx

/-- A term of a coefficient is a term of the polynomial without one factor. -/
theorem InRange.coefficientIn (h : p.InRange) (x : Parameter) (i : ℕ) :
    (p.coefficientIn x i).InRange := by
  intro t ht f hf
  obtain ⟨u, hu, rfl⟩ := List.mem_map.1 ht
  exact h u (List.mem_of_mem_filter hu) f (List.mem_of_mem_filter hf)

theorem Over.coefficientIn (h : p.Over S) (x : Parameter) (i : ℕ) :
    (p.coefficientIn x i).Over S := by
  have hwf := h.wellFormed.coefficientIn x i
  refine ⟨hwf, (h.inRange.coefficientIn x i).degreeIn_lt, fun y hy => ?_⟩
  rw [degreeIn_eq_natDegree hwf]
  refine free_coefficientIn h.wellFormed i ?_
  exact (degreeIn_eq_natDegree h.wellFormed y).symm.trans (h.degreeIn_eq_zero y hy)

theorem Over.neg (h : p.Over S) : (-p).Over S := by
  have hdeg (x : Parameter) : (-p).degreeIn x = p.degreeIn x := by
    rw [h.wellFormed.neg.degreeIn_eq, h.wellFormed.degreeIn_eq, toMv_neg, degree_neg]
  exact ⟨h.wellFormed.neg, fun x => hdeg x ▸ h.degreeIn_lt x,
    fun x hx => hdeg x ▸ h.degreeIn_eq_zero x hx⟩

theorem Over.add (hp : p.Over S) (hq : q.Over S) : (p + q).Over S := by
  have hwf := hp.wellFormed.add hq.wellFormed
  have hdeg (x : Parameter) : (p + q).degreeIn x ≤ max (p.degreeIn x) (q.degreeIn x) := by
    rw [hwf.degreeIn_eq, hp.wellFormed.degreeIn_eq, hq.wellFormed.degreeIn_eq, toMv_add]
    exact degree_add_le
  refine ⟨hwf, fun x => (hdeg x).trans_lt (max_lt (hp.degreeIn_lt x) (hq.degreeIn_lt x)),
    fun x hx => ?_⟩
  have hle := hdeg x
  rwa [hp.degreeIn_eq_zero x hx, hq.degreeIn_eq_zero x hx, max_self, Nat.le_zero] at hle

/-- A product that fits. -/
theorem Over.mul (hp : p.Over S) (hq : q.Over S) (hfits : p.mulFits q = true) : (p * q).Over S := by
  have hwf := hp.wellFormed.mul hq.wellFormed
  have hdeg (x : Parameter) : (p * q).degreeIn x ≤ p.degreeIn x + q.degreeIn x := by
    rw [hwf.degreeIn_eq, hp.wellFormed.degreeIn_eq, hq.wellFormed.degreeIn_eq,
      toMv_mul hp.wellFormed hq.wellFormed]
    exact degree_mul_le
  refine ⟨hwf, fun x => (hdeg x).trans_lt ((mulFits_iff hp.wellFormed hq.wellFormed).1 hfits x),
    fun x hx => ?_⟩
  have hle := hdeg x
  rwa [hp.degreeIn_eq_zero x hx, hq.degreeIn_eq_zero x hx, Nat.add_zero, Nat.le_zero] at hle

theorem Over.sub (hp : p.Over S) (hq : q.Over S) : (p - q).Over S := hp.add hq.neg

/-- A power that fits. -/
theorem Over.pow (hp : p.Over S) (hfits : p.powFits n = true) (hq : q.WellFormed)
    (h : q.toMv = p.toMv ^ n) : q.Over S := by
  have hdeg (x : Parameter) : q.degreeIn x ≤ p.degreeIn x * n := by
    rw [hq.degreeIn_eq, hp.wellFormed.degreeIn_eq, h, Nat.mul_comm, degree_pow]
  refine ⟨hq, fun x => (hdeg x).trans_lt ((powFits_iff hp.wellFormed).1 hfits x),
    fun x hx => ?_⟩
  have hle := hdeg x
  rwa [hp.degreeIn_eq_zero x hx, Nat.zero_mul, Nat.le_zero] at hle

/-- A divisor. -/
theorem Over.of_dvd (hp : p.Over S) (hne : p.toMv ≠ 0) (hq : q.WellFormed)
    (h : q.toMv ∣ p.toMv) : q.Over S := by
  have hdeg (x : Parameter) : q.degreeIn x ≤ p.degreeIn x := by
    rw [hq.degreeIn_eq, hp.wellFormed.degreeIn_eq]
    exact degree_le_of_dvd hne h
  refine ⟨hq, fun x => (hdeg x).trans_lt (hp.degreeIn_lt x), fun x hx => ?_⟩
  have hle := hdeg x
  rwa [hp.degreeIn_eq_zero x hx, Nat.le_zero] at hle

end Polynomial

end MarkovElimination
