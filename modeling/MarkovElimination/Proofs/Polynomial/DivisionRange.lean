import MarkovElimination.Proofs.Polynomial.MonicGcd

/-! # Exact division stays in range

The degrees of two factors add up to those of their product, so **the divisors of a polynomial in
range are in range** (`InRange.of_dvd`). A division stays in range if in every step the degrees of
what is added to the quotient and of the divisor add up to at most those of the remainder: then no
remainder has a higher degree than the one before it (`divisionFits_of_forall_step`). While a
multiple of a polynomial is divided by it, what one step adds to the quotient is the leading term of
the quotient that is still missing, so **no step of an exact division leaves the range**
(`quotientFits_of_dvd`). With at most one parameter no step leaves it either, whether or not the
divisor divides (`quotientFits_of_length_le_one`). -/

namespace MarkovElimination.Polynomial

variable {p q d : Polynomial}

/-! ### Degrees of divisors -/

/-- The degrees of two factors add up. -/
theorem degreeIn_add_of_mul (hp : p.WellFormed) (hq : q.WellFormed) (hd : d.WellFormed)
    (hp₀ : p.toMv ≠ 0) (h : q.toMv * d.toMv = p.toMv) (x : Parameter) :
    q.degreeIn x + d.degreeIn x = p.degreeIn x := by
  rw [← h] at hp₀
  rw [degreeIn_eq_natDegree hp, degreeIn_eq_natDegree hq, degreeIn_eq_natDegree hd, ← h,
    natDegree_univariate_mul (left_ne_zero_of_mul hp₀) (right_ne_zero_of_mul hp₀)]

/-- An exponent is at most the exponent of its parameter in the whole product. -/
theorem exponent_le_exponentSum {fs : List Factor} {f : Factor} (h : f ∈ fs) :
    f.exponent ≤ Monomial.exponentSum fs f.parameter := by
  induction fs with
  | nil => cases h
  | cons g fs ih =>
    rw [Monomial.exponentSum_cons, Finsupp.add_apply]
    rcases List.mem_cons.1 h with rfl | h
    · rw [Finsupp.single_eq_same]
      exact Nat.le_add_right _ _
    · exact (ih h).trans (Nat.le_add_left _ _)

/-- **A polynomial is in range** exactly if its degrees are below the bound. -/
theorem inRange_iff (h : p.WellFormed) : p.InRange ↔ ∀ x, p.degreeIn x < degreeBound := by
  refine ⟨InRange.degreeIn_lt, fun hlt t ht f hf => ?_⟩
  calc f.exponent ≤ t.monomial.toFinsupp f.parameter := exponent_le_exponentSum hf
    _ = t.monomial.degreeIn f.parameter :=
      (Monomial.degreeIn_eq_toFinsupp (h.2 t ht).1 f.parameter).symm
    _ ≤ p.degreeIn f.parameter := degreeIn_le_iff.1 le_rfl t ht
    _ < degreeBound := hlt f.parameter

/-- **Divisors** of a polynomial in range are in range. -/
theorem InRange.of_dvd (hrange : p.InRange) (hp : p.WellFormed) (hd : d.WellFormed)
    (hp₀ : p.toMv ≠ 0) (hdvd : d.toMv ∣ p.toMv) : d.InRange := by
  obtain ⟨q, -, hq, hval⟩ := quotient?_spec hp hd (ne_zero_of_dvd_ne_zero hp₀ hdvd) hdvd
  refine (inRange_iff hd).2 fun x => ?_
  have hadd := degreeIn_add_of_mul hp hq hd hp₀ hval x
  have hlt := hrange.degreeIn_lt x
  omega

/-! ### Division -/

/-- **One step of a division**: the degrees of what is added to the quotient and of the divisor add
up to at most those of the remainder. -/
theorem degreeIn_step_le (hp : p.WellFormed) (hd : d.WellFormed) {t l : Term}
    (ht : p.leading? = some t) (hl : d.leading? = some l) (hdvd : d.toMv ∣ p.toMv) {m : Monomial}
    (hm : t.monomial.toFinsupp = l.monomial.toFinsupp + m.toFinsupp) (x : Parameter) :
    m.toFinsupp x + d.degreeIn x ≤ p.degreeIn x := by
  obtain ⟨-, htc, htcoeff, htmax⟩ := leading?_spec hp ht
  obtain ⟨-, hlc, hlcoeff, hlmax⟩ := leading?_spec hd hl
  rw [← htcoeff] at htc
  rw [← hlcoeff] at hlc
  have hp₀ : p.toMv ≠ 0 := ne_of_apply_ne (MvPolynomial.coeff t.monomial.toFinsupp) htc
  obtain ⟨q, -, hq, hval⟩ := quotient?_spec hp hd (ne_zero_of_dvd_ne_zero hp₀ hdvd) hdvd
  have hq₀ : q.toMv ≠ 0 := left_ne_zero_of_mul (hval.trans_ne hp₀)
  obtain ⟨u, hu⟩ := exists_leading? hq₀
  obtain ⟨hum, huc, hucoeff, humax⟩ := leading?_spec hq hu
  rw [← hucoeff] at huc
  -- the step finds the leading monomial of the quotient
  have hlead : m.toFinsupp = u.monomial.toFinsupp := by
    rw [← hval, mul_comm] at htc htmax
    rw [← add_eq_of_greatest hlc hlmax huc humax htc htmax] at hm
    exact (add_left_cancel hm).symm
  have hle : u.monomial.degreeIn x ≤ q.degreeIn x :=
    degreeIn_le_iff.1 le_rfl u (List.mem_of_mem_head? hu)
  rw [Monomial.degreeIn_eq_toFinsupp hum] at hle
  rw [hlead, ← degreeIn_add_of_mul hp hq hd hp₀ hval x]
  exact Nat.add_le_add_right hle _

/-- **A division stays in range** as long as in every step the degrees of what is added to the
quotient and of the divisor add up to at most those of the remainder. The remainders that occur are
those with a property `I` that every step keeps. -/
theorem divisionFits_of_forall_step {ps : List Parameter} {divisor remainder : Polynomial}
    {lead : Term} (hd : divisor.WellFormed) (hlead : divisor.leading? = some lead)
    (hdin : Within ps divisor.toMv) {I : Polynomial → Prop}
    (hstep : ∀ r t m, r.WellFormed → Within ps r.toMv → I r → r.leading? = some t →
      t.monomial.toFinsupp = lead.monomial.toFinsupp + m.toFinsupp →
      (∀ x ∈ ps, m.toFinsupp x + divisor.degreeIn x ≤ r.degreeIn x) ∧
        ∀ c, I (r - mulTerm ⟨m, c⟩ divisor))
    (hr : remainder.WellFormed) (hrin : Within ps remainder.toMv) (hI : I remainder)
    (hlt : ∀ x ∈ ps, remainder.degreeIn x < degreeBound) :
    divisionFits ps divisor lead remainder = true := by
  fun_induction divisionFits ps divisor lead remainder with
  | case1 => rfl
  | case2 => rfl
  | case3 remainder t ht m hm factor next _ ih =>
    obtain ⟨hmwf, hmsum, hnext⟩ := wellFormed_cancel hr hd ht hlead hm
    obtain ⟨hdeg, hkeep⟩ := hstep remainder t m hr hrin hI ht hmsum
    have hfactorin := within_factor hr hrin ht hmsum factor.coefficient
    have hfactor (x : Parameter) : (univariate x factor.toMv).natDegree ≤ m.toFinsupp x := by
      rw [Term.toMv, univariate_monomial]
      exact Polynomial.natDegree_monomial_le _
    rw [Bool.and_eq_true]
    constructor
    · refine mulFits_of_within (wellFormed_ofTerm hmwf) hd ?_ hdin fun x hx => ?_
      · rwa [toMv_ofTerm]
      · rw [degreeIn_eq_natDegree (wellFormed_ofTerm hmwf), toMv_ofTerm]
        have := hdeg x hx
        have := hfactor x
        have := hlt x hx
        omega
    · refine ih hnext (within_cancel hr hrin hdin ht hmsum factor.coefficient) (hkeep _)
        fun x hx => lt_of_le_of_lt ?_ (hlt x hx)
      -- the remainder does not gain degrees
      rw [degreeIn_eq_natDegree hnext, toMv_sub, toMv_mulTerm, map_sub, map_mul]
      refine (Polynomial.natDegree_sub_le _ _).trans (max_le ?_ ?_)
      · rw [degreeIn_eq_natDegree hr]
      · refine Polynomial.natDegree_mul_le.trans (le_trans ?_ (hdeg x hx))
        rw [degreeIn_eq_natDegree hd]
        exact Nat.add_le_add_right (hfactor x) _
  | case4 => rfl

/-- **Division of a multiple** stays in range. -/
theorem divisionFits_of_dvd {ps : List Parameter} {divisor remainder : Polynomial} {lead : Term}
    (hd : divisor.WellFormed) (hlead : divisor.leading? = some lead) (hr : remainder.WellFormed)
    (hdin : Within ps divisor.toMv) (hrin : Within ps remainder.toMv)
    (hdvd : divisor.toMv ∣ remainder.toMv) (hlt : ∀ x, remainder.degreeIn x < degreeBound) :
    divisionFits ps divisor lead remainder = true := by
  refine divisionFits_of_forall_step hd hlead hdin (I := fun r => divisor.toMv ∣ r.toMv)
    (fun r t m hr _ hdvd ht hmsum => ⟨fun x _ => ?_, fun c => ?_⟩) hr hrin hdvd fun x _ => hlt x
  · exact degreeIn_step_le hr hd ht hlead hdvd hmsum x
  · rw [toMv_sub, toMv_mulTerm]
    exact dvd_sub hdvd (dvd_mul_left _ _)

/-- With a single parameter the leading term has the highest power of it. -/
theorem degreeIn_eq_of_leading? {x : Parameter} (hp : p.WellFormed) (hin : Within [x] p.toMv)
    {t : Term} (ht : p.leading? = some t) : p.degreeIn x = t.monomial.toFinsupp x := by
  obtain ⟨htm, -, -, hmax⟩ := leading?_spec hp ht
  have hmem := List.mem_of_mem_head? ht
  refine le_antisymm (degreeIn_le_iff.2 fun u hu => ?_) ?_
  · rw [Monomial.degreeIn_eq_toFinsupp (hp.2 u hu).1]
    have hcoeff := (coeff_termSum_ne_zero_iff (wellFormed_iff.1 hp)).2 ⟨u, hu, rfl⟩
    rcases (hmax _ hcoeff).eq_or_lt with heq | hlt
    · exact (DFunLike.congr_fun (toLex.injective heq) x).le
    · -- the exponents can only differ at the one parameter
      obtain ⟨y, -, hy⟩ := Finsupp.Lex.lt_iff.1 hlt
      change u.monomial.toFinsupp y < t.monomial.toFinsupp y at hy
      obtain rfl : y = x := by
        by_contra hyx
        rw [(free_iff_forall_terms hp).1 (hin y (by simpa using hyx)) t hmem] at hy
        exact Nat.not_lt_zero _ hy
      exact hy.le
  · rw [← Monomial.degreeIn_eq_toFinsupp htm]
    exact degreeIn_le_iff.1 le_rfl t hmem

/-- **Division with at most one parameter** stays in range: the degree of what is added to the
quotient is the difference of the degrees of remainder and divisor. -/
theorem divisionFits_of_length_le_one {ps : List Parameter} {divisor remainder : Polynomial}
    {lead : Term} (hd : divisor.WellFormed) (hlead : divisor.leading? = some lead)
    (hr : remainder.WellFormed) (hdin : Within ps divisor.toMv) (hrin : Within ps remainder.toMv)
    (h : ps.length ≤ 1) (hlt : ∀ x, remainder.degreeIn x < degreeBound) :
    divisionFits ps divisor lead remainder = true := by
  refine divisionFits_of_forall_step hd hlead hdin (I := fun _ => True)
    (fun r t m hr hrin _ ht hmsum => ⟨fun x hx => ?_, fun _ => trivial⟩) hr hrin trivial
    fun x _ => hlt x
  obtain ⟨y, rfl⟩ := List.length_eq_one_iff.1 (le_antisymm h (List.length_pos_of_mem hx))
  obtain rfl := List.mem_singleton.1 hx
  rw [degreeIn_eq_of_leading? hr hrin ht, degreeIn_eq_of_leading? hd hdin hlead, hmsum,
    Finsupp.add_apply, Nat.add_comm]

/-- A polynomial is divided without leaving the range if its terms are cancelled without. -/
theorem quotientFits_of_divisionFits (h : ∀ lead, d.leading? = some lead →
    divisionFits (jointParameters p d) d lead p = true) : p.quotientFits d = true := by
  rw [quotientFits]
  split
  case h_1 => rfl
  case h_2 lead hlead => rw [h lead hlead, Bool.or_true]

theorem quotientFits_of_dvd (hp : p.WellFormed) (hrange : p.InRange) (hd : d.WellFormed)
    (hdvd : d.toMv ∣ p.toMv) : p.quotientFits d = true := by
  obtain ⟨hpin, hdin⟩ := within_jointParameters hp hd
  exact quotientFits_of_divisionFits fun lead hlead =>
    divisionFits_of_dvd hd hlead hp hdin hpin hdvd hrange.degreeIn_lt

theorem quotientFits_of_length_le_one (hp : p.WellFormed) (hrange : p.InRange) (hd : d.WellFormed)
    (h : (jointParameters p d).length ≤ 1) : p.quotientFits d = true := by
  obtain ⟨hpin, hdin⟩ := within_jointParameters hp hd
  exact quotientFits_of_divisionFits fun lead hlead =>
    divisionFits_of_length_le_one hd hlead hp hdin hpin h hrange.degreeIn_lt

end MarkovElimination.Polynomial
