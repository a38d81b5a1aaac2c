import MarkovElimination.Proofs.Polynomial.Checked

/-! # Polynomials represent the ring

A polynomial **represents** an element of the ring of polynomials if it is well formed, has its
exponents in range and adds up to the element. Every element is represented by at most one
polynomial, and arithmetic computes with what is represented. Of the operations of the ring only
products and powers can leave the range, and they do so exactly if the element they should represent
has an exponent that is out of range (`mulFits_iff_bounded`, `powFits_iff_bounded`). A greatest
common divisor is in range, but what is computed on the way to it need not be. -/

namespace MarkovElimination

open MvPolynomial (C X)

/-- All exponents of a polynomial are in range. -/
def Bounded (f : MvPolynomial Parameter ℚ) : Prop := ∀ e ∈ f.support, ∀ x, e x < degreeBound

namespace Polynomial

variable {p q : Polynomial} {f g : MvPolynomial Parameter ℚ}

/-- **The polynomial represents** an element of the ring: it is well formed and in range, and its
terms add up to the element. -/
structure Represents (p : Polynomial) (f : MvPolynomial Parameter ℚ) : Prop where
  wellFormed : p.WellFormed
  inRange : p.InRange
  toMv_eq : p.toMv = f

/-! ### The range of exponents -/

/-- The exponents of a polynomial are those of its view. -/
theorem inRange_iff_bounded (h : p.WellFormed) : p.InRange ↔ Bounded p.toMv := by
  have hmem (e : Parameter →₀ ℕ) :
      e ∈ p.toMv.support ↔ ∃ t ∈ p.terms, t.monomial.toFinsupp = e :=
    MvPolynomial.mem_support_iff.trans (coeff_termSum_ne_zero_iff (wellFormed_iff.1 h))
  constructor
  · intro hrange e he x
    obtain ⟨t, ht, rfl⟩ := (hmem e).1 he
    calc t.monomial.toFinsupp x = t.monomial.degreeIn x :=
        (Monomial.degreeIn_eq_toFinsupp (h.2 t ht).1 x).symm
      _ ≤ p.degreeIn x := degreeIn_le_iff.1 le_rfl t ht
      _ < degreeBound := hrange.degreeIn_lt x
  · intro hbounded t ht f hf
    calc f.exponent ≤ t.monomial.toFinsupp f.parameter := exponent_le_exponentSum hf
      _ < degreeBound := hbounded _ ((hmem _).2 ⟨t, ht, rfl⟩) _

theorem Represents.bounded (h : p.Represents f) : Bounded f := by
  rw [← h.toMv_eq]
  exact (inRange_iff_bounded h.wellFormed).1 h.inRange

/-- What is represented is over all parameters. -/
theorem Represents.over (h : p.Represents f) : p.Over fun _ => True :=
  ⟨h.wellFormed, h.inRange.degreeIn_lt, fun _ hx => absurd trivial hx⟩

theorem Represents.toMv_mul (hp : p.Represents f) (hq : q.Represents g) :
    (p * q).toMv = f * g := by
  rw [Polynomial.toMv_mul hp.wellFormed hq.wellFormed, hp.toMv_eq, hq.toMv_eq]

theorem Represents.toMv_pow (hp : p.Represents f) (n : ℕ) : (p.pow n).toMv = f ^ n := by
  rw [Polynomial.toMv_pow hp.wellFormed, hp.toMv_eq]

/-- **A product can be computed** exactly if its exponents are in range. -/
theorem mulFits_iff_bounded (hp : p.Represents f) (hq : q.Represents g) :
    p.mulFits q = true ↔ Bounded (f * g) := by
  have hwf := hp.wellFormed.mul hq.wellFormed
  have hval := hp.toMv_mul hq
  rw [← hval, ← inRange_iff_bounded hwf]
  refine ⟨fun hfits => (hp.over.mul hq.over hfits).inRange, fun hrange => ?_⟩
  refine (mulFits_iff hp.wellFormed hq.wellFormed).2 fun x => ?_
  by_cases hne : (p * q).toMv = 0
  · -- no product is formed if a factor is zero
    rw [hval, mul_eq_zero, ← hp.toMv_eq, ← hq.toMv_eq] at hne
    rw [hp.wellFormed.degreeIn_eq, hq.wellFormed.degreeIn_eq]
    rcases hne with hzero | hzero
    · rw [hzero, degree_zero, Nat.zero_add, ← hq.wellFormed.degreeIn_eq]
      exact hq.inRange.degreeIn_lt x
    · rw [hzero, degree_zero, Nat.add_zero, ← hp.wellFormed.degreeIn_eq]
      exact hp.inRange.degreeIn_lt x
  · rw [degreeIn_add_of_mul hwf hp.wellFormed hq.wellFormed hne
      (Polynomial.toMv_mul hp.wellFormed hq.wellFormed).symm x]
    exact hrange.degreeIn_lt x

/-- **A power can be computed** exactly if its exponents are in range. -/
theorem powFits_iff_bounded (hp : p.Represents f) (n : ℕ) :
    p.powFits n = true ↔ Bounded (f ^ n) := by
  have hwf := hp.wellFormed.pow n
  rw [← hp.toMv_pow n, ← inRange_iff_bounded hwf, inRange_iff hwf, powFits_iff hp.wellFormed]
  refine forall_congr' fun x => ?_
  rw [hwf.degreeIn_eq, Polynomial.toMv_pow hp.wellFormed, degree_pow, hp.wellFormed.degreeIn_eq,
    Nat.mul_comm]

/-! ### Arithmetic -/

namespace Represents

theorem const (c : ℚ) : (Polynomial.const c).Represents (C c) :=
  ⟨wellFormed_const c, (over_const c (S := fun _ => True)).inRange, toMv_const c⟩

theorem ofParameter (x : Parameter) : (Polynomial.ofParameter x).Represents (X x) := by
  have hover : (Polynomial.ofParameter x).Over fun _ => True := over_ofParameter trivial
  refine ⟨hover.wellFormed, hover.inRange, ?_⟩
  rw [Polynomial.ofParameter, toMv_ofTerm, Term.toMv, Monomial.toFinsupp_ofParameter]
  rfl

theorem add (hp : p.Represents f) (hq : q.Represents g) : (p + q).Represents (f + g) := by
  refine ⟨hp.wellFormed.add hq.wellFormed, (hp.over.add hq.over).inRange, ?_⟩
  rw [toMv_add, hp.toMv_eq, hq.toMv_eq]

theorem neg (hp : p.Represents f) : (-p).Represents (-f) := by
  refine ⟨hp.wellFormed.neg, hp.over.neg.inRange, ?_⟩
  rw [toMv_neg, hp.toMv_eq]

theorem sub (hp : p.Represents f) (hq : q.Represents g) : (p - q).Represents (f - g) := by
  rw [sub_eq_add_neg]
  exact hp.add hq.neg

/-- A divisor of something that is represented is in range. -/
theorem of_dvd (hp : p.Represents f) (hf : f ≠ 0) (hq : q.WellFormed) (h : q.toMv ∣ f) :
    q.Represents q.toMv := by
  rw [← hp.toMv_eq] at hf h
  exact ⟨hq, hp.inRange.of_dvd hp.wellFormed hq hf h, rfl⟩

theorem zero : (0 : Polynomial).Represents 0 := ⟨wellFormed_zero, by decide, toMv_zero⟩

/-- Only zero represents zero. -/
theorem eq_zero (hp : p.Represents 0) : p = 0 := hp.wellFormed.eq_zero_iff.2 hp.toMv_eq

theorem scale (hp : p.Represents f) (c : ℚ) : (p.scale c).Represents (C c * f) := by
  have hval : (p.scale c).toMv = C c * f := by
    rw [toMv_scale, hp.toMv_eq]
  refine ⟨hp.wellFormed.scale c, ?_, hval⟩
  refine (inRange_iff (hp.wellFormed.scale c)).2 fun x => ?_
  rw [(hp.wellFormed.scale c).degreeIn_eq, hval]
  by_cases hc : c = 0
  · rw [hc, MvPolynomial.C_0, zero_mul, degree_zero]
    decide
  · rw [degree_C_mul hc, ← hp.toMv_eq, ← hp.wellFormed.degreeIn_eq]
    exact hp.inRange.degreeIn_lt x

/-- The monic multiple. -/
theorem monic (hp : p.Represents f) : ∃ c : ℚ, c ≠ 0 ∧ p.monic.Represents (C c * f) := by
  rw [Polynomial.monic]
  split
  case h_1 hnone =>
    obtain rfl : f = 0 := by
      by_contra hf
      obtain ⟨t, ht⟩ := exists_leading? (hp.toMv_eq.trans_ne hf)
      rw [hnone] at ht
      cases ht
    refine ⟨1, one_ne_zero, ?_⟩
    rw [mul_zero]
    exact zero
  case h_2 t ht =>
    exact ⟨_, inv_ne_zero (leading?_spec hp.wellFormed ht).2.1, hp.scale _⟩

/-- **Polynomials are equal** exactly if they represent the same. -/
theorem eq_iff (hp : p.Represents f) (hq : q.Represents g) : p = q ↔ f = g := by
  rw [← hp.toMv_eq, ← hq.toMv_eq]
  exact ⟨congrArg toMv, toMv_injective hp.wellFormed hq.wellFormed⟩

theorem mul (hp : p.Represents f) (hq : q.Represents g) (h : Bounded (f * g)) :
    (p * q).Represents (f * g) :=
  ⟨hp.wellFormed.mul hq.wellFormed,
    (hp.over.mul hq.over ((mulFits_iff_bounded hp hq).2 h)).inRange, hp.toMv_mul hq⟩

theorem pow (hp : p.Represents f) {n : ℕ} (h : Bounded (f ^ n)) :
    (p.pow n).Represents (f ^ n) := by
  have hwf := hp.wellFormed.pow n
  have hfits := (powFits_iff_bounded hp n).2 h
  exact ⟨hwf, (hp.over.pow hfits hwf (Polynomial.toMv_pow hp.wellFormed n)).inRange,
    hp.toMv_pow n⟩

/-- A checked operation that stays in range exactly if its result does returns what represents the
result. -/
theorem checked_eq_ok_iff {fits : Bool} {r : Polynomial} (hfits : fits = true ↔ Bounded f)
    (hp : Bounded f → p.Represents f) :
    (if fits then pure p else throw .degreeOverflow : Except Fault Polynomial) = .ok r ↔
      r.Represents f := by
  constructor
  · intro hrun
    split at hrun
    case isTrue h =>
      obtain rfl := Except.ok.inj hrun
      exact hp (hfits.1 h)
    case isFalse => cases hrun
  · intro hr
    obtain rfl : p = r := ((hp hr.bounded).eq_iff hr).2 rfl
    rw [if_pos (hfits.2 hr.bounded)]
    rfl

/-- **What multiplication returns** is what represents the product. -/
theorem checkedMul_eq_ok_iff (hp : p.Represents f) (hq : q.Represents g) {r : Polynomial} :
    p.checkedMul q = .ok r ↔ r.Represents (f * g) :=
  checked_eq_ok_iff (mulFits_iff_bounded hp hq) (hp.mul hq)

/-- **What exponentiation returns** is what represents the power. -/
theorem checkedPow_eq_ok_iff (hp : p.Represents f) {n : ℕ} {r : Polynomial} :
    p.checkedPow n = .ok r ↔ r.Represents (f ^ n) :=
  checked_eq_ok_iff (powFits_iff_bounded hp n) hp.pow

/-- **The coefficients** of the powers of a parameter represent polynomials in the other parameters,
from which the whole is put together. -/
theorem coefficientIn (hp : p.Represents f) (x : Parameter) :
    ∃ c : ℕ → MvPolynomial Parameter ℚ, (∀ i, (p.coefficientIn x i).Represents (c i)) ∧
      (∀ i, Free x (c i)) ∧ f = ∑ i ∈ Finset.range (p.degreeIn x + 1), c i * X x ^ i := by
  have hval (i : ℕ) : (p.coefficientIn x i).toMv = (univariate x f).coeff i := by
    rw [toMv_coefficientIn hp.wellFormed, hp.toMv_eq]
  refine ⟨(univariate x f).coeff, fun i => ?_, free_coeff x f, ?_⟩
  · exact ⟨hp.wellFormed.coefficientIn x i, hp.inRange.coefficientIn x i, hval i⟩
  · simp only [← hval, ← toMv_eq_sum_coefficientIn hp.wellFormed, hp.toMv_eq]

/-- The greatest common divisor is in range. -/
theorem gcd (hp : p.Represents f) (hq : q.Represents g) :
    ∃ h, IsGcd f g h ∧ (p.gcd q).Represents h := by
  obtain ⟨hwf, hgcd⟩ := gcd_isGcd hp.wellFormed hq.wellFormed
  rw [hp.toMv_eq, hq.toMv_eq] at hgcd
  refine ⟨_, hgcd, ?_⟩
  by_cases hf : f = 0
  · by_cases hg : g = 0
    · subst hf hg
      have hzero := (gcd_eq_zero_iff hp.wellFormed hq.wellFormed).2 ⟨hp.eq_zero, hq.eq_zero⟩
      rw [hzero]
      exact zero
    · exact hq.of_dvd hg hwf hgcd.dvd_right
  · exact hp.of_dvd hf hwf hgcd.dvd_left

/-- With at most one parameter, and otherwise as long as the exponents stay in range, the monic
greatest common divisor is returned. -/
theorem checkedGcd (hp : p.Represents f) (hq : q.Represents g) :
    ((jointParameters p q).length ≤ 1 ∨ p.gcdFits q = true →
      ∃ r, p.checkedGcd q = .ok r) ∧
      ∀ r, p.checkedGcd q = .ok r → r.IsMonic ∧ ∃ h, IsGcd f g h ∧ r.Represents h := by
  have hreturns := returnsIf_checkedGcd hp.wellFormed hq.wellFormed hp.inRange hq.inRange
  constructor
  · intro hfits
    have hrun : p.gcdFits q = true := hfits.elim
      (gcdFits_of_length_le_one hp.wellFormed hq.wellFormed hp.inRange hq.inRange) id
    exact ⟨p.gcd q, hreturns.eq_ok hrun⟩
  · intro r hrun
    obtain ⟨-, rfl⟩ := hreturns.eq_of_eq_ok hrun
    exact ⟨isMonic_gcd p q, hp.gcd hq⟩

end Represents

/-- **Arithmetic computes in the ring of polynomials.** Constants and parameters represent
themselves, and every operation on what represents two elements of the ring returns what represents
its result there; a product or a power is returned exactly if its exponents are in range. The
coefficients of the powers of a parameter represent polynomials without the parameter, from which
the element is put together. Two polynomials are equal exactly if they represent the same
element. -/
theorem arithmetic_represents :
    (∀ c, (const c).Represents (C c)) ∧ (∀ x, (ofParameter x).Represents (X x)) ∧
    ∀ p q f g, p.Represents f → q.Represents g →
      (p + q).Represents (f + g) ∧ (p - q).Represents (f - g) ∧ (-p).Represents (-f) ∧
      (∀ c, (p.scale c).Represents (C c * f)) ∧
      (p.monic.IsMonic ∧ ∃ c : ℚ, c ≠ 0 ∧ p.monic.Represents (C c * f)) ∧
      ((Bounded (f * g) → ∃ r, p.checkedMul q = .ok r) ∧
        ∀ r, p.checkedMul q = .ok r ↔ r.Represents (f * g)) ∧
      (∀ n, (Bounded (f ^ n) → ∃ r, p.checkedPow n = .ok r) ∧
        ∀ r, p.checkedPow n = .ok r ↔ r.Represents (f ^ n)) ∧
      (∀ x, (p.coefficientsIn x = ((List.range (p.degreeIn x + 1)).map fun i =>
          p.coefficientIn x i).filter fun c => !c.isZero) ∧
        ∃ c : ℕ → MvPolynomial Parameter ℚ,
        (∀ i, (p.coefficientIn x i).Represents (c i)) ∧
          (∀ i, Free x (c i)) ∧ f = ∑ i ∈ Finset.range
          (p.degreeIn x + 1), c i * X x ^ i) ∧
      (((jointParameters p q).length ≤ 1 ∨ p.gcdFits q = true →
        ∃ r, p.checkedGcd q = .ok r) ∧
        ∀ r, p.checkedGcd q = .ok r → r.IsMonic ∧ ∃ h, IsGcd f g h ∧ r.Represents h) ∧
      (p = q ↔ f = g) := by
  refine ⟨Represents.const, Represents.ofParameter, fun p q f g hp hq => ?_⟩
  have hmul (r : Polynomial) := hp.checkedMul_eq_ok_iff hq (r := r)
  have hpow (n : ℕ) (r : Polynomial) := hp.checkedPow_eq_ok_iff (n := n) (r := r)
  refine ⟨hp.add hq, hp.sub hq, hp.neg, hp.scale, ⟨isMonic_monic p, hp.monic⟩,
    ⟨fun h => ?_, hmul⟩,
    fun n => ⟨fun h => ?_, hpow n⟩, fun x =>
      ⟨coefficientsIn_eq_filter p x, hp.coefficientIn x⟩,
    hp.checkedGcd hq, hp.eq_iff hq⟩
  · exact ⟨p * q, (hmul _).2 (hp.mul hq h)⟩
  · exact ⟨p.pow n, (hpow n _).2 (hp.pow h)⟩

theorem arithmetic_represents_squares :
    (ofParameter "p" + ofParameter "q").Represents (X "p" + X "q") ∧
      (ofParameter "p" - ofParameter "q").Represents (X "p" - X "q") ∧
      Polynomial.Represents ⟨[⟨⟨[⟨"p", 2⟩]⟩, 1⟩, ⟨⟨[⟨"q", 2⟩]⟩, -1⟩]⟩
      (X "p" ^ 2 - X "q" ^ 2) := by
  obtain ⟨-, hparameter, hrun⟩ := arithmetic_represents
  obtain ⟨hadd, hsub, -⟩ := hrun _ _ _ _ (hparameter "p") (hparameter "q")
  obtain ⟨-, -, -, -, -, hmul, -⟩ := hrun _ _ _ _ hadd hsub
  refine ⟨hadd, hsub, ?_⟩
  rw [sq_sub_sq, ← hmul.2]
  cbv

end Polynomial

end MarkovElimination
