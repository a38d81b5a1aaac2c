import Mathlib.Algebra.MvPolynomial.CommRing
import Mathlib.RingTheory.Polynomial.UniqueFactorization
import MarkovElimination.Polynomial.Monomial

/-! # One parameter at a time

A polynomial in many parameters is read as a polynomial in **one parameter** `x`, with coefficients
that are free of `x`. Divisors of a polynomial free of `x` are free of `x`, and such a divisor
divides a polynomial exactly if it divides all its coefficients.

A polynomial is **primitive** in `x` if only units free of `x` divide it. Every polynomial is the
product of one free of `x` and a primitive one. The main statement is the lemma of Gauss: a
primitive polynomial that divides a multiple of `f` by a polynomial free of `x` divides `f`. -/

open scoped Polynomial

namespace MarkovElimination

section Univariate

variable {x : Parameter} {f g : MvPolynomial Parameter ℚ}

/-- **The univariate view**: `x` becomes the variable, the other parameters coefficients. -/
noncomputable def univariate (x : Parameter) :
    MvPolynomial Parameter ℚ →ₐ[ℚ] (MvPolynomial Parameter ℚ)[X] :=
  MvPolynomial.aeval fun y => if y = x then Polynomial.X else Polynomial.C (MvPolynomial.X y)

/-- The view of a single term. -/
theorem univariate_monomial (x : Parameter) (e : Parameter →₀ ℕ) (c : ℚ) :
    univariate x (MvPolynomial.monomial e c) =
      Polynomial.monomial (e x) (MvPolynomial.monomial (e.erase x) c) := by
  -- the other parameters go into the coefficient
  have hrest : (e.erase x).prod (fun y n =>
      (if y = x then Polynomial.X else Polynomial.C (MvPolynomial.X y) :
        (MvPolynomial Parameter ℚ)[X]) ^ n) =
      Polynomial.C ((e.erase x).prod fun y n => MvPolynomial.X y ^ n) := by
    rw [map_finsuppProd]
    refine Finsupp.prod_congr fun y hy => ?_
    rw [Finsupp.support_erase, Finset.mem_erase] at hy
    rw [if_neg hy.1, map_pow]
  rw [univariate, MvPolynomial.aeval_monomial, ← Finsupp.mul_prod_erase' e x _ fun _ =>
    pow_zero _,
    hrest, if_pos rfl, ← Polynomial.C_mul_X_pow_eq_monomial, MvPolynomial.monomial_eq, map_mul]
  simp only [Polynomial.algebraMap_apply, MvPolynomial.algebraMap_eq]
  ring

/-- Putting the parameter back for the variable gives the polynomial back. -/
@[simp] theorem eval_univariate (x : Parameter) (f : MvPolynomial Parameter ℚ) :
    (univariate x f).eval (MvPolynomial.X x) = f := by
  induction f using MvPolynomial.induction_on' with
  | monomial e c =>
    rw [univariate_monomial, Polynomial.eval_monomial, MvPolynomial.X_pow_eq_monomial,
      MvPolynomial.monomial_mul, mul_one, Finsupp.erase_add_single]
  | add f g hf hg => rw [map_add, Polynomial.eval_add, hf, hg]

theorem univariate_injective (x : Parameter) : Function.Injective (univariate x) :=
  Function.LeftInverse.injective (eval_univariate x)

@[simp] theorem univariate_eq_zero : univariate x f = 0 ↔ f = 0 :=
  map_eq_zero_iff _ (univariate_injective x)

/-! ### Polynomials free of a parameter -/

/-- The parameter does not occur in the polynomial. -/
def Free (x : Parameter) (f : MvPolynomial Parameter ℚ) : Prop := (univariate x f).natDegree = 0

/-- A free polynomial is its only coefficient. -/
theorem free_iff : Free x f ↔ univariate x f = Polynomial.C f := by
  refine ⟨fun h => ?_, fun h => by rw [Free, h, Polynomial.natDegree_C]⟩
  obtain ⟨c, hc⟩ := Polynomial.natDegree_eq_zero.1 h
  have hcf : c = f := by
    rw [← eval_univariate x f, ← hc, Polynomial.eval_C]
  rw [← hc, hcf]

theorem free_zero (x : Parameter) : Free x 0 := by
  rw [Free, map_zero, Polynomial.natDegree_zero]

theorem free_one (x : Parameter) : Free x 1 := by
  rw [Free, map_one, Polynomial.natDegree_one]

theorem Free.add (hf : Free x f) (hg : Free x g) : Free x (f + g) := by
  rw [free_iff] at *
  rw [map_add, hf, hg, Polynomial.C_add]

theorem Free.neg (hf : Free x f) : Free x (-f) := by
  rw [free_iff] at *
  rw [map_neg, hf, Polynomial.C_neg]

theorem Free.sub (hf : Free x f) (hg : Free x g) : Free x (f - g) := by
  rw [sub_eq_add_neg]
  exact hf.add hg.neg

theorem Free.mul (hf : Free x f) (hg : Free x g) : Free x (f * g) := by
  rw [free_iff] at *
  rw [map_mul, hf, hg, Polynomial.C_mul]

/-- The degrees in a parameter of a product add up. -/
theorem natDegree_univariate_mul (hf : f ≠ 0) (hg : g ≠ 0) :
    (univariate x (f * g)).natDegree = (univariate x f).natDegree + (univariate x g).natDegree := by
  rw [map_mul, Polynomial.natDegree_mul (univariate_eq_zero.not.2 hf) (univariate_eq_zero.not.2 hg)]

/-- **Divisors** of a free polynomial are free. -/
theorem Free.of_dvd (hf : Free x f) (hne : f ≠ 0) (h : g ∣ f) : Free x g := by
  obtain ⟨k, rfl⟩ := h
  have hdeg := natDegree_univariate_mul (x := x) (left_ne_zero_of_mul hne)
    (right_ne_zero_of_mul hne)
  rw [Free] at *
  omega

/-- Coefficients are free of the parameter. -/
theorem free_coeff (x : Parameter) (f : MvPolynomial Parameter ℚ) (i : ℕ) :
    Free x ((univariate x f).coeff i) := by
  induction f using MvPolynomial.induction_on' with
  | monomial e c =>
    rw [univariate_monomial, Polynomial.coeff_monomial]
    split
    · rw [Free, univariate_monomial, Finsupp.erase_same]
      exact Nat.le_zero.1 (Polynomial.natDegree_monomial_le _)
    · exact free_zero x
  | add f g hf hg =>
    rw [map_add, Polynomial.coeff_add]
    exact hf.add hg

/-- A free polynomial multiplies the coefficients. -/
theorem coeff_univariate_mul (hf : Free x f) (i : ℕ) :
    (univariate x (f * g)).coeff i = f * (univariate x g).coeff i := by
  rw [map_mul, free_iff.1 hf, Polynomial.coeff_C_mul]

/-- **A free polynomial divides another** exactly if it divides all coefficients. -/
theorem Free.dvd_iff_forall_coeff (hf : Free x f) :
    f ∣ g ↔ ∀ i, f ∣ (univariate x g).coeff i := by
  refine ⟨?_, fun h => ?_⟩
  · rintro ⟨k, rfl⟩ i
    rw [coeff_univariate_mul hf]
    exact dvd_mul_right _ _
  · rw [← eval_univariate x g, Polynomial.eval_eq_sum_range]
    exact Finset.dvd_sum fun i _ => (h i).mul_right _

/-- A term is free of the parameters that do not occur in it. -/
theorem free_monomial {e : Parameter →₀ ℕ} (h : e x = 0) (c : ℚ) :
    Free x (MvPolynomial.monomial e c) := by
  rw [Free, univariate_monomial, h]
  exact Nat.le_zero.1 (Polynomial.natDegree_monomial_le _)

/-- Only the listed parameters occur in the polynomial. -/
def Within (ps : List Parameter) (f : MvPolynomial Parameter ℚ) : Prop :=
  ∀ x, x ∉ ps → Free x f

theorem Within.of_dvd {ps : List Parameter} (hf : Within ps f) (hne : f ≠ 0) (h : g ∣ f) :
    Within ps g :=
  fun x hx => (hf x hx).of_dvd hne h

/-- A polynomial that is free of the first of the listed parameters has only the others. -/
theorem Within.tail {ps : List Parameter} (hf : Within (x :: ps) f) (hx : Free x f) :
    Within ps f := by
  intro y hy
  by_cases hyx : y = x
  · rwa [hyx]
  · exact hf y (by simp [hyx, hy])

/-! ### Primitive polynomials -/

/-- No polynomial free of `x` divides the polynomial, except for units. -/
def Primitive (x : Parameter) (f : MvPolynomial Parameter ℚ) : Prop :=
  ∀ d, Free x d → d ∣ f → IsUnit d

theorem Primitive.of_dvd (hf : Primitive x f) (h : g ∣ f) : Primitive x g :=
  fun d hd hdg => hf d hd (hdg.trans h)

/-- **The lemma of Gauss.** A primitive polynomial does not share factors with a free one. -/
theorem Primitive.dvd_of_dvd_mul (hg : Primitive x g) {c : MvPolynomial Parameter ℚ}
    (hc : Free x c) (hne : c ≠ 0) (h : g ∣ c * f) : g ∣ f := by
  induction c using UniqueFactorizationMonoid.induction_on_prime generalizing f with
  | h₁ => exact absurd rfl hne
  | h₂ u hu => exact (hu.dvd_mul_left).1 h
  | h₃ c p hc₀ hp ih =>
    -- the prime factor is free, so it cannot divide the primitive polynomial
    have hpfree : Free x p := hc.of_dvd hne (dvd_mul_right p c)
    have hcfree : Free x c := hc.of_dvd hne (dvd_mul_left c p)
    have hpg : ¬p ∣ g := fun hdvd => hp.not_isUnit (hg p hpfree hdvd)
    obtain ⟨k, hk⟩ := h
    have hpk : p ∣ k := by
      have hdvd : p ∣ g * k := ⟨c * f, by rw [← hk, mul_assoc]⟩
      exact (hp.dvd_or_dvd hdvd).resolve_left hpg
    obtain ⟨l, rfl⟩ := hpk
    refine ih hcfree hc₀ ⟨l, mul_left_cancel₀ hp.ne_zero ?_⟩
    rw [← mul_assoc, hk]
    ring

/-- A free polynomial that divides a multiple of a primitive one divides the other factor. -/
theorem Primitive.dvd_of_free_dvd_mul (hg : Primitive x g) {d : MvPolynomial Parameter ℚ}
    (hd : Free x d) (hne : d ≠ 0) (h : d ∣ f * g) : d ∣ f := by
  induction d using UniqueFactorizationMonoid.induction_on_prime generalizing f with
  | h₁ => exact absurd rfl hne
  | h₂ u hu => exact hu.dvd
  | h₃ d p hd₀ hp ih =>
    -- a prime factor of the free polynomial divides the other factor, where it can be taken out
    have hpfree : Free x p := hd.of_dvd hne (dvd_mul_right p d)
    have hpg : ¬p ∣ g := fun hdvd => hp.not_isUnit (hg p hpfree hdvd)
    have hpf : p ∣ f := (hp.dvd_or_dvd ((dvd_mul_right p d).trans h)).resolve_right hpg
    obtain ⟨k, rfl⟩ := hpf
    rw [mul_assoc] at h
    have hdk := ih (hd.of_dvd hne (dvd_mul_left d p)) hd₀ ((mul_dvd_mul_iff_left hp.ne_zero).1 h)
    exact mul_dvd_mul_left p hdk

theorem Primitive.ne_zero (hf : Primitive x f) : f ≠ 0 := by
  rintro rfl
  exact not_isUnit_zero (hf 0 (free_zero x) dvd_rfl)

/-- Every polynomial splits into a free and a primitive one. -/
theorem exists_eq_free_mul_primitive (x : Parameter) (hf : f ≠ 0) :
    ∃ c g, Free x c ∧ Primitive x g ∧ f = c * g := by
  have hwf := wellFounded_dvdNotUnit (α := MvPolynomial Parameter ℚ)
  induction f using hwf.induction with
  | h f ih =>
    by_cases hprim : Primitive x f
    · exact ⟨1, f, free_one x, hprim, (one_mul f).symm⟩
    · -- otherwise a free factor can be taken out
      rw [Primitive] at hprim
      push Not at hprim
      obtain ⟨d, hd, ⟨k, rfl⟩, hunit⟩ := hprim
      have hk : k ≠ 0 := right_ne_zero_of_mul hf
      obtain ⟨c, g, hc, hg, rfl⟩ := ih k ⟨hk, d, hunit, mul_comm d k⟩ hk
      exact ⟨d * c, g, hd.mul hc, hg, (mul_assoc d c g).symm⟩

end Univariate

/-! ### Greatest common divisors -/

section IsGcd

variable {x : Parameter} {a b c d g : MvPolynomial Parameter ℚ}

/-- The divisors of `g` are the common divisors of `a` and `b`. -/
def IsGcd (a b g : MvPolynomial Parameter ℚ) : Prop := ∀ d, d ∣ g ↔ d ∣ a ∧ d ∣ b

theorem IsGcd.dvd_left (h : IsGcd a b g) : g ∣ a := ((h g).1 dvd_rfl).1

theorem IsGcd.dvd_right (h : IsGcd a b g) : g ∣ b := ((h g).1 dvd_rfl).2

theorem IsGcd.symm (h : IsGcd a b g) : IsGcd b a g := fun d => (h d).trans and_comm

/-- A greatest common divisor may be replaced by a product with a unit. -/
theorem IsGcd.congr (h : IsGcd a b g) (hgd : Associated g d) : IsGcd a b d :=
  fun k => hgd.dvd_iff_dvd_right.symm.trans (h k)

theorem isGcd_zero_left (b : MvPolynomial Parameter ℚ) : IsGcd 0 b b :=
  fun d => ⟨fun h => ⟨dvd_zero d, h⟩, fun h => h.2⟩

/-- Next to a unit the greatest common divisor is one. -/
theorem isGcd_one_of_isUnit (b : MvPolynomial Parameter ℚ) (ha : IsUnit a) : IsGcd a b 1 := by
  refine fun d => ⟨fun h => ?_, fun h => ?_⟩
  · exact ⟨h.trans (one_dvd a), h.trans (one_dvd b)⟩
  · exact (isUnit_of_dvd_unit h.1 ha).dvd

/-- **A greatest common divisor is made up** of one of the free parts and one of the primitive
parts. -/
theorem IsGcd.mul {a' b' g' : MvPolynomial Parameter ℚ} (h : IsGcd a b g) (h' : IsGcd a' b' g')
    (ha : Free x a) (hb : Free x b) (ha₀ : a ≠ 0) (hb₀ : b ≠ 0) (ha' : Primitive x a')
    (hb' : Primitive x b') : IsGcd (a * a') (b * b') (g * g') := by
  refine fun d => ⟨fun hd => ?_, fun ⟨hda, hdb⟩ => ?_⟩
  · exact ⟨hd.trans (mul_dvd_mul h.dvd_left h'.dvd_left),
      hd.trans (mul_dvd_mul h.dvd_right h'.dvd_right)⟩
  · -- a common divisor splits in the same way
    have hd₀ : d ≠ 0 := ne_zero_of_dvd_ne_zero (mul_ne_zero ha₀ ha'.ne_zero) hda
    obtain ⟨c, k, hc, hk, rfl⟩ := exists_eq_free_mul_primitive x hd₀
    have hc₀ : c ≠ 0 := left_ne_zero_of_mul hd₀
    have hcg : c ∣ g := (h c).2
      ⟨ha'.dvd_of_free_dvd_mul hc hc₀ ((dvd_mul_right c k).trans hda),
        hb'.dvd_of_free_dvd_mul hc hc₀ ((dvd_mul_right c k).trans hdb)⟩
    have hkg : k ∣ g' := (h' k).2
      ⟨hk.dvd_of_dvd_mul ha ha₀ ((dvd_mul_left k c).trans hda),
        hk.dvd_of_dvd_mul hb hb₀ ((dvd_mul_left k c).trans hdb)⟩
    exact mul_dvd_mul hcg hkg

/-- Only the coefficients matter next to a free polynomial: `c` stands for the greatest common
divisor of the coefficients of `b`. -/
theorem IsGcd.of_forall_coeff (ha : Free x a) (ha₀ : a ≠ 0)
    (hc : ∀ d, d ∣ c ↔ ∀ i, d ∣ (univariate x b).coeff i) (h : IsGcd a c g) :
    IsGcd a b g := by
  intro d
  rw [h d]
  refine and_congr_right fun hda => ?_
  rw [hc d, (ha.of_dvd ha₀ hda).dvd_iff_forall_coeff]

end IsGcd

end MarkovElimination
