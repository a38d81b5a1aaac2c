import MarkovElimination.Proofs.Polynomial.MonicGcd
import MarkovElimination.Proofs.Weight.Interpretation
import MarkovElimination.RationalFunction.Weight

/-! # Images of rational functions

A homomorphism from polynomials to a field gives a fraction an **image** if it does not make the
denominator zero, and arithmetic computes with images (`Interpretation.ofHom`). Simplification
divides both parts by a common factor (`simplify_reduces`), which no image notices. What is left is
**canonical**: the parts have no common factor and the denominator is monic, so fractions with the
same image in the field of fractions have the same canonical form (`simplify_eq_of_cross`). In that
field rational functions are interpreted *exactly* (`exact_field`). -/

namespace MarkovElimination

namespace RationalFunction

variable {r s : RationalFunction}

instance (r : RationalFunction) : Decidable r.WellFormed := inferInstanceAs (Decidable (_ ∧ _))

/-- The denominator of a well-formed fraction is not zero. -/
theorem WellFormed.toMv_denominator_ne_zero (h : r.WellFormed) : r.denominator.toMv ≠ 0 :=
  h.2.1.eq_zero_iff.not.1 h.2.2

/-- A fraction of well-formed polynomials. -/
theorem wellFormed_of_parts (hn : r.numerator.WellFormed) (hd : r.denominator.WellFormed)
    (hne : r.denominator.toMv ≠ 0) : r.WellFormed :=
  ⟨hn, hd, hd.eq_zero_iff.not.2 hne⟩

/-! ### Simplification -/

/-- **Reducing a fraction**: both parts are divided by a common factor. -/
structure Reduces (r s : RationalFunction) : Prop where
  wellFormed : s.WellFormed
  factor : ∃ c, s.numerator.toMv * c = r.numerator.toMv ∧
    s.denominator.toMv * c = r.denominator.toMv

theorem Reduces.refl (h : r.WellFormed) : r.Reduces r := ⟨h, 1, mul_one _, mul_one _⟩

theorem Reduces.trans {t : RationalFunction} (h : r.Reduces s) (h' : s.Reduces t) :
    r.Reduces t := by
  obtain ⟨c, hn, hd⟩ := h.factor
  obtain ⟨d, hn', hd'⟩ := h'.factor
  refine ⟨h'.wellFormed, d * c, ?_, ?_⟩
  · rw [← mul_assoc, hn', hn]
  · rw [← mul_assoc, hd', hd]

/-- Reducing brings in no common factors. -/
theorem Reduces.isRelPrime (h : r.Reduces s)
    (hr : IsRelPrime r.numerator.toMv r.denominator.toMv) :
    IsRelPrime s.numerator.toMv s.denominator.toMv := by
  obtain ⟨c, hn, hd⟩ := h.factor
  intro d hdn hdd
  refine hr ?_ ?_
  · rw [← hn]
    exact hdn.mul_right c
  · rw [← hd]
    exact hdd.mul_right c

/-- The parts divided by a greatest common divisor have no common factor. -/
theorem isRelPrime_of_isGcd {a b g n d : MvPolynomial Parameter ℚ} (h : IsGcd a b g)
    (hg : g ≠ 0) (hn : n * g = a) (hd : d * g = b) : IsRelPrime n d := by
  intro e hen hed
  have hdvd : e * g ∣ g := by
    refine (h _).2 ⟨?_, ?_⟩
    · rw [← hn]
      exact mul_dvd_mul_right hen g
    · rw [← hd]
      exact mul_dvd_mul_right hed g
  refine isUnit_of_dvd_one ((mul_dvd_mul_iff_right hg).1 ?_)
  rwa [one_mul]

/-- **Both divisions of a cancellation** have a quotient. -/
theorem exists_quotient?_gcd (hr : r.WellFormed) :
    ∃ n d, r.numerator.quotient? (r.numerator.gcd r.denominator) = some n ∧
      r.denominator.quotient? (r.numerator.gcd r.denominator) = some d ∧
      n.WellFormed ∧ d.WellFormed ∧
      n.toMv * (r.numerator.gcd r.denominator).toMv = r.numerator.toMv ∧
      d.toMv * (r.numerator.gcd r.denominator).toMv = r.denominator.toMv := by
  obtain ⟨hwf, hgcd⟩ := Polynomial.gcd_isGcd hr.1 hr.2.1
  -- a divisor of the denominator is not zero
  have hne := ne_zero_of_dvd_ne_zero hr.toMv_denominator_ne_zero hgcd.dvd_right
  obtain ⟨n, hn, hnwf, hnval⟩ := Polynomial.quotient?_spec hr.1 hwf hne hgcd.dvd_left
  obtain ⟨d, hd, hdwf, hdval⟩ := Polynomial.quotient?_spec hr.2.1 hwf hne hgcd.dvd_right
  exact ⟨n, d, hn, hd, hnwf, hdwf, hnval, hdval⟩

/-- **Cancelling the greatest common divisor** leaves parts without a common factor. -/
theorem cancel_reduces (hr : r.WellFormed) : r.Reduces r.cancel ∧
    IsRelPrime r.cancel.numerator.toMv r.cancel.denominator.toMv := by
  have hden := hr.toMv_denominator_ne_zero
  unfold RationalFunction.cancel
  split
  case isTrue hconst =>
    exact ⟨.refl hr, (Polynomial.isUnit_of_isConstant hconst hden).isRelPrime_right⟩
  case isFalse =>
    obtain ⟨hwf, hgcd⟩ := Polynomial.gcd_isGcd hr.1 hr.2.1
    have hne := ne_zero_of_dvd_ne_zero hden hgcd.dvd_right
    dsimp only
    split
    case isTrue hone =>
      refine ⟨.refl hr, fun d hdn hdd => ?_⟩
      have hdvd := (hgcd d).2 ⟨hdn, hdd⟩
      rw [Polynomial.toMv_of_constant? (eq_of_beq hone), MvPolynomial.C_1] at hdvd
      exact isUnit_of_dvd_one hdvd
    case isFalse =>
      obtain ⟨n, d, hn, hd, hnwf, hdwf, hnval, hdval⟩ := exists_quotient?_gcd hr
      rw [hn, hd, Option.getD_some, Option.getD_some]
      refine ⟨⟨wellFormed_of_parts hnwf hdwf ?_, _, hnval, hdval⟩,
        isRelPrime_of_isGcd hgcd hne hnval hdval⟩
      rw [← hdval] at hden
      exact left_ne_zero_of_mul hden

/-- Scaling makes the denominator monic. -/
theorem normalize_reduces (hr : r.WellFormed) :
    r.Reduces r.normalize ∧ r.normalize.denominator.IsMonic := by
  obtain ⟨t, ht⟩ := Polynomial.exists_leading? hr.toMv_denominator_ne_zero
  have hc := (Polynomial.leading?_spec hr.2.1 ht).2.1
  have hscale (p : Polynomial) :
      (p.scale t.coefficient⁻¹).toMv * MvPolynomial.C t.coefficient = p.toMv := by
    rw [Polynomial.toMv_scale, mul_right_comm, ← MvPolynomial.C_mul, inv_mul_cancel₀ hc,
      MvPolynomial.C_1, one_mul]
  have hmonic : (r.denominator.scale t.coefficient⁻¹).IsMonic := by
    have h := Polynomial.isMonic_monic r.denominator
    rwa [Polynomial.monic, ht] at h
  have hne : (r.denominator.scale t.coefficient⁻¹).toMv ≠ 0 := by
    have h := hr.toMv_denominator_ne_zero
    rw [← hscale] at h
    exact left_ne_zero_of_mul h
  rw [RationalFunction.normalize, ht]
  exact ⟨⟨wellFormed_of_parts (hr.1.scale _) (hr.2.1.scale _) hne, _, hscale _, hscale _⟩,
    hmonic⟩

/-- **Simplification** divides both parts by a common factor. No other is left, and the denominator
is monic. -/
theorem simplify_reduces (hr : r.WellFormed) : r.Reduces r.simplify ∧
    IsRelPrime r.simplify.numerator.toMv r.simplify.denominator.toMv ∧
    r.simplify.denominator.IsMonic := by
  unfold RationalFunction.simplify
  split
  case isTrue hzero =>
    have hnum : r.numerator.toMv = 0 := (Polynomial.isZero_iff hr.1).1 hzero
    refine ⟨⟨by decide, r.denominator.toMv, ?_, ?_⟩, ?_, Polynomial.isMonic_one⟩
    · rw [hnum]
      exact zero_mul _
    · show (1 : Polynomial).toMv * _ = _
      rw [Polynomial.toMv_one, one_mul]
    · show IsRelPrime _ (1 : Polynomial).toMv
      rw [Polynomial.toMv_one]
      exact isRelPrime_one_right
  case isFalse =>
    obtain ⟨hcancel, hprime⟩ := cancel_reduces hr
    obtain ⟨hnorm, hmonic⟩ := normalize_reduces hcancel.wellFormed
    exact ⟨hcancel.trans hnorm, hnorm.isRelPrime hprime, hmonic⟩

/-- **The canonical form** of a fraction is determined by its cross products. -/
theorem simplify_eq_of_cross (hr : r.WellFormed) (hs : s.WellFormed)
    (h : r.numerator.toMv * s.denominator.toMv = s.numerator.toMv * r.denominator.toMv) :
    r.simplify = s.simplify := by
  obtain ⟨hred, hprime, hmonic⟩ := simplify_reduces hr
  obtain ⟨hred', hprime', hmonic'⟩ := simplify_reduces hs
  have hden := hr.toMv_denominator_ne_zero
  have hden' := hs.toMv_denominator_ne_zero
  obtain ⟨c, hn, hd⟩ := hred.factor
  obtain ⟨c', hn', hd'⟩ := hred'.factor
  set n := r.simplify.numerator.toMv
  set d := r.simplify.denominator.toMv
  set n' := s.simplify.numerator.toMv
  set d' := s.simplify.denominator.toMv
  rw [← hd] at hden
  rw [← hd'] at hden'
  -- the common factors cancel on both sides
  have hcross : n * d' = n' * d := by
    rw [← hn, ← hd, ← hn', ← hd'] at h
    have hcc : c * c' ≠ 0 := mul_ne_zero (right_ne_zero_of_mul hden) (right_ne_zero_of_mul hden')
    refine mul_right_cancel₀ hcc ?_
    linear_combination h
  have hdvd : d ∣ d' := hprime.symm.dvd_of_dvd_mul_left ⟨n', by rw [hcross, mul_comm]⟩
  have hdvd' : d' ∣ d := hprime'.symm.dvd_of_dvd_mul_left ⟨n, by rw [← hcross, mul_comm]⟩
  have heq : r.simplify.denominator = s.simplify.denominator :=
    hmonic.eq_of_associated hred.wellFormed.2.1 hred'.wellFormed.2.1 hmonic'
      (associated_of_dvd_dvd hdvd hdvd')
  have hdd : d = d' := congrArg Polynomial.toMv heq
  have hnum : r.simplify.numerator = s.simplify.numerator := by
    refine Polynomial.toMv_injective hred.wellFormed.1 hred'.wellFormed.1 ?_
    rw [← hdd] at hcross
    exact mul_right_cancel₀ (left_ne_zero_of_mul hden) hcross
  cases hr' : r.simplify
  cases hs' : s.simplify
  simp_all

/-! ### Images -/

variable {K : Type} [Field K] {φ : MvPolynomial Parameter ℚ →+* K}

/-- **The fraction has an image** under the homomorphism. -/
structure HasImage (φ : MvPolynomial Parameter ℚ →+* K) (r : RationalFunction) : Prop where
  wf_numerator : r.numerator.WellFormed
  wf_denominator : r.denominator.WellFormed
  denominator_ne_zero : φ r.denominator.toMv ≠ 0

/-- The image of a fraction. -/
noncomputable def image (φ : MvPolynomial Parameter ℚ →+* K) (r : RationalFunction) : K :=
  φ r.numerator.toMv / φ r.denominator.toMv

theorem HasImage.wellFormed (h : HasImage φ r) : r.WellFormed := by
  refine wellFormed_of_parts h.wf_numerator h.wf_denominator fun hzero => ?_
  apply h.denominator_ne_zero
  rw [hzero, map_zero]

/-- Polynomials have images as fractions. -/
theorem hasImage_ofPolynomial {p : Polynomial} (h : p.WellFormed) :
    HasImage φ (ofPolynomial p) ∧ image φ (ofPolynomial p) = φ p.toMv := by
  have hone : φ (1 : Polynomial).toMv = 1 := by
    rw [Polynomial.toMv_one, map_one]
  refine ⟨⟨h, Polynomial.wellFormed_one, ?_⟩, ?_⟩
  · show φ (1 : Polynomial).toMv ≠ 0
    rw [hone]
    exact one_ne_zero
  · show _ / φ (1 : Polynomial).toMv = _
    rw [hone, div_one]
    rfl

theorem hasImage_zero : HasImage φ 0 ∧ image φ 0 = 0 := by
  obtain ⟨h, himage⟩ := hasImage_ofPolynomial (φ := φ) Polynomial.wellFormed_zero
  rw [Polynomial.toMv_zero, map_zero] at himage
  exact ⟨h, himage⟩

theorem hasImage_one : HasImage φ 1 ∧ image φ 1 = 1 := by
  obtain ⟨h, himage⟩ := hasImage_ofPolynomial (φ := φ) Polynomial.wellFormed_one
  rw [Polynomial.toMv_one, map_one] at himage
  exact ⟨h, himage⟩

/-- The sum of two fractions. -/
theorem HasImage.add (hr : HasImage φ r) (hs : HasImage φ s) :
    HasImage φ (r + s) ∧ image φ (r + s) = image φ r + image φ s := by
  change HasImage φ (RationalFunction.add r s) ∧ image φ (RationalFunction.add r s) = _
  unfold RationalFunction.add
  split
  case isTrue heq =>
    -- a common denominator is kept
    refine ⟨⟨hr.wf_numerator.add hs.wf_numerator, hr.wf_denominator, hr.denominator_ne_zero⟩,
      ?_⟩
    simp only [image, Polynomial.toMv_add, map_add, add_div, heq]
  case isFalse =>
    have hcross := Polynomial.toMv_mul hr.wf_numerator hs.wf_denominator
    have hcross' := Polynomial.toMv_mul hs.wf_numerator hr.wf_denominator
    have hden := Polynomial.toMv_mul hr.wf_denominator hs.wf_denominator
    refine ⟨⟨(hr.wf_numerator.mul hs.wf_denominator).add
      (hs.wf_numerator.mul hr.wf_denominator), hr.wf_denominator.mul hs.wf_denominator, ?_⟩, ?_⟩
    · rw [hden, map_mul]
      exact mul_ne_zero hr.denominator_ne_zero hs.denominator_ne_zero
    · simp only [image, Polynomial.toMv_add, hcross, hcross', hden, map_add, map_mul]
      rw [div_add_div _ _ hr.denominator_ne_zero hs.denominator_ne_zero]
      ring

theorem HasImage.neg (hr : HasImage φ r) : HasImage φ (-r) ∧ image φ (-r) = -image φ r := by
  refine ⟨⟨hr.wf_numerator.neg, hr.wf_denominator, hr.denominator_ne_zero⟩, ?_⟩
  show φ (-r.numerator).toMv / _ = _
  rw [Polynomial.toMv_neg, map_neg, neg_div]
  rfl

/-- The difference of two fractions. -/
theorem HasImage.sub (hr : HasImage φ r) (hs : HasImage φ s) :
    HasImage φ (r - s) ∧ image φ (r - s) = image φ r - image φ s := by
  obtain ⟨hneg, himage⟩ := hs.neg
  rw [sub_eq_add_neg (image φ r), ← himage]
  exact hr.add hneg

/-- A fraction of products of polynomials. -/
theorem hasImage_mul_mul {a b c d : Polynomial} (ha : a.WellFormed) (hb : b.WellFormed)
    (hc : c.WellFormed) (hd : d.WellFormed) (hc₀ : φ c.toMv ≠ 0) (hd₀ : φ d.toMv ≠ 0) :
    HasImage φ ⟨a * b, c * d⟩ ∧
      image φ ⟨a * b, c * d⟩ = φ a.toMv * φ b.toMv / (φ c.toMv * φ d.toMv) := by
  have hnum := Polynomial.toMv_mul ha hb
  have hden := Polynomial.toMv_mul hc hd
  refine ⟨⟨ha.mul hb, hc.mul hd, ?_⟩, ?_⟩
  · rw [hden, map_mul]
    exact mul_ne_zero hc₀ hd₀
  · rw [image, hnum, hden, map_mul, map_mul]

/-- The product of two fractions. -/
theorem HasImage.mul (hr : HasImage φ r) (hs : HasImage φ s) :
    HasImage φ (r * s) ∧ image φ (r * s) = image φ r * image φ s := by
  obtain ⟨h, himage⟩ := hasImage_mul_mul hr.wf_numerator hs.wf_numerator hr.wf_denominator
    hs.wf_denominator hr.denominator_ne_zero hs.denominator_ne_zero
  refine ⟨h, himage.trans ?_⟩
  rw [image, image, div_mul_div_comm]

/-- The quotient of two fractions, the second of which has an image other than zero. -/
theorem HasImage.quotient (hr : HasImage φ r) (hs : HasImage φ s) (hne : image φ s ≠ 0) :
    HasImage φ (r.quotient s) ∧ image φ (r.quotient s) = image φ r / image φ s := by
  have hs₀ : φ s.numerator.toMv ≠ 0 := by
    intro hzero
    rw [image, hzero, zero_div] at hne
    exact hne rfl
  obtain ⟨h, himage⟩ := hasImage_mul_mul hr.wf_numerator hs.wf_denominator hr.wf_denominator
    hs.wf_numerator hr.denominator_ne_zero hs₀
  refine ⟨h, himage.trans ?_⟩
  rw [image, image, div_div_div_eq]

/-- **Reducing a fraction keeps its image.** -/
theorem HasImage.of_reduces (hr : HasImage φ r) (h : r.Reduces s) :
    HasImage φ s ∧ image φ s = image φ r := by
  obtain ⟨c, hn, hd⟩ := h.factor
  have hden := hr.denominator_ne_zero
  rw [← hd, map_mul] at hden
  refine ⟨⟨h.wellFormed.1, h.wellFormed.2.1, left_ne_zero_of_mul hden⟩, ?_⟩
  rw [image, image, ← hn, ← hd, map_mul, map_mul,
    mul_div_mul_right _ _ (right_ne_zero_of_mul hden)]

/-- A fraction that is told to be zero has the image zero. -/
theorem HasImage.image_of_isZero (hr : HasImage φ r) (h : r.isZero = true) : image φ r = 0 := by
  rw [image, (Polynomial.isZero_iff hr.wf_numerator).1 h, map_zero, zero_div]

/-- A fraction that is told to be one has the image one. -/
theorem HasImage.image_of_isOne (hr : HasImage φ r) (h : r.isOne = true) : image φ r = 1 := by
  rw [image, of_decide_eq_true h]
  exact div_self hr.denominator_ne_zero

/-- The quotient by a fraction whose image is not zero can only fail by leaving the range. -/
theorem HasImage.divide_meets (hs : HasImage φ s) (hne : image φ s ≠ 0)
    {Q : RationalFunction → Prop} (h : Q (r.quotient s)) :
    Meets (fun f => True ∧ f = .degreeOverflow) Q (divide r s) := by
  have hzero : ¬s.isZero = true := fun hz => hne (hs.image_of_isZero hz)
  rw [divide, if_neg hzero, checkedQuotient, requireRange]
  split
  · exact h
  · exact ⟨trivial, rfl⟩

/-- Arithmetic of fractions can leave the range, so an interpretation never says that it cannot. -/
theorem unbounded_of_not_true (h : ¬True) : Weight.Unbounded RationalFunction := absurd trivial h

end RationalFunction

/-- **Every homomorphism to a field interprets rational functions** by their images. -/
noncomputable def Interpretation.ofHom {K : Type} [Field K]
    (φ : MvPolynomial Parameter ℚ →+* K) : Interpretation RationalFunction K where
  Valid := RationalFunction.HasImage φ
  value := RationalFunction.image φ
  Overflow := True
  unbounded := RationalFunction.unbounded_of_not_true
  valid_zero := RationalFunction.hasImage_zero.1
  value_zero := RationalFunction.hasImage_zero.2
  valid_one := RationalFunction.hasImage_one.1
  value_one := RationalFunction.hasImage_one.2
  valid_add ha hb := (ha.add hb).1
  value_add ha hb := (ha.add hb).2
  valid_sub ha hb := (ha.sub hb).1
  value_sub ha hb := (ha.sub hb).2
  valid_mul ha hb := (ha.mul hb).1
  value_mul ha hb := (ha.mul hb).2
  valid_simplify ha := (ha.of_reduces (RationalFunction.simplify_reduces ha.wellFormed).1).1
  value_simplify ha := (ha.of_reduces (RationalFunction.simplify_reduces ha.wellFormed).1).2
  divide_meets ha hb hne := hb.divide_meets hne (ha.quotient hb hne)
  value_of_isZero ha h := ha.image_of_isZero h
  value_of_isOne ha h := ha.image_of_isOne h

/-- **Rational functions in their field**, the field of fractions of polynomials. -/
noncomputable def Interpretation.field :
    Interpretation RationalFunction (FractionRing (MvPolynomial Parameter ℚ)) :=
  .ofHom (algebraMap _ _)

/-- In the field of fractions all well-formed fractions have an image. -/
theorem RationalFunction.WellFormed.valid_field {r : RationalFunction} (h : r.WellFormed) :
    Interpretation.field.Valid r := by
  refine ⟨h.1, h.2.1, ?_⟩
  rw [Ne, IsFractionRing.to_map_eq_zero_iff]
  exact h.toMv_denominator_ne_zero

/-- **Fractions have the same image** exactly if their cross products agree. -/
theorem RationalFunction.image_eq_iff_cross {r s : RationalFunction}
    (hr : Interpretation.field.Valid r) (hs : Interpretation.field.Valid s) :
    Interpretation.field.value r = Interpretation.field.value s ↔
      r.numerator.toMv * s.denominator.toMv = s.numerator.toMv * r.denominator.toMv := by
  refine (div_eq_div_iff hr.denominator_ne_zero hs.denominator_ne_zero).trans ?_
  rw [← map_mul, ← map_mul]
  exact (IsFractionRing.injective _ _).eq_iff

/-- **In their field rational functions are interpreted exactly.** -/
theorem Interpretation.exact_field : Interpretation.field.Exact where
  isOne_of_value := by
    intro r hr h
    rw [← Interpretation.field.value_one] at h
    have hcross := (RationalFunction.image_eq_iff_cross hr Interpretation.field.valid_one).1 h
    change _ * (1 : Polynomial).toMv = (1 : Polynomial).toMv * _ at hcross
    rw [Polynomial.toMv_one, mul_one, one_mul] at hcross
    exact decide_eq_true (Polynomial.toMv_injective hr.wf_numerator hr.wf_denominator hcross)
  simplify_eq hr hs h := RationalFunction.simplify_eq_of_cross hr.wellFormed hs.wellFormed
    ((RationalFunction.image_eq_iff_cross hr hs).1 h)
  checkedSame_self r := by
    have hfits : r.sameFits r = true := by simp [RationalFunction.sameFits]
    have hsame : r.same r = true := by simp [RationalFunction.same]
    show (do requireRange (r.sameFits r); pure (r.same r) : Except Fault Bool) = _
    rw [hfits, hsame]
    rfl

end MarkovElimination
