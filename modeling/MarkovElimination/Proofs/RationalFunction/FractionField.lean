import MarkovElimination.Proofs.RationalFunction.Operation

/-! # Fractions form the field of fractions

A fraction **denotes** an element of the field of fractions of the polynomials. Different fractions
may denote the same element: common factors are not cancelled. Comparison tells whether two
fractions denote the same, so it is an equivalence relation, and everything that is computed with
fractions depends only on what they denote. What stands in the way is the range of exponents: cross
products may leave it, even for fractions that denote the same element. -/

namespace MarkovElimination.RationalFunction

/-- The field of fractions of the polynomials. -/
abbrev FractionField := FractionRing (MvPolynomial Parameter ℚ)

/-- **The fraction denotes** an element of the field: it is well formed and in range, and the
element is the quotient of its parts. -/
structure Denotes (r : RationalFunction) (f : FractionField) : Prop where
  wellFormed : r.WellFormed
  inRange : r.InRange
  image_eq : image (algebraMap _ _) r = f

variable {r s t : RationalFunction} {f g h : FractionField}

/-! ### Comparison -/

theorem checkedSame_self (r : RationalFunction) : Weight.checkedSame r r = .ok true :=
  Interpretation.exact_field.checkedSame_self r

/-- The two fractions of a comparison may be exchanged. -/
theorem checkedSame_comm (r s : RationalFunction) :
    Weight.checkedSame r s = Weight.checkedSame s r := by
  have hfits : r.sameFits s = s.sameFits r := by
    simp only [sameFits, Bool.and_comm, eq_comm]
  have hsame : r.same s = s.same r := by
    simp only [same, eq_comm]
  show (do requireRange (r.sameFits s); pure (r.same s) : Except Fault Bool) =
    (do requireRange (s.sameFits r); pure (s.same r))
  rw [hfits, hsame]

/-- What a comparison answers. -/
theorem same_eq_of_checkedSame {b : Bool} (hrun : Weight.checkedSame r s = .ok b) :
    r.same s = b :=
  ((Weight.returnsIf_checkedSame r s).eq_of_eq_ok hrun).2

namespace Denotes

theorem hasImage (hr : r.Denotes f) :
    HasImage (algebraMap (MvPolynomial Parameter ℚ) FractionField) r :=
  hr.wellFormed.valid_field

/-- **Comparison** tells whether two fractions denote the same. -/
theorem same_iff (hr : r.Denotes f) (hs : s.Denotes g) : r.same s = true ↔ f = g := by
  rw [same_iff_cross hr.wellFormed hs.wellFormed, ← hr.image_eq, ← hs.image_eq]
  exact (image_eq_iff_cross hr.hasImage hs.hasImage).symm

theorem eq_of_checkedSame (hr : r.Denotes f) (hs : s.Denotes g)
    (hrun : Weight.checkedSame r s = .ok true) : f = g :=
  (hr.same_iff hs).1 (same_eq_of_checkedSame hrun)

/-- Fractions that denote the same are found to be the same, if their cross products are in
range. -/
theorem checkedSame (hr : r.Denotes f) (hs : s.Denotes f) (hfits : r.sameFits s = true) :
    Weight.checkedSame r s = .ok true := by
  rw [checkedSame_eq hfits, (hr.same_iff hs).2 rfl]

/-! ### Tests -/

theorem isZero_iff (hr : r.Denotes f) : r.isZero = true ↔ f = 0 := by
  rw [← hr.image_eq]
  refine ⟨hr.hasImage.image_of_isZero, fun hzero => ?_⟩
  by_contra hne
  have hnum : r.numerator.toMv ≠ 0 := (Polynomial.isZero_iff hr.wellFormed.1).not.1 hne
  rcases div_eq_zero_iff.1 hzero with hn | hd
  · exact hnum ((IsFractionRing.to_map_eq_zero_iff).1 hn)
  · exact hr.hasImage.denominator_ne_zero hd

theorem isOne_iff (hr : r.Denotes f) : r.isOne = true ↔ f = 1 := by
  rw [← hr.image_eq]
  exact ⟨hr.hasImage.image_of_isOne, Interpretation.exact_field.isOne_of_value hr.hasImage⟩

theorem const (c : ℚ) : (RationalFunction.const c).Denotes (algebraMap ℚ _ c) := by
  have hover : (RationalFunction.const c).Over fun _ => True :=
    .of_polynomial (Polynomial.over_const c)
  refine ⟨hover.wellFormed, hover.inRange, ?_⟩
  rw [IsScalarTower.algebraMap_apply ℚ (MvPolynomial Parameter ℚ) FractionField,
    MvPolynomial.algebraMap_eq, ← Polynomial.toMv_const c]
  exact (hasImage_ofPolynomial (Polynomial.wellFormed_const c)).2

/-- **A fraction is found constant** exactly if it denotes a number. -/
theorem constant?_eq_some_iff (hr : r.Denotes f) {c : ℚ} :
    r.constant? = some c ↔ f = algebraMap ℚ _ c := by
  rw [RationalFunction.constant?_eq_some_iff hr.wellFormed, hr.same_iff (const c)]

/-- Fractions that denote the same pass the same tests. -/
theorem tests_eq (hr : r.Denotes f) (hs : s.Denotes f) :
    r.isZero = s.isZero ∧ r.isOne = s.isOne ∧ r.constant? = s.constant? := by
  refine ⟨?_, ?_, Option.ext fun c => ?_⟩
  · rw [Bool.eq_iff_iff, hr.isZero_iff, hs.isZero_iff]
  · rw [Bool.eq_iff_iff, hr.isOne_iff, hs.isOne_iff]
  · rw [hr.constant?_eq_some_iff, hs.constant?_eq_some_iff]

end Denotes

/-! ### Operations -/

/-- Only a fraction that is not zero divides. -/
theorem Denotes.ne_zero_of_divide (hs : s.Denotes g) (hrun : r.divide s = .ok t) : g ≠ 0 := by
  rw [divide] at hrun
  split at hrun
  case isTrue => cases hrun
  case isFalse hne => exact hs.isZero_iff.not.1 hne

theorem Denotes.complement (hr : r.Denotes f) : (1 - r).Denotes (1 - f) := by
  have hover := (hr.wellFormed.over hr.inRange).complement
  refine ⟨hover.wellFormed, hover.inRange, ?_⟩
  rw [hr.hasImage.complement.2, hr.image_eq]

namespace Operation

variable (op : Operation)

/-- The result of an operation denotes the result in the field, if it is in range. -/
theorem result_denotes (hr : r.Denotes f) (hs : s.Denotes g) (hdef : op.Defined f g)
    (hfits : op.fits r s = true) : (op.result r s).Denotes (op.value f g) := by
  obtain ⟨hwf, hrange, rfl⟩ := hr
  obtain ⟨hwf', hrange', rfl⟩ := hs
  have hover := op.over_result hwf.valid_field hwf'.valid_field hrange hrange' hdef hfits
  exact ⟨hover.wellFormed, hover.inRange,
    (op.hasImage_result hwf.valid_field hwf'.valid_field hdef).2⟩

/-- **An operation computes in the field**: it returns a fraction that denotes the result if that
can be computed in range, and otherwise leaves the range. -/
theorem run_denotes (hr : r.Denotes f) (hs : s.Denotes g) (hdef : op.Defined f g) :
    if op.fits r s then ∃ t, op.run r s = .ok t ∧ t.Denotes (op.value f g)
    else op.run r s = .error .degreeOverflow := by
  have hreturns := op.returnsIf_run hr.hasImage hs.hasImage hr.inRange
    (by rwa [hr.image_eq, hs.image_eq])
  cases hfits : op.fits r s with
  | true => exact ⟨op.result r s, hreturns.eq_ok hfits, op.result_denotes hr hs hdef hfits⟩
  | false => exact hreturns.eq_error hfits

/-- An operation that returns has not divided by zero. -/
theorem defined_of_run (hr : r.Denotes f) (hs : s.Denotes g) (hrun : op.run r s = .ok t) :
    op.Defined f g := by
  cases op with
  | add | sub | neg | mul => exact trivial
  | div => exact hs.ne_zero_of_divide hrun
  | invert => exact hr.ne_zero_of_divide hrun
  | invertComplement => exact (sub_ne_zero.1 (hr.complement.ne_zero_of_divide hrun)).symm

/-- What an operation returns denotes the result. -/
theorem denotes_of_run (hr : r.Denotes f) (hs : s.Denotes g) (hrun : op.run r s = .ok t) :
    t.Denotes (op.value f g) := by
  have hspec := op.run_denotes hr hs (op.defined_of_run hr hs hrun)
  rw [hrun] at hspec
  split at hspec
  case isTrue =>
    obtain ⟨t', ht, hdenotes⟩ := hspec
    rwa [Except.ok.inj ht]
  case isFalse => cases hspec

end Operation

/-! ### The field -/

/-- **Fractions compute in the field of fractions.** Comparison is an equivalence relation, and as
long as the cross products are in range it tells whether two fractions denote the same element. An
operation that does not divide by zero returns what denotes its result in the field, or leaves the
range of exponents; fractions that are found the same give results that are found the same. The
tests tell whether a fraction denotes zero, one or a number, so fractions that are found the same
pass the same tests. -/
theorem computes_field (hr : r.Denotes f) (hs : s.Denotes g) :
    (Weight.checkedSame r r = .ok true ∧ Weight.checkedSame s r = Weight.checkedSame r s ∧
      ∀ t h, t.Denotes h → Weight.checkedSame r s = .ok true →
      Weight.checkedSame s t = .ok true →
        r.sameFits t = true → Weight.checkedSame r t = .ok true) ∧
    (r.sameFits s = true → ∃ b, Weight.checkedSame r s = .ok b ∧ (b = true ↔ f = g)) ∧
    (∀ op : Operation, op.Defined f g →
      if op.fits r s then ∃ t, op.run r s = .ok t ∧ t.Denotes (op.value f g)
      else op.run r s = .error .degreeOverflow) ∧
    (∀ (op : Operation) r' s' f' g' t t', r'.Denotes f' → s'.Denotes g' →
      Weight.checkedSame r r' = .ok true → Weight.checkedSame s s' = .ok true →
      op.run r s = .ok t → op.run r' s' = .ok t' → t.sameFits t' = true →
      Weight.checkedSame t t' = .ok true) ∧
    (r.isZero = true ↔ f = 0) ∧ (r.isOne = true ↔ f = 1) ∧
    (r.parameters.length ≤ 1 ∨ r.simplifyFits = true →
      Weight.checkedFloat r = .ok (r.constant?.map floatOfRat)) ∧
    (∀ c, r.constant? = some c ↔ f = algebraMap ℚ _ c) ∧
    (Weight.checkedSame r s = .ok true →
      r.isZero = s.isZero ∧ r.isOne = s.isOne ∧ r.constant? = s.constant?) := by
  refine ⟨⟨checkedSame_self r, checkedSame_comm s r, fun t h ht hrs hst hfits => ?_⟩,
    fun hfits => ⟨r.same s, checkedSame_eq hfits, hr.same_iff hs⟩,
    fun op hdef => op.run_denotes hr hs hdef,
    fun op r' s' f' g' t t' hr' hs' hrr hss hrun hrun' hfits => ?_, hr.isZero_iff, hr.isOne_iff,
    fun hfits => ?_, fun c => hr.constant?_eq_some_iff, fun hrs => ?_⟩
  · obtain rfl := hr.eq_of_checkedSame hs hrs
    obtain rfl := hs.eq_of_checkedSame ht hst
    exact hr.checkedSame ht hfits
  · -- both results denote what the field computes from the common elements
    obtain rfl := hr.eq_of_checkedSame hr' hrr
    obtain rfl := hs.eq_of_checkedSame hs' hss
    exact (op.denotes_of_run hr hs hrun).checkedSame (op.denotes_of_run hr' hs' hrun') hfits
  · have hsimplifiable : r.Simplifiable := ⟨hr.wellFormed, hr.inRange, hfits⟩
    exact ReturnsIf.eq_ok rfl hsimplifiable.simplifyFits
  · obtain rfl := hr.eq_of_checkedSame hs hrs
    exact hr.tests_eq hs

theorem computes_field_chord :
    chord.Denotes (image (algebraMap _ _) chord) ∧ mean.Denotes (image (algebraMap _ _) mean) ∧
      Weight.checkedSame chord mean = .ok true ∧
      ∃ t t', Weight.invertComplement chord = .ok t ∧ Weight.invertComplement mean = .ok t' ∧
        t ≠ t' ∧ Weight.checkedSame t t' = .ok true := by
  have hchord : chord.Denotes (image (algebraMap _ _) chord) := ⟨by decide, by decide, rfl⟩
  have hmean : mean.Denotes (image (algebraMap _ _) mean) := ⟨by decide, by decide, rfl⟩
  have hsame : Weight.checkedSame chord mean = .ok true := by cbv
  have hrun : Weight.invertComplement chord = .ok (quotient 1 (1 - chord)) := by cbv
  have hrun' : Weight.invertComplement mean = .ok (quotient 1 (1 - mean)) := by cbv
  obtain ⟨-, -, -, hrespects, -⟩ := computes_field hchord hmean
  refine ⟨hchord, hmean, hsame, _, _, hrun, hrun', of_decide_eq_false (by cbv), ?_⟩
  exact hrespects .invertComplement mean mean _ _ _ _ hmean hmean hsame (checkedSame_self mean) hrun
    hrun' (by cbv)

/-- A fraction and its canonical form denote the same, but their cross products need not be in
range. The operations add degrees as well, and with several parameters the range may be left while
it is found out whether a fraction is constant. -/
theorem computes_field_overflow :
    (∃ f, (tall 2147483648).Denotes f ∧ (tall 2147483648).simplify.Denotes f ∧
      Weight.checkedSame (tall 2147483648) (tall 2147483648).simplify = .error .degreeOverflow) ∧
    (∃ f g, (tower 4294967295).Denotes f ∧ hyperbola.Denotes g ∧ g ≠ 0 ∧
      Operation.add.run (tower 4294967295) hyperbola = .error .degreeOverflow ∧
      Operation.sub.run (tower 4294967295) hyperbola = .error .degreeOverflow ∧
      Operation.div.run (tower 4294967295) hyperbola = .error .degreeOverflow ∧
      Operation.mul.run (tower 4294967295) (tower 1) = .error .degreeOverflow) ∧
    ∃ f, Denotes ⟨.steep 2147483648 1, .steep 2147483648 2⟩ f ∧
      Weight.checkedFloat (RationalFunction.mk (.steep 2147483648 1) (.steep 2147483648 2)) =
        .error .degreeOverflow := by
  have htall : (tall 2147483648).Denotes (image (algebraMap _ _) (tall 2147483648)) :=
    ⟨by decide, by decide, rfl⟩
  have hhyperbola : hyperbola.Denotes (image (algebraMap _ _) hyperbola) :=
    ⟨by decide, by decide, rfl⟩
  have hcanonical := isCanonical_simplify htall.wellFormed htall.inRange
  refine ⟨⟨_, htall, ⟨hcanonical.wellFormed, hcanonical.inRange, ?_⟩, by cbv⟩,
    ⟨_, _, ⟨by decide, by decide, rfl⟩, hhyperbola, ?_, run_tower_overflow⟩,
    ⟨_, ⟨by decide, by decide, rfl⟩, by cbv⟩⟩
  · exact (htall.hasImage.of_reduces (simplify_reduces htall.wellFormed).1).2
  · exact hhyperbola.isZero_iff.not.1 (by decide)

end MarkovElimination.RationalFunction
