import MarkovElimination.Proofs.RationalFunction.Arithmetic

/-! # Operations on fractions

Each **operation** on fractions stands beside the operation of a field that it should compute. As
long as nothing is divided that has the image zero, an operation returns its result or leaves the
range of exponents (`returnsIf_run`). The result is in range again (`over_result`), and its image
under a homomorphism is what the field computes from the images of the arguments
(`hasImage_result`). -/

namespace MarkovElimination.RationalFunction

/-- **The operations on fractions.** -/
inductive Operation where
  | add
  | sub
  | neg
  | mul
  | div
  /-- `1 / r` -/
  | invert
  /-- `1 / (1 - r)` -/
  | invertComplement

namespace Operation

/-- The computation with two fractions. Some operations only use the first one. -/
def run : Operation → RationalFunction → RationalFunction → Except Fault RationalFunction
  | add, r, s => Weight.checkedAdd r s
  | sub, r, s => Weight.checkedSub r s
  | neg, r, _ => pure (-r)
  | mul, r, s => Weight.checkedMul r s
  | div, r, s => r.divide s
  | invert, r, _ => Weight.invert r
  | invertComplement, r, _ => Weight.invertComplement r

/-- Whether the products that are formed have their exponents in range. -/
def fits : Operation → RationalFunction → RationalFunction → Bool
  | add, r, s | sub, r, s => r.addFits s
  | mul, r, s => r.mulFits s
  | div, r, s => r.quotientFits s
  | neg, _, _ | invert, _, _ | invertComplement, _, _ => true

/-- What is computed if the exponents stay in range. -/
def result : Operation → RationalFunction → RationalFunction → RationalFunction
  | add, r, s => r + s
  | sub, r, s => r - s
  | neg, r, _ => -r
  | mul, r, s => r * s
  | div, r, s => r.quotient s
  | invert, r, _ => quotient 1 r
  | invertComplement, r, _ => quotient 1 (1 - r)

variable {K : Type} [Field K]

/-- The operation of a field. -/
def value : Operation → K → K → K
  | add, x, y => x + y
  | sub, x, y => x - y
  | neg, x, _ => -x
  | mul, x, y => x * y
  | div, x, y => x / y
  | invert, x, _ => x⁻¹
  | invertComplement, x, _ => (1 - x)⁻¹

/-- The operation does not divide by zero. -/
def Defined : Operation → K → K → Prop
  | div, _, y => y ≠ 0
  | invert, x, _ => x ≠ 0
  | invertComplement, x, _ => x ≠ 1
  | _, _, _ => True

end Operation

variable {K : Type} [Field K] {φ : MvPolynomial Parameter ℚ →+* K} {r s : RationalFunction}

theorem HasImage.isZero_eq_false (hr : HasImage φ r) (hne : image φ r ≠ 0) : r.isZero = false :=
  Bool.eq_false_iff.2 fun hzero => hne (hr.image_of_isZero hzero)

/-- The complement of a fraction. -/
theorem HasImage.complement (hr : HasImage φ r) :
    HasImage φ (1 - r) ∧ image φ (1 - r) = 1 - image φ r := by
  obtain ⟨h, himage⟩ := hasImage_one.1.sub hr
  rw [hasImage_one.2] at himage
  exact ⟨h, himage⟩

theorem HasImage.image_complement_ne_zero (hr : HasImage φ r) (hne : image φ r ≠ 1) :
    image φ (1 - r) ≠ 0 := by
  rw [hr.complement.2]
  exact sub_ne_zero.2 hne.symm

/-! ### The range of exponents -/

/-- Products with the constant one are in range. -/
theorem mulFits_one {p : Polynomial} (hp : p.WellFormed) (hrange : p.InRange) :
    Polynomial.mulFits 1 p = true ∧ p.mulFits 1 = true := by
  have hone (x : Parameter) : Polynomial.degreeIn x 1 = 0 := by
    rw [Polynomial.wellFormed_one.degreeIn_eq, Polynomial.toMv_one, degree_one]
  rw [Polynomial.mulFits_iff Polynomial.wellFormed_one hp,
    Polynomial.mulFits_iff hp Polynomial.wellFormed_one]
  refine ⟨fun x => ?_, fun x => ?_⟩
  · rw [hone, Nat.zero_add]
    exact hrange.degreeIn_lt x
  · rw [hone, Nat.add_zero]
    exact hrange.degreeIn_lt x

/-- A reciprocal is in range. -/
theorem one_quotientFits (hr : r.WellFormed) (hrange : r.InRange) : quotientFits 1 r = true :=
  Bool.and_eq_true_iff.2 ⟨(mulFits_one hr.2.1 hrange.2).1, (mulFits_one hr.1 hrange.1).1⟩

/-- A complement is in range. -/
theorem one_addFits (hr : r.WellFormed) (hrange : r.InRange) : addFits 1 r = true := by
  have hn := (mulFits_one hr.1 hrange.1).2
  have hd := (mulFits_one hr.2.1 hrange.2).1
  have hsame : sameFits 1 r = true :=
    Bool.or_eq_true_iff.2 (.inr (Bool.and_eq_true_iff.2 ⟨hd, hn⟩))
  exact Bool.or_eq_true_iff.2 (.inr (Bool.and_eq_true_iff.2 ⟨hsame, hd⟩))

theorem divide_eq (hzero : s.isZero = false) : r.divide s = r.checkedQuotient s := by
  rw [divide, hzero]
  rfl

namespace Over

variable {S : Parameter → Prop}

theorem one : (1 : RationalFunction).Over S := of_polynomial (Polynomial.over_const 1)

theorem complement (hr : r.Over S) : (1 - r).Over S :=
  one.sub hr (one_addFits hr.wellFormed hr.inRange)

theorem reciprocal (hr : r.Over S) (hzero : r.isZero = false) :
    (RationalFunction.quotient 1 r).Over S :=
  one.quotient hr hzero (one_quotientFits hr.wellFormed hr.inRange)

end Over

/-- A fraction in range is over all parameters. -/
theorem WellFormed.over (hr : r.WellFormed) (hrange : r.InRange) : r.Over fun _ => True where
  numerator := ⟨hr.1, hrange.1.degreeIn_lt, fun _ hx => absurd trivial hx⟩
  denominator := ⟨hr.2.1, hrange.2.degreeIn_lt, fun _ hx => absurd trivial hx⟩
  denominator_ne_zero := hr.toMv_denominator_ne_zero

/-- Reciprocals are always returned. -/
theorem divide_one_eq (hr : r.WellFormed) (hrange : r.InRange) (hzero : r.isZero = false) :
    divide 1 r = .ok (quotient 1 r) := by
  rw [divide_eq hzero, checkedQuotient]
  exact ReturnsIf.eq_ok rfl (one_quotientFits hr hrange)

/-! ### What operations compute -/

namespace Operation

variable (op : Operation)

/-- **An operation returns its result** if that is in range, unless it divides by zero. -/
theorem returnsIf_run (hr : HasImage φ r) (hs : HasImage φ s) (hrange : r.InRange)
    (hdef : op.Defined (image φ r) (image φ s)) :
    ReturnsIf (op.fits r s) (op.result r s) (op.run r s) := by
  cases op with
  | add | sub | neg | mul => exact rfl
  | div => exact divide_eq (hs.isZero_eq_false hdef)
  | invert => exact divide_one_eq hr.wellFormed hrange (hr.isZero_eq_false hdef)
  | invertComplement =>
    have hover := (hr.wellFormed.over hrange).complement
    exact divide_one_eq hover.wellFormed hover.inRange
      (hr.complement.1.isZero_eq_false (hr.image_complement_ne_zero hdef))

/-- **The image of a result** is what the field computes. -/
theorem hasImage_result (hr : HasImage φ r) (hs : HasImage φ s)
    (hdef : op.Defined (image φ r) (image φ s)) :
    HasImage φ (op.result r s) ∧
      image φ (op.result r s) = op.value (image φ r) (image φ s) := by
  cases op with
  | add => exact hr.add hs
  | sub => exact hr.sub hs
  | neg => exact hr.neg
  | mul => exact hr.mul hs
  | div => exact hr.quotient hs hdef
  | invert =>
    obtain ⟨h, himage⟩ := hasImage_one.1.quotient hr hdef
    rw [hasImage_one.2, one_div] at himage
    exact ⟨h, himage⟩
  | invertComplement =>
    obtain ⟨h, himage⟩ :=
      hasImage_one.1.quotient hr.complement.1 (hr.image_complement_ne_zero hdef)
    rw [hasImage_one.2, one_div, hr.complement.2] at himage
    exact ⟨h, himage⟩

/-- The result of an operation is in range. -/
theorem over_result (hr : HasImage φ r) (hs : HasImage φ s) (hrange : r.InRange)
    (hsrange : s.InRange) (hdef : op.Defined (image φ r) (image φ s))
    (hfits : op.fits r s = true) : (op.result r s).Over fun _ => True := by
  have hrover := hr.wellFormed.over hrange
  have hsover := hs.wellFormed.over hsrange
  cases op with
  | add => exact hrover.add hsover hfits
  | sub => exact hrover.sub hsover hfits
  | neg => exact hrover.neg
  | mul => exact hrover.mul hsover hfits
  | div => exact hrover.quotient hsover (hs.isZero_eq_false hdef) hfits
  | invert => exact hrover.reciprocal (hr.isZero_eq_false hdef)
  | invertComplement =>
    exact hrover.complement.reciprocal
      (hr.complement.1.isZero_eq_false (hr.image_complement_ne_zero hdef))

end Operation

/-- The fraction `q ^ n / 1`. -/
def tower (n : ℕ) : RationalFunction := ⟨⟨[⟨⟨[⟨"q", n⟩]⟩, 1⟩]⟩, 1⟩

/-- The fraction `1 / q`. -/
def hyperbola : RationalFunction := ⟨1, ⟨[⟨⟨[⟨"q", 1⟩]⟩, 1⟩]⟩⟩

/-- Operations with two arguments add degrees. -/
theorem run_tower_overflow :
    Operation.add.run (tower 4294967295) hyperbola = .error .degreeOverflow ∧
      Operation.sub.run (tower 4294967295) hyperbola = .error .degreeOverflow ∧
      Operation.div.run (tower 4294967295) hyperbola = .error .degreeOverflow ∧
      Operation.mul.run (tower 4294967295) (tower 1) = .error .degreeOverflow :=
  ⟨by cbv, by cbv, by cbv, by cbv⟩

end MarkovElimination.RationalFunction
