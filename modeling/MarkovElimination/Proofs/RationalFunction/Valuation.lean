import MarkovElimination.Proofs.RationalFunction.Evaluation
import MarkovElimination.Proofs.RationalFunction.Operation

/-! # Evaluation is a homomorphism

Where two fractions have values, the result of an operation has the value that is computed from
them, unless the operation divides by zero. So evaluation may come before or after arithmetic. It
may also come after simplification: a common factor takes its zeros and its parameters with it and
brings in neither. -/

namespace MarkovElimination.RationalFunction

variable {v : Valuation} {r s : RationalFunction} {x y : ℚ}

/-- What evaluation returns is the value. -/
theorem evaluate_eq_some_iff (hr : r.WellFormed) :
    r.evaluate v = some x ↔ HasValue v r ∧ valueAt v r = x := by
  constructor
  · intro hx
    have hvalue := hr.hasValue hx
    rw [hvalue.evaluate, Option.some_inj] at hx
    exact ⟨hvalue, hx⟩
  · rintro ⟨hvalue, rfl⟩
    exact hvalue.evaluate

/-- The result of an operation has a value. -/
theorem Operation.hasValue_result (op : Operation) (hr : HasValue v r) (hs : HasValue v s)
    (hdef : op.Defined (valueAt v r) (valueAt v s)) : HasValue v (op.result r s) := by
  cases op with
  | add => exact hr.add hs
  | sub => exact hr.sub hs
  | neg => exact hr.neg
  | mul => exact hr.mul hs
  | div => exact hr.quotient hs hdef
  | invert => exact hasValue_one.quotient hr hdef
  | invertComplement =>
    exact hasValue_one.quotient (hasValue_one.sub hr) (hr.hasImage.image_complement_ne_zero hdef)

/-- **An operation on values**: what it returns evaluates to what is computed from the values. -/
theorem Operation.evaluate_run (op : Operation) (hr : HasValue v r) (hs : HasValue v s)
    (hrange : r.InRange) (hdef : op.Defined (valueAt v r) (valueAt v s))
    (hfits : op.fits r s = true) :
    ∃ t, op.run r s = .ok t ∧ t.evaluate v = some (op.value (valueAt v r) (valueAt v s)) := by
  refine ⟨op.result r s, (op.returnsIf_run hr.hasImage hs.hasImage hrange hdef).eq_ok hfits, ?_⟩
  rw [(op.hasValue_result hr hs hdef).evaluate]
  exact congrArg some (op.hasImage_result hr.hasImage hs.hasImage hdef).2

/-- **Simplification** does not change what a fraction evaluates to. -/
theorem HasValue.evaluate_simplify (hr : HasValue v r) :
    r.simplify.evaluate v = some (valueAt v r) := by
  have hred := (simplify_reduces hr.hasImage.wellFormed).1
  rw [(hr.of_reduces hred).evaluate]
  exact congrArg some (hr.hasImage.of_reduces hred).2

/-- **Evaluation is a homomorphism that survives simplification.** If two fractions evaluate to
numbers, every operation that does not divide by zero and stays in range returns a fraction that
evaluates to what the operation computes from the numbers. The canonical form of a fraction
evaluates to the same number as the fraction. -/
theorem evaluate_homomorphism (hr : r.WellFormed) (hrange : r.InRange) (hs : s.WellFormed)
    (hx : r.evaluate v = some x) (hy : s.evaluate v = some y) :
    (∀ op : Operation, op.Defined x y → op.fits r s = true →
      ∃ t, op.run r s = .ok t ∧ t.evaluate v = some (op.value x y)) ∧
    (r.parameters.length ≤ 1 ∨ r.simplifyFits = true →
      ∃ t, Weight.checkedSimplify r = .ok t ∧ t.evaluate v = some x) := by
  obtain ⟨hrvalue, rfl⟩ := (evaluate_eq_some_iff hr).1 hx
  obtain ⟨hsvalue, rfl⟩ := (evaluate_eq_some_iff hs).1 hy
  refine ⟨fun op hdef hfits => op.evaluate_run hrvalue hsvalue hrange hdef hfits,
    fun hfits => ?_⟩
  have hsimplifiable : r.Simplifiable := ⟨hr, hrange, hfits⟩
  exact ⟨r.simplify, hsimplifiable.checkedSimplify_eq, hrvalue.evaluate_simplify⟩

theorem evaluate_homomorphism_chord :
    chord.evaluate (.ofList [("p", 3), ("q", 1)]) = some 2 ∧
      mean.evaluate (.ofList [("p", 3), ("q", 1)]) = some 2 ∧
      (∃ t, chord.divide mean = .ok t ∧ t.evaluate (.ofList [("p", 3), ("q", 1)]) = some 1) ∧
      ∃ t, Weight.checkedSimplify chord = .ok t ∧
        t.evaluate (.ofList [("p", 3), ("q", 1)]) = some 2 := by
  have hchord : chord.evaluate (.ofList [("p", 3), ("q", 1)]) = some 2 := by cbv
  have hmean : mean.evaluate (.ofList [("p", 3), ("q", 1)]) = some 2 := by cbv
  obtain ⟨hop, hsimplify⟩ := evaluate_homomorphism (by decide) (by decide)
    (by decide) hchord hmean
  obtain ⟨t, hrun, ht⟩ := hop .div two_ne_zero (by cbv)
  refine ⟨hchord, hmean, ⟨t, hrun, ht.trans (congrArg some (div_self two_ne_zero))⟩, ?_⟩
  exact hsimplify (.inr (by cbv))

/-- A power of one is one. -/
theorem evaluate_tower (n : ℕ) : (tower n).evaluate (fun _ => some 1) = some 1 := by
  have hone : (1 : Polynomial) = ⟨[⟨.one, 1⟩]⟩ := rfl
  simp [tower, hone, evaluate, Polynomial.evaluate, Polynomial.evaluateTerms,
    Polynomial.evaluateFactors, Monomial.one]

/-- The values of all parameters may be small, but an operation on fractions can leave the range of
exponents, and with several parameters so can a simplification. -/
theorem evaluate_homomorphism_overflow :
    ((tower 4294967295).WellFormed ∧ (tower 4294967295).InRange ∧ hyperbola.WellFormed ∧
      hyperbola.InRange ∧ (tower 4294967295).evaluate (fun _ => some 1) = some 1 ∧
      (tower 1).evaluate (fun _ => some 1) = some 1 ∧
      hyperbola.evaluate (fun _ => some 1) = some 1 ∧
      Operation.add.run (tower 4294967295) hyperbola = .error .degreeOverflow ∧
      Operation.sub.run (tower 4294967295) hyperbola = .error .degreeOverflow ∧
      Operation.div.run (tower 4294967295) hyperbola = .error .degreeOverflow ∧
      Operation.mul.run (tower 4294967295) (tower 1) = .error .degreeOverflow) ∧
    RationalFunction.WellFormed ⟨.steep 2147483648 1, .steep 2147483648 2⟩ ∧
      RationalFunction.InRange ⟨.steep 2147483648 1, .steep 2147483648 2⟩ ∧
      RationalFunction.evaluate (fun _ => some 1) ⟨.steep 2147483648 1, .steep 2147483648 2⟩ =
        some (2 / 3) ∧
      Weight.checkedSimplify (RationalFunction.mk (.steep 2147483648 1) (.steep 2147483648 2)) =
        .error .degreeOverflow := by
  have hsteep (c : ℚ) :
      (Polynomial.steep 2147483648 c).evaluate (fun _ => some 1) = some (1 + c) := by
    simp [Polynomial.steep, Polynomial.evaluate, Polynomial.evaluateTerms,
      Polynomial.evaluateFactors, Monomial.one]
  refine ⟨⟨by decide, by decide, by decide, by decide, evaluate_tower _, evaluate_tower 1,
    by cbv, run_tower_overflow⟩, by decide, by decide, ?_, by cbv⟩
  rw [evaluate, hsteep, hsteep]
  norm_num

end MarkovElimination.RationalFunction
