import MarkovElimination.Polynomial.Checked
import MarkovElimination.RationalFunction.Basic

/-! # Rational functions as weights

Arithmetic of fractions multiplies polynomials, and simplification computes a greatest common
divisor, so exponents can leave their range. Each operation has its predicate that tells whether it
stays in range. -/

namespace MarkovElimination.RationalFunction

/-- Whether the two cross products of numerators and denominators stay in range; fractions with a
common denominator need none. -/
def sameFits (r s : RationalFunction) : Bool :=
  r.denominator = s.denominator ||
    r.numerator.mulFits s.denominator && s.numerator.mulFits r.denominator

/-- Whether a sum of two fractions stays in range. -/
def addFits (r s : RationalFunction) : Bool :=
  r.denominator = s.denominator || r.sameFits s && r.denominator.mulFits s.denominator

/-- Whether a product of two fractions stays in range. -/
def mulFits (r s : RationalFunction) : Bool :=
  r.numerator.mulFits s.numerator && r.denominator.mulFits s.denominator

/-- Whether a quotient of two fractions stays in range. -/
def quotientFits (r s : RationalFunction) : Bool :=
  r.numerator.mulFits s.denominator && r.denominator.mulFits s.numerator

/-- Whether the simplification of a fraction stays in range. It needs a greatest common divisor only
if the numerator is not zero and the denominator is not constant. -/
def simplifyFits (r : RationalFunction) : Bool :=
  r.numerator.isZero || r.denominator.isConstant || r.numerator.gcdFits r.denominator

/-- The quotient by a fraction that is not zero, if it stays in range. -/
def checkedQuotient (r s : RationalFunction) : Except Fault RationalFunction := do
  requireRange (r.quotientFits s)
  pure (r.quotient s)

/-- A power of a fraction, if it stays in range. -/
def checkedPow (r : RationalFunction) (n : Nat) : Except Fault RationalFunction := do
  requireRange (r.numerator.powFits n && r.denominator.powFits n)
  pure (r.pow n)

/-- The quotient of two fractions, if it stays in range; dividing by zero is a fault. -/
def divide (r s : RationalFunction) : Except Fault RationalFunction :=
  if s.isZero then throw .divisionByZeroFunction else r.checkedQuotient s

/-- A quotient fails for the zero function, or because it leaves the range. -/
theorem divide_fault (r s : RationalFunction) (f : Fault) (h : r.divide s = .error f) :
    f.isArithmetic = true := by
  unfold divide checkedQuotient requireRange at h
  split at h
  · cases h
    rfl
  · split at h <;> cases h
    rfl

instance : Weight RationalFunction where
  divide := divide
  simplify := simplify
  isZero := isZero
  isOne := isOne
  same := same
  toFloat? r := r.constant?.map floatOfRat
  addFits := addFits
  mulFits := mulFits
  sameFits := sameFits
  simplifyFits := simplifyFits
  divide_fault := divide_fault

end MarkovElimination.RationalFunction
