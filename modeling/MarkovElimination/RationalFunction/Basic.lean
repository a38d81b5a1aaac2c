import MarkovElimination.Polynomial.Gcd

/-! # Rational functions

A **rational function** is a fraction of two polynomials with a denominator other than zero.
Arithmetic does not cancel common factors; `simplify` does, and makes the denominator monic. Two
fractions `a/b` and `c/d` have the same value exactly if `a * d = c * b`. -/

namespace MarkovElimination

/-- A fraction of two polynomials. -/
structure RationalFunction where
  numerator : Polynomial
  denominator : Polynomial
deriving DecidableEq

namespace RationalFunction

/-- Both parts are well formed and the denominator is not zero. -/
def WellFormed (r : RationalFunction) : Prop :=
  r.numerator.WellFormed ∧ r.denominator.WellFormed ∧ r.denominator ≠ 0

/-- A polynomial as a fraction with denominator one. -/
def ofPolynomial (p : Polynomial) : RationalFunction := ⟨p, 1⟩

/-- A constant function. -/
def const (c : Rat) : RationalFunction := ofPolynomial (.const c)

/-- A parameter as a function. -/
def ofParameter (p : Parameter) : RationalFunction := ofPolynomial (.ofParameter p)

instance : Zero RationalFunction := ⟨ofPolynomial 0⟩
instance : One RationalFunction := ⟨ofPolynomial 1⟩

/-- The parameters that occur in a fraction, in increasing order. -/
def parameters (r : RationalFunction) : List Parameter :=
  Polynomial.jointParameters r.numerator r.denominator

/-- Whether a fraction is zero. -/
def isZero (r : RationalFunction) : Bool := r.numerator.isZero

/-- Whether a fraction is one. -/
def isOne (r : RationalFunction) : Bool := r.numerator = r.denominator

/-- Whether two fractions have the same value. -/
def same (r s : RationalFunction) : Bool :=
  if r.denominator = s.denominator then r.numerator = s.numerator
  else r.numerator * s.denominator = s.numerator * r.denominator

/-- The sum of two fractions; a common denominator is kept. -/
def add (r s : RationalFunction) : RationalFunction :=
  if r.denominator = s.denominator then ⟨r.numerator + s.numerator, r.denominator⟩
  else ⟨r.numerator * s.denominator + s.numerator * r.denominator,
    r.denominator * s.denominator⟩

/-- The negated fraction. -/
def neg (r : RationalFunction) : RationalFunction := ⟨-r.numerator, r.denominator⟩

/-- The difference of two fractions. -/
def sub (r s : RationalFunction) : RationalFunction := r.add s.neg

/-- The product of two fractions. -/
def mul (r s : RationalFunction) : RationalFunction :=
  ⟨r.numerator * s.numerator, r.denominator * s.denominator⟩

instance : Add RationalFunction := ⟨add⟩
instance : Neg RationalFunction := ⟨neg⟩
instance : Sub RationalFunction := ⟨sub⟩
instance : Mul RationalFunction := ⟨mul⟩

/-- The quotient by a fraction that is not zero. -/
def quotient (r s : RationalFunction) : RationalFunction :=
  ⟨r.numerator * s.denominator, r.denominator * s.numerator⟩

/-- A power of a fraction, by repeated multiplication. -/
def pow (r : RationalFunction) (n : Nat) : RationalFunction :=
  Nat.repeat (fun power => power * r) n 1

/-- Numerator and denominator without their greatest common divisor. It divides both, so that there
are always two quotients (`exists_quotient?_gcd`) and the parts never stay as they are. -/
def cancel (r : RationalFunction) : RationalFunction :=
  if r.denominator.isConstant then r
  else
    let common := Polynomial.gcd r.numerator r.denominator
    if common.isOne then r
    else ⟨(r.numerator.quotient? common).getD r.numerator,
      (r.denominator.quotient? common).getD r.denominator⟩

/-- Both parts scaled so that the denominator becomes monic. A denominator that is not zero has a
leading term. -/
def normalize (r : RationalFunction) : RationalFunction :=
  match r.denominator.leading? with
  | none => r
  | some t => ⟨r.numerator.scale t.coefficient⁻¹, r.denominator.scale t.coefficient⁻¹⟩

/-- The canonical form: coprime parts with a monic denominator, and `0/1` for zero. -/
def simplify (r : RationalFunction) : RationalFunction :=
  if r.numerator.isZero then 0 else r.cancel.normalize

/-- The value of a fraction whose two parts are constant. -/
def constantParts? (r : RationalFunction) : Option Rat := do
  let n ← r.numerator.constant?
  let d ← r.denominator.constant?
  some (n / d)

/-- The value of a fraction that does not depend on any parameter. -/
def constant? (r : RationalFunction) : Option Rat :=
  if r.numerator.isZero then some 0
  else r.constantParts? <|> r.simplify.constantParts?

/-- The value of a fraction under a valuation, if all parameters have a value and the denominator
does not vanish. -/
def evaluate (v : Valuation) (r : RationalFunction) : Option Rat := do
  let d ← r.denominator.evaluate v
  if d = 0 then none
  else
    let n ← r.numerator.evaluate v
    some (n / d)

/-- A part of a fraction, in parentheses if it has more than one term. -/
def renderPart (p : Polynomial) : String :=
  if 1 < p.terms.length then "(" ++ p.render ++ ")" else p.render

/-- The text of a fraction: `numerator/denominator`, or the numerator alone over one. -/
def render (r : RationalFunction) : String :=
  if r.denominator.isOne then r.numerator.render
  else renderPart r.numerator ++ "/" ++ renderPart r.denominator

end RationalFunction

end MarkovElimination
