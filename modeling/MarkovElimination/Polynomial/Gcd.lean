import MarkovElimination.Polynomial.Division

/-! # Greatest common divisors

The **monic** greatest common divisor of two polynomials over the rational numbers. The first
parameter is the main one: both arguments are split into their content, a greatest common divisor of
the coefficients that has one parameter less, and their primitive part. The primitive parts go
through a sequence of pseudo-remainders of falling degree. -/

namespace MarkovElimination.Polynomial

/-- One step of pseudo-division: the leading coefficients in `x` are made equal and cancelled. -/
def pseudoStep (x : Parameter) (remainder divisor : Polynomial) : Polynomial :=
  let shift := remainder.degreeIn x - divisor.degreeIn x
  let top := remainder.coefficientIn x (remainder.degreeIn x)
  divisor.coefficientIn x (divisor.degreeIn x) * remainder -
    mulTerm ⟨.ofPower x shift, 1⟩ top * divisor

/-- The remainder of pseudo-division in `x` by a divisor of positive degree in `x`. Each step lowers
the degree (`degreeIn_pseudoStep_lt`), so the test of it never fails. -/
def pseudoRemainder (x : Parameter) (remainder divisor : Polynomial) : Polynomial :=
  if remainder.isZero || remainder.degreeIn x < divisor.degreeIn x then remainder
  else
    let next := pseudoStep x remainder divisor
    if next.degreeIn x < remainder.degreeIn x then pseudoRemainder x next divisor
    else next
termination_by remainder.degreeIn x

/-- The content in `x`: the greatest common divisor of the coefficients. -/
def contentIn (gcd : Polynomial → Polynomial → Polynomial) (x : Parameter) (p : Polynomial) :
    Polynomial :=
  (p.coefficientsIn x).foldl gcd 0

/-- The quotient of a polynomial by its content in `x`. The content divides, so that there is always
a quotient (`ComputesGcd.quotient?_content`). -/
def primitivePartIn (gcd : Polynomial → Polynomial → Polynomial) (x : Parameter)
    (p : Polynomial) : Polynomial :=
  let content := contentIn gcd x p
  if content.isZero then 0 else (p.quotient? content).getD p

/-- The last primitive polynomial of the remainder sequence of `f` and `g` in `x`. The degree of `g`
in `x` falls with every round, as a remainder has a smaller degree (`pseudoRemainder_spec`) and a
primitive part keeps it (`ComputesGcd.degreeIn_primitivePart`); so the test of it never fails. -/
def primitiveGcd (gcd : Polynomial → Polynomial → Polynomial) (x : Parameter)
    (f g : Polynomial) : Polynomial :=
  let remainder := pseudoRemainder x f g
  if remainder.isZero then g
  else if remainder.degreeIn x = 0 then 1
  else
    let next := primitivePartIn gcd x remainder
    if next.degreeIn x < g.degreeIn x then primitiveGcd gcd x g next else g
termination_by g.degreeIn x

/-- The monic greatest common divisor of two polynomials in the given parameters. -/
def gcdIn : List Parameter → Polynomial → Polynomial → Polynomial
  | [], a, b => if a.isZero then b.monic else if b.isZero then a.monic else 1
  | x :: xs, a, b =>
    if a.isZero then b.monic
    else if b.isZero then a.monic
    else if a.isConstant || b.isConstant then 1
    else if a.degreeIn x = 0 then gcdIn xs a (contentIn (gcdIn xs) x b)
    else if b.degreeIn x = 0 then gcdIn xs (contentIn (gcdIn xs) x a) b
    else
      let content := gcdIn xs (contentIn (gcdIn xs) x a) (contentIn (gcdIn xs) x b)
      let f := primitivePartIn (gcdIn xs) x a
      let g := primitivePartIn (gcdIn xs) x b
      let last :=
        if b.degreeIn x ≤ a.degreeIn x then primitiveGcd (gcdIn xs) x f g
        else primitiveGcd (gcdIn xs) x g f
      (content * last).monic

/-- The monic greatest common divisor of two polynomials; zero only if both are zero. -/
def gcd (a b : Polynomial) : Polynomial :=
  gcdIn (jointParameters a b) a b

end MarkovElimination.Polynomial
