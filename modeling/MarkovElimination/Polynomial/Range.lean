import MarkovElimination.Polynomial.Gcd

/-! # The range of exponents

Polynomials are computed without any bound on their exponents, but an exponent is **in range** only
if it is an unsigned 32-bit integer. Beside each operation stands a predicate that tells whether all
products that the operation forms have their exponents in range. In a product the degrees in every
parameter are added, so the degrees of the factors decide. -/

namespace MarkovElimination

/-- The least natural number that is too large for an exponent. -/
def degreeBound : Nat := 4294967296

namespace Polynomial

/-- Whether the products of the terms of two polynomials have exponents in range. -/
def mulFits (p q : Polynomial) : Bool :=
  (jointParameters p q).all fun x => p.degreeIn x + q.degreeIn x < degreeBound

/-- Whether the powers of a polynomial up to the given one have exponents in range. -/
def powFits (p : Polynomial) (n : Nat) : Bool :=
  p.parameters.all fun x => p.degreeIn x * n < degreeBound

/-! ### Exact division -/

/-- Whether the exponents stay in range while leading terms are cancelled as in
`divideRemainder`. -/
def divisionFits (ps : List Parameter) (divisor : Polynomial) (lead : Term)
    (remainder : Polynomial) : Bool :=
  match remainder.leading? with
  | none => true
  | some t =>
    match t.monomial.div? lead.monomial with
    | none => true
    | some m =>
      let factor : Term := ⟨m, t.coefficient / lead.coefficient⟩
      let next := remainder - mulTerm factor divisor
      if Exponents.Less ("" :: ps) (next.rank ps) (remainder.rank ps) then
        mulFits (ofTerm factor) divisor && divisionFits ps divisor lead next
      else true
termination_by remainder.rank ps
decreasing_by assumption

/-- Whether the exponents stay in range while two polynomials are divided. -/
def quotientFits (p divisor : Polynomial) : Bool :=
  match divisor.leading? with
  | none => true
  | some lead => divisor.isConstant || divisionFits (jointParameters p divisor) divisor lead p

/-! ### Greatest common divisors

The quotients by a content are exact, so their degrees only fall; what can leave the range is the
pseudo-division and the greatest common divisors of coefficients. -/

/-- Whether the products of one step of pseudo-division have exponents in range. -/
def pseudoStepFits (x : Parameter) (remainder divisor : Polynomial) : Bool :=
  let shift := remainder.degreeIn x - divisor.degreeIn x
  let top := remainder.coefficientIn x (remainder.degreeIn x)
  mulFits (divisor.coefficientIn x (divisor.degreeIn x)) remainder &&
    mulFits (mulTerm ⟨.ofPower x shift, 1⟩ top) divisor

/-- Whether the exponents stay in range during a pseudo-division. -/
def pseudoRemainderFits (x : Parameter) (remainder divisor : Polynomial) : Bool :=
  if remainder.isZero || remainder.degreeIn x < divisor.degreeIn x then true
  else
    pseudoStepFits x remainder divisor &&
      let next := pseudoStep x remainder divisor
      if next.degreeIn x < remainder.degreeIn x then pseudoRemainderFits x next divisor
      else true
termination_by remainder.degreeIn x

/-- A greatest common divisor together with the predicate that it stays in range. -/
structure BoundedGcd where
  gcd : Polynomial → Polynomial → Polynomial
  fits : Polynomial → Polynomial → Bool

/-- Whether the greatest common divisors of a polynomial and a list of others, taken one after the
other, stay in range. -/
def BoundedGcd.foldFits (b : BoundedGcd) : Polynomial → List Polynomial → Bool
  | _, [] => true
  | common, c :: cs => b.fits common c && b.foldFits (b.gcd common c) cs

/-- Whether the content in `x` stays in range. -/
def contentFits (b : BoundedGcd) (x : Parameter) (p : Polynomial) : Bool :=
  b.foldFits 0 (p.coefficientsIn x)

/-- Whether the exponents stay in range in the remainder sequence of `f` and `g` in `x`. -/
def primitiveGcdFits (b : BoundedGcd) (x : Parameter) (f g : Polynomial) : Bool :=
  pseudoRemainderFits x f g &&
    let remainder := pseudoRemainder x f g
    if remainder.isZero || remainder.degreeIn x = 0 then true
    else
      contentFits b x remainder &&
        let next := primitivePartIn b.gcd x remainder
        if next.degreeIn x < g.degreeIn x then primitiveGcdFits b x g next else true
termination_by g.degreeIn x

/-- Whether the greatest common divisor of two polynomials in the given parameters stays in
range. -/
def gcdInFits : List Parameter → Polynomial → Polynomial → Bool
  | [], _, _ => true
  | x :: xs, a, b =>
    if a.isZero || b.isZero || a.isConstant || b.isConstant then true
    else
      let inner : BoundedGcd := ⟨gcdIn xs, gcdInFits xs⟩
      if a.degreeIn x = 0 then
        contentFits inner x b && gcdInFits xs a (contentIn (gcdIn xs) x b)
      else if b.degreeIn x = 0 then
        contentFits inner x a && gcdInFits xs (contentIn (gcdIn xs) x a) b
      else
        contentFits inner x a && contentFits inner x b &&
          gcdInFits xs (contentIn (gcdIn xs) x a) (contentIn (gcdIn xs) x b) &&
          let f := primitivePartIn (gcdIn xs) x a
          let g := primitivePartIn (gcdIn xs) x b
          if b.degreeIn x ≤ a.degreeIn x then primitiveGcdFits inner x f g
          else primitiveGcdFits inner x g f

/-- Whether the greatest common divisor of two polynomials stays in range. -/
def gcdFits (a b : Polynomial) : Bool :=
  gcdInFits (jointParameters a b) a b

end Polynomial

end MarkovElimination
