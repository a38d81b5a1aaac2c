import MarkovElimination.Fault
import MarkovElimination.Polynomial.Range

/-! # Checked operations

The operations as they run, with everything that can go wrong on the way: a product whose exponents
leave the range, a division by zero, a polynomial that is no multiple of its content, and a loop
that does not come closer to its end. The last two never happen: a checked operation returns what
the unbounded one does if its predicate holds, and the fault of the range otherwise
(`returnsIf_divExact`, `returnsIf_checkedGcd`). -/

namespace MarkovElimination

/-- All exponents of a monomial are in range. -/
def Monomial.InRange (m : Monomial) : Prop := ∀ f ∈ m.factors, f.exponent < degreeBound

instance (m : Monomial) : Decidable m.InRange :=
  inferInstanceAs (Decidable (∀ f ∈ m.factors, _))

/-- The product of two monomials, if its exponents stay in range. -/
def Monomial.checkedMul (m n : Monomial) : Except Fault Monomial :=
  if (m * n).InRange then pure (m * n) else throw .degreeOverflow

namespace Polynomial

/-- The product of two polynomials, if it stays in range. -/
def checkedMul (p q : Polynomial) : Except Fault Polynomial :=
  if p.mulFits q then pure (p * q) else throw .degreeOverflow

/-- A power of a polynomial, if it stays in range. -/
def checkedPow (p : Polynomial) (n : Nat) : Except Fault Polynomial :=
  if p.powFits n then pure (p.pow n) else throw .degreeOverflow

/-! ### Exact division -/

/-- The loop of an exact division: as long as something is left, its leading term is cancelled. -/
def cancelLeading (ps : List Parameter) (divisor : Polynomial) (lead : Term)
    (quotient remainder : Polynomial) : Except Fault (Option Polynomial) :=
  match remainder.leading? with
  | none => pure (some quotient)
  | some t =>
    match t.monomial.div? lead.monomial with
    | none => pure none
    | some m => do
      let factor : Term := ⟨m, t.coefficient / lead.coefficient⟩
      requireRange (mulFits (ofTerm factor) divisor)
      let next := remainder - mulTerm factor divisor
      if Exponents.Less ("" :: ps) (next.rank ps) (remainder.rank ps) then
        cancelLeading ps divisor lead (quotient + ofTerm factor) next
      else throw .stalled
termination_by remainder.rank ps
decreasing_by assumption

/-- Exact division: the quotient or the answer that there is none. Dividing by zero is a fault, and
so is a step that leaves the range. -/
def divExact (p divisor : Polynomial) : Except Fault (Option Polynomial) :=
  if divisor.isZero then throw .polynomialDivisionByZero
  else
    match divisor.constant? with
    | some c => pure (some (p.scale c⁻¹))
    | none =>
      match divisor.leading? with
      | none => pure none
      | some lead => cancelLeading (jointParameters p divisor) divisor lead 0 p

/-! ### Greatest common divisors -/

/-- The loop of a pseudo-division: as long as the degree allows, the leading coefficients are
cancelled. -/
def checkedPseudoRemainder (x : Parameter) (remainder divisor : Polynomial) :
    Except Fault Polynomial :=
  if remainder.isZero || remainder.degreeIn x < divisor.degreeIn x then pure remainder
  else do
    requireRange (pseudoStepFits x remainder divisor)
    let next := pseudoStep x remainder divisor
    if next.degreeIn x < remainder.degreeIn x then checkedPseudoRemainder x next divisor
    else throw .stalled
termination_by remainder.degreeIn x

/-- The content in `x`: the coefficients of all powers up to the degree, also those that are zero,
are put into a greatest common divisor one after the other. -/
def checkedContent (gcd : Polynomial → Polynomial → Except Fault Polynomial) (x : Parameter)
    (p : Polynomial) : Except Fault Polynomial :=
  ((List.range (p.degreeIn x + 1)).map (p.coefficientIn x)).foldlM gcd 0

/-- The quotient of a polynomial by its content in `x`. That the content divides is relied on. -/
def checkedPrimitivePart (gcd : Polynomial → Polynomial → Except Fault Polynomial)
    (x : Parameter) (p : Polynomial) : Except Fault Polynomial := do
  let content ← checkedContent gcd x p
  if content.isZero then pure 0
  else
    match ← p.divExact content with
    | some part => pure part
    | none => throw .contentRemainder

/-- The remainder sequence of `f` and `g` in `x`, down to its last primitive polynomial. -/
def checkedPrimitiveGcd (gcd : Polynomial → Polynomial → Except Fault Polynomial)
    (x : Parameter) (f g : Polynomial) : Except Fault Polynomial := do
  let remainder ← checkedPseudoRemainder x f g
  if remainder.isZero then pure g
  else if remainder.degreeIn x = 0 then pure 1
  else
    let next ← checkedPrimitivePart gcd x remainder
    if next.degreeIn x < g.degreeIn x then checkedPrimitiveGcd gcd x g next else throw .stalled
termination_by g.degreeIn x

/-- The monic greatest common divisor of two polynomials in the given parameters. -/
def checkedGcdIn : List Parameter → Polynomial → Polynomial → Except Fault Polynomial
  | [], a, b => pure (if a.isZero then b.monic else if b.isZero then a.monic else 1)
  | x :: xs, a, b =>
    if a.isZero then pure b.monic
    else if b.isZero then pure a.monic
    else if a.isConstant || b.isConstant then pure 1
    else if a.degreeIn x = 0 then do
      let content ← checkedContent (checkedGcdIn xs) x b
      checkedGcdIn xs a content
    else if b.degreeIn x = 0 then do
      let content ← checkedContent (checkedGcdIn xs) x a
      checkedGcdIn xs content b
    else do
      let first ← checkedContent (checkedGcdIn xs) x a
      let second ← checkedContent (checkedGcdIn xs) x b
      let content ← checkedGcdIn xs first second
      let f ← checkedPrimitivePart (checkedGcdIn xs) x a
      let g ← checkedPrimitivePart (checkedGcdIn xs) x b
      let last ←
        if b.degreeIn x ≤ a.degreeIn x then checkedPrimitiveGcd (checkedGcdIn xs) x f g
        else checkedPrimitiveGcd (checkedGcdIn xs) x g f
      let product ← content.checkedMul last
      pure product.monic

/-- The monic greatest common divisor of two polynomials. -/
def checkedGcd (a b : Polynomial) : Except Fault Polynomial :=
  checkedGcdIn (jointParameters a b) a b

end Polynomial

end MarkovElimination
