import MarkovElimination.Polynomial.Monomial
import MarkovElimination.Number.Rational

/-! # Polynomials

A **polynomial** in several parameters with rational coefficients, kept as its terms in *decreasing*
order of their monomials and without zero coefficients. The first term is the leading one, and two
polynomials are equal exactly if their term lists are. -/

namespace MarkovElimination

/-- A monomial with its coefficient. -/
structure Term where
  monomial : Monomial
  coefficient : Rat
deriving DecidableEq

/-- A sum of terms. -/
structure Polynomial where
  /-- The terms in decreasing order of their monomials. -/
  terms : List Term
deriving DecidableEq

/-- Values for parameters; a parameter may have none. -/
abbrev Valuation := Parameter → Option Rat

/-- The valuation of a list of bindings, a later binding of a parameter hiding an earlier one. -/
def Valuation.ofList (bindings : List (Parameter × Rat)) : Valuation :=
  fun p => (bindings.reverse.find? fun binding => binding.1 == p).map (·.2)

namespace Polynomial

/-- Monomials are well formed and strictly decrease, and no coefficient is zero. -/
def WellFormed (p : Polynomial) : Prop :=
  p.terms.Pairwise (fun s t => compare s.monomial t.monomial = .gt) ∧
    ∀ t ∈ p.terms, t.monomial.WellFormed ∧ t.coefficient ≠ 0

/-- The empty sum. -/
def zero : Polynomial := ⟨[]⟩

/-- A single term, which vanishes if its coefficient is zero. -/
def ofTerm (t : Term) : Polynomial :=
  if t.coefficient = 0 then zero else ⟨[t]⟩

/-- A constant polynomial. -/
def const (c : Rat) : Polynomial := ofTerm ⟨.one, c⟩

/-- The constant one. -/
def one : Polynomial := const 1

/-- A parameter as a polynomial. -/
def ofParameter (p : Parameter) : Polynomial := ofTerm ⟨.ofParameter p, 1⟩

instance : Zero Polynomial := ⟨zero⟩
instance : One Polynomial := ⟨one⟩
instance : Inhabited Polynomial := ⟨zero⟩

/-- Whether a polynomial is the empty sum. -/
def isZero (p : Polynomial) : Bool := p.terms.isEmpty

/-- The value of a polynomial without parameters. -/
def constant? (p : Polynomial) : Option Rat :=
  match p.terms with
  | [] => some 0
  | [t] => if t.monomial.isOne then some t.coefficient else none
  | _ => none

/-- Whether a polynomial has no parameters. -/
def isConstant (p : Polynomial) : Bool := p.constant?.isSome

/-- Whether a polynomial is the constant one. -/
def isOne (p : Polynomial) : Bool := p.constant? == some 1

/-- The leading term, that of the greatest monomial. -/
def leading? (p : Polynomial) : Option Term := p.terms.head?

/-- A key put in its place of an increasing list of keys, unless it is already there. -/
def insertKey {κ : Type} [Ord κ] (key : κ) : List κ → List κ
  | [] => [key]
  | first :: rest =>
    match compare key first with
    | .lt => key :: first :: rest
    | .eq => first :: rest
    | .gt => first :: insertKey key rest

/-- The parameters that occur in a polynomial, in increasing order. -/
def parameters (p : Polynomial) : List Parameter :=
  (p.terms.flatMap (·.monomial.parameters)).foldr insertKey []

/-- The greatest exponent of a parameter. -/
def degreeIn (x : Parameter) (p : Polynomial) : Nat :=
  (p.terms.map (·.monomial.degreeIn x)).foldl max 0

/-- Two decreasing lists of terms merged, coefficients of a common monomial added. -/
def addTerms : List Term → List Term → List Term
  | [], us => us
  | t :: ts, [] => t :: ts
  | t :: ts, u :: us =>
    match compare t.monomial u.monomial with
    | .gt => t :: addTerms ts (u :: us)
    | .lt => u :: addTerms (t :: ts) us
    | .eq =>
      if t.coefficient + u.coefficient = 0 then addTerms ts us
      else ⟨t.monomial, t.coefficient + u.coefficient⟩ :: addTerms ts us

/-- The sum of two polynomials. -/
def add (p q : Polynomial) : Polynomial := ⟨addTerms p.terms q.terms⟩

/-- All coefficients negated. -/
def neg (p : Polynomial) : Polynomial :=
  ⟨p.terms.map fun t => ⟨t.monomial, -t.coefficient⟩⟩

/-- The difference of two polynomials. -/
def sub (p q : Polynomial) : Polynomial := p.add q.neg

/-- The product with a term whose coefficient is not zero. -/
def mulTerm (t : Term) (p : Polynomial) : Polynomial :=
  ⟨p.terms.map fun u => ⟨t.monomial * u.monomial, t.coefficient * u.coefficient⟩⟩

/-- The product of two polynomials, term by term. -/
def mul (p q : Polynomial) : Polynomial :=
  p.terms.foldr (fun t sum => (mulTerm t q).add sum) zero

instance : Add Polynomial := ⟨add⟩
instance : Sub Polynomial := ⟨sub⟩
instance : Neg Polynomial := ⟨neg⟩
instance : Mul Polynomial := ⟨mul⟩

/-- The product with a rational number. -/
def scale (c : Rat) (p : Polynomial) : Polynomial :=
  if c = 0 then zero else ⟨p.terms.map fun t => ⟨t.monomial, t.coefficient * c⟩⟩

/-- A power of a polynomial, by repeated multiplication. -/
def pow (p : Polynomial) (n : Nat) : Polynomial :=
  Nat.repeat (fun power => power * p) n 1

/-- The multiple with leading coefficient one; zero stays zero. -/
def monic (p : Polynomial) : Polynomial :=
  match p.leading? with
  | none => zero
  | some t => p.scale t.coefficient⁻¹

/-- The value of a monomial, if all its parameters have one. -/
def evaluateFactors (v : Valuation) : List Factor → Option Rat
  | [] => some 1
  | f :: fs => do
    let value ← v f.parameter
    let rest ← evaluateFactors v fs
    some (value ^ f.exponent * rest)

/-- The value of a sum of terms, if all its parameters have one. -/
def evaluateTerms (v : Valuation) : List Term → Option Rat
  | [] => some 0
  | t :: ts => do
    let value ← evaluateFactors v t.monomial.factors
    let rest ← evaluateTerms v ts
    some (t.coefficient * value + rest)

/-- The value of a polynomial, if all its parameters have one. -/
def evaluate (v : Valuation) (p : Polynomial) : Option Rat :=
  evaluateTerms v p.terms

/-- The coefficient of `x^i`, a polynomial in the other parameters. -/
def coefficientIn (x : Parameter) (i : Nat) (p : Polynomial) : Polynomial :=
  ⟨(p.terms.filter fun t => t.monomial.degreeIn x == i).map fun t =>
    ⟨t.monomial.erase x, t.coefficient⟩⟩

/-- The exponents of `x` in the terms of a polynomial, in increasing order. -/
def exponentsIn (x : Parameter) (p : Polynomial) : List Nat :=
  p.terms.foldl (fun exponents t => insertKey (t.monomial.degreeIn x) exponents) []

/-- The coefficients of the powers of `x` that occur, by increasing exponent. A dense list would
have one entry for each power up to the degree, which are as many as there are exponents in range;
its other entries are zero (`coefficientsIn_eq_filter`) and do not change a greatest common divisor
(`checkedGcdIn_of_isZero`). -/
def coefficientsIn (x : Parameter) (p : Polynomial) : List Polynomial :=
  (p.exponentsIn x).map fun i => p.coefficientIn x i

/-- The text of a term without its sign. -/
def renderTerm (t : Term) : String :=
  let magnitude := if t.coefficient < 0 then -t.coefficient else t.coefficient
  if t.monomial.isOne then renderRational magnitude
  else if magnitude = 1 then t.monomial.render
  else renderRational magnitude ++ "*" ++ t.monomial.render

/-- The terms from the second one on, each behind its sign. -/
def renderTail : List Term → String
  | [] => ""
  | t :: ts => (if t.coefficient < 0 then " - " else " + ") ++ renderTerm t ++ renderTail ts

/-- The terms in decreasing order joined by their signs; the empty sum is `0`. -/
def render (p : Polynomial) : String :=
  match p.terms with
  | [] => "0"
  | t :: ts => (if t.coefficient < 0 then "-" else "") ++ renderTerm t ++ renderTail ts

end Polynomial

end MarkovElimination
