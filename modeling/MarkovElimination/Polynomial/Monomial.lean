/-! # Monomials

A **monomial** is a product of powers of named parameters, kept as its factors in increasing order
of the parameters, each with a positive exponent. Monomials are ordered lexicographically: of two
monomials the greater one has the greater exponent at the first parameter where they differ, a
missing parameter counting as exponent zero. -/

namespace MarkovElimination

/-- A parameter is known by its name; names are ordered by their code points. -/
abbrev Parameter := String

/-- A power of a parameter. -/
structure Factor where
  parameter : Parameter
  exponent : Nat
deriving DecidableEq

/-- A product of powers of parameters. -/
structure Monomial where
  /-- The factors in increasing order of their parameters. -/
  factors : List Factor
deriving DecidableEq

namespace Monomial

/-- Parameters strictly increase and every exponent is positive. -/
def WellFormed (m : Monomial) : Prop :=
  m.factors.Pairwise (fun f g => f.parameter < g.parameter) ∧ ∀ f ∈ m.factors, 0 < f.exponent

/-- The empty product. -/
def one : Monomial := ⟨[]⟩

/-- A parameter as a monomial. -/
def ofParameter (p : Parameter) : Monomial := ⟨[⟨p, 1⟩]⟩

/-- A power of a parameter. -/
def ofPower (p : Parameter) (exponent : Nat) : Monomial :=
  if exponent = 0 then one else ⟨[⟨p, exponent⟩]⟩

/-- Whether a monomial is the empty product. -/
def isOne (m : Monomial) : Bool := m.factors.isEmpty

/-- The exponent of a parameter, zero if the parameter does not occur. -/
def degreeIn (p : Parameter) (m : Monomial) : Nat :=
  ((m.factors.find? fun f => f.parameter == p).map (·.exponent)).getD 0

/-- The parameters that occur in a monomial. -/
def parameters (m : Monomial) : List Parameter :=
  m.factors.map (·.parameter)

/-- Two sorted lists of factors merged, exponents of a common parameter added. -/
def mulFactors : List Factor → List Factor → List Factor
  | [], gs => gs
  | f :: fs, [] => f :: fs
  | f :: fs, g :: gs =>
    match compare f.parameter g.parameter with
    | .lt => f :: mulFactors fs (g :: gs)
    | .gt => g :: mulFactors (f :: fs) gs
    | .eq => ⟨f.parameter, f.exponent + g.exponent⟩ :: mulFactors fs gs

/-- The product of two monomials. -/
def mul (m n : Monomial) : Monomial := ⟨mulFactors m.factors n.factors⟩

instance : Mul Monomial := ⟨mul⟩

/-- The factors of a quotient, if every factor of the divisor can be taken out. -/
def divFactors? : List Factor → List Factor → Option (List Factor)
  | fs, [] => some fs
  | [], _ :: _ => none
  | f :: fs, g :: gs =>
    match compare g.parameter f.parameter with
    | .lt => none
    | .gt => (divFactors? fs (g :: gs)).map (f :: ·)
    | .eq =>
      if f.exponent < g.exponent then none
      else
        (divFactors? fs gs).map fun rest =>
          if f.exponent = g.exponent then rest
          else ⟨f.parameter, f.exponent - g.exponent⟩ :: rest

/-- The quotient of two monomials, if the second divides the first. -/
def div? (m n : Monomial) : Option Monomial :=
  (divFactors? m.factors n.factors).map (⟨·⟩)

/-- The monomial without the factor of one parameter. -/
def erase (p : Parameter) (m : Monomial) : Monomial :=
  ⟨m.factors.filter fun f => f.parameter != p⟩

/-- The lexicographic comparison of two sorted lists of factors. -/
def compareFactors : List Factor → List Factor → Ordering
  | [], [] => .eq
  | _ :: _, [] => .gt
  | [], _ :: _ => .lt
  | f :: fs, g :: gs =>
    match compare f.parameter g.parameter with
    | .lt => .gt
    | .gt => .lt
    | .eq => (compare f.exponent g.exponent).then (compareFactors fs gs)

instance : Ord Monomial := ⟨fun m n => compareFactors m.factors n.factors⟩

/-- The text of a factor: `p` or `p^2`. -/
def renderFactor (f : Factor) : String :=
  if f.exponent = 1 then f.parameter else f.parameter ++ "^" ++ toString f.exponent

/-- The factors joined by asterisks; the empty product has the empty text. -/
def render (m : Monomial) : String :=
  "*".intercalate (m.factors.map renderFactor)

end Monomial

end MarkovElimination
