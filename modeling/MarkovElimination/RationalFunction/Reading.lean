import MarkovElimination.RationalFunction.Token
import MarkovElimination.RationalFunction.Weight

/-! # Reading rational functions

Expressions follow the grammar

* expression: terms joined by `+` and `-`,
* term: unaries joined by `*` and `/`,
* unary: `-` unary, `+` unary, or a power,
* power: an atom with an optional `^` and a natural number,
* atom: a number, an identifier, or an expression in parentheses.

Operators of one level associate to the left. A reader takes its construct from the front of a token
list and returns the value with the rest, which is shorter. Values are computed while they are read,
so an operation that leaves the range of exponents is a fault in front of any later error. -/

namespace MarkovElimination.Expression

/-- A value read from the front of a token list, with the unread rest. -/
structure Read (tokens : List Token) where
  value : RationalFunction
  rest : List Token
  /-- Something was read. -/
  shorter : rest.length < tokens.length

/-- A value continued from the front of a token list, with the unread rest. -/
structure ReadOn (tokens : List Token) where
  value : RationalFunction
  rest : List Token
  /-- Something may have been read. -/
  noLonger : rest.length ≤ tokens.length

/-- The value of an operation, which may be a fault. -/
def computed {α : Type} (value : Except Fault α) : Except ReadError α := value.mapError .fault

/-- The exponent behind an atom, if there is one. -/
def readPower (source : List Char) (base : RationalFunction) (tokens : List Token) :
    Except ReadError (ReadOn tokens) :=
  match tokens with
  | .symbol .power :: .number digits :: rest =>
    match Text.unsigned? degreeBound digits with
    | some n => do pure ⟨← computed (base.checkedPow n), rest, Nat.le_add_right _ 2⟩
    | none => throw (.invalid source .negativeExponent)
  | .symbol .power :: _ => throw (.invalid source .missingExponent)
  | tokens => pure ⟨base, tokens, Nat.le_refl _⟩

mutual

/-- Terms joined by `+` and `-`. -/
def readExpression (source : List Char) (tokens : List Token) : Except ReadError (Read tokens) := do
  let ⟨first, rest, h⟩ ← readTerm source tokens
  let ⟨value, rest', h'⟩ ← readSum source first rest
  pure ⟨value, rest', Nat.lt_of_le_of_lt h' h⟩
termination_by (tokens.length, 4)

/-- The terms that follow a first one. -/
def readSum (source : List Char) (left : RationalFunction) (tokens : List Token) :
    Except ReadError (ReadOn tokens) :=
  match tokens with
  | .symbol .plus :: rest => do
    let ⟨right, rest', h⟩ ← readTerm source rest
    let sum ← computed (Weight.checkedAdd left right)
    let ⟨value, rest'', h'⟩ ← readSum source sum rest'
    pure ⟨value, rest'', Nat.le_succ_of_le (Nat.le_trans h' (Nat.le_of_lt h))⟩
  | .symbol .minus :: rest => do
    let ⟨right, rest', h⟩ ← readTerm source rest
    let difference ← computed (Weight.checkedSub left right)
    let ⟨value, rest'', h'⟩ ← readSum source difference rest'
    pure ⟨value, rest'', Nat.le_succ_of_le (Nat.le_trans h' (Nat.le_of_lt h))⟩
  | tokens => pure ⟨left, tokens, Nat.le_refl _⟩
termination_by (tokens.length, 0)

/-- Unaries joined by `*` and `/`. -/
def readTerm (source : List Char) (tokens : List Token) : Except ReadError (Read tokens) := do
  let ⟨first, rest, h⟩ ← readUnary source tokens
  let ⟨value, rest', h'⟩ ← readProduct source first rest
  pure ⟨value, rest', Nat.lt_of_le_of_lt h' h⟩
termination_by (tokens.length, 3)

/-- The unaries that follow a first one. -/
def readProduct (source : List Char) (left : RationalFunction) (tokens : List Token) :
    Except ReadError (ReadOn tokens) :=
  match tokens with
  | .symbol .times :: rest => do
    let ⟨right, rest', h⟩ ← readUnary source rest
    let product ← computed (Weight.checkedMul left right)
    let ⟨value, rest'', h'⟩ ← readProduct source product rest'
    pure ⟨value, rest'', Nat.le_succ_of_le (Nat.le_trans h' (Nat.le_of_lt h))⟩
  | .symbol .over :: rest => do
    let ⟨right, rest', h⟩ ← readUnary source rest
    computed (requireRange right.simplifyFits)
    if right.isZero then throw (.invalid source .divisionByZero)
    let quotient ← computed (left.checkedQuotient right)
    let ⟨value, rest'', h'⟩ ← readProduct source quotient rest'
    pure ⟨value, rest'', Nat.le_succ_of_le (Nat.le_trans h' (Nat.le_of_lt h))⟩
  | tokens => pure ⟨left, tokens, Nat.le_refl _⟩
termination_by (tokens.length, 0)

/-- A power behind any number of signs. -/
def readUnary (source : List Char) (tokens : List Token) : Except ReadError (Read tokens) :=
  match tokens with
  | .symbol .minus :: rest => do
    let ⟨value, rest', h⟩ ← readUnary source rest
    pure ⟨-value, rest', Nat.lt_succ_of_lt h⟩
  | .symbol .plus :: rest => do
    let ⟨value, rest', h⟩ ← readUnary source rest
    pure ⟨value, rest', Nat.lt_succ_of_lt h⟩
  | tokens => do
    let ⟨base, rest, h⟩ ← readAtom source tokens
    let ⟨value, rest', h'⟩ ← readPower source base rest
    pure ⟨value, rest', Nat.lt_of_le_of_lt h' h⟩
termination_by (tokens.length, 2)

/-- A number, an identifier or an expression in parentheses. -/
def readAtom (source : List Char) (tokens : List Token) : Except ReadError (Read tokens) :=
  match tokens with
  | [] => throw (.invalid source .endOfInput)
  | .number text :: rest => do
    let value ← readRational text
    pure ⟨.const value, rest, Nat.lt_succ_self _⟩
  | .identifier name :: rest => pure ⟨.ofParameter (String.ofList name), rest,
      Nat.lt_succ_self _⟩
  | .symbol .openParenthesis :: rest => do
    let ⟨value, rest', h⟩ ← readExpression source rest
    match rest', h with
    | .symbol .closeParenthesis :: rest'', h =>
      pure ⟨value, rest'', Nat.lt_succ_of_lt (Nat.lt_of_succ_lt h)⟩
    | _, _ => throw (.invalid source .missingParenthesis)
  | .symbol s :: _ => throw (.invalid source (.unexpectedSymbol s.char))
termination_by (tokens.length, 1)

end

/-- The value of a token list that is one expression from start to end. -/
def readAll (source : List Char) (tokens : List Token) : Except ReadError RationalFunction := do
  let ⟨value, rest, _⟩ ← readExpression source tokens
  if rest.isEmpty then pure value else throw (.invalid source .trailingInput)

end MarkovElimination.Expression

namespace MarkovElimination

/-- The rational function written by an expression, in canonical form. -/
def readRationalFunction (text : List Char) : Except ReadError RationalFunction := do
  let tokens ← (Expression.tokenize text).mapError (.invalid text)
  let value ← Expression.readAll text tokens
  Expression.computed (Weight.checkedSimplify value)

instance : WeightText RationalFunction where
  read := readRationalFunction
  render := RationalFunction.render

end MarkovElimination
