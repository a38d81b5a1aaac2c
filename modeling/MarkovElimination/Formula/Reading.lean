import MarkovElimination.Formula.Basic
import MarkovElimination.Formula.Token

/-! # Reading state formulas

The grammar has three levels: a disjunction joins conjunctions by `|`, a conjunction joins operands
by `&`, and an operand is a negated operand, a disjunction in parentheses or a name. Both
connectives associate to the left, and the names `true` and `false` are the constants. -/

namespace MarkovElimination.Formula

/-- A formula read from the front of a token list, with the unread rest. -/
structure Read (tokens : List Token) where
  formula : StateFormula
  rest : List Token
  /-- Something was read. -/
  shorter : rest.length < tokens.length

/-- A formula continued from the front of a token list, with the unread rest. -/
structure ReadOn (tokens : List Token) where
  formula : StateFormula
  rest : List Token
  /-- Something may have been read. -/
  noLonger : rest.length ≤ tokens.length

/-- What a name stands for. -/
def ofName (name : List Char) : StateFormula :=
  let text := String.ofList name
  if text = "true" then .true else if text = "false" then .false else .label text

mutual

/-- Conjunctions joined by `|`. -/
def readDisjunction (tokens : List Token) : Except ReadError (Read tokens) := do
  let ⟨first, rest, h⟩ ← readConjunction tokens
  let ⟨formula, rest', h'⟩ ← readDisjuncts first rest
  pure ⟨formula, rest', Nat.lt_of_le_of_lt h' h⟩
termination_by (tokens.length, 3)

/-- The conjunctions that follow a first one. -/
def readDisjuncts (left : StateFormula) (tokens : List Token) : Except ReadError (ReadOn tokens) :=
  match tokens with
  | .or :: rest => do
    let ⟨right, rest', h⟩ ← readConjunction rest
    let ⟨formula, rest'', h'⟩ ← readDisjuncts (.or left right) rest'
    pure ⟨formula, rest'', Nat.le_succ_of_le (Nat.le_trans h' (Nat.le_of_lt h))⟩
  | tokens => pure ⟨left, tokens, Nat.le_refl _⟩
termination_by (tokens.length, 0)

/-- Operands joined by `&`. -/
def readConjunction (tokens : List Token) : Except ReadError (Read tokens) := do
  let ⟨first, rest, h⟩ ← readOperand tokens
  let ⟨formula, rest', h'⟩ ← readConjuncts first rest
  pure ⟨formula, rest', Nat.lt_of_le_of_lt h' h⟩
termination_by (tokens.length, 2)

/-- The operands that follow a first one. -/
def readConjuncts (left : StateFormula) (tokens : List Token) : Except ReadError (ReadOn tokens) :=
  match tokens with
  | .and :: rest => do
    let ⟨right, rest', h⟩ ← readOperand rest
    let ⟨formula, rest'', h'⟩ ← readConjuncts (.and left right) rest'
    pure ⟨formula, rest'', Nat.le_succ_of_le (Nat.le_trans h' (Nat.le_of_lt h))⟩
  | tokens => pure ⟨left, tokens, Nat.le_refl _⟩
termination_by (tokens.length, 0)

/-- A negated operand, a disjunction in parentheses or a name. -/
def readOperand (tokens : List Token) : Except ReadError (Read tokens) :=
  match tokens with
  | [] => throw .endOfFormula
  | .not :: rest => do
    let ⟨inner, rest', h⟩ ← readOperand rest
    pure ⟨.not inner, rest', Nat.lt_succ_of_lt h⟩
  | .openParenthesis :: rest => do
    let ⟨inner, rest', h⟩ ← readDisjunction rest
    match rest', h with
    | .closeParenthesis :: rest'', h =>
      pure ⟨inner, rest'', Nat.lt_succ_of_lt (Nat.lt_of_succ_lt h)⟩
    | _, _ => throw .missingParenthesis
  | .name text :: rest => pure ⟨ofName text, rest, Nat.lt_succ_self _⟩
  | token :: _ => throw (.unexpectedToken token)
termination_by (tokens.length, 1)

end

/-- The formula of a token list that is one disjunction from start to end. -/
def readAll (source : List Char) (tokens : List Token) : Except ReadError StateFormula := do
  let ⟨formula, rest, _⟩ ← readDisjunction tokens
  match rest with
  | [] => pure formula
  | token :: _ => throw (.trailingToken token source)

/-- The state formula written by a text. -/
def read (text : List Char) : Except ReadError StateFormula := do
  readAll text (← tokenize text text)

end MarkovElimination.Formula
