import MarkovElimination.Number.Rational

/-! # Tokens of arithmetic expressions

An expression is cut into **numbers** (digits and points with an optional exponent), **identifiers**
and the symbols `+ - * / ^ ( )`; blanks between them are skipped. -/

namespace MarkovElimination.Expression

/-- The operators and parentheses. -/
inductive Symbol where
  | plus
  | minus
  | times
  | over
  | power
  | openParenthesis
  | closeParenthesis
deriving DecidableEq

/-- The character of a symbol. -/
def Symbol.char : Symbol → Char
  | .plus => '+'
  | .minus => '-'
  | .times => '*'
  | .over => '/'
  | .power => '^'
  | .openParenthesis => '('
  | .closeParenthesis => ')'

/-- All symbols. -/
def Symbol.all : List Symbol :=
  [.plus, .minus, .times, .over, .power, .openParenthesis, .closeParenthesis]

/-- The symbol of a character. -/
def Symbol.ofChar? (c : Char) : Option Symbol :=
  Symbol.all.find? fun s => s.char == c

/-- The words of arithmetic expressions. -/
inductive Token where
  | number (text : List Char)
  | identifier (name : List Char)
  | symbol (s : Symbol)
deriving DecidableEq

/-- A character of the mantissa of a number. -/
def isMantissaChar (c : Char) : Bool := c.isDigit || c == '.'

/-- A character that can start an identifier. -/
def isIdentifierStart (c : Char) : Bool := c.isAlpha || c == '_'

/-- A character that can continue an identifier. -/
def isIdentifierChar (c : Char) : Bool := c.isAlphanum || c == '_'

/-- An optional sign at the start of a text and the text behind it. -/
def scanSign : List Char → List Char × List Char
  | '-' :: after => (['-'], after)
  | '+' :: after => (['+'], after)
  | text => ([], text)

/-- An exponent at the start of a text and the text behind it. Without digits there
is no exponent. -/
def scanExponent : List Char → List Char × List Char
  | [] => ([], [])
  | mark :: rest =>
    if isExponentMark mark && !((scanSign rest).2.takeWhile Char.isDigit).isEmpty then
      (mark :: (scanSign rest).1 ++ (scanSign rest).2.takeWhile Char.isDigit,
        (scanSign rest).2.dropWhile Char.isDigit)
    else ([], mark :: rest)

/-- What follows a sign is not longer than the text. -/
theorem length_scanSign_le (text : List Char) : (scanSign text).2.length ≤ text.length := by
  unfold scanSign
  split <;> simp

/-- What follows an exponent is not longer than the text. -/
theorem length_scanExponent_le (text : List Char) :
    (scanExponent text).2.length ≤ text.length := by
  unfold scanExponent
  split
  · simp
  · rename_i mark rest
    have h₁ := (List.dropWhile_suffix Char.isDigit (l := (scanSign rest).2)).length_le
    have h₂ := length_scanSign_le rest
    split <;> simp only [List.length_cons] <;> omega

/-- The tokens of a text. -/
def tokenize : List Char → Except ReadReason (List Token)
  | [] => pure []
  | c :: rest =>
    if Text.isBlank c then tokenize rest
    else if isMantissaChar c then do
      let mantissa := c :: rest.takeWhile isMantissaChar
      let exponent := scanExponent (rest.dropWhile isMantissaChar)
      let tokens ← tokenize exponent.2
      pure (.number (mantissa ++ exponent.1) :: tokens)
    else if isIdentifierStart c then do
      let tokens ← tokenize (rest.dropWhile isIdentifierChar)
      pure (.identifier (c :: rest.takeWhile isIdentifierChar) :: tokens)
    else
      match Symbol.ofChar? c with
      | some s => do pure (.symbol s :: (← tokenize rest))
      | none => throw (.unexpectedCharacter c)
termination_by text => text.length
decreasing_by
  · simp
  · have h₁ := length_scanExponent_le (rest.dropWhile isMantissaChar)
    have h₂ := (List.dropWhile_suffix isMantissaChar (l := rest)).length_le
    simp only [List.length_cons]
    omega
  · have h₂ := (List.dropWhile_suffix isIdentifierChar (l := rest)).length_le
    simp only [List.length_cons]
    omega
  · simp

end MarkovElimination.Expression
