import MarkovElimination.Text.Alphanumeric

/-! # Tokens of state formulas

A state formula is cut into connectives, parentheses and **names**. A name is a run of alphanumeric
characters and underscores, or any text between quotes. -/

namespace MarkovElimination.Formula

/-- The words of state formulas. -/
inductive Token where
  | not
  | and
  | or
  | openParenthesis
  | closeParenthesis
  | name (text : List Char)
deriving DecidableEq

/-- The text of a token; a quoted name loses its quotes. -/
def Token.render : Token → String
  | .not => "!"
  | .and => "&"
  | .or => "|"
  | .openParenthesis => "("
  | .closeParenthesis => ")"
  | .name text => String.ofList text

/-- Why a text is not a state formula. -/
inductive ReadError where
  /-- A quote is never closed. -/
  | unterminatedLabel (source : List Char)
  /-- A character belongs to no token. -/
  | unexpectedCharacter (c : Char) (source : List Char)
  /-- A complete formula is followed by more tokens. -/
  | trailingToken (token : Token) (source : List Char)
  /-- A parenthesis is never closed. -/
  | missingParenthesis
  /-- A token stands where an operand is needed. -/
  | unexpectedToken (token : Token)
  /-- The text ends where an operand is needed. -/
  | endOfFormula

/-- What is wrong with the text. -/
def ReadError.detail : ReadError → String
  | .unterminatedLabel source => "Unterminated label in `" ++ String.ofList source ++ "`."
  | .unexpectedCharacter c source =>
    "Unexpected `" ++ c.toString ++ "` in `" ++ String.ofList source ++ "`."
  | .trailingToken token source =>
    "Unexpected `" ++ token.render ++ "` in `" ++ String.ofList source ++ "`."
  | .missingParenthesis => "Missing `)`."
  | .unexpectedToken token => "Unexpected `" ++ token.render ++ "`."
  | .endOfFormula => "Unexpected end of formula."

/-- The wording of an error. -/
def ReadError.message (e : ReadError) : String := "Unsupported formula: " ++ e.detail

/-- A character of a name without quotes. -/
def isNameChar (c : Char) : Bool := Text.isAlphanumeric c || c == '_'

/-- The tokens of a text. -/
def tokenize (source : List Char) : List Char → Except ReadError (List Token)
  | [] => pure []
  | c :: rest =>
    if Text.isBlank c then tokenize source rest
    else if c = '!' then (tokenize source rest).map (.not :: ·)
    else if c = '&' then (tokenize source rest).map (.and :: ·)
    else if c = '|' then (tokenize source rest).map (.or :: ·)
    else if c = '(' then (tokenize source rest).map (.openParenthesis :: ·)
    else if c = ')' then (tokenize source rest).map (.closeParenthesis :: ·)
    else if c = '"' then
      match _h : Text.splitOnce (· == '"') rest with
      | some (name, after) => (tokenize source after).map (.name name :: ·)
      | none => throw (.unterminatedLabel source)
    else if isNameChar c then
      (tokenize source (rest.dropWhile isNameChar)).map
        (.name (c :: rest.takeWhile isNameChar) :: ·)
    else throw (.unexpectedCharacter c source)
termination_by text => text.length
decreasing_by
  case _ => simp
  case _ => simp
  case _ => simp
  case _ => simp
  case _ => simp
  case _ => simp
  case _ =>
    have h := (Text.length_lt_of_splitOnce _h).2
    simp only [List.length_cons]
    omega
  case _ =>
    have h := (List.dropWhile_suffix isNameChar (l := rest)).length_le
    simp only [List.length_cons]
    omega

end MarkovElimination.Formula
