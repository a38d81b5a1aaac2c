/-! # Formulas and properties

**State formulas** are propositional combinations of labels. **Path formulas** speak of what happens
along a run, and a **property** asks for the probability of a path formula or for the expected
reward that is collected until a state formula holds. Each has one written form. -/

namespace MarkovElimination

/-- A propositional combination of labels. -/
inductive StateFormula where
  | true
  | false
  | label (name : String)
  | not (inner : StateFormula)
  | and (left right : StateFormula)
  | or (left right : StateFormula)
deriving DecidableEq

/-- A statement about a run. -/
inductive PathFormula where
  /-- Some state of the run satisfies the target. -/
  | eventually (target : StateFormula)
  /-- The goal is reached, and the invariant holds before. -/
  | until (invariant goal : StateFormula)
  /-- The event under the assumption that the condition holds. -/
  | conditional (event condition : PathFormula)
deriving DecidableEq

/-- A question about a model. -/
inductive Property where
  /-- How likely is the path formula? -/
  | probability (path : PathFormula)
  /-- How much reward is expected until the target is reached? -/
  | reward (target : StateFormula)
deriving DecidableEq

/-- The written form of a state formula: labels in quotes, binary connectives in parentheses. -/
def StateFormula.render : StateFormula → String
  | .true => "true"
  | .false => "false"
  | .label name => "\"" ++ name ++ "\""
  | .not inner => "!" ++ inner.render
  | .and left right => "(" ++ left.render ++ " & " ++ right.render ++ ")"
  | .or left right => "(" ++ left.render ++ " | " ++ right.render ++ ")"

/-- The written form of a path formula. -/
def PathFormula.render : PathFormula → String
  | .eventually target => "F " ++ target.render
  | .until invariant goal => invariant.render ++ " U " ++ goal.render
  | .conditional event condition => event.render ++ " || " ++ condition.render

/-- The written form of a property. -/
def Property.render : Property → String
  | .probability path => "P=? [" ++ path.render ++ "]"
  | .reward target => "R=? [F " ++ target.render ++ "]"

end MarkovElimination
