import MarkovElimination.Checking.Conditional

/-! # Checking properties

The value of a property in the initial state of a chain. Conditional probabilities are computed for
two reached targets only. -/

namespace MarkovElimination

variable {α : Type}

/-- Whether a property is of a form that can be checked. -/
def Property.isSupported : Property → Bool
  | .reward _ => true
  | .probability (.eventually _) => true
  | .probability (.until _ _) => true
  | .probability (.conditional (.eventually _) (.eventually _)) => true
  | .probability (.conditional _ _) => false

/-- The value of a property. -/
def Chain.check [Weight α] (c : Chain α) (config : EliminationConfig) (property : Property) :
    Checked (CheckResult α) := do
  let states (formula : StateFormula) := Checked.ofExcept (c.satisfying formula)
  match property with
  | .reward target => c.checkReward config (← states target)
  | .probability (.eventually target) => c.checkUntil config (.full c.size) (← states target)
  | .probability (.until invariant goal) =>
    let invariant ← states invariant
    c.checkUntil config invariant (← states goal)
  | .probability (.conditional (.eventually event) (.eventually condition)) =>
    let event ← states event
    c.checkConditional config event (← states condition)
  | .probability (.conditional _ _) => throw (.unsupportedProperty property)

end MarkovElimination
