import MarkovElimination.Checking.Result
import MarkovElimination.Checking.Satisfaction
import MarkovElimination.Elimination.Strategy

/-! # Reachability probabilities and rewards

Graph analysis first finds the states whose value is known: those of probability zero or one, and
those that miss the target with positive probability, whose reward is infinite. If the initial state
is not among them, the **maybe states** that it reaches form a smaller chain, and all of its states
but the initial one are eliminated. -/

namespace MarkovElimination

variable {α : Type} [Weight α]

/-- What graph analysis says about an until formula in the initial state. -/
inductive UntilAnalysis (α : Type) where
  /-- The formula holds with probability one, or with probability zero. -/
  | settled (holds : Bool)
  /-- The maybe states that the initial state reaches, and for each of them the probability of a
  step into the states of probability one. -/
  | undecided (maybe : StateSet) (oneStep : List α)

/-- The states whose value is not zero, for a list of values. -/
def supportOf (values : List α) : StateSet := ⟨(values.map fun v => !Weight.isZero v).toArray⟩

namespace Chain

/-- Graph analysis of `invariant U goal`. -/
def analyseUntil (c : Chain α) (initial : Nat) (invariant goal : StateSet) :
    Except Fault (UntilAnalysis α) :=
  let (zero, one) := c.graph.probZeroOne invariant goal
  if zero.contains initial then pure (.settled false)
  else if one.contains initial then pure (.settled true)
  else
    let undecided := (zero.union one).complement
    let maybe := (c.graph.reachable c.initial undecided one).inter undecided
    (c.transitions.checkedRowSums maybe one).map (.undecided maybe)

/-- The position of a state among the members of a set. -/
def positionIn (set : StateSet) (s : Nat) : Nat := set.toList.idxOf s

/-- Restricts the chain to the maybe states and eliminates all but the initial state. The values and
the targets are numbered like the maybe states. -/
def eliminateMaybe (c : Chain α) (config : EliminationConfig) (initial : Nat) (maybe : StateSet)
    (mode : ValueMode) (values : List α) (targets : StateSet) : Checked (CheckResult α) := do
  let matrix := c.transitions.submatrix maybe maybe
  let problem ← Checked.ofFault (Problem.ofMatrix mode matrix values)
  let problem ← Checked.ofMonitored
    (problem.eliminateAllExcept config (Graph.ofMatrix matrix) (c.initial.compress maybe) targets)
  let (value, problem) ← Checked.ofMonitored (problem.eliminateLast (positionIn maybe initial))
  pure ⟨initial, .finite value, ⟨maybe.card, problem.eliminated, problem.depth⟩⟩

/-- The probability of `invariant U goal`: a state of the goal is reached, and only states of the
invariant are visited before. -/
def checkUntil (c : Chain α) (config : EliminationConfig) (invariant goal : StateSet) :
    Checked (CheckResult α) := do
  let initial ← Checked.ofExcept c.initialState
  Checked.checkpoint
  match ← Checked.ofFault (c.analyseUntil initial invariant goal) with
  | .settled holds => pure (.immediate initial (.finite (if holds then 1 else 0)) 0)
  | .undecided maybe oneStep =>
    c.eliminateMaybe config initial maybe .probabilities oneStep (supportOf oneStep)

/-- The reward of a state itself. -/
def stateReward (c : Chain α) (s : Nat) : α := (c.stateRewards.getD #[]).getD s 0

/-- The expected reward of one step from every given state. -/
def expectedRewards (c : Chain α) (states : StateSet) : Except Fault (List α) := do
  match c.transitionRewards with
  | none => pure (states.toList.map c.stateReward)
  | some rewards =>
    let expected := (← c.transitions.productRowSums rewards).toArray
    requireRange (states.toList.all fun s => Weight.sumFits (c.stateReward s) (expected.getD s 0))
    pure (states.toList.map fun s => Weight.simplify (c.stateReward s + expected.getD s 0))

/-- The expected reward that is collected until a state of the target is reached. -/
def checkReward (c : Chain α) (config : EliminationConfig) (target : StateSet) :
    Checked (CheckResult α) := do
  if !c.hasRewards then throw .missingRewardModel
  let initial ← Checked.ofExcept c.initialState
  Checked.checkpoint
  let positive := c.graph.probPositive (.full c.size) target
  let infinite := (c.graph.probOne target positive).complement
  if infinite.contains initial then pure (.immediate initial .infinite 0)
  else if target.contains initial then pure (.immediate initial (.finite 0) 0)
  else
    let undecided := (target.union infinite).complement
    let maybe := (c.graph.reachable c.initial undecided target).inter undecided
    let intoTarget ← Checked.ofFault (c.transitions.checkedRowSums maybe target)
    let rewards ← Checked.ofFault (c.expectedRewards maybe)
    c.eliminateMaybe config initial maybe .rewards rewards (supportOf intoTarget)

end Chain

end MarkovElimination
