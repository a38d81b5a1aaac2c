import MarkovElimination.Matrix.Builder
import MarkovElimination.Model.Chain
import MarkovElimination.Model.Error

/-! # Building Markov chains

A chain is built step by step: transitions, initial states, labels and rewards in any order. A step
with an argument out of range is refused and changes nothing. When the chain is complete, every row
has to sum to one; a row whose sum is not constant only has to have a transition. -/

namespace MarkovElimination

/-- The label of the initial states. -/
def initLabel : String := "init"

/-- How far the sum of a row may be from one when it is approximated. -/
def stochasticTolerance : Float := 1e-6

/-- What has been given of a chain so far. -/
structure ChainBuilder (α : Type) where
  size : Nat
  /-- The transitions, the latest first. -/
  transitions : List (Nat × Nat × α) := []
  initial : StateSet := .empty size
  labelling : Labelling := []
  stateRewards : Option (Array α) := none
  /-- The rewards of transitions, the latest first. -/
  transitionRewards : Option (List (Nat × Nat × α)) := none

namespace ChainBuilder

variable {α : Type}

/-- Nothing given yet. -/
def new (size : Nat) : ChainBuilder α := { size := size }

/-- Nothing given yet, provided that one row for each state can be laid out. -/
def new? (size : Nat) : Except ModelError (ChainBuilder α) := do
  (checkRowCount size).mapError .fault
  pure (new size)

/-- A state has to be one of the chain. -/
def checkState (b : ChainBuilder α) (s : Nat) : Except ModelError Unit :=
  if s < b.size then pure () else throw (.stateOutOfRange s b.size)

/-- Marks a state as initial. -/
def addInitial (b : ChainBuilder α) (s : Nat) : Except ModelError (ChainBuilder α) := do
  b.checkState s
  pure { b with initial := b.initial.insert s }

/-- Makes a label exist, even if no state carries it. -/
def declareLabel (b : ChainBuilder α) (label : String) : ChainBuilder α :=
  match b.labelling.get? label with
  | some _ => b
  | none => { b with labelling := b.labelling.set label (.empty b.size) }

/-- Attaches a label to a state. The label of the initial states also marks the state as initial. -/
def addLabel (b : ChainBuilder α) (label : String) (s : Nat) :
    Except ModelError (ChainBuilder α) := do
  b.checkState s
  let states := (b.labelling.get? label).getD (.empty b.size)
  let b := { b with labelling := b.labelling.set label (states.insert s) }
  pure (if label = initLabel then { b with initial := b.initial.insert s } else b)

/-- Sets the rewards of all states. -/
def setStateRewards (b : ChainBuilder α) (rewards : List α) :
    Except ModelError (ChainBuilder α) :=
  if rewards.length = b.size then pure { b with stateRewards := some rewards.toArray }
  else throw (.rewardSizeMismatch b.size rewards.length)

/-- Adds a reward to a transition. -/
def addTransitionReward (b : ChainBuilder α) (s t : Nat) (reward : α) :
    Except ModelError (ChainBuilder α) := do
  b.checkState s
  b.checkState t
  pure { b with transitionRewards := some ((s, t, reward) :: b.transitionRewards.getD []) }

variable [Weight α]

/-- Arithmetic on weights has to stay within the range that can be represented. -/
def checkRange (fits : Bool) : Except ModelError Unit :=
  (requireRange fits).mapError .fault

/-- Whether a weight can be a probability: a constant has to be finite and not negative. -/
def isProbability (value : α) : Except ModelError Bool := do
  match ← (Weight.checkedFloat value).mapError .fault with
  | none => pure true
  | some x => pure (x.isFinite && x ≥ 0)

/-- Adds a reward to a state. -/
def addStateReward (b : ChainBuilder α) (s : Nat) (reward : α) :
    Except ModelError (ChainBuilder α) := do
  b.checkState s
  let rewards := b.stateRewards.getD (Array.replicate b.size 0)
  checkRange (Weight.sumFits (rewards.getD s 0) reward)
  pure { b with stateRewards := some (rewards.modify s fun r => Weight.simplify (r + reward)) }

/-- Whether a row is accepted: its sum is one, is close to one, or is not constant. -/
def isStochastic (row : Row α) : Bool :=
  Weight.isOne row.sum ||
    match Weight.toFloat? row.sum with
    | some x => (x - 1).abs ≤ stochasticTolerance
    | none => !row.isEmpty

/-- The matrix of the given entries, the latest first. Their positions were checked when they were
given. -/
def collect (size : Nat) (entries : List (Nat × Nat × α)) : Except ModelError (Matrix α) := do
  let b := entries.reverse.foldl MatrixBuilder.place (.new size size false)
  let m ← b.build.mapError .fault
  pure m.toMatrix

variable [WeightText α]

/-- Why the row of a state is refused, if it is. -/
def rowError? (s : Nat) (row : Row α) : Option ModelError :=
  if !(row.sumFits && Weight.simplifyFits row.sum) then some (.fault .degreeOverflow)
  else if isStochastic row then none
  else some (.notStochastic s (WeightText.render row.sum))

/-- Adds a transition. -/
def addTransition (b : ChainBuilder α) (s t : Nat) (value : α) :
    Except ModelError (ChainBuilder α) := do
  b.checkState s
  b.checkState t
  if !(← isProbability value) then throw (.invalidProbability s t (WeightText.render value))
  pure { b with transitions := (s, t, value) :: b.transitions }

/-- The chain that was given. There has to be an initial state, and rows have to sum to one. -/
def build (b : ChainBuilder α) : Except ModelError (Chain α) := do
  if b.initial.isEmpty then throw .missingInitialState
  let transitions ← collect b.size b.transitions
  match (List.range b.size).findSome? fun s => rowError? s (transitions.row s) with
  | some e => throw e
  | none =>
    let transitionRewards ← b.transitionRewards.mapM (collect b.size)
    pure {
      transitions := transitions
      initial := b.initial
      labelling := b.labelling.set initLabel b.initial
      stateRewards := b.stateRewards
      transitionRewards := transitionRewards }

end ChainBuilder

end MarkovElimination
