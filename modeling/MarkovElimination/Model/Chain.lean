import MarkovElimination.Graph.Basic

/-! # Markov chains

A labelled discrete-time Markov chain with optional rewards of states and of transitions. Labels are
kept in increasing order of their names. -/

namespace MarkovElimination

/-- For every label the states that carry it, by increasing name. -/
abbrev Labelling := List (String × StateSet)

namespace Labelling

/-- The states that carry a label, if the label exists. -/
def get? (labelling : Labelling) (label : String) : Option StateSet := labelling.lookup label

/-- The labelling with new states for a label. -/
def set (label : String) (states : StateSet) : Labelling → Labelling
  | [] => [(label, states)]
  | (other, others) :: rest =>
    match compare label other with
    | .lt => (label, states) :: (other, others) :: rest
    | .eq => (label, states) :: rest
    | .gt => (other, others) :: set label states rest

end Labelling

/-- A labelled Markov chain. -/
structure Chain (α : Type) where
  transitions : Matrix α
  initial : StateSet
  labelling : Labelling
  stateRewards : Option (Array α)
  transitionRewards : Option (Matrix α)

namespace Chain

variable {α : Type}

/-- The number of states. -/
def size (c : Chain α) : Nat := c.transitions.rowCount

/-- Whether there are rewards of any kind. -/
def hasRewards (c : Chain α) : Bool := c.stateRewards.isSome || c.transitionRewards.isSome

/-- The transitions as a graph. -/
def graph [Weight α] (c : Chain α) : Graph := Graph.ofMatrix c.transitions

end Chain

end MarkovElimination
