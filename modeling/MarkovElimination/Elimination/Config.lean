/-! # Configuration of eliminations

How the states of a problem are eliminated: one after the other, or component by component; and in
which order. -/

namespace MarkovElimination

/-- How the states of a problem are eliminated. -/
inductive EliminationMethod where
  /-- One after the other. -/
  | state
  /-- Component by component, large components being decomposed further. -/
  | hybrid
deriving DecidableEq

/-- The order in which states are eliminated. -/
inductive EliminationOrder where
  /-- By increasing distance from the initial states. -/
  | forward
  /-- By decreasing distance from the initial states. -/
  | forwardReversed
  /-- By increasing distance to the targets. -/
  | backward
  /-- By decreasing distance to the targets. -/
  | backwardReversed
  /-- In an arbitrary order that depends on a seed. -/
  | random
deriving DecidableEq

/-- A number that scatters the indices of states, differently for different seeds. -/
def scatter (seed i : Nat) : Nat :=
  ((i + 1) * 2654435761 + seed * 40503) * 2246822519 % 4294967291

/-- A **shuffle** lists the states below `n` in an arbitrary order, which may depend on a seed. -/
structure Shuffle where
  order (seed n : Nat) : List Nat
  /-- Every state is listed once. -/
  perm (seed n : Nat) : (order seed n).Perm (List.range n)

/-- The shuffle that sorts states by their scattered indices. -/
def Shuffle.scattered : Shuffle where
  order seed n := (List.range n).mergeSort fun i j => scatter seed i ≤ scatter seed j
  perm _ _ := List.mergeSort_perm _ _

/-- All choices of an elimination. -/
structure EliminationConfig where
  method : EliminationMethod := .state
  order : EliminationOrder := .forwardReversed
  /-- The hybrid method decomposes components with more states than this. -/
  maximalSccSize : Nat := 20
  /-- The hybrid method eliminates entry states of components last. -/
  entryStatesLast : Bool := false
  seed : Nat := 0
  /-- What the random order means. -/
  shuffle : Shuffle := .scattered

/-- The name of a method. -/
def EliminationMethod.name : EliminationMethod → String
  | .state => "State"
  | .hybrid => "Hybrid"

/-- The name of an order. -/
def EliminationOrder.name : EliminationOrder → String
  | .forward => "Forward"
  | .forwardReversed => "ForwardReversed"
  | .backward => "Backward"
  | .backwardReversed => "BackwardReversed"
  | .random => "Random"

/-- The configuration as a record, with the information whether progress is reported. -/
def EliminationConfig.render (c : EliminationConfig) (progress : Bool) : String :=
  let fields := [("method", c.method.name), ("order", c.order.name),
    ("maximal_scc_size", toString c.maximalSccSize),
    ("eliminate_entry_states_last", toString c.entryStatesLast),
    ("random_seed", toString c.seed), ("progress", toString progress)]
  let texts := fields.map fun (name, value) => name ++ ": " ++ value
  "EliminationConfig \x7b " ++ ", ".intercalate texts ++ " \x7d"

end MarkovElimination
