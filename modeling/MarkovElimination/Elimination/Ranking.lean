import MarkovElimination.Elimination.Config
import MarkovElimination.Graph.Distance

/-! # Rankings

A **ranking** lists all states in the order in which they are to be eliminated. The rankings by
distance break ties by the index of the states, and put states without a distance after all others
where the distance increases, before all others where it decreases. -/

namespace MarkovElimination

/-- Whether one distance is at most another; a missing distance is greater than all others. -/
def distanceLE : Option Nat → Option Nat → Bool
  | _, none => true
  | none, some _ => false
  | some d, some e => d ≤ e

/-- The states `0, 1, …` sorted by their distances, ties by index. -/
def sortByDistance (distances : List (Option Nat)) (increasing : Bool) : List Nat :=
  let distance (i : Nat) : Option Nat := distances.getD i none
  (List.range distances.length).mergeSort fun i j =>
    if increasing then distanceLE (distance i) (distance j)
    else distanceLE (distance j) (distance i)

/-- The states of a graph in the order of a configuration. -/
def EliminationConfig.ranking (config : EliminationConfig) (g : Graph)
    (initial targets : StateSet) : List Nat :=
  match config.order with
  | .forward => sortByDistance (g.distances initial) true
  | .forwardReversed => sortByDistance (g.distances initial) false
  | .backward => sortByDistance (g.reversed.distances targets) true
  | .backwardReversed => sortByDistance (g.reversed.distances targets) false
  | .random => config.shuffle.order config.seed g.size

/-- The position of a state in a ranking. -/
def priority (ranking : List Nat) (i : Nat) : Nat := ranking.idxOf i

/-- The members of a set in the order of a ranking. -/
def sortByRanking (ranking : List Nat) (set : StateSet) : List Nat := ranking.filter set.contains

end MarkovElimination
