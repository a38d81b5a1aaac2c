import MarkovElimination.Graph.Basic

/-! # Breadth-first search

A search grows a set of states layer by layer. New states have to lie in the set `within`; states of
`stopAt` are found but not passed. A search may be limited to a number of iterations, the last of
which finds nothing new. Backward search is search in the reversed graph. -/

namespace MarkovElimination

/-- What a search may visit. -/
structure Search where
  graph : Graph
  /-- New states lie in this set. -/
  within : StateSet
  /-- States of this set are not passed. -/
  stopAt : StateSet
  /-- The number of iterations after which the search gives up. -/
  limit : Option Nat := none

/-- How far a search has come. -/
structure SearchState where
  /-- The number of iterations. -/
  iteration : Nat
  /-- The states found so far. -/
  set : StateSet
  /-- The states found in the last iteration. -/
  frontier : StateSet

namespace Search

/-- A search in the whole graph. -/
def everywhere (graph : Graph) : Search := ⟨graph, .full graph.size, .empty graph.size, none⟩

/-- A search among the given states. -/
def among (graph : Graph) (within : StateSet) : Search :=
  ⟨graph, within, .empty graph.size, none⟩

/-- The start of a search. -/
def start (initial : StateSet) : SearchState := ⟨0, initial, initial⟩

/-- The states that the next iteration finds. -/
def expand (s : Search) (state : SearchState) : StateSet :=
  .ofPredicate state.set.size fun i =>
    s.within.contains i && !state.set.contains i &&
      (s.graph.previous i).any fun j => state.frontier.contains j && !s.stopAt.contains j

/-- The states of a search after its next iteration. -/
def advance (s : Search) (state : SearchState) : SearchState :=
  ⟨state.iteration + 1, state.set.union (s.expand state), s.expand state⟩

/-- Whether no further iteration is allowed. -/
def limitReached (s : Search) (state : SearchState) : Bool :=
  s.limit.any (· ≤ state.iteration)

/-- The wording of a search that has reached its limit. -/
def limitMessage : String := "Operation cancelled (caused by `ReachabilityConfig::max_iterations`)"

/-- An iteration that finds something leaves fewer states to find. -/
theorem remaining_advance_lt (s : Search) (state : SearchState)
    (h : (s.expand state).isEmpty = false) :
    (s.advance state).set.size - (s.advance state).set.card < state.set.size - state.set.card := by
  obtain ⟨i, hi⟩ := StateSet.isEmpty_eq_false_iff.1 h
  have hnew : state.set.contains i = false := by
    simp only [expand, StateSet.contains_ofPredicate, Bool.and_eq_true] at hi
    simpa using hi.2.1.2
  have hsize : i < state.set.size := by
    simpa [expand] using StateSet.lt_size_of_contains hi
  have hcard : state.set.card < (s.advance state).set.card := by
    refine StateSet.card_lt_card (by simp [advance]) (fun j hj => ?_) ⟨i, hnew, ?_⟩
    · simp [advance, StateSet.contains_union, hj, StateSet.lt_size_of_contains hj]
    · simp [advance, StateSet.contains_union, hi, hsize]
  have hle := StateSet.card_le_size (s.advance state).set
  simp only [advance, StateSet.size_union] at *
  omega

/-- All iterations from a state on: the states after each of them, and the set that is found unless
the limit is reached. -/
def run (s : Search) (state : SearchState) : List SearchState × Option StateSet :=
  if s.limitReached state then ([state], none)
  else if _h : (s.expand state).isEmpty then
    ([⟨state.iteration + 1, state.set, state.frontier⟩], some state.set)
  else
    let next := s.advance state
    let rest := run s next
    (next :: rest.1, rest.2)
termination_by state.set.size - state.set.card
decreasing_by exact s.remaining_advance_lt state (by simpa using _h)

/-- The states that a search without a limit finds from the initial ones. Such a search always ends
with a set (`Search.run_spec`). -/
def closure (s : Search) (initial : StateSet) : StateSet :=
  (s.run (start initial)).2.getD initial

end Search

namespace Graph

/-- The states from which `goal` can be reached through `within`. -/
def canReach (g : Graph) (within goal : StateSet) : StateSet :=
  (Search.among g.reversed within).closure goal

/-- The states reached from `initial` through `constraint` and `target`,
without leaving `target`. -/
def reachable (g : Graph) (initial constraint target : StateSet) : StateSet :=
  (Search.mk g (constraint.union target) target none).closure initial

/-- The states in which `invariant U goal` has positive probability. -/
def probPositive (g : Graph) (invariant goal : StateSet) : StateSet := g.canReach invariant goal

/-- The states in which `invariant U goal` has probability zero. -/
def probZero (g : Graph) (invariant goal : StateSet) : StateSet :=
  (g.probPositive invariant goal).complement

/-- The states in which the goal is reached with probability one, given those in which the
probability is positive: they cannot reach a state of probability zero before the goal. -/
def probOne (g : Graph) (goal positive : StateSet) : StateSet :=
  (g.canReach goal.complement positive.complement).complement

/-- The states of probability zero and the states of probability one. -/
def probZeroOne (g : Graph) (invariant goal : StateSet) : StateSet × StateSet :=
  let positive := g.probPositive invariant goal
  (positive.complement, g.probOne goal positive)

end Graph

end MarkovElimination
