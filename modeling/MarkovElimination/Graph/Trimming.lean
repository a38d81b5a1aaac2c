import MarkovElimination.Graph.Search

/-! # Trimming

A state of a set is a **sink** if it has no successor in the set, and a **source** if it has no
predecessor in it. Trimming removes sinks, sources or both until there are none left. After the
first round only neighbours of removed states are examined. -/

namespace MarkovElimination

/-- Which states are removed. -/
inductive Trim where
  | both
  | sources
  | sinks
  | none
deriving DecidableEq

namespace Trim

/-- The sinks among the states that the last round may have changed. -/
def newSinks (g : Graph) (state : SearchState) : StateSet :=
  .ofPredicate state.set.size fun i =>
    state.set.contains i && (state.frontier.contains i || (g.next i).any state.frontier.contains) &&
      !(g.next i).any state.set.contains

/-- The states that the next round removes. -/
def removable (g : Graph) (trim : Trim) (state : SearchState) : StateSet :=
  match trim with
  | .both => (newSinks g.reversed state).union (newSinks g state)
  | .sources => newSinks g.reversed state
  | .sinks => newSinks g state
  | .none => .empty state.set.size

/-- Only members of the set are removed. -/
theorem contains_of_removable {g : Graph} {trim : Trim} {state : SearchState} {i : Nat}
    (h : (trim.removable g state).contains i = true) : state.set.contains i = true := by
  cases trim <;>
    simp_all [removable, newSinks, StateSet.contains_union, StateSet.empty]
  rcases h.2 with h | h <;> exact h.2.1.1

/-- A round that removes something leaves fewer states. -/
theorem card_minus_removable_lt (g : Graph) (trim : Trim) (state : SearchState)
    (h : (trim.removable g state).isEmpty = false) :
    (state.set.minus (trim.removable g state)).card < state.set.card := by
  obtain ⟨i, hi⟩ := StateSet.isEmpty_eq_false_iff.1 h
  refine StateSet.card_lt_card (by simp) (fun j hj => ?_) ⟨i, ?_, contains_of_removable hi⟩
  · simp only [StateSet.contains_minus, Bool.and_eq_true] at hj
    exact hj.1
  · simp [StateSet.contains_minus, hi]

/-- All rounds from a state on: the states after each of them, and the set that is left. -/
def run (g : Graph) (trim : Trim) (state : SearchState) : List SearchState × StateSet :=
  if _h : (trim.removable g state).isEmpty then
    ([⟨state.iteration + 1, state.set, state.frontier⟩], state.set)
  else
    let removed := trim.removable g state
    let next : SearchState := ⟨state.iteration + 1, state.set.minus removed, removed⟩
    let rest := run g trim next
    (next :: rest.1, rest.2)
termination_by state.set.card
decreasing_by exact card_minus_removable_lt g trim state (by simpa using _h)

/-- What trimming leaves of a set. -/
def apply (g : Graph) (trim : Trim) (set : StateSet) : StateSet :=
  (trim.run g (Search.start set)).2

end Trim

end MarkovElimination
