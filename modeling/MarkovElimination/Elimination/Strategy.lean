import MarkovElimination.Elimination.Monitor
import MarkovElimination.Elimination.Ranking
import MarkovElimination.Elimination.Step
import MarkovElimination.Graph.Components

/-! # Eliminating many states

The **flat** method eliminates listed states one after the other. The **hybrid** method works
component by component: a component with more states than a bound is decomposed without its entry
states, the states outside of its inner components are eliminated first, then each inner component
is treated in turn, and its own entry states come last. Between any two eliminations the computation
can be cancelled. -/

namespace MarkovElimination

variable {α : Type} [Weight α]

namespace Problem

/-- Eliminates a state under a monitor. -/
def eliminateMonitored (p : Problem α) (s : Nat) (dropOutgoing : Bool)
    (constraint : Option StateSet) : Monitored (Problem α) := do
  let next ← Monitored.ofFault (p.eliminate s dropOutgoing constraint)
  Monitored.tick
  pure next

/-- Eliminates the listed states in their order. -/
def eliminateList (p : Problem α) (states : List Nat) : Monitored (Problem α) :=
  states.foldlM (fun p s => do
    Monitored.checkpoint
    p.eliminateMonitored s true none) p

/-- The flat method. -/
def eliminateFlat (p : Problem α) (states : List Nat) : Monitored (Problem α) := do
  let result ← p.eliminateList states
  Monitored.checkpoint
  pure result

/-- Eliminates the last state and returns its value, the solution of its equation. -/
def eliminateLast (p : Problem α) (s : Nat) : Monitored (α × Problem α) := do
  let result ← match p.mode with
    | .rewards => Monitored.ofFault (p.resolveLast s)
    | .probabilities => p.eliminateMonitored s true none
  let value ← Monitored.ofFault (Weight.checkedSimplify (result.value s))
  pure (value, result)

omit [Weight α] in
/-- The states of a block that have a predecessor outside of it. -/
def entryStates (p : Problem α) (block : StateSet) : StateSet :=
  .ofPredicate block.size fun s =>
    block.contains s && (p.predecessors s).any fun i => !block.contains i

end Problem

/-- What the hybrid method is told. -/
structure HybridPlan where
  /-- The graph of the problem before any elimination. -/
  graph : Graph
  ranking : List Nat
  /-- The states that are not eliminated. -/
  protectedStates : StateSet
  maximalSccSize : Nat
  entryStatesLast : Bool

/-- A problem under hybrid elimination. -/
structure HybridState (α : Type) where
  problem : Problem α
  /-- Entry states that are left for the end. -/
  queue : List Nat

namespace HybridPlan

omit [Weight α] in
/-- The listed states that may be eliminated. -/
def unprotected (plan : HybridPlan) (states : List Nat) : List Nat :=
  states.filter fun s => !plan.protectedStates.contains s

/-- Eliminates listed states. -/
def eliminateList (state : HybridState α) (states : List Nat) : Monitored (HybridState α) := do
  pure { state with problem := ← state.problem.eliminateList states }

/-- What happens to the entry states of a component once the others are gone. -/
def finish (plan : HybridPlan) (entry : StateSet) (eliminateEntry : Bool) (state : HybridState α) :
    Monitored (HybridState α) :=
  if eliminateEntry then eliminateList state (plan.unprotected entry.toList)
  else pure { state with queue := state.queue ++ entry.toList }

/-- Eliminates the states of a component. Inner components are strictly smaller, so the recursion
ends and never stalls (`card_lt_of_blocks_minus_ne`). -/
def treat (plan : HybridPlan) (component entry : StateSet) (eliminateEntry : Bool) (level : Nat)
    (state : HybridState α) : Monitored (HybridState α) := do
  let state := { state with problem := state.problem.recordDepth level }
  let inner := component.minus entry
  let sorted (set : StateSet) := sortByRanking plan.ranking set
  let state ←
    if plan.maximalSccSize < component.card then
      let parts := plan.graph.decompose inner
      if parts.blocks = [component] then eliminateList state (sorted inner)
      else do
        let state ← eliminateList state (sorted parts.trivial)
        parts.blocks.foldlM (fun state block =>
          if block.card < component.card then
            treat plan block (state.problem.entryStates block) (!plan.entryStatesLast) (level + 1)
              state
          else throw (.fault .stalled)) state
    else eliminateList state (sorted inner)
  plan.finish entry eliminateEntry state
termination_by component.card

/-- The hybrid method: the whole state space is one component with the protected states as entry. -/
def run (plan : HybridPlan) (p : Problem α) : Monitored (Problem α) := do
  let state ← plan.treat (.full plan.graph.size) plan.protectedStates false 0 ⟨p, []⟩
  let state ←
    if plan.entryStatesLast then eliminateList state (plan.unprotected state.queue) else pure state
  Monitored.checkpoint
  pure state.problem

end HybridPlan

namespace Problem

/-- Eliminates all states but the initial ones, following a ranking. -/
def eliminateRanked (config : EliminationConfig) (ranking : List Nat) (g : Graph)
    (initial : StateSet) (p : Problem α) : Monitored (Problem α) := do
  let remaining := (StateSet.full g.size).minus initial
  Monitored.expect remaining.card
  match config.method with
  | .state => p.eliminateFlat (sortByRanking ranking remaining)
  | .hybrid =>
    if g.size ≠ p.size then throw (.fault .sizeMismatch)
    HybridPlan.run ⟨g, ranking, initial, config.maximalSccSize, config.entryStatesLast⟩ p

/-- Eliminates all states but the initial ones. The graph is that of the problem, and the targets
are the states from which the order of elimination may be measured. -/
def eliminateAllExcept (config : EliminationConfig) (g : Graph) (initial targets : StateSet)
    (p : Problem α) : Monitored (Problem α) := do
  Monitored.checkpoint
  p.eliminateRanked config (config.ranking g initial targets) g initial

end Problem

end MarkovElimination
