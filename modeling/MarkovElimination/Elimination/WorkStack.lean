import MarkovElimination.Elimination.Strategy

/-! # The hybrid method in small steps

The hybrid method can be interrupted between any two steps, each of which decomposes one component
or eliminates one state. What is left to do is therefore kept on a **stack of work**. The entry
states of a block are only looked up when its turn comes, since they depend on what is eliminated
before; entry states that are left for the end are scheduled once the stack is empty. -/

namespace MarkovElimination

/-- An item of work of the hybrid method. -/
inductive Work where
  /-- Treat a component with the given entry states. -/
  | treat (component entry : StateSet) (eliminateEntry : Bool) (level : Nat)
  /-- Treat a block of a decomposition, whose entry states are not yet known. -/
  | block (states : StateSet) (level : Nat)
  /-- Eliminate the listed states in their order. -/
  | eliminate (states : List Nat)
  /-- Eliminate the entry states of a treated component, or leave them for the end. -/
  | finish (entry : StateSet) (eliminateEntry : Bool)

/-- The hybrid method between two steps. -/
structure WorkState (α : Type) extends HybridState α where
  /-- What is left to do, the next item first. -/
  stack : List Work
  /-- Whether the entry states that were left for the end have been scheduled. -/
  flushed : Bool := false

namespace HybridPlan

variable {α : Type} [Weight α]

/-- The work on the inner states of a component. -/
def expand (plan : HybridPlan) (component entry : StateSet) (level : Nat) : List Work :=
  let inner := component.minus entry
  let sorted (set : StateSet) := sortByRanking plan.ranking set
  if plan.maximalSccSize < component.card then
    let parts := plan.graph.decompose inner
    if parts.blocks = [component] then [.eliminate (sorted inner)]
    else .eliminate (sorted parts.trivial) :: parts.blocks.map (.block · (level + 1))
  else [.eliminate (sorted inner)]

/-- The hybrid method before its first step. -/
def start (plan : HybridPlan) (p : Problem α) : WorkState α :=
  ⟨⟨p, []⟩, [.treat (.full plan.graph.size) plan.protectedStates false 0], false⟩

/-- One step of the hybrid method, which ends with the problem that is left or goes on. -/
def step (plan : HybridPlan) (s : WorkState α) : Except Fault (Problem α ⊕ WorkState α) :=
  match s.stack with
  | [] =>
    if plan.entryStatesLast && !s.flushed then
      pure (.inr ⟨⟨s.problem, []⟩, [.eliminate (plan.unprotected s.queue)], true⟩)
    else pure (.inl s.problem)
  | .treat component entry eliminateEntry level :: rest =>
    pure (.inr ⟨⟨s.problem.recordDepth level, s.queue⟩,
      plan.expand component entry level ++ .finish entry eliminateEntry :: rest, s.flushed⟩)
  | .block states level :: rest =>
    let entry := s.problem.entryStates states
    pure (.inr { s with stack := .treat states entry (!plan.entryStatesLast) level :: rest })
  | .eliminate [] :: rest => pure (.inr { s with stack := rest })
  | .eliminate (i :: states) :: rest => do
    let p ← s.problem.eliminate i true none
    pure (.inr ⟨⟨p, s.queue⟩, .eliminate states :: rest, s.flushed⟩)
  | .finish entry eliminateEntry :: rest =>
    if eliminateEntry then
      pure (.inr { s with stack := .eliminate (plan.unprotected entry.toList) :: rest })
    else pure (.inr ⟨⟨s.problem, s.queue ++ entry.toList⟩, rest, s.flushed⟩)

end HybridPlan

end MarkovElimination
