import MarkovElimination.Checking.Reachability

/-! # Conditional probabilities

The probability that an **event** is reached, given that a **condition** is reached. All states but
the initial one and those of the event and the condition are eliminated. What remains behind each
successor of the initial state is collapsed, so that an event state leads to condition states and a
condition state to event states in one step; the two probabilities are then read off. -/

namespace MarkovElimination

variable {α : Type} [Weight α]

/-- The sum of a row over the given columns as it is added up, if it can be computed. -/
def Row.sumOver (row : Row α) (columns : StateSet) : Except Fault α := do
  let chosen := row.filter fun e => columns.contains e.column
  requireRange (Row.totalFits 0 chosen)
  pure (chosen.foldl (fun total e => total + e.value) 0)

namespace Problem

/-- Bypasses the listed states that do not stop a chain and lead to another state. A bypassed state
keeps its row; only predecessors in `kind` skip it. The result says whether any
state was bypassed. -/
def bypass (stop kind : StateSet) (p : Problem α) (states : List Nat) :
    Monitored (Problem α × Bool) :=
  states.foldlM (fun (p, changed) s =>
    if !stop.contains s && (p.row s).hasOtherColumn s then do
      pure (← p.eliminateMonitored s false (some kind), true)
    else pure (p, changed)) (p, false)

/-- Bypasses the successors of a state again and again, until none of them can be bypassed. Every
round but the last bypasses a state for the first time, so the states bound the number of rounds. -/
def collapseBehind (stop kind : StateSet) (s : Nat) : Nat → Problem α → Monitored (Problem α)
  | 0, _ => throw (.fault (.endlessChain s))
  | rounds + 1, p => do
    Monitored.checkpoint
    if !(p.row s).hasOtherColumn s then pure p
    else
      let (p, changed) ← p.bypass stop kind (p.row s).columns
      if changed then collapseBehind stop kind s rounds p else pure p

/-- Collapses the chains behind a successor of the initial state: behind an event state up to
condition states, behind a condition state up to event states. -/
def collapseSuccessor (event condition : StateSet) (p : Problem α) (s : Nat) :
    Monitored (Problem α) :=
  match event.contains s, condition.contains s with
  | true, true => pure p
  | true, false => collapseBehind condition event s (p.size + 1) p
  | false, _ => collapseBehind event condition s (p.size + 1) p

/-- Collapses the chains behind all successors of the initial state. -/
def collapseChains (event condition : StateSet) (initial : Nat) (p : Problem α) :
    Monitored (Problem α) :=
  (p.row initial).columns.foldlM (collapseSuccessor event condition) p

/-- The probabilities of event and condition together, and of the condition alone. -/
structure Joint (α : Type) where
  both : α
  condition : α

/-- More of both probabilities. -/
def Joint.add (joint : Joint α) (both condition : α) : Except Fault (Joint α) := do
  pure ⟨← Weight.checkedAdd joint.both both, ← Weight.checkedAdd joint.condition condition⟩

/-- What one successor of the initial state adds to the probabilities. -/
def addSuccessor (event condition : StateSet) (p : Problem α) (joint : Joint α) (e : Entry α) :
    Except Fault (Joint α) := do
  match event.contains e.column, condition.contains e.column with
  | true, true => joint.add e.value e.value
  | true, false =>
    let weight ← Weight.checkedMul e.value (← (p.row e.column).sumOver condition)
    joint.add weight weight
  | false, true =>
    let weight ← Weight.checkedMul e.value (← (p.row e.column).sumOver event)
    joint.add weight e.value
  | false, false => throw (.unclassifiedSuccessor e.column)

/-- The conditional probability that is read off a collapsed problem. -/
def conditionalValue (event condition : StateSet) (initial : Nat) (p : Problem α) :
    Except Fault α := do
  let joint ← (p.row initial).foldlM (addSuccessor event condition p) ⟨0, 0⟩
  Weight.checkedSimplify (← Weight.divide joint.both joint.condition)

end Problem

namespace Chain

/-- Eliminates and collapses the relevant states. All arguments but the initial state are sets of
the whole chain; event and condition meet the relevant states. -/
def eliminateRelevant (c : Chain α) (config : EliminationConfig) (initial : Nat)
    (relevant event condition : StateSet) : Checked (CheckResult α) := do
  let matrix := c.transitions.submatrix relevant relevant
  let start := c.initial.compress relevant
  let s := positionIn relevant initial
  let event := event.compress relevant
  let condition := condition.compress relevant
  let graph := Graph.ofMatrix matrix
  let order := sortByRanking (config.ranking graph start (.empty graph.size))
    ((event.union condition).union start).complement
  let p ← Checked.ofFault
    (Problem.ofMatrix .probabilities matrix (List.replicate relevant.card 0))
  let p ← Checked.ofMonitored do
    Monitored.expect order.length
    let p ← p.eliminateFlat order
    let p ← if (p.predecessors s).isEmpty then pure p else p.eliminateMonitored s false none
    p.collapseChains event condition s
  let value ← Checked.ofFault (p.conditionalValue event condition s)
  pure ⟨initial, .finite value, ⟨relevant.card, p.eliminated, 0⟩⟩

/-- The probability that a state of the event is reached, given that a state of the condition is
reached. Only the first visited state of the condition matters. -/
def checkConditional (c : Chain α) (config : EliminationConfig) (event condition : StateSet) :
    Checked (CheckResult α) := do
  let initial ← Checked.ofExcept c.initialState
  Checked.checkpoint
  let all := StateSet.full c.size
  let condition := (c.graph.reachable c.initial all condition).inter condition
  let (zero, one) := c.graph.probZeroOne all condition
  if zero.contains initial then throw .conditionHasZeroProbability
  else if one.contains initial then c.checkUntil config all event
  else if event.contains initial then pure (.immediate initial (.finite 1) 0)
  else
    let behindCondition := c.graph.reversed.probPositive all condition
    let reachingEvent := c.graph.probPositive all event
    let relevant := zero.complement.union (behindCondition.inter reachingEvent)
    if (event.compress relevant).isEmpty then
      pure (.immediate initial (.finite 0) relevant.card)
    else c.eliminateRelevant config initial relevant event condition

end Chain

end MarkovElimination
