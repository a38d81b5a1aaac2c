import MarkovElimination.Elimination.Problem

/-! # Eliminating one state

Eliminating `s` redirects what flows through `s`. First its self-loop `L` is resolved: what leaves
`s` is scaled by `1 / (1 - L)`. Then the row of every predecessor `p` gets `M(p, s)` times the row
of `s` in place of its entry for `s`, and the value of `p` gets `M(p, s)` times the value of `s`.

A *constraint* limits which predecessors are redirected. The rescaled row of `s` can be kept or
dropped. -/

namespace MarkovElimination

variable {α : Type} [Weight α]

/-- The row with one in every listed column. -/
def Row.marks (columns : List Nat) : Row α := columns.map fun c => ⟨c, 1⟩

/-- The sorted union of a row with listed columns; a column that is new gets one. -/
def Row.mark : Row α → List Nat → Row α
  | [], columns => marks columns
  | e :: row, [] => e :: row
  | e :: row, c :: columns =>
    match compare e.column c with
    | .lt => e :: mark row (c :: columns)
    | .gt => ⟨c, 1⟩ :: mark (e :: row) columns
    | .eq => e :: mark row columns

/-- The row `row + multiplier * other`; every product and every sum is simplified. -/
def Row.addScaled (multiplier : α) : Row α → Row α → Row α
  | row, [] => row
  | [], e :: other =>
    ⟨e.column, Weight.simplify (multiplier * e.value)⟩ :: addScaled multiplier [] other
  | e :: row, f :: other =>
    match compare e.column f.column with
    | .lt => e :: addScaled multiplier row (f :: other)
    | .gt =>
      ⟨f.column, Weight.simplify (multiplier * f.value)⟩ ::
        addScaled multiplier (e :: row) other
    | .eq =>
      ⟨e.column, Weight.simplify (e.value + Weight.simplify (multiplier * f.value))⟩ ::
        addScaled multiplier row other

/-- Whether the products and sums of `row + multiplier * other` can be computed. -/
def Row.addScaledFits (multiplier : α) (row other : Row α) : Bool :=
  other.all fun f => Weight.productFits multiplier f.value &&
    match row.get? f.column with
    | none => true
    | some value => Weight.sumFits value (Weight.simplify (multiplier * f.value))

/-- A row with all values multiplied. -/
def Row.scale (factor : α) (row : Row α) : Row α :=
  row.map fun e => ⟨e.column, Weight.simplify (e.value * factor)⟩

/-- Whether all values of a row can be multiplied. -/
def Row.scaleFits (factor : α) (row : Row α) : Bool :=
  row.all fun e => Weight.productFits e.value factor

/-- The factor `1 / (1 - L)` of a self-loop `L` of state `s`, which must not be one. -/
def loopFactor (s : Nat) (loop : α) : Except Fault α := do
  if Weight.isOne loop then throw (.certainSelfLoop s)
  Weight.checkedSimplify (← Weight.invertComplement loop)

/-- Everything that is known about an elimination before the rows are changed. -/
structure Redirection (α : Type) where
  /-- The eliminated state. -/
  state : Nat
  /-- The factor of the self-loop, if there is one. -/
  factor : Option α
  /-- The entries of the state in other columns, rescaled. -/
  outgoing : Row α
  /-- The value of the state, rescaled in a problem of probabilities. -/
  value : α
  /-- The predecessors that are redirected. -/
  redirected : List Nat
  /-- The predecessors that keep their entry for the state. -/
  kept : List Nat
  /-- Whether the outgoing entries are dropped. -/
  dropOutgoing : Bool

namespace Redirection

/-- What a redirected predecessor receives: its entry for the state times the value of the state. In
a problem of rewards the value of the state is not rescaled, so the flow is. -/
def flow (r : Redirection α) (mode : ValueMode) (multiplier : α) : α :=
  Weight.simplify <|
    match mode, r.factor with
    | .rewards, some factor => multiplier * factor * r.value
    | _, _ => multiplier * r.value

/-- Whether what a redirected predecessor receives can be computed. -/
def flowFits (r : Redirection α) (mode : ValueMode) (multiplier : α) : Bool :=
  match mode, r.factor with
  | .rewards, some factor =>
    Weight.mulFits multiplier factor && Weight.productFits (multiplier * factor) r.value
  | _, _ => Weight.productFits multiplier r.value

/-- Whether the new row and the new value of a redirected predecessor can be computed. -/
def updateFits (r : Redirection α) (mode : ValueMode) (multiplier : α) (row : Row α)
    (value : α) : Bool :=
  Row.addScaledFits multiplier (row.erase r.state) r.outgoing && r.flowFits mode multiplier &&
    Weight.sumFits value (r.flow mode multiplier)

/-- The new row of a state. -/
def newRow (r : Redirection α) (i : Nat) (row : Row α) : Row α :=
  if i = r.state then (if r.dropOutgoing then [] else r.outgoing)
  else if r.redirected.contains i then
    match row.get? r.state with
    | some multiplier => Row.addScaled multiplier (row.erase r.state) r.outgoing
    | none => row
  else row

/-- The new value of a state, given its old row. -/
def newValue (r : Redirection α) (mode : ValueMode) (i : Nat) (row : Row α) (value : α) : α :=
  if i = r.state then r.value
  else if r.redirected.contains i then
    match row.get? r.state with
    | some multiplier => Weight.simplify (value + r.flow mode multiplier)
    | none => value
  else value

/-- The new row that marks the predecessors of a state. -/
def newIncoming (r : Redirection α) (j : Nat) (row : Row α) : Row α :=
  if j = r.state then Row.marks r.kept
  else if r.outgoing.hasColumn j then
    Row.mark (if r.dropOutgoing then row.erase r.state else row) r.redirected
  else row

end Redirection

namespace Problem

/-- Whether the entries of a state in other columns can be rescaled, and in a problem of
probabilities also its value. -/
def rescaleFits (p : Problem α) (s : Nat) (factor : α) : Bool :=
  ((p.row s).erase s).scaleFits factor &&
    match p.mode with
    | .probabilities => Weight.productFits (p.value s) factor
    | .rewards => true

/-- The factor of the self-loop of a state, if there is one. It has to be possible to rescale the
state by it. -/
def rescaling (p : Problem α) (s : Nat) : Except Fault (Option α) :=
  match (p.row s).get? s with
  | none => pure none
  | some loop => do
    let factor ← loopFactor s loop
    requireRange (p.rescaleFits s factor)
    pure (some factor)

/-- The redirection that eliminates a state. The state has to be a state of the problem, and its
self-loop must not be one. -/
def redirection (p : Problem α) (s : Nat) (dropOutgoing : Bool) (constraint : Option StateSet) :
    Except Fault (Redirection α) := do
  if p.size ≤ s then throw (.rowOutOfRange s p.size)
  let factor ← p.rescaling s
  let others := (p.row s).erase s
  let predecessors := (p.predecessors s).filter (· != s)
  let isRedirected (i : Nat) : Bool := match constraint with
    | none => true
    | some set => set.contains i
  if let some set := constraint then
    if let some i := predecessors.find? (set.size ≤ ·) then throw (.stateOutOfRange i set.size)
  pure {
    state := s
    factor := factor
    outgoing := match factor with
      | none => others
      | some f => others.scale f
    value := match p.mode, factor with
      | .probabilities, some f => Weight.simplify (p.value s * f)
      | _, _ => p.value s
    redirected := predecessors.filter isRedirected
    kept := predecessors.filter fun i => !isRedirected i
    dropOutgoing := dropOutgoing }

/-- Why a predecessor cannot be redirected: it has no entry for the state, or its new row or value
cannot be computed. -/
def predecessorFault? (p : Problem α) (r : Redirection α) (i : Nat) : Option Fault :=
  match (p.row i).get? r.state with
  | none => some (.missingTransition i r.state)
  | some multiplier =>
    if r.updateFits p.mode multiplier (p.row i) (p.value i) then none else some .degreeOverflow

omit [Weight α] in
/-- The fault of a problem in which a successor does not list the state. -/
def successorFault? (p : Problem α) (r : Redirection α) : Option Fault :=
  if r.dropOutgoing then
    (r.outgoing.find? fun e => !(p.predecessors e.column).contains r.state).map fun e =>
      .missingPredecessor ((p.predecessors e.column).filter (· < r.state)).length
  else none

/-- Why a redirection cannot be carried out. Predecessors come before successors. -/
def redirectFault? (p : Problem α) (r : Redirection α) : Option Fault :=
  (r.redirected.findSome? (p.predecessorFault? r)).or (p.successorFault? r)

/-- The problem after a redirection. -/
def redirect (p : Problem α) (r : Redirection α) : Problem α :=
  { p with
    forward := p.forward.mapIdx r.newRow
    incoming := p.incoming.mapIdx r.newIncoming
    values := p.values.mapIdx fun i value => r.newValue p.mode i (p.row i) value
    history := r.state :: p.history }

omit [Weight α] in
/-- Whether the rows that a redirection has written are sorted: those of the state and of its
predecessors, and the rows that mark the predecessors of the state and of its successors. -/
def writtenSorted (p : Problem α) (r : Redirection α) : Bool :=
  (r.state :: r.redirected).all (fun i => decide (p.row i).Sorted) &&
    (r.state :: r.outgoing.columns).all fun j => decide (p.incomingRow j).Sorted

/-- Eliminates a state: predecessors in the constraint (all without one) are redirected past it.
Rows have to stay sorted. -/
def eliminate (p : Problem α) (s : Nat) (dropOutgoing : Bool) (constraint : Option StateSet) :
    Except Fault (Problem α) := do
  let r ← p.redirection s dropOutgoing constraint
  match p.redirectFault? r with
  | some f => throw f
  | none =>
    let next := p.redirect r
    if next.writtenSorted r then pure next else throw .unsortedRow

/-- Resolves the self-loop of the last state of a problem of rewards and removes its row. -/
def resolveLast (p : Problem α) (s : Nat) : Except Fault (Problem α) := do
  if p.size ≤ s then throw (.rowOutOfRange s p.size)
  if (p.row s).hasOtherColumn s then throw .lastStateHasSuccessors
  let value ← match (p.row s).get? s with
    | none => pure (p.value s)
    | some loop => do
      let factor ← loopFactor s loop
      requireRange (Weight.productFits (p.value s) factor)
      pure (Weight.simplify (p.value s * factor))
  pure { p with
    forward := p.forward.setIfInBounds s []
    incoming := p.incoming.setIfInBounds s []
    values := p.values.setIfInBounds s value }

end Problem

end MarkovElimination
