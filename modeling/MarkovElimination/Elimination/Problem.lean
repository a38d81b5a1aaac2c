import MarkovElimination.Graph.Basic

/-! # Elimination problems

A problem is a system of equations `x(s) = v(s) + Σ M(s, t) * x(t)`, one for each state. It keeps
the matrix `M` row by row, for every state a row that marks its predecessors, and the values `v`.
Eliminating a state substitutes its equation into those of its predecessors. -/

namespace MarkovElimination

/-- What the values of a problem mean. -/
inductive ValueMode where
  /-- The probability to reach the target in one step. -/
  | probabilities
  /-- The reward collected on leaving the state. -/
  | rewards
deriving DecidableEq

/-- A system of equations under elimination. -/
structure Problem (α : Type) where
  mode : ValueMode
  /-- The coefficients of every equation. -/
  forward : Array (Row α)
  /-- For every state a row with one in the column of each state whose equation mentions it. -/
  incoming : Array (Row α)
  values : Array α
  /-- The states eliminated so far, the latest first. -/
  history : List Nat := []
  /-- The greatest nesting of components that was treated. -/
  depth : Nat := 0

namespace Problem

variable {α : Type}

/-- The number of states. -/
def size (p : Problem α) : Nat := p.forward.size

/-- The coefficients of a state. -/
def row (p : Problem α) (s : Nat) : Row α := p.forward.getD s []

/-- The row that marks the predecessors of a state. -/
def incomingRow (p : Problem α) (s : Nat) : Row α := p.incoming.getD s []

/-- The predecessors of a state. -/
def predecessors (p : Problem α) (s : Nat) : List Nat := (p.incomingRow s).columns

/-- The predecessors of all states. -/
def backward (p : Problem α) : Array (List Nat) := p.incoming.map Row.columns

/-- The number of eliminations so far. -/
def eliminated (p : Problem α) : Nat := p.history.length

/-- The problem with a nesting of components noted. -/
def recordDepth (p : Problem α) (depth : Nat) : Problem α := { p with depth := max p.depth depth }

variable [Weight α]

/-- The value of a state. -/
def value (p : Problem α) (s : Nat) : α := p.values.getD s 0

/-- The states whose value is not zero. -/
def support (p : Problem α) : StateSet :=
  .ofPredicate p.values.size fun s => !Weight.isZero (p.value s)

/-- The problem of a square matrix and one value for each state. -/
def ofMatrix (mode : ValueMode) (m : Matrix α) (values : List α) : Except Fault (Problem α) :=
  if m.rowCount ≠ m.columns || m.rowCount ≠ values.length then throw .sizeMismatch
  else
    pure { mode := mode, forward := m.dropZeros.rows, incoming := m.transpose.connections.rows,
           values := values.toArray }

end Problem

end MarkovElimination
