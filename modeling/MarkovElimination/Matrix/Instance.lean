import MarkovElimination.Matrix.Basic
import MarkovElimination.Number.Float
import MarkovElimination.RationalFunction.Weight

/-! # Instances of parametric matrices

A matrix of rational functions becomes a matrix of binary64 numbers when its parameters get values.
Only some states are kept. A fresh absorbing **target** state can receive what every state has
beside its entries, and a fresh absorbing **sink** what is then still missing to one. -/

namespace MarkovElimination

/-- What to add when a parametric matrix is instantiated. -/
structure InstanceOptions where
  /-- Add a sink state for the missing probability. -/
  sink : Bool := false
  /-- Add a target state that is entered with these probabilities, one for each row. -/
  oneStep : Option (Array RationalFunction) := none
  /-- Give every kept state a self-loop entry, zero if it has none. -/
  selfLoops : Bool := false

/-- How far below zero the missing probability of a state may be. -/
def instanceTolerance : Float := 1e-6

/-- The value of a rational function as a binary64 number. -/
def evaluateFloat (v : Valuation) (r : RationalFunction) : Except Fault Float :=
  match r.evaluate v with
  | some value => pure (floatOfRat value)
  | none => throw .undefinedInstance

namespace Matrix

/-- The values replaced by their nearest binary64 numbers; a value that is not constant becomes
zero. -/
def toFloats {α : Type} [Weight α] (m : Matrix α) : Matrix Float :=
  m.mapValues fun v => (Weight.toFloat? v).getD 0

/-- The values replaced by binary64 numbers, if it can be told which of them are constant. -/
def toFloats? {α : Type} [Weight α] (m : Matrix α) : Except Fault (Matrix Float) := do
  requireRange (m.rows.all fun row => row.all fun e => Weight.simplifyFits e.value)
  pure m.toFloats

/-- The evaluated entries of a kept state, and what they leave of one. -/
def instantiateRow (kept : List Nat) (v : Valuation) :
    Float → Row RationalFunction → Except Fault (Float × Row Float)
  | missing, [] => pure (missing, [])
  | missing, e :: row => do
    match kept.idxOf? e.column with
    | none => throw (.openSelection e.column)
    | some column =>
      let value ← evaluateFloat v e.value
      let (left, entries) ← instantiateRow kept v (missing - value) row
      pure (left, ⟨column, value⟩ :: entries)

/-- The entry for the target state, and what it leaves of the missing probability. A value that is
the zero function needs no entry. -/
def instantiateOneStep (v : Valuation) (target : Nat) (missing : Float) :
    Option RationalFunction → Except Fault (Float × Row Float)
  | none => pure (missing, [])
  | some value =>
    if value.isZero then pure (missing, [])
    else do
      let value ← evaluateFloat v value
      pure (missing - value, [⟨target, value⟩])

/-- The entry for the sink state. -/
def sinkEntry (sink : Nat) (missing : Float) : Except Fault (Row Float) :=
  if missing > -instanceTolerance then pure [⟨sink, if missing > 0 then missing else 0⟩]
  else throw (.negativeRemainder missing)

/-- All entries of a kept state, in its new row `index`. -/
def instantiateState (m : Matrix RationalFunction) (kept : List Nat) (v : Valuation)
    (options : InstanceOptions) (index state : Nat) : Except Fault
    (List (Nat × Nat × Float)) := do
  let target := kept.length
  let sink := target + (if options.oneStep.isSome then 1 else 0)
  let row := m.row state
  let (missing, entries) ← instantiateRow kept v 1 row
  let selfLoop : Row Float :=
    if options.selfLoops && !row.hasColumn state then [⟨index, 0⟩] else []
  let (missing, toTarget) ←
    instantiateOneStep v target missing (options.oneStep.bind fun values => values[state]?)
  let toSink ← if options.sink then sinkEntry sink missing else pure []
  pure ((entries ++ selfLoop ++ toTarget ++ toSink).map fun e => (index, e.column, e.value))

/-- The instance of a matrix under a valuation. Entries of kept states have to lead
to kept states. -/
def instantiate (m : Matrix RationalFunction) (v : Valuation) (filter : StateSet)
    (options : InstanceOptions) : Except Fault (Matrix Float) := do
  if filter.size ≠ m.rowCount then throw .sizeMismatch
  if let some values := options.oneStep then
    if values.size ≠ m.rowCount then throw .sizeMismatch
  let kept := filter.toList
  let target := kept.length
  let sink := target + (if options.oneStep.isSome then 1 else 0)
  let count := sink + (if options.sink then 1 else 0)
  let rows ← kept.zipIdx.mapM fun (state, index) => m.instantiateState kept v options index state
  let absorbing := (List.range (count - target)).map fun k => (target + k, target + k, 1)
  pure (ofEntries count count (rows.flatten ++ absorbing) true)

end Matrix

end MarkovElimination
