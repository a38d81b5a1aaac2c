import MarkovElimination.Checking.Property
import MarkovElimination.Elimination.Constant
import MarkovElimination.Matrix.Instance
import MarkovElimination.Model.Builder

/-! # Parametric subsystems

Only few transitions of a parametric chain depend on parameters. The **subsystem** of an until
formula keeps the initial state and the states with a parametric transition; the others are
eliminated once and for all. It can then be instantiated for many valuations, and in the instance
the formula becomes the question whether the target state is reached. -/

namespace MarkovElimination

/-- The label of the absorbing state that stands for the goal of the formula. -/
def targetLabel : String := "target"

/-- The label of the absorbing state that stands for the states of probability zero. -/
def sinkLabel : String := "sink"

/-- The question that an instance of a subsystem has to answer. -/
def targetProperty : Property := .probability (.eventually (.label targetLabel))

/-- What remains of an until formula. -/
inductive Reduction where
  /-- The formula holds with probability one, or with probability zero. -/
  | settled (holds : Bool)
  /-- The problem of the maybe states after elimination, the states that remain, and the initial
  state among the maybe states. -/
  | reduced (problem : Problem RationalFunction) (remaining : StateSet) (start : Nat)

/-- An until formula over a parametric chain, reduced to the states with parametric transitions. -/
structure Subsystem where
  /-- The initial state of the chain. -/
  initial : Nat
  reduction : Reduction

/-- The subsystem of `invariant U goal`. -/
def Chain.subsystem (c : Chain RationalFunction) (invariant goal : StateSet) :
    Checked Subsystem := do
  let initial ← Checked.ofExcept c.initialState
  Checked.checkpoint
  match ← Checked.ofFault (c.analyseUntil initial invariant goal) with
  | .settled holds => pure ⟨initial, .settled holds⟩
  | .undecided maybe oneStep =>
    let matrix := c.transitions.submatrix maybe maybe
    let problem ← Checked.ofFault (Problem.ofMatrix .probabilities matrix oneStep)
    let (remaining, problem) ← Checked.ofMonitored
      (problem.eliminateConstant (c.initial.compress maybe))
    pure ⟨initial, .reduced problem remaining (positionIn maybe initial)⟩

namespace Subsystem

/-- The number of states that remain. -/
def stateCount (s : Subsystem) : Nat :=
  match s.reduction with
  | .settled _ => 0
  | .reduced _ remaining _ => remaining.card

/-- The number of states that were eliminated. -/
def eliminatedStates (s : Subsystem) : Nat :=
  match s.reduction with
  | .settled _ => 0
  | .reduced problem _ _ => problem.eliminated

/-- The remaining transitions, one row for each maybe state. -/
def transitions? (s : Subsystem) : Option (Array (Row RationalFunction)) :=
  match s.reduction with
  | .settled _ => none
  | .reduced problem _ _ => some problem.forward

/-- A chain with the given transitions, whose last two states are the target and the sink. -/
def chainOf (remaining start : Nat) (transitions : List (Nat × Nat × Float)) :
    Except ModelError (Chain Float) := do
  let b ← transitions.foldlM (fun b (s, t, value) => b.addTransition s t value)
    (ChainBuilder.new (remaining + 2))
  let b ← b.addInitial start
  let b ← b.addLabel targetLabel remaining
  let b ← b.addLabel sinkLabel (remaining + 1)
  b.build

/-- The chain of a subsystem under a valuation. The remaining states keep their order; they are
followed by the target and the sink. -/
def instantiate (s : Subsystem) (v : Valuation) : Except ModelError (Chain Float) :=
  match s.reduction with
  | .settled holds => chainOf 1 0 [(0, if holds then 1 else 2, 1), (1, 1, 1), (2, 2, 1)]
  | .reduced problem remaining start =>
    let matrix : Matrix RationalFunction := ⟨problem.forward, problem.size⟩
    match matrix.instantiate v remaining { sink := true, oneStep := some problem.values } with
    | .ok concrete => chainOf remaining.card (Chain.positionIn remaining start) concrete.entries
    | .error cause => .error (.fault cause)

end Subsystem

end MarkovElimination
