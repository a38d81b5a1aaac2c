import MarkovElimination.Elimination.Strategy
import MarkovElimination.RationalFunction.Weight

/-! # Eliminating constant states

In a parametric problem the states whose entries are all constant can be eliminated once and for
all, before the parameters get values. -/

namespace MarkovElimination.Problem

/-- Whether it can be told if all entries of a row are constant. They are looked at in their order,
up to the first one that is not. -/
def constantFits : Row RationalFunction → Bool
  | [] => true
  | e :: row => e.value.simplifyFits && (e.value.constant?.isNone || constantFits row)

/-- Whether all entries of a state are constant and its self-loop is not one. -/
def isConstantState (p : Problem RationalFunction) (s : Nat) : Bool :=
  (p.row s).all (fun e => e.value.constant?.isSome) &&
    !(p.row s).any fun e => e.column == s && e.value.isOne

/-- Eliminates a state if all its entries are constant at this moment; `remaining` are the states
that are not eliminated. -/
def eliminateIfConstant (state : StateSet × Problem RationalFunction) (s : Nat) :
    Monitored (StateSet × Problem RationalFunction) := do
  Monitored.ofFault (requireRange (constantFits (state.2.row s)))
  if state.2.isConstantState s then
    pure (state.1.erase s, ← state.2.eliminateMonitored s true none)
  else pure state

/-- Visits all states that are not protected in increasing order and eliminates the constant ones.
The result is the set of states that remain, with the reduced problem. -/
def eliminateConstant (p : Problem RationalFunction) (protectedStates : StateSet) :
    Monitored (StateSet × Problem RationalFunction) :=
  protectedStates.complement.toList.foldlM eliminateIfConstant (.full p.size, p)

end MarkovElimination.Problem
