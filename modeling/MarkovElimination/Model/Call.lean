import MarkovElimination.Model.Builder

/-! # Calls of a builder

What a caller can do with a builder of a chain before the chain is built. A call is a function from
builders to builders that may refuse (`perform`), and it is also a list of commands that change the
builder in place and can be broken off between two changes (`Call.commands`). -/

namespace MarkovElimination

namespace ChainBuilder

variable {α : Type}

/-- A call of a builder, other than the last one. -/
inductive Call (α : Type) where
  | addTransition (s t : Nat) (value : α)
  | addInitial (s : Nat)
  | declareLabel (label : String)
  | addLabel (label : String) (s : Nat)
  | setStateRewards (rewards : List α)
  | addStateReward (s : Nat) (reward : α)
  | addTransitionReward (s t : Nat) (reward : α)

variable [Weight α] [WeightText α]

/-- The outcome of a call. -/
def perform (b : ChainBuilder α) : Call α → Except ModelError (ChainBuilder α)
  | .addTransition s t value => b.addTransition s t value
  | .addInitial s => b.addInitial s
  | .declareLabel label => pure (b.declareLabel label)
  | .addLabel label s => b.addLabel label s
  | .setStateRewards rewards => b.setStateRewards rewards
  | .addStateReward s reward => b.addStateReward s reward
  | .addTransitionReward s t reward => b.addTransitionReward s t reward

/-- The builder after a call. A call that is refused leaves it as it is. -/
def after (b : ChainBuilder α) (call : Call α) : ChainBuilder α :=
  match b.perform call with
  | .ok b' => b'
  | .error _ => b

/-- The builder after calls, one after the other. -/
def afterAll (b : ChainBuilder α) (calls : List (Call α)) : ChainBuilder α := calls.foldl after b

/-! ### Calls in place -/

/-- Commands that change a builder in place and can be broken off. -/
abbrev InPlace (α β : Type) := EStateM ModelError (ChainBuilder α) β

/-- A check of the builder as it is. -/
def inspect {β : Type} (check : ChainBuilder α → Except ModelError β) : InPlace α β := do
  MonadExcept.ofExcept (check (← get))

/-- The commands of a call, in their order. A call that is broken off keeps what it has changed by
then. -/
def Call.commands : Call α → InPlace α Unit
  | .addTransition s t value => do
    inspect (·.checkState s)
    inspect (·.checkState t)
    if !(← inspect fun _ => isProbability value) then
      throw (.invalidProbability s t (WeightText.render value))
    modify fun b => { b with transitions := (s, t, value) :: b.transitions }
  | .addInitial s => do
    inspect (·.checkState s)
    modify fun b => { b with initial := b.initial.insert s }
  | .declareLabel label => modify fun b => b.declareLabel label
  | .addLabel label s => do
    inspect (·.checkState s)
    modify fun b => b.declareLabel label
    if let some states := (← get).labelling.get? label then
      modify fun b => { b with labelling := b.labelling.set label (states.insert s) }
    if label = initLabel then modify fun b => { b with initial := b.initial.insert s }
  | .setStateRewards rewards => do
    inspect fun b => if rewards.length = b.size then pure () else
      throw (.rewardSizeMismatch b.size rewards.length)
    modify fun b => { b with stateRewards := some rewards.toArray }
  | .addStateReward s reward => do
    inspect (·.checkState s)
    let rewards := (← get).stateRewards.getD (Array.replicate (← get).size 0)
    modify fun b => { b with stateRewards := some rewards }
    inspect fun _ => checkRange (Weight.sumFits (rewards.getD s 0) reward)
    modify fun b =>
      { b with stateRewards := some (rewards.modify s fun r => Weight.simplify (r + reward)) }
  | .addTransitionReward s t reward => do
    inspect (·.checkState s)
    inspect (·.checkState t)
    let rewards := (← get).transitionRewards.getD []
    modify fun b => { b with transitionRewards := some rewards }
    modify fun b => { b with transitionRewards := some ((s, t, reward) :: rewards) }

/-- The builder that a run leaves behind. -/
def left {β : Type} : EStateM.Result ModelError (ChainBuilder α) β → ChainBuilder α
  | .ok _ b => b
  | .error _ b => b

/-- The builder that calls leave behind, one after the other. -/
def executeAll (b : ChainBuilder α) (calls : List (Call α)) : ChainBuilder α :=
  calls.foldl (fun b call => left (call.commands.run b)) b

/-- The calls that return no error, one after the other. -/
def accepted (b : ChainBuilder α) : List (Call α) → List (Call α)
  | [] => []
  | call :: calls =>
    match call.commands.run b with
    | .ok _ b' => call :: b'.accepted calls
    | .error _ b' => b'.accepted calls

end ChainBuilder

end MarkovElimination
