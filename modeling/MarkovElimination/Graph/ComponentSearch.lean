import MarkovElimination.Graph.Components

/-! # The search for components in small steps

The search for components can be interrupted between any two iterations of the trimming or of the
two searches that it consists of. Between two steps it is in one of four **phases**, and the sets
that are still to be decomposed wait on a stack. A step may give out a component. -/

namespace MarkovElimination

/-- One iteration of a search: what it goes on with, or the set that it has found. -/
def Search.iterate (s : Search) (state : SearchState) : SearchState ⊕ StateSet :=
  if (s.expand state).isEmpty then .inr state.set else .inl (s.advance state)

/-- One round of trimming: what it goes on with, or the set that is left. -/
def Trim.iterate (g : Graph) (trim : Trim) (state : SearchState) : SearchState ⊕ StateSet :=
  let removed := trim.removable g state
  if removed.isEmpty then .inr state.set
  else .inl ⟨state.iteration + 1, state.set.minus removed, removed⟩

namespace Graph

/-- What the search for components is doing. -/
inductive ComponentPhase where
  /-- Nothing, until the next set is taken from the stack. -/
  | idle
  /-- Trimming a set. -/
  | trimming (state : SearchState)
  /-- Searching backward from the pivot among the trimmed states. -/
  | backward (trimmed pivot : StateSet) (state : SearchState)
  /-- Searching forward from the pivot, after the backward search. -/
  | forward (trimmed backward : StateSet) (state : SearchState)

/-- The search for components between two steps. -/
structure ComponentSearch where
  phase : ComponentPhase
  /-- The sets that are still to be decomposed, the next one first. -/
  pending : List StateSet

namespace ComponentSearch

/-- The search for the components of a set, before its first step. -/
def start (set : StateSet) : ComponentSearch := ⟨.idle, [set]⟩

/-- The phase after trimming: a backward search from the smallest state, if there is one. -/
def afterTrimming (trimmed : StateSet) : ComponentPhase :=
  match trimmed.first? with
  | none => .idle
  | some i =>
    let pivot := StateSet.singleton trimmed.size i
    .backward trimmed pivot (Search.start pivot)

/-- A set put on the stack, unless it is empty. -/
def push (set : StateSet) (pending : List StateSet) : List StateSet :=
  if set.isEmpty then pending else set :: pending

/-- The sets that are pending after both searches: the three parts without the pivot come before
all others. -/
def afterSearch (trimmed forward backward : StateSet) (pending : List StateSet) : List StateSet :=
  push ((trimmed.minus backward).minus forward)
    (push (forward.minus backward) (push (backward.minus forward) pending))

/-- A component, unless it is trivial. -/
def nontrivial (component : StateSet) : Option StateSet :=
  if 1 < component.card then some component else none

/-- One step of the search, with the component that it gives out; there is none once nothing is
pending. -/
def step (g : Graph) (trim : Trim) (s : ComponentSearch) :
    Option (Option StateSet × ComponentSearch) :=
  match s.phase with
  | .idle =>
    match s.pending with
    | [] => none
    | set :: rest => some (none, ⟨.trimming (Search.start set), rest⟩)
  | .trimming state =>
    match trim.iterate g state with
    | .inl next => some (none, ⟨.trimming next, s.pending⟩)
    | .inr trimmed => some (none, ⟨afterTrimming trimmed, s.pending⟩)
  | .backward trimmed pivot state =>
    match (Search.among g.reversed trimmed).iterate state with
    | .inl next => some (none, ⟨.backward trimmed pivot next, s.pending⟩)
    | .inr backward => some (none, ⟨.forward trimmed backward (Search.start pivot), s.pending⟩)
  | .forward trimmed backward state =>
    match (Search.among g trimmed).iterate state with
    | .inl next => some (none, ⟨.forward trimmed backward next, s.pending⟩)
    | .inr forward =>
      some (nontrivial (forward.inter backward),
        ⟨.idle, afterSearch trimmed forward backward s.pending⟩)

end ComponentSearch

end Graph

end MarkovElimination
