import MarkovElimination.Graph.Trimming

/-! # Strongly connected components

The components with at least two states, found by forward and backward search from a **pivot**, the
smallest state that trimming leaves. The states on both sides form the component of the pivot; what
neither search finds, what only the forward search finds and what only the backward search finds are
decomposed on their own, since no component crosses between them. -/

namespace MarkovElimination

namespace Graph

/-- The components with at least two states of the subgraph induced by a set, in the order in which
they are found. None of the three parts that are decomposed on their own contains the pivot, so they
are smaller and the tests of it never fail (`IsSplit.card_lt`, `components_of_first_some`). -/
def components (g : Graph) (trim : Trim) (set : StateSet) : List StateSet :=
  let trimmed := trim.apply g set
  match trimmed.first? with
  | none => []
  | some pivot =>
    let start := StateSet.singleton set.size pivot
    let backward := (Search.among g.reversed trimmed).closure start
    let forward := (Search.among g trimmed).closure start
    let component := forward.inter backward
    let rest := (trimmed.minus backward).minus forward
    let after := forward.minus backward
    let before := backward.minus forward
    (if 1 < component.card then [component] else []) ++
      (if rest.card < set.card then components g trim rest else []) ++
      (if after.card < set.card then components g trim after else []) ++
      (if before.card < set.card then components g trim before else [])
termination_by set.card

/-- A set split into its components. -/
structure Decomposition where
  /-- The components with at least two states, by their smallest state. -/
  blocks : List StateSet
  /-- The states that are a component of their own. -/
  trivial : StateSet

/-- The components of the subgraph induced by a set. -/
def decompose (g : Graph) (set : StateSet) : Decomposition :=
  let blocks := (g.components .both set).mergeSort fun s t => s.first?.getD 0 ≤ t.first?.getD 0
  ⟨blocks, blocks.foldl StateSet.minus set⟩

/-- The number of components. -/
def Decomposition.count (d : Decomposition) : Nat := d.blocks.length + d.trivial.card

/-- Whether there are no components. -/
def Decomposition.isEmpty (d : Decomposition) : Bool := d.blocks.isEmpty && d.trivial.isEmpty

end Graph

end MarkovElimination
