import MarkovElimination.Matrix.Basic

/-! # Transition graphs

The graph of a matrix has an edge for every entry that is not zero. It keeps for every state the
successors and the predecessors, both increasing and without repetition, and the two sides
**agree**. -/

namespace MarkovElimination

/-- The edges between the states `0, 1, …`. -/
structure Graph where
  /-- The successors of every state. -/
  successors : Array (List Nat)
  /-- The predecessors of every state. -/
  predecessors : Array (List Nat)
  /-- Every edge is listed on both sides. -/
  agree : ∀ i j, j ∈ successors.getD i [] ↔ i ∈ predecessors.getD j []

namespace Graph

/-- A state put in its place of an increasing list of states. -/
def insertState (i : Nat) : List Nat → List Nat
  | [] => [i]
  | j :: js =>
    match compare i j with
    | .lt => i :: j :: js
    | .eq => j :: js
    | .gt => j :: insertState i js

/-- The second parts of the pairs that start with `i`, increasing and without repetition. -/
def neighbours (pairs : List (Nat × Nat)) (i : Nat) : List Nat :=
  (pairs.filterMap fun pair => if pair.1 = i then some pair.2 else none).foldr insertState []

/-- Inserting adds one member. -/
theorem mem_insertState {i k : Nat} {js : List Nat} :
    k ∈ insertState i js ↔ k = i ∨ k ∈ js := by
  induction js with
  | nil => simp [insertState]
  | cons j js ih =>
    unfold insertState
    split
    · simp
    · rename_i h
      rw [Nat.compare_eq_eq.1 h]
      simp
    · simp only [List.mem_cons, ih]
      exact or_left_comm

/-- The neighbours of a state are exactly those it is paired with. -/
theorem mem_neighbours {pairs : List (Nat × Nat)} {i j : Nat} :
    j ∈ neighbours pairs i ↔ (i, j) ∈ pairs := by
  have h (l : List Nat) : j ∈ l.foldr insertState [] ↔ j ∈ l := by
    induction l with
    | nil => simp
    | cons k l ih => simp [mem_insertState, ih]
  simp only [neighbours, h, List.mem_filterMap]
  constructor
  · rintro ⟨⟨a, b⟩, hmem, hab⟩
    split at hab
    · rename_i ha
      simp only [Option.some.injEq] at hab
      exact ha ▸ hab ▸ hmem
    · simp at hab
  · exact fun hmem => ⟨(i, j), hmem, by simp⟩

/-- The edges that stay within the states below `n`. -/
def edgesWithin (n : Nat) (edges : List (Nat × Nat)) : List (Nat × Nat) :=
  edges.filter fun edge => edge.1 < n && edge.2 < n

/-- The neighbour lists of `n` states. -/
def neighbourLists (n : Nat) (pairs : List (Nat × Nat)) : Array (List Nat) :=
  Array.ofFn fun i : Fin n => neighbours pairs i

/-- Only states below `n` have neighbours. -/
theorem getD_neighbourLists (n : Nat) (pairs : List (Nat × Nat)) (i : Nat) :
    (neighbourLists n pairs).getD i [] = if i < n then neighbours pairs i else [] := by
  simp only [neighbourLists, Array.getD_eq_getD_getElem?, Array.getElem?_ofFn]
  split <;> simp

/-- A neighbour list holds exactly the pairs of a state below `n`. -/
theorem mem_neighbourLists {n : Nat} {pairs : List (Nat × Nat)} {i j : Nat} :
    j ∈ (neighbourLists n pairs).getD i [] ↔ i < n ∧ (i, j) ∈ pairs := by
  rw [getD_neighbourLists]
  by_cases h : i < n <;> simp [h, mem_neighbours]

/-- All edges reversed. -/
def flipped (edges : List (Nat × Nat)) : List (Nat × Nat) :=
  edges.map fun edge => (edge.2, edge.1)

/-- An edge is reversed exactly once. -/
theorem mem_flipped {edges : List (Nat × Nat)} {i j : Nat} :
    (j, i) ∈ flipped edges ↔ (i, j) ∈ edges := by
  constructor
  · intro h
    obtain ⟨⟨a, b⟩, hmem, hab⟩ := List.mem_map.1 h
    obtain ⟨rfl, rfl⟩ := Prod.mk.inj hab
    exact hmem
  · exact fun h => List.mem_map.2 ⟨(i, j), h, rfl⟩

/-- Both ends of an edge that is kept are states. -/
theorem lt_of_mem_edgesWithin {n : Nat} {edges : List (Nat × Nat)} {i j : Nat}
    (h : (i, j) ∈ edgesWithin n edges) : i < n ∧ j < n := by
  have hrange := (List.mem_filter.1 h).2
  simpa using hrange

/-- The graph over `n` states with the given edges. -/
def ofEdges (n : Nat) (edges : List (Nat × Nat)) : Graph where
  successors := neighbourLists n (edgesWithin n edges)
  predecessors := neighbourLists n (flipped (edgesWithin n edges))
  agree i j := by
    rw [mem_neighbourLists, mem_neighbourLists, mem_flipped]
    constructor
    · exact fun h => ⟨(lt_of_mem_edgesWithin h.2).2, h.2⟩
    · exact fun h => ⟨(lt_of_mem_edgesWithin h.2).1, h.2⟩

/-- The graph over `n` states with the given edges, all of which have to stay within the states. -/
def ofEdges? (n : Nat) (edges : List (Nat × Nat)) : Except Fault Graph := do
  checkRowCount n
  match edges.find? fun (s, t) => !(s < n && t < n) with
  | some (s, t) => throw (.edgeOutOfRange s t n)
  | none => pure (ofEdges n edges)

/-- The graph of the entries of a square matrix that are not zero. -/
def ofMatrix {α : Type} [Weight α] (m : Matrix α) : Graph :=
  ofEdges m.rowCount (m.dropZeros.entries.map fun (i, j, _) => (i, j))

/-- The number of states. -/
def size (g : Graph) : Nat := g.successors.size

/-- The successors of a state. -/
def next (g : Graph) (i : Nat) : List Nat := g.successors.getD i []

/-- The predecessors of a state. -/
def previous (g : Graph) (i : Nat) : List Nat := g.predecessors.getD i []

/-- The graph with all edges reversed. -/
def reversed (g : Graph) : Graph :=
  ⟨g.predecessors, g.successors, fun i j => (g.agree j i).symm⟩

/-- Whether a state is its own successor. -/
def hasSelfLoop (g : Graph) (i : Nat) : Bool := (g.next i).contains i

/-- The successors of a set that lie in another set. -/
def post (g : Graph) (set within : StateSet) : StateSet :=
  .ofPredicate within.size fun i => within.contains i && (g.previous i).any set.contains

/-- The predecessors of a set that lie in another set. -/
def pre (g : Graph) (set within : StateSet) : StateSet := g.reversed.post set within

end Graph

end MarkovElimination
