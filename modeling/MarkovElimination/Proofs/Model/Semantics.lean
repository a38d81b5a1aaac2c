import Mathlib
import MarkovElimination.Model.Chain
import MarkovElimination.Proofs.Graph.Search
import MarkovElimination.Proofs.Kernel.Until
import MarkovElimination.Proofs.Matrix.Shape
import MarkovElimination.Proofs.Weight.Interpretation

/-! # The kernel of a Markov chain

A chain is **well formed** if its parts agree about the number of states, and **stochastic** under
an interpretation if its transitions are positive and every row sums to one. Its **kernel** is the
matrix of the interpreted transitions, over which probabilities are defined. This file connects the
kernel with the two views that checks use: dot products of rows, and the edges of the graph. -/

namespace MarkovElimination

/-- A dot product is a sum over all states. -/
theorem Interpretation.dot_eq_sum {α K : Type} [Weight α] [Field K] (I : Interpretation α K)
    {n : Nat} {row : Row α} (hsorted : row.Sorted) (hlt : ∀ c ∈ row.columns, c < n)
    (x : Nat → K) : I.dot row x = ∑ t : Fin n, I.coefficient row t * x t := by
  induction row with
  | nil => simp [coefficient, Row.get?]
  | cons e row ih =>
    obtain ⟨hgt, hrow⟩ := Row.sorted_cons.1 hsorted
    obtain ⟨he, hrest⟩ := List.forall_mem_cons.1 hlt
    have hnot : e.column ∉ Row.columns row := fun hmem => lt_irrefl _ (hgt _ hmem)
    -- The first entry is the only one in its column.
    have hterm (t : Fin n) : I.coefficient (e :: row) t * x t =
        (if t = ⟨e.column, he⟩ then I.value e.value * x e.column else 0) +
          I.coefficient row t * x t := by
      rw [I.coefficient_cons]
      by_cases ht : e.column = t
      · have hfin : t = ⟨e.column, he⟩ := Fin.ext ht.symm
        rw [if_pos ht, if_pos hfin, ← ht, I.coefficient_of_not_mem hnot, zero_mul, add_zero]
      · have hfin : t ≠ ⟨e.column, he⟩ := fun h => ht (congrArg Fin.val h).symm
        rw [if_neg ht, if_neg hfin, zero_add]
    rw [I.dot_cons, ih hrow hrest, Finset.sum_congr rfl fun t _ => hterm t,
      Finset.sum_add_distrib, Finset.sum_ite_eq' Finset.univ, if_pos (Finset.mem_univ _)]

namespace Graph

variable {α : Type} [Weight α]

@[simp] theorem size_ofEdges (n : Nat) (edges : List (Nat × Nat)) :
    (ofEdges n edges).size = n := by
  simp [ofEdges, size, neighbourLists]

@[simp] theorem size_ofMatrix (m : Matrix α) : (ofMatrix m).size = m.rowCount := size_ofEdges _ _

@[simp] theorem size_reversed_ofMatrix (m : Matrix α) :
    (ofMatrix m).reversed.size = m.rowCount := by
  simp [ofMatrix, ofEdges, reversed, size, neighbourLists]

/-- The edges of the graph of a matrix are its entries that are not zero. -/
theorem mem_next_ofMatrix {m : Matrix α} {i j : Nat} :
    j ∈ (ofMatrix m).next i ↔ j ∈ (m.row i).dropZeros.columns ∧ j < m.rowCount := by
  have hnext : (ofMatrix m).next i = (neighbourLists m.rowCount (edgesWithin m.rowCount
      (m.dropZeros.entries.map fun e => (e.1, e.2.1)))).getD i [] := rfl
  rw [hnext, mem_neighbourLists, edgesWithin, List.mem_filter]
  simp only [List.mem_map, Prod.exists, Prod.mk.injEq, Matrix.entries, List.mem_flatMap,
    List.mem_range, Bool.and_eq_true, decide_eq_true_eq]
  constructor
  · rintro ⟨-, ⟨a, b, v, ⟨k, -, e, he, rfl, rfl, rfl⟩, rfl, rfl⟩, -, hj⟩
    rw [Matrix.row_dropZeros] at he
    exact ⟨List.mem_map.2 ⟨e, he, rfl⟩, hj⟩
  · -- A row that has an entry is a row of the matrix.
    rintro ⟨hmem, hj⟩
    obtain ⟨e, he, rfl⟩ := List.mem_map.1 hmem
    have hi : i < m.rowCount :=
      Matrix.lt_rowCount_of_mem_columns (List.mem_map.2 ⟨e, (List.mem_filter.1 he).1, rfl⟩)
    refine ⟨hi, ⟨i, e.column, e.value, ⟨i, ?_, e, ?_, rfl, rfl, rfl⟩, rfl, rfl⟩, hi, hj⟩
    · simpa [Matrix.dropZeros, Matrix.rowCount] using hi
    · rw [Matrix.row_dropZeros]
      exact he

end Graph

namespace Chain

variable {α : Type}

/-- The parts of a chain agree about the number of states, and rows are sorted. -/
structure WellFormed (c : Chain α) : Prop where
  square : c.transitions.columns = c.size
  sorted : ∀ s, (c.transitions.row s).Sorted
  column_lt : ∀ s, ∀ t ∈ (c.transitions.row s).columns, t < c.size
  initial_size : c.initial.size = c.size
  labelling_size : ∀ label ∈ c.labelling, label.2.size = c.size
  stateRewards_size : ∀ rewards ∈ c.stateRewards, rewards.size = c.size
  transitionRewards_size : ∀ rewards ∈ c.transitionRewards, rewards.rowCount = c.size

/-- The matrix of the interpreted transitions, zero where there is none. -/
def kernel (value : α → ℚ) (c : Chain α) (s t : Fin c.size) : ℚ :=
  ((c.transitions.get? s t).map value).getD 0

/-- The transition probabilities of a chain of rational numbers. -/
abbrev probability (c : Chain ℚ) : Fin c.size → Fin c.size → ℚ := c.kernel id

/-- **A Markov chain** of rational numbers: transitions are positive, and the transitions of every
state sum to exactly one. -/
structure IsMarkov (c : Chain ℚ) : Prop where
  wellFormed : c.WellFormed
  positive : ∀ s, ∀ e ∈ c.transitions.row s, 0 < e.value
  sum_eq : ∀ s, s < c.size → ((c.transitions.row s).map (·.value)).sum = 1

/-- Well-formedness is a statement about the rows of the states only. -/
theorem wellFormed_iff {c : Chain α} : c.WellFormed ↔ c.transitions.columns = c.size ∧
    (∀ s < c.size, (c.transitions.row s).Sorted ∧
      ∀ t ∈ (c.transitions.row s).columns, t < c.size) ∧
    c.initial.size = c.size ∧ (∀ label ∈ c.labelling, label.2.size = c.size) ∧
    (∀ rewards ∈ c.stateRewards, rewards.size = c.size) ∧
    ∀ rewards ∈ c.transitionRewards, rewards.rowCount = c.size := by
  constructor
  · intro h
    exact ⟨h.square, fun s _ => ⟨h.sorted s, h.column_lt s⟩, h.initial_size, h.labelling_size,
      h.stateRewards_size, h.transitionRewards_size⟩
  · rintro ⟨hsquare, hrows, hinitial, hlabels, hstates, htransitions⟩
    refine ⟨hsquare, fun s => ?_, fun s t ht => ?_, hinitial, hlabels, hstates, htransitions⟩
    · rcases Nat.lt_or_ge s c.size with hs | hs
      · exact (hrows s hs).1
      · rw [Matrix.row_of_rowCount_le hs]
        exact List.Pairwise.nil
    · exact (hrows s (Matrix.lt_rowCount_of_mem_columns ht)).2 t ht

instance (c : Chain α) : Decidable c.WellFormed := decidable_of_iff' _ wellFormed_iff

/-- So is being a Markov chain. -/
theorem isMarkov_iff {c : Chain ℚ} : c.IsMarkov ↔ c.WellFormed ∧ ∀ s < c.size,
    (∀ e ∈ c.transitions.row s, 0 < e.value) ∧
      ((c.transitions.row s).map (·.value)).sum = 1 := by
  constructor
  · intro h
    exact ⟨h.wellFormed, fun s hs => ⟨h.positive s, h.sum_eq s hs⟩⟩
  · rintro ⟨hwf, hrows⟩
    refine ⟨hwf, fun s e he => ?_, fun s hs => (hrows s hs).2⟩
    have hs : s < c.size := Matrix.lt_rowCount_of_mem_columns (List.mem_map.2 ⟨e, he, rfl⟩)
    exact (hrows s hs).1 e he

instance (c : Chain ℚ) : Decidable c.IsMarkov := decidable_of_iff' _ isMarkov_iff

/-- A lazy walk: state `0` may stay, state `1` may go back, and states `2` and `3` are absorbing. -/
def walk : Chain ℚ where
  transitions :=
    .ofRows 4 [[⟨0, 1 / 2⟩, ⟨1, 1 / 2⟩], [⟨0, 1 / 4⟩, ⟨2, 1 / 2⟩, ⟨3, 1 / 4⟩],
    [⟨2, 1⟩], [⟨3, 1⟩]]
  initial := .singleton 4 0
  labelling := []
  stateRewards := some #[1, -2, 0, 0]
  transitionRewards := some (.ofRows 4 [[⟨1, 3⟩], [⟨2, 1 / 2⟩], [], []])

instance : NeZero walk.size := ⟨by decide⟩

/-- The lazy walk is a Markov chain. -/
theorem isMarkov_walk : walk.IsMarkov := by decide +kernel

/-- A vector over the states of a chain, extended by zero. -/
def extend {β : Type} [Zero β] (c : Chain α) (x : Fin c.size → β) (i : Nat) : β :=
  if h : i < c.size then x ⟨i, h⟩ else 0

@[simp] theorem extend_val {β : Type} [Zero β] (c : Chain α) (x : Fin c.size → β)
    (s : Fin c.size) : c.extend x s = x s := by
  simp [extend]

variable [Weight α] {I : Interpretation α ℚ}

variable (I) in
/-- **A stochastic chain** under an interpretation. -/
structure Stochastic (c : Chain α) : Prop extends c.WellFormed where
  positive : ∀ s, I.PositiveRow (c.transitions.row s)
  sum_eq : ∀ s, s < c.size → (I.dot (c.transitions.row s) fun _ => 1) = 1

/-- Markov chains of rational numbers are stochastic. -/
theorem IsMarkov.stochastic {c : Chain ℚ} (h : c.IsMarkov) : c.Stochastic .rat where
  toWellFormed := h.wellFormed
  positive s e he := ⟨trivial, h.positive s e he⟩
  sum_eq s hs := by
    simpa [Interpretation.dot, Interpretation.rat] using h.sum_eq s hs

variable {c : Chain α}

/-- A step of the kernel is a dot product with a row. -/
theorem WellFormed.step_eq (h : c.WellFormed) (x : Fin c.size → ℚ) (s : Fin c.size) :
    Kernel.step (c.kernel I.value) x s = I.dot (c.transitions.row s) (c.extend x) := by
  rw [I.dot_eq_sum (h.sorted s) (h.column_lt s)]
  exact Finset.sum_congr rfl fun t _ => by rw [extend_val]; rfl

/-- The same for a vector over all natural numbers. -/
theorem WellFormed.dot_eq_step (h : c.WellFormed) (x : Nat → ℚ) (s : Fin c.size) :
    I.dot (c.transitions.row s) x = Kernel.step (c.kernel I.value) (fun t => x t) s := by
  rw [I.dot_eq_sum (h.sorted s) (h.column_lt s)]
  rfl

namespace Stochastic

/-- Entries of the kernel are positive exactly at the transitions. -/
theorem kernel_pos_iff (h : c.Stochastic I) {s t : Fin c.size} :
    0 < c.kernel I.value s t ↔ (t : Nat) ∈ (c.transitions.row s).columns :=
  (h.positive s).coefficient_pos_iff

/-- The kernel of a stochastic chain is stochastic. -/
theorem kernel_stochastic (h : c.Stochastic I) : Kernel.Stochastic (c.kernel I.value) where
  nonneg s t := (h.positive s).coefficient_nonneg t
  row_eq s := by
    have hsum := h.sum_eq s s.isLt
    rw [h.dot_eq_step, Kernel.step_const, mul_one] at hsum
    exact hsum

/-- The edges of the graph are the transitions. -/
theorem mem_next_iff (h : c.Stochastic I) {i j : Nat} :
    j ∈ c.graph.next i ↔ j ∈ (c.transitions.row i).columns := by
  rw [graph, Graph.mem_next_ofMatrix, (h.positive i).dropZeros_eq]
  exact ⟨fun hj => hj.1, fun hj => ⟨hj, h.column_lt i j hj⟩⟩

/-- The edges of the graph connect states. -/
theorem lt_of_mem_next (h : c.Stochastic I) {i j : Nat} (hij : j ∈ c.graph.next i) :
    i < c.size ∧ j < c.size := by
  rw [h.mem_next_iff] at hij
  exact ⟨Matrix.lt_rowCount_of_mem_columns hij, h.column_lt i j hij⟩

/-- **Paths of the graph are paths of the kernel**, under a condition on the states that are
left. -/
theorem reflTransGen_iff (h : c.Stochastic I) {p : Nat → Prop} {s : Fin c.size} {j : Nat} :
    Relation.ReflTransGen (fun a b => p a ∧ b ∈ c.graph.next a) s j ↔
      ∃ t : Fin c.size, (t : Nat) = j ∧
        Relation.ReflTransGen (fun a b : Fin c.size => p a ∧ 0 < c.kernel I.value a b) s t := by
  constructor
  · -- Edges connect states, so every position of the path is a state.
    intro hpath
    induction hpath with
    | refl => exact ⟨s, rfl, .refl⟩
    | @tail a b _ hab ih =>
      obtain ⟨t, rfl, hst⟩ := ih
      obtain ⟨-, hb⟩ := h.lt_of_mem_next hab.2
      refine ⟨⟨b, hb⟩, rfl, hst.tail ⟨hab.1, ?_⟩⟩
      rw [h.kernel_pos_iff, ← h.mem_next_iff]
      exact hab.2
  · rintro ⟨t, rfl, hpath⟩
    refine hpath.lift Fin.val fun a b hab => ⟨hab.1, ?_⟩
    rw [h.mem_next_iff, ← h.kernel_pos_iff]
    exact hab.2

/-- The states found by backward search through an invariant are those that lead to the goal. -/
theorem contains_probPositive (h : c.Stochastic I) {invariant goal : StateSet}
    (hinv : invariant.size = c.size) (hgoal : goal.size = c.size) (s : Fin c.size) :
    (c.graph.probPositive invariant goal).contains s = true ↔
      Kernel.LeadsTo (c.kernel I.value) (fun t => invariant.contains t = true)
        (fun t => goal.contains t = true) s := by
  rw [Graph.probPositive, Graph.contains_canReach (by rw [hinv, hgoal])]
  constructor
  · rintro ⟨u, hu, hpath⟩
    obtain ⟨t, rfl, hst⟩ := h.reflTransGen_iff.1 hpath
    exact ⟨t, hu, hst⟩
  · rintro ⟨t, ht, hpath⟩
    exact ⟨t, ht, h.reflTransGen_iff.2 ⟨t, rfl, hpath⟩⟩

end Stochastic

end Chain

end MarkovElimination
