import MarkovElimination.Proofs.Checking.Until

/-! # Qualitative analysis of a stochastic matrix

The graph of a matrix forgets the probabilities and keeps only where they are positive. For a
**stochastic matrix** this is enough to find the states in which `inv U goal` has probability zero
and those in which it has probability one (`Matrix.IsStochastic.probZeroOne_exact`). The matrix is
read as a chain without labels and rewards, so the analysis of chains applies to it. -/

namespace MarkovElimination

namespace Matrix

/-- **A stochastic matrix**: square, with sorted rows of positive entries that sum to one. -/
structure IsStochastic (m : Matrix ℚ) : Prop where
  square : m.columns = m.rowCount
  sorted : ∀ s, (m.row s).Sorted
  column_lt : ∀ s, ∀ t ∈ (m.row s).columns, t < m.rowCount
  positive : ∀ s, ∀ e ∈ m.row s, 0 < e.value
  sum_eq : ∀ s, s < m.rowCount → ((m.row s).map (·.value)).sum = 1

/-- The entries of a matrix, zero where none is stored. -/
def kernel (m : Matrix ℚ) (s t : Fin m.rowCount) : ℚ := (m.get? s t).getD 0

/-- A matrix as a chain in which no state is initial, labelled or rewarded. -/
def toChain (m : Matrix ℚ) : Chain ℚ where
  transitions := m
  initial := .empty m.rowCount
  labelling := []
  stateRewards := none
  transitionRewards := none

/-- The chain of a matrix has the entries of the matrix as its probabilities. -/
theorem probability_toChain (m : Matrix ℚ) : m.toChain.probability = m.kernel := by
  funext s t
  show ((m.get? s t).map id).getD 0 = (m.get? s t).getD 0
  rw [Option.map_id_apply]

namespace IsStochastic

variable {m : Matrix ℚ}

/-- The chain of a stochastic matrix is a Markov chain. -/
theorem isMarkov_toChain (h : m.IsStochastic) : m.toChain.IsMarkov where
  wellFormed :=
    { square := h.square
      sorted := h.sorted
      column_lt := h.column_lt
      initial_size := StateSet.size_empty _
      labelling_size := by
        intro label hlabel
        exact absurd hlabel List.not_mem_nil
      stateRewards_size := by
        intro rewards hrewards
        exact absurd hrewards (by simp [toChain])
      transitionRewards_size := by
        intro rewards hrewards
        exact absurd hrewards (by simp [toChain]) }
  positive := h.positive
  sum_eq := h.sum_eq

/-- **Qualitative analysis is exact.** For a stochastic matrix, a set `invariant` and a set `goal`,
the until probabilities exist, and the graph analysis returns the states in which they are zero and
the states in which they are one. -/
theorem probZeroOne_exact (h : m.IsStochastic) {invariant goal : StateSet}
    (hinv : invariant.size = m.rowCount) (hgoal : goal.size = m.rowCount) :
    ∃ x : Fin m.rowCount → ℚ,
      Kernel.IsUntilProbability m.kernel (fun s => invariant.contains s = true)
        (fun s => goal.contains s = true) x ∧
      ∃ zero one, (Graph.ofMatrix m).probZeroOne invariant goal = (zero, one) ∧
        zero.size = m.rowCount ∧ one.size = m.rowCount ∧
        ∀ s : Fin m.rowCount,
          (zero.contains s = true ↔ x s = 0) ∧ (one.contains s = true ↔ x s = 1) := by
  have hc : m.toChain.Stochastic .rat := h.isMarkov_toChain.stochastic
  obtain ⟨x, hx⟩ := Kernel.exists_isUntilProbability hc.kernel_stochastic.substochastic
    (fun s => invariant.contains s = true) (fun s => goal.contains s = true)
  have hpositive : (m.toChain.graph.probPositive invariant goal).size = m.rowCount :=
    (Graph.size_probPositive (hinv.trans hgoal.symm)).trans hgoal
  refine ⟨x, ?_, _, _, rfl, ?_, ?_, ?_⟩
  · rw [← m.probability_toChain]
    exact hx
  · rw [StateSet.size_complement]
    exact hpositive
  · exact (Graph.size_probOne (hgoal.trans hpositive.symm)).trans hgoal
  · intro s
    exact ⟨hc.contains_probZero hinv hgoal hx s, hc.contains_probOne hinv hgoal hx s⟩

end IsStochastic

end Matrix

/-- The transitions of a Markov chain are a stochastic matrix. -/
theorem Chain.IsMarkov.isStochastic {c : Chain ℚ} (h : c.IsMarkov) :
    c.transitions.IsStochastic where
  square := h.wellFormed.square
  sorted := h.wellFormed.sorted
  column_lt := h.wellFormed.column_lt
  positive := h.positive
  sum_eq := h.sum_eq

/-- In the lazy walk, only state `2` never reaches state `3` through the states `0` and `1`, and
only state `3` reaches it for sure. -/
theorem Chain.probZeroOne_walk : walk.transitions.IsStochastic ∧ ∃ x : Fin 4 → ℚ,
    Kernel.IsUntilProbability walk.transitions.kernel
      (fun s => (StateSet.ofList 4 [0, 1]).contains s = true)
      (fun s => (StateSet.singleton 4 3).contains s = true) x ∧
    ∀ s, (s = 2 ↔ x s = 0) ∧ (s = 3 ↔ x s = 1) := by
  have hinv : (StateSet.ofList 4 [0, 1]).size = walk.transitions.rowCount := rfl
  have hgoal : (StateSet.singleton 4 3).size = walk.transitions.rowCount := rfl
  obtain ⟨x, hx, zero, one, hsets, -, -, hexact⟩ :=
    isMarkov_walk.isStochastic.probZeroOne_exact hinv hgoal
  have hcomputed : (Graph.ofMatrix walk.transitions).probZeroOne (.ofList 4 [0, 1])
      (.singleton 4 3) = (.singleton 4 2, .singleton 4 3) := by
    decide +kernel
  obtain ⟨rfl, rfl⟩ := Prod.mk.inj (hsets.symm.trans hcomputed)
  have hzero : ∀ s : Fin 4, (StateSet.singleton 4 2).contains s = true ↔ s = 2 := by decide
  have hone : ∀ s : Fin 4, (StateSet.singleton 4 3).contains s = true ↔ s = 3 := by decide
  refine ⟨isMarkov_walk.isStochastic, x, hx, fun s => ⟨?_, ?_⟩⟩
  · rw [← hzero]
    exact (hexact s).1
  · rw [← hone]
    exact (hexact s).2

end MarkovElimination
