import MarkovElimination.Proofs.Model.Restriction

/-! # Exactness of until probabilities

Graph analysis finds exactly the states of probability zero and one (`contains_probZero`,
`contains_probOne`). It settles the initial state, or finds the undecided states that the initial
state reaches (`analyseUntil_meets`). These are transient, and their probabilities solve the system
that is handed to elimination; so a check returns the probability of the formula in the initial
state (`runs_checkUntil`), under every configuration. -/

namespace MarkovElimination

/-! ### Sums over columns -/

section Sums

variable {α : Type} [Weight α]

/-- **Sums of rows over a set of columns**, for the rows of a set of states. -/
theorem Chain.Stochastic.checkedRowSums_meets {I : Interpretation α ℚ} {c : Chain α}
    (h : c.Stochastic I) {rows columns : StateSet} (hrows : rows.size = c.size)
    (hcolumns : columns.size = c.size) :
    Meets I.RangeFault (fun sums => sums.length = rows.card ∧ (∀ a ∈ sums, I.Valid a) ∧
        ∀ k s, rows.toList[k]? = some s → I.value (sums.getD k 0) =
          I.dot (c.transitions.row s) fun t => if columns.contains t then 1 else 0)
      (c.transitions.checkedRowSums rows columns) := by
  -- The sum over some columns is a dot product with their indicator.
  have hsum (s : Nat) : I.Valid (c.transitions.rowSum s columns) ∧
      I.value (c.transitions.rowSum s columns) =
        I.dot (c.transitions.row s) fun t => if columns.contains t then 1 else 0 := by
    have hvalid : I.ValidRow ((c.transitions.row s).filter fun e => columns.contains e.column) :=
      fun e he => (h.positive s).valid e (List.mem_filter.1 he).1
    obtain ⟨hv, heq⟩ := I.sum_row hvalid
    exact ⟨hv, heq.trans (I.dot_filter columns.contains _ _)⟩
  have hm : c.transitions.WellFormed := ⟨h.sorted, fun s t ht =>
    h.square ▸ h.column_lt s t ht⟩
  rw [hm.returnsIf_checkedRowSums hrows (hcolumns.trans h.square.symm)]
  refine (I.requireRange_meets fun hu => ?_).bind fun _ _ => ⟨?_, ?_, ?_⟩
  · simp [Matrix.rowSumFits, hu.rowSumFits]
  · simp [Matrix.rowSums, StateSet.card]
  · intro a ha
    obtain ⟨s, -, rfl⟩ := List.mem_map.1 ha
    exact (hsum s).1
  · intro k s hk
    rw [Matrix.rowSums, List.getD_eq_getElem?_getD, List.getElem?_map, hk]
    exact (hsum s).2

end Sums

namespace Chain

variable {α : Type} [Weight α] {I : Interpretation α ℚ} {c : Chain α}

omit [Weight α] in
/-- The check of a chain with one initial state is about that state. -/
theorem runs_initialState {E : CheckError → Prop} {s : Nat} (h : c.initial.toList = [s]) :
    Runs E (fun i => i = s) (Checked.ofExcept c.initialState) := by
  rw [initialState, h]
  exact Checked.runs_ofExcept (x := .ok s) rfl

variable (I) in
/-- **The maybe states** of the probabilities `x`: they contain the initial state, are undecided and
come with the probability of a step to probability one for each of them. -/
structure HasMaybe (c : Chain α) (s₀ : Fin c.size) (x : Fin c.size → ℚ) (maybe : StateSet)
    (oneStep : List α) : Prop where
  size : maybe.size = c.size
  initial : maybe.contains s₀ = true
  undecided : Kernel.Undecided (c.kernel I.value) x fun s : Fin c.size => maybe.contains s = true
  length : oneStep.length = maybe.card
  valid : ∀ a ∈ oneStep, I.Valid a
  value : ∀ k (s : Fin c.size), maybe.toList[k]? = some ↑s → I.value (oneStep.getD k 0) =
    Kernel.step (c.kernel I.value) (fun t => if x t = 1 then 1 else 0) s

variable (I) in
/-- What graph analysis says agrees with the probabilities `x`. -/
def Analysed (c : Chain α) (s₀ : Fin c.size) (x : Fin c.size → ℚ) : UntilAnalysis α → Prop
  | .settled holds => x s₀ = if holds then 1 else 0
  | .undecided maybe oneStep => c.HasMaybe I s₀ x maybe oneStep

namespace Stochastic

variable {invariant goal : StateSet} {x : Fin c.size → ℚ}

/-! ### Graph analysis -/

omit [Weight α] in
/-- All states are in the full set. -/
theorem contains_full_eq :
    (fun s : Fin c.size => (StateSet.full c.size).contains s = true) = fun _ => True := by
  funext s
  simp

/-- **The states of probability zero.** -/
theorem contains_probZero (h : c.Stochastic I) (hinv : invariant.size = c.size)
    (hgoal : goal.size = c.size)
    (hx : Kernel.IsUntilProbability (c.kernel I.value) (fun s => invariant.contains s = true)
      (fun s => goal.contains s = true) x) (s : Fin c.size) :
    (c.graph.probPositive invariant goal).complement.contains s = true ↔ x s = 0 := by
  have hsize : (c.graph.probPositive invariant goal).size = c.size :=
    (Graph.size_probPositive (hinv.trans hgoal.symm)).trans hgoal
  rw [StateSet.contains_complement, hsize, Bool.and_eq_true, decide_eq_true_eq,
    Bool.not_eq_true', ← Bool.not_eq_true, h.contains_probPositive hinv hgoal,
    ← hx.ne_zero_iff h.kernel_stochastic.substochastic, not_not]
  exact and_iff_right s.isLt

/-- **The states of probability one.** -/
theorem contains_probOne (h : c.Stochastic I) (hinv : invariant.size = c.size)
    (hgoal : goal.size = c.size)
    (hx : Kernel.IsUntilProbability (c.kernel I.value) (fun s => invariant.contains s = true)
      (fun s => goal.contains s = true) x) (s : Fin c.size) :
    (c.graph.probOne goal (c.graph.probPositive invariant goal)).contains s = true ↔ x s = 1 := by
  have hsize : goal.size = (c.graph.probPositive invariant goal).size :=
    (Graph.size_probPositive (hinv.trans hgoal.symm)).symm
  -- The analysis excludes the states from which a path outside of the goal leads to zero.
  rw [hx.eq_one_iff h.kernel_stochastic, Graph.contains_probOne hsize,
    and_iff_right (hgoal.symm ▸ s.isLt)]
  refine not_congr ⟨?_, ?_⟩
  · rintro ⟨u, ⟨hu, hzero⟩, hpath⟩
    obtain ⟨t, rfl, hst⟩ := h.reflTransGen_iff.1 hpath
    refine ⟨t, (h.contains_probZero hinv hgoal hx t).1 ?_, hst.lift id fun a b hab => ?_⟩
    · rw [StateSet.contains_complement, ← hsize, hzero]
      simp [hu]
    · exact ⟨by simpa using hab.1.2, hab.2⟩
  · rintro ⟨t, ht, hpath⟩
    have hzero := (h.contains_probZero hinv hgoal hx t).2 ht
    rw [StateSet.contains_complement, ← hsize] at hzero
    refine ⟨t, by simpa using hzero, h.reflTransGen_iff.2 ⟨t, rfl, ?_⟩⟩
    refine hpath.lift id fun a b hab => ?_
    exact ⟨⟨hgoal.symm ▸ a.isLt, by simpa using hab.1⟩, hab.2⟩

/-- The states that a search from the initial state finds contain that state, and with every state
that is not a target all of its successors that the constraint or the target contain. -/
theorem reachable_closed (h : c.Stochastic I) {s₀ : Fin c.size}
    (hinitial : c.initial.toList = [↑s₀]) {constraint target : StateSet}
    (hconstraint : constraint.size = c.size) (htarget : target.size = c.size) :
    (c.graph.reachable c.initial constraint target).contains s₀ = true ∧
      ∀ s t : Fin c.size, (c.graph.reachable c.initial constraint target).contains s = true →
        target.contains s = false → 0 < c.kernel I.value s t →
        (constraint.contains t = true ∨ target.contains t = true) →
        (c.graph.reachable c.initial constraint target).contains t = true := by
  have hsize₁ : constraint.size = c.initial.size := hconstraint.trans h.initial_size.symm
  have hsize₂ : target.size = c.initial.size := htarget.trans h.initial_size.symm
  simp only [Graph.contains_reachable hsize₁ hsize₂]
  refine ⟨⟨s₀, ?_, .refl⟩, ?_⟩
  · rw [← StateSet.mem_toList, hinitial]
    simp
  · rintro s t ⟨i, hi, hpath⟩ hs hst ht
    refine ⟨i, hi, hpath.tail ⟨?_, ht, hs⟩⟩
    rw [h.mem_next_iff, ← h.kernel_pos_iff]
    exact hst

/-- The states that a search finds among undecided ones are states of the chain. -/
theorem size_maybe (h : c.Stochastic I) {undecided target : StateSet}
    (hundecided : undecided.size = c.size) :
    ((c.graph.reachable c.initial undecided target).inter undecided).size = c.size := by
  rw [StateSet.size_inter, Graph.size_reachable (hundecided.trans h.initial_size.symm),
    h.initial_size]

/-- **The maybe states** are undecided, and contain with every state all of its undecided
successors. -/
theorem undecided_maybe (h : c.Stochastic I) {s₀ : Fin c.size}
    (hinitial : c.initial.toList = [↑s₀]) {undecided one : StateSet}
    (hsize : undecided.size = c.size) (hsize_one : one.size = c.size)
    (hundecided : ∀ s : Fin c.size, undecided.contains s = true ↔ x s ≠ 0 ∧ x s ≠ 1)
    (hone : ∀ s : Fin c.size, one.contains s = true ↔ x s = 1) :
    Kernel.Undecided (c.kernel I.value) x fun s : Fin c.size =>
      ((c.graph.reachable c.initial undecided one).inter undecided).contains s = true := by
  obtain ⟨-, hclosed⟩ := h.reachable_closed hinitial hsize hsize_one
  simp only [StateSet.contains_inter, Bool.and_eq_true]
  refine ⟨fun s hs => ((hundecided s).1 hs.2).1, fun s hs => ((hundecided s).1 hs.2).2, ?_⟩
  intro s t hs hst ht0 ht1
  have hs1 : one.contains s = false := by
    rw [← Bool.not_eq_true, hone]
    exact ((hundecided s).1 hs.2).2
  have ht : undecided.contains t = true := (hundecided t).2 ⟨ht0, ht1⟩
  exact ⟨hclosed s t hs.1 hs1 hst (.inl ht), ht⟩

/-- **Graph analysis** settles the probability of the initial state, or finds the maybe states. -/
theorem analyseUntil_meets (h : c.Stochastic I) {s₀ : Fin c.size}
    (hinitial : c.initial.toList = [↑s₀]) (hinv : invariant.size = c.size)
    (hgoal : goal.size = c.size)
    (hx : Kernel.IsUntilProbability (c.kernel I.value) (fun s => invariant.contains s = true)
      (fun s => goal.contains s = true) x) :
    Meets I.RangeFault (c.Analysed I s₀ x) (c.analyseUntil s₀ invariant goal) := by
  set positive := c.graph.probPositive invariant goal with hpositive
  set one := c.graph.probOne goal positive with hone
  set undecided := (positive.complement.union one).complement with hundecided
  set maybe := (c.graph.reachable c.initial undecided one).inter undecided with hmaybe
  have hsize : positive.size = c.size :=
    (Graph.size_probPositive (hinv.trans hgoal.symm)).trans hgoal
  have hsize_one : one.size = c.size := by
    rw [hone, Graph.size_probOne (hgoal.trans hsize.symm), hgoal]
  have hsize_undecided : undecided.size = c.size := by simp [hundecided, hsize]
  have hzero (s : Fin c.size) : positive.complement.contains s = true ↔ x s = 0 :=
    h.contains_probZero hinv hgoal hx s
  have hone_iff (s : Fin c.size) : one.contains s = true ↔ x s = 1 :=
    h.contains_probOne hinv hgoal hx s
  have hund (s : Fin c.size) : undecided.contains s = true ↔ x s ≠ 0 ∧ x s ≠ 1 := by
    rw [hundecided, StateSet.contains_complement, StateSet.size_union, StateSet.size_complement,
      StateSet.contains_union_of_size (by rw [StateSet.size_complement, hsize, hsize_one])]
    simp [hsize, ← hzero, ← hone_iff]
  have hanalysis : c.analyseUntil s₀ invariant goal =
      if positive.complement.contains s₀ then pure (.settled false)
      else if one.contains s₀ then pure (.settled true)
      else (c.transitions.checkedRowSums maybe one).map (.undecided maybe) := rfl
  rw [hanalysis]
  by_cases h0 : positive.complement.contains s₀ = true
  · rw [if_pos h0]
    exact (hzero s₀).1 h0
  rw [if_neg h0]
  by_cases h1 : one.contains s₀ = true
  · rw [if_pos h1]
    exact (hone_iff s₀).1 h1
  rw [if_neg h1]
  -- Neither zero nor one: the maybe states are closed under undecided successors.
  have hM := h.undecided_maybe hinitial hsize_undecided hsize_one hund hone_iff
  rw [← hmaybe] at hM
  have hs₀ : maybe.contains s₀ = true := by
    rw [hmaybe, StateSet.contains_inter, Bool.and_eq_true, hund]
    exact ⟨(h.reachable_closed hinitial hsize_undecided hsize_one).1,
      fun hx0 => h0 ((hzero s₀).2 hx0), fun hx1 => h1 ((hone_iff s₀).2 hx1)⟩
  have hsize_maybe : maybe.size = c.size := h.size_maybe hsize_undecided
  refine (h.checkedRowSums_meets hsize_maybe hsize_one).map.mono ?_
  rintro _ ⟨sums, ⟨hlength, hvalid, hsums⟩, rfl⟩
  refine ⟨hsize_maybe, hs₀, hM, hlength, hvalid, fun k s hk => ?_⟩
  rw [hsums k s hk, h.dot_eq_step]
  simp only [hone_iff]

/-! ### The check -/

/-- **Until formulas are checked exactly**, under every interpretation in which the chain is
stochastic. -/
theorem runs_checkUntil (h : c.Stochastic I) (config : EliminationConfig) {s₀ : Fin c.size}
    (hinitial : c.initial.toList = [↑s₀]) (hinv : invariant.size = c.size)
    (hgoal : goal.size = c.size)
    (hx : Kernel.IsUntilProbability (c.kernel I.value) (fun s => invariant.contains s = true)
      (fun s => goal.contains s = true) x) :
    Runs (CheckError.IsFault I.RangeFault) (Settles I s₀ (x s₀))
      (c.checkUntil config invariant goal) := by
  have hP := h.kernel_stochastic
  refine (runs_initialState hinitial).bind ?_
  rintro _ rfl
  refine Checked.runs_checkpoint.bind fun _ _ => ?_
  refine (Checked.runs_ofFault (h.analyseUntil_meets hinitial hinv hgoal hx)).bind ?_
  rintro (holds | ⟨maybe, oneStep⟩) hanalysis
  · -- Graph analysis already knows the probability.
    have hx₀ : x s₀ = if holds then 1 else 0 := hanalysis
    cases holds with
    | true => exact .pure ⟨rfl, 1, rfl, I.valid_one, I.value_one.trans hx₀.symm⟩
    | false => exact .pure ⟨rfl, 0, rfl, I.valid_zero, I.value_zero.trans hx₀.symm⟩
  · -- The probabilities of the maybe states solve the system that is handed to elimination.
    have hM : c.HasMaybe I s₀ x maybe oneStep := hanalysis
    have hrun := h.runs_eliminateMaybe config hinitial hM.size hM.initial
      (hM.undecided.transient hP.substochastic hx) .probabilities hM.length hM.valid
      (x := fun s => if maybe.contains s then x s else 0) hM.value
      (fun s hs => by
        rw [if_pos hs]
        exact hM.undecided.solves hP.substochastic hx hs)
      (fun s hs => if_neg hs) (supportOf oneStep)
    simpa [hM.initial] using hrun

end Stochastic

/-- **Until probabilities are exact.** An uncancelled check of a Markov chain with one initial state
never fails. It returns the probability of the formula in the initial state, which is the least
non-negative solution of the equations of the formula. -/
theorem checkUntil_eq_untilProbability {c : Chain ℚ} (hc : c.IsMarkov) {s₀ : Fin c.size}
    (hinitial : c.initial.toList = [↑s₀]) {invariant goal : StateSet}
    (hinvariant : invariant.size = c.size) (hgoal : goal.size = c.size)
    (config : EliminationConfig) (m : Monitor) (hm : m.cancelAt = none) :
    ∃ x, Kernel.IsUntilProbability c.probability (fun s => invariant.contains s = true)
        (fun s => goal.contains s = true) x ∧
      ∃ r, (outcome (c.checkUntil config invariant goal) m).1 = .ok r ∧ r.initial = s₀ ∧
        r.value = .finite (x s₀) := by
  have h := hc.stochastic
  obtain ⟨x, hx⟩ := Kernel.exists_isUntilProbability h.kernel_stochastic.substochastic
    (fun s => invariant.contains s = true) fun s => goal.contains s = true
  refine ⟨x, hx, ?_⟩
  obtain ⟨r, hr, hinit, a, hvalue, -, ha⟩ :=
    (h.runs_checkUntil config hinitial hinvariant hgoal hx).exists_ok not_isFault_rat hm
  have hax : a = x s₀ := ha
  exact ⟨r, hr, hinit, hax ▸ hvalue⟩

/-- The lazy walk reaches state `2` with a probability that hybrid elimination computes. -/
theorem checkUntil_walk : ∃ x, Kernel.IsUntilProbability walk.probability
    (fun s => (StateSet.full 4).contains s = true)
    (fun s => (StateSet.singleton 4 2).contains s = true) x ∧
      ∃ r, (outcome (walk.checkUntil { method := .hybrid } (.full 4) (.singleton 4 2)) {}).1 =
      .ok r ∧
        r.initial = (0 : Fin walk.size) ∧ r.value = .finite (x 0) :=
  checkUntil_eq_untilProbability isMarkov_walk (by decide) (StateSet.size_full 4)
    (StateSet.size_singleton 4 2) { method := .hybrid } {} rfl

end Chain

end MarkovElimination
