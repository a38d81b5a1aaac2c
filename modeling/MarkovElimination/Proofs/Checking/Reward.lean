import MarkovElimination.Proofs.Checking.Until
import MarkovElimination.Proofs.Kernel.Reward

/-! # Exactness of expected rewards

A check first decides by graph analysis whether the target is reached with probability one; if not,
the expected reward is infinite. Otherwise the maybe states are the states that are reached before
the target (`contains_maybe_iff`), and elimination solves the equations of expected rewards on them
(`runs_checkReward`), for rewards of any sign. -/

namespace MarkovElimination

namespace Matrix

variable {α : Type} [Weight α] (I : Interpretation α ℚ)

/-- The products of two rows have values. -/
theorem validRow_productRow {row other : Row α} (hrow : I.ValidRow row)
    (hother : I.ValidRow other) : I.ValidRow (productRow row other) := by
  intro e he
  obtain ⟨d, hd, hmap⟩ := List.mem_filterMap.1 he
  obtain ⟨a, ha, rfl⟩ := Option.map_eq_some_iff.1 hmap
  exact I.valid_mul (hrow d hd) (hother.get? I ha)

/-- The products of two rows sum to the dot product with the coefficients of the other row. -/
theorem dot_productRow {row other : Row α} (hrow : I.ValidRow row) (hother : I.ValidRow other) :
    (I.dot (productRow row other) fun _ => 1) = I.dot row (I.coefficient other) := by
  induction row with
  | nil => rfl
  | cons e row ih =>
    obtain ⟨he, hrest⟩ := List.forall_mem_cons.1 hrow
    rw [I.dot_cons, ← ih hrest, productRow, List.filterMap_cons]
    cases ha : other.get? e.column with
    | none =>
      rw [I.coefficient_of_not_mem (Row.get?_eq_none_iff.1 ha), mul_zero, zero_add]
      rfl
    | some a =>
      rw [Option.map_some, I.dot_cons, I.coefficient_of_get? ha, mul_one,
        I.value_mul he (hother.get? I ha)]
      rfl

end Matrix

/-- Without a range, the products of two rows can be added up. -/
theorem Weight.Unbounded.productRowFits {α : Type} [Weight α] (h : Weight.Unbounded α)
    (row other : Row α) : Matrix.productRowFits row other = true := by
  rw [Matrix.productRowFits, h.rowSumFits, Bool.and_true, List.all_eq_true]
  intro e _
  cases other.get? e.column with
  | none => rfl
  | some a => exact h.mulFits e.value a

namespace Chain

/-! ### Rewards -/

section Rewards

variable {α : Type} [Weight α]

/-- The interpreted reward of a state. -/
def rewardOf (value : α → ℚ) (c : Chain α) (s : Fin c.size) : ℚ := value (c.stateReward s)

omit [Weight α] in
/-- The interpreted reward of a transition, zero where there is none. -/
def transitionRewardOf (value : α → ℚ) (c : Chain α) (s t : Fin c.size) : ℚ :=
  ((c.transitionRewards.bind fun rewards => rewards.get? s t).map value).getD 0

/-- All rewards have values. -/
structure RewardsDefined (I : Interpretation α ℚ) (c : Chain α) : Prop where
  states : ∀ rewards ∈ c.stateRewards, ∀ a ∈ rewards, I.Valid a
  transitions : ∀ rewards ∈ c.transitionRewards, ∀ s, I.ValidRow (rewards.row s)

/-- Rational rewards are values. -/
theorem rewardsDefined_rat (c : Chain ℚ) : c.RewardsDefined .rat :=
  ⟨fun _ _ _ _ => trivial, fun _ _ _ _ _ => trivial⟩

variable {I : Interpretation α ℚ} {c : Chain α}

/-- The reward of a state has a value. -/
theorem RewardsDefined.valid_stateReward (h : c.RewardsDefined I) (s : Nat) :
    I.Valid (c.stateReward s) := by
  rw [stateReward]
  cases hr : c.stateRewards with
  | none => exact I.valid_zero
  | some rewards =>
    rw [Option.getD_some, Array.getD_eq_getD_getElem?]
    cases hs : rewards[s]? with
    | none => exact I.valid_zero
    | some a => exact h.states rewards hr a (Array.mem_of_getElem? hs)

/-- **The expected reward of the transitions** out of each state: the sums over the products of a
row with its rewards. -/
theorem Stochastic.productRowSums_meets (h : c.Stochastic I) (hr : c.RewardsDefined I)
    {rewards : Matrix α} (hrewards : c.transitionRewards = some rewards) :
    Meets I.RangeFault (fun sums => ∀ s : Nat, I.Valid (sums.toArray.getD s 0) ∧
        ∀ hs : s < c.size, I.value (sums.toArray.getD s 0) =
          ∑ t, c.kernel I.value ⟨s, hs⟩ t * c.transitionRewardOf I.value ⟨s, hs⟩ t)
      (c.transitions.productRowSums rewards) := by
  have hcount : c.transitions.rowCount = rewards.rowCount :=
    (h.transitionRewards_size rewards hrewards).symm
  have hsum (s : Nat) := I.sum_row (Matrix.validRow_productRow I (h.positive s).valid
    (hr.transitions rewards hrewards s))
  rw [Matrix.productRowSums, if_neg (not_not.2 hcount)]
  refine (I.requireRange_meets fun hu => ?_).bind fun _ _ s => ?_
  · simp [hu.productRowFits]
  rw [Array.getD_eq_getD_getElem?, List.getElem?_toArray, List.getElem?_map]
  refine ⟨?_, fun hs => ?_⟩
  · cases (List.range c.transitions.rowCount)[s]? with
    | none => exact I.valid_zero
    | some t => exact (hsum t).1
  · have hrow : s < c.transitions.rowCount := hs
    rw [List.getElem?_range hrow, Option.map_some, Option.getD_some, (hsum s).2,
      Matrix.dot_productRow I (h.positive s).valid (hr.transitions rewards hrewards s)]
    refine (h.dot_eq_step _ ⟨s, hs⟩).trans (Finset.sum_congr rfl fun t _ => ?_)
    rw [transitionRewardOf, hrewards]
    rfl

/-- **The expected reward of one step** from the states of a set. -/
theorem Stochastic.expectedRewards_meets (h : c.Stochastic I) (hr : c.RewardsDefined I)
    (states : StateSet) :
    Meets I.RangeFault (fun values => values.length = states.card ∧
      (∀ a ∈ values, I.Valid a) ∧
        ∀ k (s : Fin c.size), states.toList[k]? = some ↑s → I.value (values.getD k 0) =
          c.rewardOf I.value s +
            ∑ t, c.kernel I.value s t * c.transitionRewardOf I.value s t)
      (c.expectedRewards states) := by
  -- The values are those of one function of the state.
  have hfinish (f : Nat → α) (hvalid : ∀ s, I.Valid (f s))
      (hf : ∀ s : Fin c.size, I.value (f s) = c.rewardOf I.value s +
        ∑ t, c.kernel I.value s t * c.transitionRewardOf I.value s t) :
      (states.toList.map f).length = states.card ∧ (∀ a ∈ states.toList.map f, I.Valid a) ∧
        ∀ k (s : Fin c.size), states.toList[k]? = some ↑s →
          I.value ((states.toList.map f).getD k 0) = c.rewardOf I.value s +
            ∑ t, c.kernel I.value s t * c.transitionRewardOf I.value s t := by
    refine ⟨List.length_map f, fun a ha => ?_, fun k s hk => ?_⟩
    · obtain ⟨s, -, rfl⟩ := List.mem_map.1 ha
      exact hvalid s
    · rw [List.getD_eq_getElem?_getD, List.getElem?_map, hk]
      exact hf s
  rw [expectedRewards]
  cases hrewards : c.transitionRewards with
  | none =>
    refine hfinish c.stateReward hr.valid_stateReward fun s => ?_
    simp [rewardOf, transitionRewardOf, hrewards]
  | some rewards =>
    refine (h.productRowSums_meets hr hrewards).bind fun sums hsums => ?_
    refine (I.requireRange_meets fun hu => ?_).bind fun _ _ => ?_
    · simp [hu.sumFits]
    have hadd (s : Nat) := I.simplify_add (hr.valid_stateReward s) (hsums s).1
    refine hfinish _ (fun s => (hadd s).1) fun s => ?_
    rw [(hadd s).2, (hsums s).2 s.isLt, rewardOf]

end Rewards

/-! ### The check -/

namespace Stochastic

variable {α : Type} [Weight α] {I : Interpretation α ℚ} {c : Chain α} {target : StateSet}
  {x : Fin c.size → ℚ}

/-- The states with an infinite reward are states of the chain. -/
theorem size_infinite (htarget : target.size = c.size) :
    (c.graph.probOne target (c.graph.probPositive (.full c.size) target)).complement.size =
      c.size := by
  have hsize : (c.graph.probPositive (.full c.size) target).size = target.size :=
    Graph.size_probPositive (by rw [htarget, StateSet.size_full])
  rw [StateSet.size_complement, Graph.size_probOne hsize.symm, htarget]

/-- **The expected reward is infinite** where the target is missed with positive probability. -/
theorem contains_infinite_iff (h : c.Stochastic I) (htarget : target.size = c.size)
    (hx : Kernel.IsUntilProbability (c.kernel I.value) (fun _ => True)
      (fun s => target.contains s = true) x) (s : Fin c.size) :
    (c.graph.probOne target (c.graph.probPositive (.full c.size) target)).complement.contains s =
      true ↔ ¬x s = 1 := by
  have hx' := hx
  rw [← contains_full_eq] at hx'
  have hsize := size_infinite (c := c) htarget
  rw [StateSet.size_complement] at hsize
  rw [StateSet.contains_complement, hsize,
    ← h.contains_probOne (StateSet.size_full _) htarget hx' s]
  simp

/-- **The undecided states** reach the target with probability one, but later. -/
theorem contains_undecided_iff (h : c.Stochastic I) (htarget : target.size = c.size)
    (hx : Kernel.IsUntilProbability (c.kernel I.value) (fun _ => True)
      (fun s => target.contains s = true) x) (s : Fin c.size) :
    (target.union (c.graph.probOne target
        (c.graph.probPositive (.full c.size) target)).complement).complement.contains s = true ↔
      x s = 1 ∧ ¬target.contains s = true := by
  rw [StateSet.contains_complement, StateSet.size_union, htarget,
    StateSet.contains_union_of_size (htarget.trans (size_infinite htarget).symm)]
  simp only [s.isLt, decide_true, Bool.true_and, Bool.not_eq_true', ← Bool.not_eq_true,
    Bool.or_eq_true, h.contains_infinite_iff htarget hx, not_or, not_not, and_comm]

/-- If the target is reached with probability one, the maybe states are those that are reached
before the target. -/
theorem contains_maybe_iff (h : c.Stochastic I) {s₀ : Fin c.size}
    (hinitial : c.initial.toList = [↑s₀]) (htarget : target.size = c.size)
    (hx : Kernel.IsUntilProbability (c.kernel I.value) (fun _ => True)
      (fun s => target.contains s = true) x) (hone : x s₀ = 1) {undecided : StateSet}
    (hsize : undecided.size = c.size)
    (hundecided : ∀ s : Fin c.size,
      undecided.contains s = true ↔ x s = 1 ∧ ¬target.contains s = true) (s : Fin c.size) :
    ((c.graph.reachable c.initial undecided target).inter undecided).contains s = true ↔
      Kernel.ReachedBefore (c.kernel I.value) (fun s => target.contains s = true) s₀ s ∧
        ¬target.contains s = true := by
  have hP := h.kernel_stochastic.substochastic
  have hmem : c.initial.contains s₀ = true := by
    rw [← StateSet.mem_toList, hinitial]
    simp
  rw [StateSet.contains_inter, Bool.and_eq_true, hundecided,
    Graph.contains_reachable (hsize.trans h.initial_size.symm) (htarget.trans h.initial_size.symm)]
  constructor
  · -- The search never leaves the target, so its paths are paths before the target.
    rintro ⟨⟨i, hi, hpath⟩, -, hs⟩
    rw [← StateSet.mem_toList, hinitial, List.mem_singleton] at hi
    subst hi
    have hlift : Relation.ReflTransGen
        (fun a b => target.contains a = false ∧ b ∈ c.graph.next a) ↑s₀ ↑s :=
      hpath.lift id fun a b hab => ⟨hab.2.2, hab.1⟩
    obtain ⟨t, ht, hst⟩ := h.reflTransGen_iff.1 hlift
    rw [Fin.ext ht] at hst
    exact ⟨hst.lift id fun a b hab => ⟨by simp [hab.1], hab.2⟩, hs⟩
  · rintro ⟨hreach, hs⟩
    refine ⟨⟨s₀, hmem, ?_⟩, hreach.eq_one hP hx hone, hs⟩
    clear hs
    -- All states on the way have probability one, so the search passes through them.
    induction hreach with
    | refl => exact .refl
    | @tail a b hreach hab ih =>
      have hb : x b = 1 := Kernel.ReachedBefore.eq_one hP hx hone (hreach.tail hab)
      refine ih.tail ⟨?_, ?_, by simpa using hab.1⟩
      · rw [h.mem_next_iff, ← h.kernel_pos_iff]
        exact hab.2
      · rw [hundecided b, hb]
        by_cases htb : target.contains b = true <;> simp [htb]

end Stochastic

section Check

variable {α : Type} [Weight α] {I : Interpretation α ℚ} {c : Chain α} {target : StateSet}
  {x : Fin c.size → ℚ}

variable (I) in
/-- What a check of rewards returns: an infinite reward if the target is missed with positive
probability, and the solution of the equations of rewards otherwise. -/
def SettlesReward (c : Chain α) (target : StateSet) (s₀ : Fin c.size) (x : Fin c.size → ℚ)
    (r : CheckResult α) : Prop :=
  r.initial = s₀ ∧ (x s₀ < 1 → r.value = .infinite) ∧
    (x s₀ = 1 → ∀ E, Kernel.SolvesReward (c.kernel I.value) (fun s =>
      target.contains s = true) s₀
      (c.rewardOf I.value) (c.transitionRewardOf I.value) E → Settles I s₀ (E s₀) r)

/-- **Rewards are checked exactly**, under every interpretation in which the chain is stochastic and
its rewards are defined. -/
theorem Stochastic.runs_checkReward (h : c.Stochastic I) (hr : c.RewardsDefined I)
    (hrewards : c.hasRewards = true) (config : EliminationConfig) {s₀ : Fin c.size}
    (hinitial : c.initial.toList = [↑s₀]) (htarget : target.size = c.size)
    (hx : Kernel.IsUntilProbability (c.kernel I.value) (fun _ => True)
      (fun s => target.contains s = true) x) :
    Runs (CheckError.IsFault I.RangeFault) (c.SettlesReward I target s₀ x)
      (c.checkReward config target) := by
  have hP := h.kernel_stochastic.substochastic
  set infinite := (c.graph.probOne target
    (c.graph.probPositive (.full c.size) target)).complement with hinfinite
  set undecided := (target.union infinite).complement with hundecided
  set maybe := (c.graph.reachable c.initial undecided target).inter undecided with hmaybe
  have hinf (s : Fin c.size) := h.contains_infinite_iff htarget hx s
  have hund (s : Fin c.size) := h.contains_undecided_iff htarget hx s
  rw [← hinfinite] at hinf hund
  have hsize_undecided : undecided.size = c.size := by simp [hundecided, htarget]
  rw [checkReward, hrewards]
  refine (runs_initialState hinitial).bind ?_
  rintro _ rfl
  refine Checked.runs_checkpoint.bind fun _ _ => ?_
  change Runs _ _ (if infinite.contains s₀ then _ else _)
  by_cases h1 : infinite.contains s₀ = true
  · rw [if_pos h1]
    exact .pure ⟨rfl, fun _ => rfl, fun hone => absurd hone ((hinf s₀).1 h1)⟩
  rw [if_neg h1]
  -- The target is reached with probability one, so the expected reward is finite.
  have hone : x s₀ = 1 := by
    by_contra hne
    exact h1 ((hinf s₀).2 hne)
  by_cases ht : target.contains s₀ = true
  · rw [if_pos ht]
    refine .pure ⟨rfl, fun hlt => absurd hone hlt.ne, fun _ E hE =>
      ⟨rfl, 0, rfl, I.valid_zero, ?_⟩⟩
    rw [I.value_zero, hE.at_target s₀ ht]
  rw [if_neg ht]
  have hsize_maybe : maybe.size = c.size := h.size_maybe hsize_undecided
  have hmaybe_iff (s : Fin c.size) := h.contains_maybe_iff hinitial htarget hx hone hsize_undecided
    hund s
  rw [← hmaybe] at hmaybe_iff
  refine (Checked.runs_ofFault (h.checkedRowSums_meets hsize_maybe htarget)).bind fun sums _ => ?_
  refine (Checked.runs_ofFault (h.expectedRewards_meets hr maybe)).bind ?_
  rintro rewards ⟨hlength, hvalid, hvalues⟩
  -- Elimination finds the solution that vanishes elsewhere, and solutions agree where it matters.
  obtain ⟨E, hE, hout⟩ := Kernel.exists_solvesReward hP hx hone (c.rewardOf I.value)
    (c.transitionRewardOf I.value)
  have hU := Kernel.transient_reachedBefore hP hx hone
  simp only [← hmaybe_iff] at hU hout
  have hrun := h.runs_eliminateMaybe config hinitial hsize_maybe
    ((hmaybe_iff s₀).2 ⟨.refl, ht⟩) hU .rewards hlength hvalid hvalues (fun s hs => by
      have hs' := (hmaybe_iff s).1 hs
      rw [hE.before s hs'.1 hs'.2, Kernel.sum_reward])
    hout (supportOf sums)
  refine hrun.mono fun r hr => ⟨hr.1, fun hlt => absurd hone hlt.ne, fun _ F hF => ?_⟩
  rw [hF.unique hP hx hone hE .refl]
  exact hr

end Check

/-- **Expected rewards are exact.** An uncancelled check of a Markov chain with one initial state
and with rewards never fails. It returns an infinite reward exactly if the target is reached with
probability below one; otherwise it returns what the equations of expected rewards give to the
initial state, and these determine the reward of every state that is reached. -/
theorem checkReward_eq_expectedReward {c : Chain ℚ} (hc : c.IsMarkov)
    (hrewards : c.hasRewards = true) {s₀ : Fin c.size} (hinitial : c.initial.toList = [↑s₀])
    {target : StateSet} (htarget : target.size = c.size) (config : EliminationConfig)
    (m : Monitor) (hm : m.cancelAt = none) :
    ∃ x, Kernel.IsUntilProbability c.probability (fun _ => True)
        (fun s => target.contains s = true) x ∧
      ∃ r, (outcome (c.checkReward config target) m).1 = .ok r ∧ r.initial = s₀ ∧
        (r.value = .infinite ↔ x s₀ < 1) ∧
        (¬x s₀ < 1 → ∃ E, r.value = .finite (E s₀) ∧
          Kernel.SolvesReward c.probability (fun s => target.contains s = true) s₀
            (c.rewardOf id) (c.transitionRewardOf id) E ∧
          ∀ F, Kernel.SolvesReward c.probability (fun s => target.contains s = true) s₀
              (c.rewardOf id) (c.transitionRewardOf id) F →
            ∀ s, Kernel.ReachedBefore c.probability (fun s => target.contains s = true) s₀ s →
              F s = E s) := by
  have h := hc.stochastic
  have hP := h.kernel_stochastic.substochastic
  obtain ⟨x, hx⟩ := Kernel.exists_isUntilProbability hP (fun _ => True)
    fun s => target.contains s = true
  refine ⟨x, hx, ?_⟩
  obtain ⟨r, hr, hinit, hinfinite, hfinite⟩ :=
    (h.runs_checkReward (rewardsDefined_rat c) hrewards config hinitial htarget hx).exists_ok
      not_isFault_rat hm
  refine ⟨r, hr, hinit, ?_⟩
  -- A probability is at most one, so it is below one or the equations have a solution.
  rcases (hx.le_one hP s₀).lt_or_eq with hlt | hone
  · exact ⟨⟨fun _ => hlt, fun _ => hinfinite hlt⟩, fun hge => absurd hlt hge⟩
  · obtain ⟨E, hE, -⟩ := Kernel.exists_solvesReward hP hx hone (c.rewardOf id)
      (c.transitionRewardOf id)
    obtain ⟨-, a, hvalue, -, ha⟩ := hfinite hone E hE
    have haE : a = E s₀ := ha
    refine ⟨⟨fun hinf => ?_, fun hlt => absurd hone hlt.ne⟩, fun _ =>
      ⟨E, haE ▸ hvalue, hE, ?_⟩⟩
    · rw [hvalue] at hinf
      exact absurd hinf (by simp)
    · intro F hF s hs
      exact hF.unique hP hx hone hE hs

/-- The lazy walk collects a reward until it is absorbed, which a check computes. -/
theorem checkReward_walk :
    ∃ x, Kernel.IsUntilProbability walk.probability (fun _ => True)
        (fun s => (StateSet.ofList 4 [2, 3]).contains s = true) x ∧
      ∃ r, (outcome (walk.checkReward {} (.ofList 4 [2, 3])) {}).1 = .ok r ∧
        r.initial = (0 : Fin walk.size) ∧ (r.value = .infinite ↔ x 0 < 1) ∧
        (¬x 0 < 1 → ∃ E, r.value = .finite (E 0) ∧
          Kernel.SolvesReward walk.probability
            (fun s => (StateSet.ofList 4 [2, 3]).contains s = true) 0
            (walk.rewardOf id) (walk.transitionRewardOf id) E ∧
          ∀ F, Kernel.SolvesReward walk.probability
              (fun s => (StateSet.ofList 4 [2, 3]).contains s = true) 0
              (walk.rewardOf id) (walk.transitionRewardOf id) F →
            ∀ s, Kernel.ReachedBefore walk.probability
                (fun s => (StateSet.ofList 4 [2, 3]).contains s = true) 0 s → F s = E s) :=
  checkReward_eq_expectedReward isMarkov_walk rfl (by decide) (StateSet.size_ofPredicate 4 _) {} {}
    rfl

end Chain

end MarkovElimination
