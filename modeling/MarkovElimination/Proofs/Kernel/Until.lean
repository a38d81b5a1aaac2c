import MarkovElimination.Proofs.Kernel.Comparison

/-! # Until probabilities as least solutions

The probability of `inv U goal` is the **least non-negative solution** of a system of equations:
one on the goal, zero where neither the invariant nor the goal holds, and the expected value after
one step otherwise. In a finite substochastic kernel the least solution exists
(`exists_isUntilProbability`), lies below every non-negative *supersolution* (`le_of_super`), is
positive exactly where a path leads to the goal (`pos_iff`), and is one exactly where no path leads
to a state of probability zero before the goal (`eq_one_iff`). A kernel that is embedded in another
one has the same least solution (`comp_embedding`). -/

namespace MarkovElimination.Kernel

variable {σ : Type} [Fintype σ] {P : σ → σ → ℚ} {inv goal : σ → Prop}

/-- Entries are non-negative and rows sum to at most one. -/
structure Substochastic (P : σ → σ → ℚ) : Prop where
  nonneg : ∀ s t, 0 ≤ P s t
  row_le : ∀ s, ∑ t, P s t ≤ 1

/-- Entries are non-negative and rows sum to one. -/
structure Stochastic (P : σ → σ → ℚ) : Prop where
  nonneg : ∀ s t, 0 ≤ P s t
  row_eq : ∀ s, ∑ t, P s t = 1

/-- A stochastic kernel is substochastic. -/
theorem Stochastic.substochastic (hP : Stochastic P) : Substochastic P :=
  ⟨hP.nonneg, fun s => (hP.row_eq s).le⟩

/-- A step of what is at most one is at most one. -/
theorem Substochastic.step_le_one (hP : Substochastic P) {y : σ → ℚ} (hy : ∀ t, y t ≤ 1)
    (s : σ) : step P y s ≤ 1 := by
  calc step P y s ≤ step P (fun _ => 1) s := step_mono (hP.nonneg s) fun t _ => hy t
    _ = ∑ t, P s t := by rw [step_const, mul_one]
    _ ≤ 1 := hP.row_le s

/-- The equations of `inv U goal`. -/
structure SolvesUntil (P : σ → σ → ℚ) (inv goal : σ → Prop) (x : σ → ℚ) : Prop where
  at_goal : ∀ s, goal s → x s = 1
  outside : ∀ s, ¬goal s → ¬inv s → x s = 0
  inside : ∀ s, ¬goal s → inv s → x s = step P x s

/-- **The probability of `inv U goal`**: the least non-negative solution of its equations. -/
structure IsUntilProbability (P : σ → σ → ℚ) (inv goal : σ → Prop) (x : σ → ℚ) :
    Prop where
  nonneg : ∀ s, 0 ≤ x s
  solves : SolvesUntil P inv goal x
  least : ∀ y : σ → ℚ, (∀ s, 0 ≤ y s) → SolvesUntil P inv goal y → ∀ s, x s ≤ y s

/-- A path of positive entries through the invariant leads from `s` to the goal. -/
def LeadsTo (P : σ → σ → ℚ) (inv goal : σ → Prop) (s : σ) : Prop :=
  ∃ t, goal t ∧ Relation.ReflTransGen (fun a b => inv a ∧ 0 < P a b) s t

omit [Fintype σ] in
/-- A state of the invariant leads to the goal if one of its successors does. -/
theorem LeadsTo.of_edge {s t : σ} (hs : inv s) (hst : 0 < P s t) (ht : LeadsTo P inv goal t) :
    LeadsTo P inv goal s := by
  obtain ⟨u, hu, hpath⟩ := ht
  exact ⟨u, hu, .head ⟨hs, hst⟩ hpath⟩

omit [Fintype σ] in
/-- A state that leads to the goal is in the goal, or in the invariant with a successor that leads
to the goal. -/
theorem LeadsTo.cases {s : σ} (h : LeadsTo P inv goal s) :
    goal s ∨ inv s ∧ ∃ t, 0 < P s t ∧ LeadsTo P inv goal t := by
  obtain ⟨u, hu, hpath⟩ := h
  rcases hpath.cases_head with rfl | ⟨t, hst, htu⟩
  · exact .inl hu
  · exact .inr ⟨hst.1, t, hst.2, u, hu, htu⟩

/-- Some path of `n` positive entries through the invariant leads from `s` to the goal. -/
def Away (P : σ → σ → ℚ) (inv goal : σ → Prop) : ℕ → σ → Prop
  | 0, s => goal s
  | n + 1, s => inv s ∧ ∃ t, 0 < P s t ∧ Away P inv goal n t

omit [Fintype σ] in
/-- A state that is some steps away leads to the goal. -/
theorem Away.leadsTo {n : ℕ} {s : σ} (h : Away P inv goal n s) : LeadsTo P inv goal s := by
  induction n generalizing s with
  | zero => exact ⟨s, h, .refl⟩
  | succ n ih =>
    obtain ⟨hinv, t, hst, ht⟩ := h
    exact (ih ht).of_edge hinv hst

omit [Fintype σ] in
/-- A state that leads to the goal is some steps away. -/
theorem LeadsTo.exists_away {s : σ} (h : LeadsTo P inv goal s) : ∃ n, Away P inv goal n s := by
  obtain ⟨u, hu, hpath⟩ := h
  induction hpath using Relation.ReflTransGen.head_induction_on with
  | refl => exact ⟨0, hu⟩
  | @head a b hab _ ih =>
    obtain ⟨n, hn⟩ := ih
    exact ⟨n + 1, hab.1, b, hab.2, hn⟩

omit [Fintype σ] in
/-- **Paths to the goal can be chosen with decreasing rank**: a state that leads to the goal and is
not in it has a successor of smaller rank that leads to the goal too. -/
theorem exists_rank (P : σ → σ → ℚ) (inv goal : σ → Prop) :
    ∃ r : σ → ℕ, ∀ s, LeadsTo P inv goal s → ¬goal s →
      ∃ t, 0 < P s t ∧ LeadsTo P inv goal t ∧ r t < r s := by
  -- The rank is the length of a shortest path, and its second state is the successor.
  refine ⟨fun s => sInf {n | Away P inv goal n s}, fun s hs hg => ?_⟩
  have hmin : Away P inv goal (sInf {n | Away P inv goal n s}) s := Nat.sInf_mem hs.exists_away
  cases hrank : sInf {n | Away P inv goal n s} with
  | zero =>
    rw [hrank] at hmin
    exact absurd hmin hg
  | succ n =>
    rw [hrank] at hmin
    obtain ⟨-, t, hst, ht⟩ := hmin
    have hle : sInf {n | Away P inv goal n t} ≤ n := Nat.sInf_le ht
    refine ⟨t, hst, ht.leadsTo, ?_⟩
    show sInf {n | Away P inv goal n t} < sInf {n | Away P inv goal n s}
    omega

/-- The states that lead to the goal and are not in it are transient. -/
theorem transient_leadsTo (hP : Substochastic P) (inv goal : σ → Prop) :
    Transient P fun s => LeadsTo P inv goal s ∧ ¬goal s where
  nonneg := hP.nonneg
  row_le s _ := hP.row_le s
  exits s hs := by
    obtain ⟨⟨t, ht, hpath⟩, -⟩ := hs
    exact ⟨t, fun h => h.2 ht, hpath.lift id fun _ _ h => h.2⟩

/-- A state of the invariant that does not lead to the goal has no successor that does, so what
vanishes on such states vanishes after a step. -/
theorem step_eq_zero (hP : Substochastic P) {x : σ → ℚ}
    (hx : ∀ t, ¬LeadsTo P inv goal t → x t = 0) {s : σ} (hinv : inv s)
    (hs : ¬LeadsTo P inv goal s) : step P x s = 0 := by
  refine Finset.sum_eq_zero fun t _ => ?_
  rcases (hP.nonneg s t).eq_or_lt with h0 | h0
  · rw [← h0, zero_mul]
  · rw [hx t fun ht => hs (ht.of_edge hinv h0), mul_zero]

open Classical in
/-- A solution that vanishes where no path leads to the goal. -/
theorem exists_solvesUntil (hP : Substochastic P) (inv goal : σ → Prop) :
    ∃ x, SolvesUntil P inv goal x ∧ ∀ s, ¬LeadsTo P inv goal s → x s = 0 := by
  -- Solve on the transient states, with the indicator of the goal as the value elsewhere.
  obtain ⟨x, hin, hout⟩ := (transient_leadsTo hP inv goal).exists_solution (fun _ => 0)
    fun s => if goal s then 1 else 0
  have hgoal : ∀ s, goal s → x s = 1 := by
    intro s hs
    rw [hout s fun h => h.2 hs, if_pos hs]
  have hzero : ∀ s, ¬LeadsTo P inv goal s → x s = 0 := by
    intro s hs
    rw [hout s fun h => hs h.1, if_neg fun hg => hs ⟨s, hg, .refl⟩]
  refine ⟨x, ⟨hgoal, fun s hs hinv => ?_, fun s hs hinv => ?_⟩, hzero⟩
  · exact hzero s fun h => h.cases.elim hs fun h => hinv h.1
  · by_cases hlead : LeadsTo P inv goal s
    · rw [hin s ⟨hlead, hs⟩, zero_add]
    · rw [hzero s hlead, step_eq_zero hP hzero hinv hlead]

/-- A supersolution dominates every solution that vanishes where no path leads to the goal. -/
theorem SolvesUntil.le_super (hP : Substochastic P) {x y : σ → ℚ}
    (hx : SolvesUntil P inv goal x)
    (hzero : ∀ s, ¬LeadsTo P inv goal s → x s = 0) (hy : ∀ s, 0 ≤ y s)
    (hgoal : ∀ s, goal s → 1 ≤ y s) (hin : ∀ s, ¬goal s → inv s → step P y s ≤ y s)
    (s : σ) : x s ≤ y s := by
  -- The minimum principle for the difference on the states that lead to the goal.
  have h := (transient_leadsTo hP inv goal).nonneg_of_step_le (z := fun t => y t - x t) ?_ ?_ s
  · linarith
  · intro t ht
    by_cases hg : goal t
    · linarith [hgoal t hg, hx.at_goal t hg]
    · linarith [hzero t fun h => ht ⟨h, hg⟩, hy t]
  · intro t ht
    have hinv : inv t := (ht.1.cases.resolve_left ht.2).1
    rw [step_sub]
    linarith [hin t ht.2 hinv, hx.inside t ht.2 hinv]

/-- A non-negative solution that vanishes where no path leads to the goal is the least one. -/
theorem SolvesUntil.isUntilProbability (hP : Substochastic P) {x : σ → ℚ}
    (hx : SolvesUntil P inv goal x) (hzero : ∀ s, ¬LeadsTo P inv goal s → x s = 0) :
    IsUntilProbability P inv goal x where
  nonneg := by
    refine (transient_leadsTo hP inv goal).nonneg_of_step_le (fun s hs => ?_) fun s hs => ?_
    · by_cases hg : goal s
      · rw [hx.at_goal s hg]
        exact zero_le_one
      · rw [hzero s fun h => hs ⟨h, hg⟩]
    · exact (hx.inside s hs.2 (hs.1.cases.resolve_left hs.2).1).ge
  solves := hx
  least y hy hsol := hx.le_super hP hzero hy (fun s hs => (hsol.at_goal s hs).ge)
    fun s hs hinv => (hsol.inside s hs hinv).ge

/-- **Existence.** The equations of `inv U goal` have a least non-negative solution. -/
theorem exists_isUntilProbability (hP : Substochastic P) (inv goal : σ → Prop) :
    ∃ x, IsUntilProbability P inv goal x := by
  obtain ⟨x, hx, hzero⟩ := exists_solvesUntil hP inv goal
  exact ⟨x, hx.isUntilProbability hP hzero⟩

/-- A path outside of the goal leads to probability zero. -/
def Escapes (P : σ → σ → ℚ) (goal : σ → Prop) (x : σ → ℚ) (s : σ) : Prop :=
  ∃ t, x t = 0 ∧ Relation.ReflTransGen (fun a b => ¬goal a ∧ 0 < P a b) s t

namespace IsUntilProbability

variable {x : σ → ℚ}

/-- There is only one least solution. -/
theorem unique {y : σ → ℚ} (hx : IsUntilProbability P inv goal x)
    (hy : IsUntilProbability P inv goal y) : x = y := by
  funext s
  exact le_antisymm (hx.least y hy.nonneg hy.solves s) (hy.least x hx.nonneg hx.solves s)

/-- The least solution vanishes where no path leads to the goal. -/
theorem eq_zero_of_not_leadsTo (hP : Substochastic P) (hx : IsUntilProbability P inv goal x)
    {s : σ} (hs : ¬LeadsTo P inv goal s) : x s = 0 := by
  obtain ⟨y, hy, hzero⟩ := exists_solvesUntil hP inv goal
  rw [hx.unique (hy.isUntilProbability hP hzero)]
  exact hzero s hs

/-- **Supersolutions** dominate the least solution. -/
theorem le_of_super (hP : Substochastic P) (hx : IsUntilProbability P inv goal x) {y : σ → ℚ}
    (hy : ∀ s, 0 ≤ y s) (hgoal : ∀ s, goal s → 1 ≤ y s)
    (hin : ∀ s, ¬goal s → inv s → step P y s ≤ y s) (s : σ) : x s ≤ y s :=
  hx.solves.le_super hP (fun _ ht => hx.eq_zero_of_not_leadsTo hP ht) hy hgoal hin s

/-- A probability is at most one. -/
theorem le_one (hP : Substochastic P) (hx : IsUntilProbability P inv goal x) (s : σ) :
    x s ≤ 1 := by
  refine hx.le_of_super hP (y := fun _ => 1) (fun _ => zero_le_one) (fun _ _ => le_rfl) ?_ s
  intro t _ _
  exact hP.step_le_one (fun _ => le_rfl) t

/-- The least solution is positive where a path leads to the goal. -/
theorem pos_of_leadsTo (hP : Substochastic P) (hx : IsUntilProbability P inv goal x) {s : σ}
    (hs : LeadsTo P inv goal s) : 0 < x s := by
  obtain ⟨t, ht, hpath⟩ := hs
  induction hpath using Relation.ReflTransGen.head_induction_on with
  | refl =>
    rw [hx.solves.at_goal t ht]
    exact zero_lt_one
  | @head a b hab _ ih =>
    by_cases hg : goal a
    · rw [hx.solves.at_goal a hg]
      exact zero_lt_one
    · rw [hx.solves.inside a hg hab.1]
      refine Finset.sum_pos' (fun u _ => mul_nonneg (hP.nonneg a u) (hx.nonneg u)) ?_
      exact ⟨b, Finset.mem_univ b, mul_pos hab.2 ih⟩

/-- **Positive probability** means that a path leads to the goal. -/
theorem pos_iff (hP : Substochastic P) (hx : IsUntilProbability P inv goal x) {s : σ} :
    0 < x s ↔ LeadsTo P inv goal s := by
  refine ⟨fun h => ?_, hx.pos_of_leadsTo hP⟩
  by_contra hs
  rw [hx.eq_zero_of_not_leadsTo hP hs] at h
  exact lt_irrefl 0 h

/-- A probability does not vanish where a path leads to the goal. -/
theorem ne_zero_iff (hP : Substochastic P) (hx : IsUntilProbability P inv goal x) {s : σ} :
    x s ≠ 0 ↔ LeadsTo P inv goal s := by
  rw [← hx.pos_iff hP, (hx.nonneg s).lt_iff_ne, ne_comm]

open Classical in
/-- A set whose states lead to the goal, and whose states outside of the goal
satisfy the invariant and have all their successors in the set, has probability one. -/
theorem eq_one_of_closed (hP : Stochastic P) (hx : IsUntilProbability P inv goal x)
    {O : σ → Prop} (hlead : ∀ s, O s → LeadsTo P inv goal s)
    (hclosed : ∀ s, O s → ¬goal s → inv s ∧ ∀ t, 0 < P s t → O t) {s : σ} (hs : O s) :
    x s = 1 := by
  have hU : Transient P fun s => O s ∧ ¬goal s := by
    refine ⟨hP.nonneg, fun s _ => (hP.row_eq s).le, fun s hs => ?_⟩
    obtain ⟨t, ht, hpath⟩ := hlead s hs.1
    exact ⟨t, fun h => h.2 ht, hpath.lift id fun _ _ h => h.2⟩
  -- On the set both `x` and the constant one satisfy the equations.
  have h := hU.eq_of_solutions (b := fun _ => 0) (x := fun t => if O t then x t else 0)
    (y := fun t => if O t then 1 else 0) ?_ ?_ ?_ s
  · simpa [hs] using h
  · intro t ht
    by_cases hO : O t
    · have hg : goal t := by
        by_contra hg
        exact ht ⟨hO, hg⟩
      simp [hO, hx.solves.at_goal t hg]
    · simp [hO]
  · intro t ht
    obtain ⟨hinv, hsucc⟩ := hclosed t ht.1 ht.2
    rw [if_pos ht.1, hx.solves.inside t ht.2 hinv, zero_add]
    refine step_congr fun u hu => ?_
    rw [if_pos (hsucc u (lt_of_le_of_ne (hP.nonneg t u) (Ne.symm hu)))]
  · intro t ht
    obtain ⟨-, hsucc⟩ := hclosed t ht.1 ht.2
    have hstep : step P (fun u => if O u then (1 : ℚ) else 0) t = step P (fun _ => 1) t := by
      refine step_congr fun u hu => ?_
      rw [if_pos (hsucc u (lt_of_le_of_ne (hP.nonneg t u) (Ne.symm hu)))]
    rw [if_pos ht.1, hstep, step_const, hP.row_eq t]
    norm_num

/-- A path outside of the goal to a state below one starts below one. -/
theorem lt_one_of_path (hP : Substochastic P) (hx : IsUntilProbability P inv goal x) {s t : σ}
    (hpath : Relation.ReflTransGen (fun a b => ¬goal a ∧ 0 < P a b) s t) (ht : x t < 1) :
    x s < 1 := by
  -- From the end of the path backwards: a state before a state below one is below one.
  induction hpath using Relation.ReflTransGen.head_induction_on with
  | refl => exact ht
  | @head a b hab _ ih =>
    by_cases hinv : inv a
    · rw [hx.solves.inside a hab.1 hinv]
      calc step P x a < step P (fun _ => 1) a :=
            step_lt_step (hP.nonneg a) (fun u _ => hx.le_one hP u) hab.2 ih
        _ ≤ 1 := hP.step_le_one (fun _ => le_rfl) a
    · rw [hx.solves.outside a hab.1 hinv]
      exact zero_lt_one

/-- **Probability one** means that no path outside of the goal leads to probability zero. -/
theorem eq_one_iff (hP : Stochastic P) (hx : IsUntilProbability P inv goal x) {s : σ} :
    x s = 1 ↔ ¬Escapes P goal x s := by
  constructor
  · rintro hs ⟨t, ht, hpath⟩
    have hlt := hx.lt_one_of_path hP.substochastic hpath (by rw [ht]; exact zero_lt_one)
    exact hlt.ne hs
  · -- The other states lead to the goal and are closed under successors.
    intro hs
    refine hx.eq_one_of_closed hP (O := fun s => ¬Escapes P goal x s) (fun t ht => ?_)
      (fun t ht hg => ⟨?_, fun u htu hu => ht ?_⟩) hs
    · rw [← hx.ne_zero_iff hP.substochastic]
      exact fun h0 => ht ⟨t, h0, .refl⟩
    · by_contra hnot
      exact ht ⟨t, hx.solves.outside t hg hnot, .refl⟩
    · obtain ⟨w, hw, hpath⟩ := hu
      exact ⟨w, hw, .head ⟨hg, htu⟩ hpath⟩

omit [Fintype σ] in
/-- What holds of a vector, and of other values on the embedded states, holds of the vector with
these values. -/
theorem forall_extend {τ : Type} {ι : τ → σ} (hι : Function.Injective ι) {f : τ → ℚ}
    {g : σ → ℚ}
    {Q : σ → ℚ → Prop} (hf : ∀ s, Q (ι s) (f s)) (hg : ∀ t, Q t (g t)) (t : σ) :
    Q t (Function.extend ι f g t) := by
  by_cases ht : ∃ s, ι s = t
  · obtain ⟨s, rfl⟩ := ht
    rw [hι.extend_apply]
    exact hf s
  · rw [Function.extend_apply' _ _ t ht]
    exact hg t

/-- **Embedded kernels.** If the states of one kernel are embedded in another, and the steps from
embedded states that matter stay embedded, then the least solution of the larger kernel is that of
the smaller one on the embedded states. -/
theorem comp_embedding {τ : Type} [Fintype τ] {Q : τ → τ → ℚ} (hP : Substochastic P)
    (hQ : ∀ s t, 0 ≤ Q s t) {ι : τ → σ} (hι : Function.Injective ι)
    (hstep : ∀ s, ¬goal (ι s) → inv (ι s) →
      ∀ y, step P y (ι s) = step Q (fun t => y (ι t)) s)
    (hx : IsUntilProbability P inv goal x) :
    IsUntilProbability Q (fun s => inv (ι s)) (fun s => goal (ι s)) fun s => x (ι s) where
  nonneg s := hx.nonneg (ι s)
  solves := by
    refine ⟨fun s => hx.solves.at_goal (ι s), fun s => hx.solves.outside (ι s), ?_⟩
    intro s hs hinv
    rw [hx.solves.inside (ι s) hs hinv]
    exact hstep s hs hinv x
  least y hy hsol := by
    -- The smaller of `x` and `y` on the embedded states, and `x` elsewhere, is a supersolution.
    let z := Function.extend ι (fun s => min (x (ι s)) (y s)) x
    have hzι (s : τ) : z (ι s) = min (x (ι s)) (y s) := hι.extend_apply _ _ s
    have hzx : ∀ t, z t ≤ x t :=
      forall_extend hι (Q := fun t v => v ≤ x t) (fun s => min_le_left _ _) fun t => le_rfl
    have hstep_le (t : σ) (hg : ¬goal t) (hinv : inv t) : step P z t ≤ x t := by
      rw [hx.solves.inside t hg hinv]
      exact step_mono (hP.nonneg t) fun u _ => hzx u
    have hle : ∀ t, x t ≤ z t := by
      refine hx.le_of_super hP ?_ ?_ ?_
      · exact forall_extend hι (Q := fun _ v => 0 ≤ v) (fun s => le_min (hx.nonneg _) (hy s))
          hx.nonneg
      · refine forall_extend hι (Q := fun t v => goal t → 1 ≤ v) (fun s hg => ?_)
          fun t hg => (hx.solves.at_goal t hg).ge
        rw [hx.solves.at_goal _ hg, hsol.at_goal s hg, min_self]
      · refine forall_extend hι (Q := fun t v => ¬goal t → inv t → step P z t ≤ v)
          (fun s hg hinv => le_min (hstep_le _ hg hinv) ?_) hstep_le
        rw [hstep s hg hinv, hsol.inside s hg hinv]
        refine step_mono (hQ s) fun u _ => ?_
        rw [hzι]
        exact min_le_right _ _
    intro s
    have h := hle (ι s)
    rw [hzι] at h
    exact h.trans (min_le_right _ _)

end IsUntilProbability

/-! ### Undecided states -/

/-- A set of states of probability neither zero nor one that contains with every state all of its
successors of this kind. -/
structure Undecided (P : σ → σ → ℚ) (x : σ → ℚ) (M : σ → Prop) : Prop where
  ne_zero : ∀ s, M s → x s ≠ 0
  ne_one : ∀ s, M s → x s ≠ 1
  closed : ∀ s t, M s → 0 < P s t → x t ≠ 0 → x t ≠ 1 → M t

namespace Undecided

variable {x : σ → ℚ} {M : σ → Prop}

/-- Undecided states lead to the goal, through the invariant. -/
theorem leadsTo (hM : Undecided P x M) (hP : Substochastic P)
    (hx : IsUntilProbability P inv goal x) {s : σ} (hs : M s) :
    LeadsTo P inv goal s ∧ ¬goal s ∧ inv s := by
  have hlead := (hx.ne_zero_iff hP).1 (hM.ne_zero s hs)
  have hgoal : ¬goal s := fun hg => hM.ne_one s hs (hx.solves.at_goal s hg)
  exact ⟨hlead, hgoal, (hlead.cases.resolve_left hgoal).1⟩

/-- Undecided states are transient. -/
theorem transient (hM : Undecided P x M) (hP : Substochastic P)
    (hx : IsUntilProbability P inv goal x) : Transient P M where
  nonneg := hP.nonneg
  row_le s _ := hP.row_le s
  exits s hs := by
    obtain ⟨t, ht, hpath⟩ := (hM.leadsTo hP hx hs).1
    exact ⟨t, fun hmt => (hM.leadsTo hP hx hmt).2.1 ht, hpath.lift id fun _ _ hab => hab.2⟩

/-- **The system of the undecided states**: their probabilities, and nothing elsewhere, solve the
equations whose constant terms are the probabilities of a step to probability one. -/
theorem solves [DecidablePred M] (hM : Undecided P x M) (hP : Substochastic P)
    (hx : IsUntilProbability P inv goal x) {s : σ} (hs : M s) :
    x s = step P (fun t => if x t = 1 then 1 else 0) s +
      step P (fun t => if M t then x t else 0) s := by
  obtain ⟨-, hgoal, hinv⟩ := hM.leadsTo hP hx hs
  rw [hx.solves.inside s hgoal hinv, ← step_add]
  refine step_congr fun t ht => ?_
  have hst := lt_of_le_of_ne (hP.nonneg s t) (Ne.symm ht)
  by_cases hmt : M t
  · simp [hmt, hM.ne_one t hmt]
  · by_cases h1 : x t = 1
    · simp [h1, hmt]
    · have h0 : x t = 0 := by
        by_contra h0
        exact hmt (hM.closed s t hs hst h0 h1)
      simp [h0, hmt]

end Undecided

end MarkovElimination.Kernel
