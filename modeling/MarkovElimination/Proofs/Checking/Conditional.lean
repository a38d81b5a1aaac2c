import MarkovElimination.Proofs.Checking.Until
import MarkovElimination.Proofs.Elimination.Collapse
import MarkovElimination.Proofs.Kernel.Joint

/-! # Exactness of conditional probabilities

The conditional probability is the probability to visit both event and condition, divided by the
probability to visit the condition. A check reduces the condition to the states that are visited
first, which changes none of the two (`eq_of_first`). The states that lead to the condition, or that
are behind it and lead to the event, are **relevant**: the vectors of the eliminations vanish
elsewhere, so they are harmonic in the problem of the relevant states
(`Relevant.invariant_visits`). -/

namespace MarkovElimination.Chain

variable {α : Type} [Weight α] {I : Interpretation α ℚ} {c : Chain α}

/-! ### Harmonic vectors of a restriction -/

namespace IsRestriction

variable {R : StateSet} {mode : ValueMode} {values : List α} {p : Problem α}
  {T' C' : Nat → Prop} {T C : Fin c.size → Prop} {f : Fin c.size → ℚ}

/-- Rows of a restriction sum to at most one. -/
theorem sum_le (hp : c.IsRestriction I R mode values p) (h : c.Stochastic I) (hR : R.size = c.size)
    (k : Nat) : (I.dot (p.row k) fun _ => 1) ≤ 1 := by
  cases hk : R.toList[k]? with
  | none =>
    rw [hp.row_of_none hk, I.dot_nil]
    exact zero_le_one
  | some i =>
    obtain ⟨s, rfl, -⟩ := exists_state hR hk
    -- The row has the entries of the chain in the columns of the set.
    have hones : (I.dot (p.row k) fun _ => 1) =
        I.dot (c.transitions.row s) fun t => if R.contains t then 1 else 0 := by
      rw [← hp.dot_row hk (x := fun t => if R.contains t then 1 else 0) (by simp_all) 1]
      refine I.dot_congr fun j hj => ?_
      obtain ⟨t, ht, -⟩ := (hp.mem_columns hk).1 hj
      rw [StateSet.atPosition_of_getElem? ht, if_pos (StateSet.contains_of_getElem? ht)]
    have hle : (I.dot (c.transitions.row s) fun t => if R.contains t then 1 else 0) ≤
        I.dot (c.transitions.row s) fun _ => 1 := by
      refine (h.positive s).dot_mono fun t _ => ?_
      by_cases ht : R.contains t = true <;> simp [ht]
    rw [hones]
    exact hle.trans (h.sum_eq s s.isLt).le

/-- **A harmonic vector of the chain** that vanishes outside of the restriction is harmonic in the
problem of the restriction. -/
theorem harmonic (hp : c.IsRestriction I R mode values p) (h : c.Stochastic I)
    (hR : R.size = c.size) (hT : ∀ k (s : Fin c.size), R.toList[k]? = some ↑s →
      (T' k ↔ T s))
    (hC : ∀ k (s : Fin c.size), R.toList[k]? = some ↑s → (C' k ↔ C s))
    (hclosed : ∀ s t, C s → 0 < c.kernel I.value s t → C t)
    (hstep : ∀ s, C s → ¬T s → f s = Kernel.step (c.kernel I.value) f s)
    (hvanish : ∀ s : Fin c.size, C s → ¬R.contains s = true → f s = 0) :
    p.Harmonic I T' C' (fun _ => False) (R.atPosition 0 (c.extend f)) where
  closed := by
    intro k hk j hj
    obtain ⟨i, hki⟩ := hp.exists_member (Problem.lt_size_of_mem_columns hj)
    obtain ⟨s, rfl, -⟩ := exists_state hR hki
    obtain ⟨i, hji, hmem⟩ := (hp.mem_columns hki).1 hj
    obtain ⟨t, rfl, -⟩ := exists_state hR hji
    rw [hC j t hji]
    exact hclosed s t ((hC k s hki).1 hk) (h.kernel_pos_iff.2 hmem)
  eq_dot := by
    intro k hk hTk _
    cases hki : R.toList[k]? with
    | none =>
      rw [hp.row_of_none hki, I.dot_nil, StateSet.atPosition, hki]
      rfl
    | some i =>
      obtain ⟨s, rfl, -⟩ := exists_state hR hki
      have hCs := (hC k s hki).1 hk
      -- Entries that the restriction cuts off meet a value of zero.
      have hcut (t : Nat) (ht : t ∈ (c.transitions.row s).columns) (hout : R.contains t = false) :
          c.extend f t = 0 := by
        rw [Chain.extend, dif_pos (h.column_lt s t ht)]
        have hpos := (h.kernel_pos_iff (s := s) (t := ⟨t, h.column_lt s t ht⟩)).2 ht
        exact hvanish _ (hclosed s _ hCs hpos) (by simp [hout])
      rw [hp.dot_row hki hcut, ← h.step_eq, atPosition_extend hki]
      exact hstep s hCs fun hTs => hTk ((hT k s hki).2 hTs)

/-- Ranks of the chain are ranks of the problem of the restriction. -/
theorem ranked (hp : c.IsRestriction I R mode values p) (h : c.Stochastic I)
    (hR : R.size = c.size) (hT : ∀ k (s : Fin c.size), R.toList[k]? = some ↑s →
      (T' k ↔ T s))
    (hC : ∀ k (s : Fin c.size), R.toList[k]? = some ↑s → (C' k ↔ C s))
    (hclosed : ∀ s t, C s → 0 < c.kernel I.value s t → C t) {r : Fin c.size → ℕ}
    (hrank : ∀ s, C s → ¬T s → f s ≠ 0 → ∃ t, 0 < c.kernel I.value s t ∧
      f t ≠ 0 ∧ r t < r s)
    (hvanish : ∀ s : Fin c.size, C s → ¬R.contains s = true → f s = 0) :
    p.Ranked T' C' (fun _ => False) (R.atPosition 0 (c.extend f))
      (R.atPosition 0 (c.extend r)) := by
  intro k hk hTk _ hne
  cases hki : R.toList[k]? with
  | none => simp [StateSet.atPosition, hki] at hne
  | some i =>
    obtain ⟨s, rfl, -⟩ := exists_state hR hki
    have hCs := (hC k s hki).1 hk
    rw [atPosition_extend hki] at hne
    obtain ⟨t, hst, hft, hrt⟩ := hrank s hCs (fun hTs => hTk ((hT k s hki).2 hTs)) hne
    have ht : R.contains t = true := by
      by_contra hout
      exact hft (hvanish t (hclosed s t hCs hst) hout)
    -- The successor is at a position of the restriction.
    have hpos := StateSet.getElem?_idxOf ht
    refine ⟨_, (hp.mem_columns hki).2 ⟨t, hpos, h.kernel_pos_iff.1 hst⟩, ?_, ?_⟩
    · rw [atPosition_extend hpos]
      exact hft
    · rw [atPosition_extend hpos, atPosition_extend hki]
      exact hrt

end IsRestriction

omit [Weight α] in
/-- A compressed set has the position of a state exactly if the set has the state. -/
theorem contains_compress_iff {R : StateSet} (set : StateSet) (k : Nat) (s : Fin c.size)
    (hk : R.toList[k]? = some ↑s) :
    (set.compress R).contains k = true ↔ set.contains s = true := by
  rw [StateSet.contains_compress, hk]
  rfl

omit [Weight α] in
/-- Members of a compressed set are positions of members. -/
theorem exists_of_contains_compress {R set : StateSet} (hR : R.size = c.size) {k : Nat}
    (hk : (set.compress R).contains k = true) :
    ∃ s : Fin c.size, R.toList[k]? = some ↑s ∧ set.contains s = true := by
  rw [StateSet.contains_compress, Option.any_eq_true] at hk
  obtain ⟨i, hki, hi⟩ := hk
  obtain ⟨s, rfl, -⟩ := IsRestriction.exists_state hR hki
  exact ⟨s, hki, hi⟩

/-! ### Relevant states -/

variable (I) in
/-- **The relevant states** of event and condition lead to the condition, or are behind it and lead
to the event. The vectors are the probabilities to reach the event, to reach the condition, and to
visit both. -/
structure Relevant (c : Chain α) (event condition behind relevant : StateSet)
    (x y j : Fin c.size → ℚ) : Prop where
  size_eq : relevant.size = c.size
  isEvent : Kernel.IsUntilProbability (c.kernel I.value) (fun _ => True)
    (fun s => event.contains s = true) x
  isCondition : Kernel.IsUntilProbability (c.kernel I.value) (fun _ => True)
    (fun s => condition.contains s = true) y
  isBoth : Kernel.IsJointProbability (c.kernel I.value) (fun s => event.contains s)
    (fun s => condition.contains s) j
  behind_condition : ∀ s : Fin c.size, condition.contains s = true → behind.contains s = true
  behind_closed : ∀ s t : Fin c.size, behind.contains s = true → 0 < c.kernel I.value s t →
    behind.contains t = true
  contains_iff : ∀ s : Fin c.size, relevant.contains s = true ↔
    y s ≠ 0 ∨ behind.contains s = true ∧ x s ≠ 0

namespace Relevant

variable {event condition behind R : StateSet} {x y j : Fin c.size → ℚ}

/-- Probabilities to reach the condition vanish outside of the relevant states. -/
theorem toCondition_eq_zero (hR : c.Relevant I event condition behind R x y j) {s : Fin c.size}
    (hs : ¬R.contains s = true) : y s = 0 := by
  rw [hR.contains_iff, not_or, not_not] at hs
  exact hs.1

/-- Behind the condition, probabilities to reach the event vanish outside of the relevant states. -/
theorem toEvent_eq_zero (hR : c.Relevant I event condition behind R x y j) {s : Fin c.size}
    (hbehind : behind.contains s = true) (hs : ¬R.contains s = true) : x s = 0 := by
  rw [hR.contains_iff, not_or] at hs
  by_contra hne
  exact hs.2 ⟨hbehind, hne⟩

/-- Joint probabilities vanish outside of the relevant states. -/
theorem both_eq_zero (hR : c.Relevant I event condition behind R x y j) (h : c.Stochastic I)
    {s : Fin c.size} (hs : ¬R.contains s = true) : j s = 0 := by
  have hle := hR.isBoth.le_right h.kernel_stochastic.substochastic hR.isCondition s
  rw [hR.toCondition_eq_zero hs] at hle
  exact le_antisymm hle (hR.isBoth.nonneg s)

/-- If no state of the event is relevant, event and condition are not both visited. -/
theorem both_eq_zero_of_no_event (hR : c.Relevant I event condition behind R x y j)
    (h : c.Stochastic I)
    (hno : ∀ s : Fin c.size, R.contains s = true → ¬event.contains s = true) (s : Fin c.size) :
    j s = 0 := by
  have hP := h.kernel_stochastic.substochastic
  refine hR.isBoth.eq_zero hP (fun t ht => ?_) s
  rcases ht with ht | ht
  · exact hR.both_eq_zero h fun hrel => hno t hrel ht
  · rw [hR.isBoth.eq_left hP hR.isEvent ht]
    by_contra hne
    -- A path from the condition to the event would end in a relevant state of the event.
    obtain ⟨u, hu, hpath⟩ := (hR.isEvent.ne_zero_iff hP).1 hne
    have hbehind : behind.contains u = true := by
      clear hu
      induction hpath with
      | refl => exact hR.behind_condition t ht
      | tail _ hab ih => exact hR.behind_closed _ _ ih hab.2
    refine hno u ((hR.contains_iff u).2 (.inr ⟨hbehind, ?_⟩)) hu
    rw [hR.isEvent.solves.at_goal u hu]
    exact one_ne_zero

/-- **The vectors of the eliminations**, over the positions of the relevant states, for ranks of the
states on the way to the event and to the condition. -/
def visits (hR : c.Relevant I event condition behind R x y j) (h : c.Stochastic I)
    (eventRank conditionRank : Fin c.size → ℕ) : Visits R.card where
  event := event.compress R
  condition := condition.compress R
  behind k := (behind.compress R).contains k = true
  toEvent := R.atPosition 0 (c.extend x)
  toCondition := R.atPosition 0 (c.extend y)
  both := R.atPosition 0 (c.extend j)
  eventRank := R.atPosition 0 (c.extend eventRank)
  conditionRank := R.atPosition 0 (c.extend conditionRank)
  event_size := StateSet.size_compress _ _
  condition_size := StateSet.size_compress _ _
  behind_condition := by
    intro k hk
    obtain ⟨s, hks, hs⟩ := exists_of_contains_compress hR.size_eq hk
    exact (contains_compress_iff behind k s hks).2 (hR.behind_condition s hs)
  toEvent_eq := by
    intro k hk
    obtain ⟨s, hks, hs⟩ := exists_of_contains_compress hR.size_eq hk
    rw [atPosition_extend hks, hR.isEvent.solves.at_goal s hs]
  toCondition_eq := by
    intro k hk
    obtain ⟨s, hks, hs⟩ := exists_of_contains_compress hR.size_eq hk
    rw [atPosition_extend hks, hR.isCondition.solves.at_goal s hs]
  both_event := by
    intro k hk
    obtain ⟨s, hks, hs⟩ := exists_of_contains_compress hR.size_eq hk
    rw [atPosition_extend hks, atPosition_extend hks,
      hR.isBoth.eq_right h.kernel_stochastic.substochastic hR.isCondition hs]
  both_condition := by
    intro k hk
    obtain ⟨s, hks, hs⟩ := exists_of_contains_compress hR.size_eq hk
    rw [atPosition_extend hks, atPosition_extend hks,
      hR.isBoth.eq_left h.kernel_stochastic.substochastic hR.isEvent hs]
  leads := by
    -- Every state of the problem stands for a relevant state.
    intro k hk _ _
    have hki : R.toList[k]? = some R.toList[k] := List.getElem?_eq_getElem hk
    obtain ⟨s, hs, hmem⟩ := IsRestriction.exists_state hR.size_eq hki
    rw [← hs] at hki
    rw [atPosition_extend hki, atPosition_extend hki, contains_compress_iff behind k s hki]
    exact (hR.contains_iff s).1 hmem

/-- Where a probability does not vanish, a state of smaller rank follows where it does not vanish
either. -/
theorem exists_next {goal : Fin c.size → Prop} {f : Fin c.size → ℚ} (h : c.Stochastic I)
    (hf : Kernel.IsUntilProbability (c.kernel I.value) (fun _ => True) goal f)
    {r : Fin c.size → ℕ}
    (hr : ∀ s, Kernel.LeadsTo (c.kernel I.value) (fun _ => True) goal s → ¬goal s →
      ∃ t, 0 < c.kernel I.value s t ∧
        Kernel.LeadsTo (c.kernel I.value) (fun _ => True) goal t ∧ r t < r s)
    {s : Fin c.size} (hs : ¬goal s) (hne : f s ≠ 0) :
    ∃ t, 0 < c.kernel I.value s t ∧ f t ≠ 0 ∧ r t < r s := by
  have hP := h.kernel_stochastic.substochastic
  obtain ⟨t, hst, ht, hrank⟩ := hr s ((hf.ne_zero_iff hP).1 hne) hs
  exact ⟨t, hst, (hf.ne_zero_iff hP).2 ht, hrank⟩

/-- **The invariant holds before any elimination**, in the problem of the relevant states. -/
theorem invariant_visits (hR : c.Relevant I event condition behind R x y j) (h : c.Stochastic I)
    {mode : ValueMode} {values : List α} {p : Problem α}
    (hp : c.IsRestriction I R mode values p) {eventRank conditionRank : Fin c.size → ℕ}
    (hevent : ∀ s : Fin c.size, ¬event.contains s = true → x s ≠ 0 →
      ∃ t, 0 < c.kernel I.value s t ∧ x t ≠ 0 ∧ eventRank t < eventRank s)
    (hcondition : ∀ s : Fin c.size, ¬condition.contains s = true → y s ≠ 0 →
      ∃ t, 0 < c.kernel I.value s t ∧ y t ≠ 0 ∧ conditionRank t < conditionRank s) :
    (hR.visits h eventRank conditionRank).Invariant I (fun _ => False) p := by
  have hsize := hR.size_eq
  have hflagged (k : Nat) (s : Fin c.size) (hk : R.toList[k]? = some ↑s) :
      (hR.visits h eventRank conditionRank).Flagged k ↔
        event.contains s = true ∨ condition.contains s = true :=
    or_congr (contains_compress_iff event k s hk) (contains_compress_iff condition k s hk)
  -- The condition and both are harmonic everywhere, the event only behind the condition.
  have htrue (k : Nat) (s : Fin c.size) (_ : R.toList[k]? = some ↑s) : True ↔ True := Iff.rfl
  exact {
    size_eq := hp.size_eq
    proper := hp.proper
    sum_le := hp.sum_le h hsize
    gone := fun _ _ _ => not_false
    event := hp.harmonic h hsize (contains_compress_iff event) (contains_compress_iff behind)
      hR.behind_closed (fun s _ hs => hR.isEvent.solves.inside s hs trivial) fun s hs hout =>
        hR.toEvent_eq_zero hs hout
    condition := hp.harmonic h hsize (contains_compress_iff condition) htrue
      (fun _ _ _ _ => trivial) (fun s _ hs => hR.isCondition.solves.inside s hs trivial)
      fun s _ hout => hR.toCondition_eq_zero hout
    both := hp.harmonic h hsize hflagged htrue (fun _ _ _ _ => trivial)
      (fun s _ hs => by
        rw [not_or, Bool.not_eq_true, Bool.not_eq_true] at hs
        exact hR.isBoth.eq_step hs.1 hs.2)
      fun s _ hout => hR.both_eq_zero h hout
    event_ranked := hp.ranked h hsize (contains_compress_iff event) (contains_compress_iff behind)
      hR.behind_closed (fun s _ hs hne => hevent s hs hne) fun s hs hout =>
        hR.toEvent_eq_zero hs hout
    condition_ranked := hp.ranked h hsize (contains_compress_iff condition) htrue
      (fun _ _ _ _ => trivial) (fun s _ hs hne => hcondition s hs hne) fun s _ hout =>
        hR.toCondition_eq_zero hout }

omit [Weight α] in
/-- **The states that are eliminated for good**: all but the initial one and the two sets. -/
theorem mem_order (config : EliminationConfig) {g : Graph} (hreversed : g.reversed.size = g.size)
    (hg : g.size = R.card) {s₀ : Fin c.size} (hinitial : c.initial.toList = [↑s₀])
    (hs₀ : R.contains s₀ = true) (i : Nat) :
    i ∈ sortByRanking (config.ranking g (c.initial.compress R) (.empty g.size))
        (((event.compress R).union (condition.compress R)).union
          (c.initial.compress R)).complement ↔
      i < R.card ∧ ¬((event.compress R).contains i = true ∨
        (condition.compress R).contains i = true) ∧ i ≠ positionIn R s₀ := by
  rw [mem_sortByRanking (config.perm_ranking hreversed _ _) (by simp [hg]),
    StateSet.contains_complement, StateSet.size_union, StateSet.size_union, StateSet.size_compress,
    StateSet.contains_union_of_size (by simp), StateSet.contains_union_of_size (by simp), Ne,
    ← contains_compress_initial hinitial hs₀]
  simp [and_assoc]

/-- **Eliminating and collapsing the relevant states** gives the conditional probability. -/
theorem runs_eliminateRelevant (hR : c.Relevant I event condition behind R x y j)
    (h : c.Stochastic I) (config : EliminationConfig) {s₀ : Fin c.size}
    (hinitial : c.initial.toList = [↑s₀]) (hevent : ¬event.contains s₀ = true)
    (hcondition : ¬condition.contains s₀ = true) (hne : y s₀ ≠ 0) :
    Runs (CheckError.IsFault I.RangeFault) (Settles I s₀ (j s₀ / y s₀))
      (c.eliminateRelevant config s₀ R event condition) := by
  have hs₀ : R.contains s₀ = true := (hR.contains_iff s₀).2 (.inl hne)
  have hpos : R.toList[positionIn R s₀]? = some ↑s₀ := StateSet.getElem?_idxOf hs₀
  have hlt : positionIn R s₀ < R.card := (List.getElem?_eq_some_iff.1 hpos).1
  have hvalid : ∀ a ∈ List.replicate R.card (0 : α), I.Valid a := by
    intro a ha
    rw [List.eq_of_mem_replicate ha]
    exact I.valid_zero
  refine (Checked.runs_ofFault (h.ofMatrix_meets R .probabilities (by simp) hvalid)).bind
    fun p hp => ?_
  obtain ⟨rx, hrx⟩ := Kernel.exists_rank (c.kernel I.value) (fun _ => True)
    fun s : Fin c.size => event.contains s = true
  obtain ⟨ry, hry⟩ := Kernel.exists_rank (c.kernel I.value) (fun _ => True)
    fun s : Fin c.size => condition.contains s = true
  have hinv := hR.invariant_visits h hp (fun _ => exists_next h hR.isEvent hrx)
    fun _ => exists_next h hR.isCondition hry
  set v := hR.visits h rx ry
  have hv_event : v.event = event.compress R := rfl
  have hv_condition : v.condition = condition.compress R := rfl
  have hflag : ¬v.Flagged (positionIn R s₀) := by
    rw [Visits.Flagged, hv_event, hv_condition, StateSet.contains_compress,
      StateSet.contains_compress, hpos]
    exact fun hflag => hflag.elim hevent hcondition
  set graph := Graph.ofMatrix (c.transitions.submatrix R R) with hgraph
  have hsize : graph.size = R.card := by
    rw [hgraph, Graph.size_ofMatrix, Matrix.rowCount_submatrix]
  have hreversed : graph.reversed.size = graph.size := by
    rw [hgraph, Graph.size_reversed_ofMatrix, Graph.size_ofMatrix]
  have hnodup := ((config.perm_ranking hreversed (c.initial.compress R)
    (.empty graph.size)).nodup_iff.2 List.nodup_range).filter fun i => (((event.compress R).union
      (condition.compress R)).union (c.initial.compress R)).complement.contains i
  refine (Checked.runs_ofMonitored ((Monitored.runs_expect _).bind fun _ _ =>
    hinv.runs_reduce hlt hflag hnodup (mem_order config hreversed hsize hinitial hs₀))).bind ?_
  rintro q ⟨E, hq, hE, hready⟩
  have hy : v.toCondition (positionIn R s₀) = y s₀ := atPosition_extend hpos
  have hj : v.both (positionIn R s₀) = j s₀ := atPosition_extend hpos
  have hvalue := hq.conditionalValue_meets hflag hE hready (by rw [hy]; exact hne)
  rw [hy, hj, hv_event, hv_condition] at hvalue
  refine (Checked.runs_ofFault hvalue).bind fun a ha => .pure ?_
  exact ⟨rfl, a, rfl, ha.1, ha.2⟩

end Relevant

/-! ### The check -/

/-- The states of the condition that are visited first: those that a search finds which does not
leave the condition. -/
def firstVisited (c : Chain α) (condition : StateSet) : StateSet :=
  (c.graph.reachable c.initial (.full c.size) condition).inter condition

namespace Stochastic

variable {event condition : StateSet} {s₀ : Fin c.size}

/-- **The relevant states of a check.** -/
theorem relevant (h : c.Stochastic I) (hevent : event.size = c.size)
    (hcondition : condition.size = c.size) {x y j : Fin c.size → ℚ}
    (hx : Kernel.IsUntilProbability (c.kernel I.value) (fun _ => True)
      (fun s => event.contains s = true) x)
    (hy : Kernel.IsUntilProbability (c.kernel I.value) (fun _ => True)
      (fun s => condition.contains s = true) y)
    (hj : Kernel.IsJointProbability (c.kernel I.value) (fun s => event.contains s)
      (fun s => condition.contains s) j) :
    c.Relevant I event condition
      (c.graph.reversed.probPositive (.full c.size) condition)
      ((c.graph.probPositive (.full c.size) condition).complement.complement.union
        ((c.graph.reversed.probPositive (.full c.size) condition).inter
          (c.graph.probPositive (.full c.size) event))) x y j := by
  have hP := h.kernel_stochastic.substochastic
  have hfull : (StateSet.full c.size).size = condition.size := by simp [hcondition]
  have hsize (g : Graph) : (g.probPositive (.full c.size) condition).size = c.size :=
    (Graph.size_probPositive hfull).trans hcondition
  have hreach (set : StateSet) (hset : set.size = c.size) {f : Fin c.size → ℚ}
      (hf : Kernel.IsUntilProbability (c.kernel I.value) (fun _ => True)
        (fun s => set.contains s = true) f) (s : Fin c.size) :
      (c.graph.probPositive (.full c.size) set).contains s = true ↔ f s ≠ 0 := by
    rw [h.contains_probPositive (StateSet.size_full _) hset, contains_full_eq, hf.ne_zero_iff hP]
  refine ⟨?_, hx, hy, hj, ?_, ?_, ?_⟩
  · rw [StateSet.size_union, StateSet.size_complement, StateSet.size_complement, hsize]
  · intro s hs
    rw [Graph.probPositive, Graph.contains_canReach hfull.le]
    exact ⟨s, hs, .refl⟩
  · intro s t hs hst
    rw [Graph.probPositive, Graph.contains_canReach hfull.le] at hs ⊢
    obtain ⟨u, hu, hpath⟩ := hs
    refine ⟨u, hu, .head ⟨by simp, ?_⟩ hpath⟩
    -- An edge of the reversed graph is an edge read backward.
    have hedge : (t : Nat) ∈ c.graph.next s := by
      rw [h.mem_next_iff, ← h.kernel_pos_iff]
      exact hst
    exact (c.graph.agree s t).1 hedge
  · intro s
    rw [StateSet.contains_union_of_size
        (by simp only [StateSet.size_complement, StateSet.size_inter, hsize]),
      StateSet.contains_complement, StateSet.size_complement, StateSet.contains_complement, hsize,
      StateSet.contains_inter, ← hreach event hevent hx s, ← hreach condition hcondition hy s]
    simp

/-- The states that are visited first are states of the chain. -/
theorem size_firstVisited (h : c.Stochastic I) (condition : StateSet) :
    (c.firstVisited condition).size = c.size := by
  rw [firstVisited, StateSet.size_inter, Graph.size_reachable, h.initial_size]
  rw [StateSet.size_full, h.initial_size]

/-- **Only the states of the condition that are visited first matter**, for the probability of the
condition and for that of both. -/
theorem eq_of_first (h : c.Stochastic I) (hinitial : c.initial.toList = [↑s₀])
    (hcondition : condition.size = c.size) {y j z k : Fin c.size → ℚ}
    (hy : Kernel.IsUntilProbability (c.kernel I.value) (fun _ => True)
      (fun s => condition.contains s = true) y)
    (hj : Kernel.IsJointProbability (c.kernel I.value) (fun s => event.contains s)
      (fun s => condition.contains s) j)
    (hz : Kernel.IsUntilProbability (c.kernel I.value) (fun _ => True)
      (fun s => (c.firstVisited condition).contains s = true) z)
    (hk : Kernel.IsJointProbability (c.kernel I.value) (fun s => event.contains s)
      (fun s => (c.firstVisited condition).contains s) k) : y s₀ = z s₀ ∧
      j s₀ = k s₀ := by
  have hP := h.kernel_stochastic.substochastic
  -- On the states that the search finds, the condition and its first states are the same.
  obtain ⟨hstart, hclosed⟩ := h.reachable_closed hinitial (StateSet.size_full _) hcondition
  set reached := c.graph.reachable c.initial (.full c.size) condition with hreached
  have hfirst (s : Fin c.size) (hs : reached.contains s = true) :
      (c.firstVisited condition).contains s = condition.contains s := by
    rw [firstVisited, StateSet.contains_inter, ← hreached, hs, Bool.true_and]
  have hstay (s t : Fin c.size) (hs : reached.contains s = true)
      (hgoal : condition.contains s = false) (hst : c.kernel I.value s t ≠ 0) :
      reached.contains t = true :=
    hclosed s t hs hgoal (lt_of_le_of_ne (hP.nonneg s t) (Ne.symm hst)) (.inl (by simp))
  constructor
  · exact hy.eq_on hP hP hz (R := fun s => reached.contains s = true)
      (fun s hs => by rw [hfirst s hs]) (fun _ _ _ _ => rfl)
      (fun s t hs hgoal hst => hstay s t hs (by simpa using hgoal) hst) hstart
  · exact hj.eq_on hP hk (R := fun s => reached.contains s = true) hfirst hstay hstart

/-- **Conditional probabilities are checked exactly**, under every interpretation in which the chain
is stochastic: the check fails if the condition has probability zero, and returns the quotient of
the two probabilities otherwise. -/
theorem runs_checkConditional (h : c.Stochastic I) (config : EliminationConfig)
    (hinitial : c.initial.toList = [↑s₀]) (hevent : event.size = c.size)
    (hcondition : condition.size = c.size) {y j : Fin c.size → ℚ}
    (hy : Kernel.IsUntilProbability (c.kernel I.value) (fun _ => True)
      (fun s => condition.contains s = true) y)
    (hj : Kernel.IsJointProbability (c.kernel I.value) (fun s => event.contains s)
      (fun s => condition.contains s) j) :
    Runs (fun e => CheckError.IsFault I.RangeFault e ∨
        e = .conditionHasZeroProbability ∧ y s₀ = 0)
      (fun r => y s₀ ≠ 0 ∧ Settles I s₀ (j s₀ / y s₀) r)
      (c.checkConditional config event condition) := by
  have hP := h.kernel_stochastic
  have hsub := hP.substochastic
  set first := c.firstVisited condition with hfirst
  have hfirst_size : first.size = c.size := h.size_firstVisited condition
  obtain ⟨x, hx⟩ := Kernel.exists_isUntilProbability hsub (fun _ => True)
    fun s : Fin c.size => event.contains s = true
  obtain ⟨z, hz⟩ := Kernel.exists_isUntilProbability hsub (fun _ => True)
    fun s : Fin c.size => first.contains s = true
  obtain ⟨k, hk⟩ := Kernel.exists_isJointProbability hsub
    (fun s : Fin c.size => event.contains s)
    fun s => first.contains s
  obtain ⟨hyz, hjk⟩ := h.eq_of_first hinitial hcondition hy hj hz hk
  rw [hyz, hjk]
  have hz' := hz
  rw [← contains_full_eq] at hz'
  have hzero := h.contains_probZero (StateSet.size_full _) hfirst_size hz' s₀
  have hone := h.contains_probOne (StateSet.size_full _) hfirst_size hz' s₀
  refine (runs_initialState hinitial).bind ?_
  rintro _ rfl
  refine (Checked.runs_checkpoint.weaken fun e he => .inl he).bind fun _ _ => ?_
  change Runs _ _ (if (c.graph.probPositive (.full c.size) first).complement.contains s₀ then _
    else _)
  by_cases h0 : (c.graph.probPositive (.full c.size) first).complement.contains s₀ = true
  · rw [if_pos h0]
    exact .throw (.inr ⟨rfl, hzero.1 h0⟩)
  rw [if_neg h0]
  have hne : z s₀ ≠ 0 := fun hz0 => h0 (hzero.2 hz0)
  have hfinish {q : ℚ} (hq : q = k s₀ / z s₀) {r : CheckResult α} (hr : Settles I s₀ q r) :
      z s₀ ≠ 0 ∧ Settles I s₀ (k s₀ / z s₀) r := ⟨hne, hq ▸ hr⟩
  change Runs _ _ (if (c.graph.probOne first
    (c.graph.probPositive (.full c.size) first)).contains s₀ then _ else _)
  by_cases h1 : (c.graph.probOne first
      (c.graph.probPositive (.full c.size) first)).contains s₀ = true
  · -- The condition is reached in any case, so the probability is that of the event.
    rw [if_pos h1]
    have hx' := hx
    rw [← contains_full_eq] at hx'
    refine ((h.runs_checkUntil config hinitial (StateSet.size_full _) hevent hx').mono
      fun r hr => hfinish ?_ hr).weaken fun e he => .inl he
    rw [hone.1 h1, div_one, hk.eq_left_of_eq_one hP hx hz (hone.1 h1)]
  rw [if_neg h1]
  by_cases hs₀ : event.contains s₀ = true
  · -- The event is visited at once, so both are visited when the condition is.
    rw [if_pos hs₀]
    refine .pure (hfinish ?_ ⟨rfl, 1, rfl, I.valid_one, I.value_one⟩)
    rw [hk.eq_right hsub hz hs₀, div_self hne]
  rw [if_neg hs₀]
  have hfirst₀ : ¬first.contains s₀ = true := fun hs => h1 (hone.2 (hz.solves.at_goal s₀ hs))
  have hrelevant := h.relevant hevent hfirst_size hx hz hk
  set behind := c.graph.reversed.probPositive (.full c.size) first with hbehind
  set R := (c.graph.probPositive (.full c.size) first).complement.complement.union
    (behind.inter (c.graph.probPositive (.full c.size) event)) with hR
  change Runs _ _ (if (event.compress R).isEmpty then _ else _)
  by_cases hempty : (event.compress R).isEmpty = true
  · -- No state of the event is relevant, so the two are never visited both.
    rw [if_pos hempty]
    refine .pure (hfinish ?_ ⟨rfl, 0, rfl, I.valid_zero, I.value_zero⟩)
    rw [hrelevant.both_eq_zero_of_no_event h (fun s hs hes => ?_) s₀, zero_div]
    have hnot := StateSet.isEmpty_iff.1 hempty (R.toList.idxOf (s : Nat))
    rw [StateSet.contains_compress, StateSet.getElem?_idxOf hs] at hnot
    simp [hes] at hnot
  · rw [if_neg hempty]
    exact ((hrelevant.runs_eliminateRelevant h config hinitial hs₀ hfirst₀ hne).mono
      fun r hr => hfinish rfl hr).weaken fun e he => .inl he

end Stochastic

/-- **Conditional probabilities are exact.** An uncancelled check of a Markov chain with one initial
state fails exactly if the condition is reached with probability zero. Otherwise it returns the
probability that both event and condition are visited, in either order, divided by the probability
that the condition is visited. -/
theorem checkConditional_eq_conditionalProbability {c : Chain ℚ} (hc : c.IsMarkov)
    {s₀ : Fin c.size} (hinitial : c.initial.toList = [↑s₀]) {event condition : StateSet}
    (hevent : event.size = c.size) (hcondition : condition.size = c.size)
    (config : EliminationConfig) (m : Monitor) (hm : m.cancelAt = none) :
    ∃ y j, Kernel.IsUntilProbability c.probability (fun _ => True)
        (fun s => condition.contains s = true) y ∧
      Kernel.IsJointProbability c.probability (fun s => event.contains s)
        (fun s => condition.contains s) j ∧
      ((outcome (c.checkConditional config event condition) m).1 =
        .error .conditionHasZeroProbability ↔ y s₀ = 0) ∧
      (y s₀ ≠ 0 → ∃ r, (outcome (c.checkConditional config event condition) m).1 = .ok r ∧
        r.initial = s₀ ∧ r.value = .finite (j s₀ / y s₀)) := by
  have h := hc.stochastic
  have hP := h.kernel_stochastic.substochastic
  obtain ⟨y, hy⟩ := Kernel.exists_isUntilProbability hP (fun _ => True)
    fun s : Fin c.size => condition.contains s = true
  obtain ⟨j, hj⟩ := Kernel.exists_isJointProbability hP (fun s : Fin c.size => event.contains s)
    fun s => condition.contains s
  refine ⟨y, j, hy, hj, ?_⟩
  have hmeets := (h.runs_checkConditional config hinitial hevent hcondition hy hj m hm).1
  -- A result excludes probability zero, and no error but the one that reports it is allowed.
  cases hout : (outcome (c.checkConditional config event condition) m).1 with
  | ok r =>
    rw [hout] at hmeets
    obtain ⟨hne, hinit, a, hvalue, -, ha⟩ := hmeets
    have hax : a = j s₀ / y s₀ := ha
    refine ⟨⟨fun herr => absurd herr (by simp), fun h0 => absurd h0 hne⟩, fun _ => ?_⟩
    exact ⟨r, rfl, hinit, hax ▸ hvalue⟩
  | error e =>
    rw [hout] at hmeets
    obtain ⟨rfl, h0⟩ := hmeets.resolve_left (not_isFault_rat e)
    exact ⟨⟨fun _ => h0, fun _ => rfl⟩, fun hne => absurd h0 hne⟩

/-- The probability that the lazy walk ends in state `2`, given that it visits state `1`. -/
theorem checkConditional_walk :
    ∃ y j, Kernel.IsUntilProbability walk.probability (fun _ => True)
        (fun s => (StateSet.singleton 4 1).contains s = true) y ∧
      Kernel.IsJointProbability walk.probability (fun s => (StateSet.singleton 4 2).contains s)
        (fun s => (StateSet.singleton 4 1).contains s) j ∧
      ((outcome (walk.checkConditional {} (.singleton 4 2) (.singleton 4 1)) {}).1 =
        .error .conditionHasZeroProbability ↔ y 0 = 0) ∧
      (y 0 ≠ 0 →
        ∃ r, (outcome (walk.checkConditional {} (.singleton 4 2) (.singleton 4 1)) {}).1 =
        .ok r ∧ r.initial = (0 : Fin walk.size) ∧ r.value = .finite (j 0 / y 0)) :=
  checkConditional_eq_conditionalProbability isMarkov_walk (by decide)
    (StateSet.size_singleton 4 2) (StateSet.size_singleton 4 1) {} {} rfl

end MarkovElimination.Chain
