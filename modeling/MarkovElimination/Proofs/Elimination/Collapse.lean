import MarkovElimination.Proofs.Elimination.Bypass

/-! # Collapsed problems

What is read off when all chains are collapsed. When only the two sets and the initial state are
left, the entries for the initial state are removed (`Invariant.runs_leaveInitial`), and the chains
behind its successors are collapsed (`Reduced.runs_collapseChains`). Then its row gives the
probability of the condition and the probability of both (`Reduced.conditionalValue_meets`). -/

namespace MarkovElimination

namespace Visits

variable {α : Type} [Weight α] {I : Interpretation α ℚ} {n : Nat} {v : Visits n}
  {E : Nat → Prop} {p : Problem α} {s : Nat} {stop : StateSet}

/-! ### All chains -/

/-- **Leaving the initial state.** When only the two sets and the initial state are left, entries
for the initial state are removed by one more elimination, which keeps its row. -/
theorem Invariant.runs_leaveInitial (h : v.Invariant I E p) (hs : s < n) (hEs : ¬E s)
    (hflag : ¬v.Flagged s) (hleft : ∀ c, c < n → ¬E c → v.Flagged c ∨ c = s)
    (hkept : ∀ i, E i → ¬v.Flagged i) :
    Runs (Interruption.IsFault I.RangeFault) (v.Reduced I E)
      (if (p.predecessors s).isEmpty then pure p else p.eliminateMonitored s false none) := by
  -- Without entries for the initial state, only states of the two sets are successors.
  have hfinish (q : Problem α) (hq : v.Invariant I E q)
      (hnot : ∀ i, s ∉ (q.row i).columns) : v.Reduced I E q := by
    refine { hq with flagged := fun i c hc => ?_, kept := hkept }
    have hlt : c < n := by
      rw [← hq.size_eq]
      exact hq.proper.consistent.column_lt i c hc
    refine (hleft c hlt (hq.gone i c hc)).resolve_right fun hcs => ?_
    exact hnot i (hcs ▸ hc)
  by_cases hempty : (p.predecessors s).isEmpty = true
  · rw [if_pos hempty]
    refine .pure (hfinish p h fun i hi => ?_)
    have hmem := (h.proper.consistent.agree i s).2 hi
    rw [List.isEmpty_iff.1 hempty] at hmem
    exact List.not_mem_nil hmem
  · rw [if_neg hempty]
    refine Problem.runs_eliminateMonitored ((h.eliminate hs hEs hflag false).mono fun q hq => ?_)
    refine hfinish q (hq.1.congr fun i => by simp [Problem.Gone]) fun i hi => ?_
    by_cases his : i = s
    · subst his
      exact ((hq.2.columns_self i).1 hi).2.2 rfl
    · exact ((hq.2.columns i his (Problem.allows_none i) s).1 hi).1 rfl

/-- **Collapsing all chains** behind the successors of a state of neither set. -/
theorem Reduced.runs_collapseChains (h : v.Reduced I E p) (hs : ¬v.Flagged s) :
    Runs (Interruption.IsFault I.RangeFault)
      (fun p' => v.Reduced I E p' ∧ p'.row s = p.row s ∧
        ∀ d ∈ (p.row s).columns, Problem.Ready v.event v.condition p' d)
      (p.collapseChains v.event v.condition s) := by
  rw [Flagged, not_or, Bool.not_eq_true, Bool.not_eq_true] at hs
  exact Problem.Bypassable.runs_collapseChains (bypassable_reduced (.inl ⟨rfl, rfl⟩))
    (bypassable_reduced (.inr ⟨rfl, rfl⟩)) h hs.1 hs.2

/-- **Reducing the problem** to the initial state and the two sets: all other states are eliminated,
the initial state is left for good, and the chains behind its successors are collapsed. -/
theorem Invariant.runs_reduce (h : v.Invariant I (fun _ => False) p) (hs : s < n)
    (hflag : ¬v.Flagged s) {states : List Nat} (hnodup : states.Nodup)
    (hmem : ∀ i, i ∈ states ↔ i < n ∧ ¬v.Flagged i ∧ i ≠ s) :
    Runs (Interruption.IsFault I.RangeFault)
      (fun q => ∃ E, v.Reduced I E q ∧ ¬E s ∧
        ∀ d ∈ (q.row s).columns, Problem.Ready v.event v.condition q d)
      (do
        let p ← p.eliminateFlat states
        let p ← if (p.predecessors s).isEmpty then pure p else p.eliminateMonitored s false none
        p.collapseChains v.event v.condition s) := by
  have hnot : s ∉ states := fun hs => ((hmem s).1 hs).2.2 rfl
  refine (h.eliminateFlat hnodup (fun i hi => ((hmem i).1 hi).1)
    fun i hi => ((hmem i).1 hi).2.1).bind fun q hq => ?_
  have hleft (i : Nat) (hi : i < n) (hE : i ∉ states) : v.Flagged i ∨ i = s := by
    by_contra hboth
    rw [not_or] at hboth
    exact hE ((hmem i).2 ⟨hi, hboth.1, hboth.2⟩)
  have hleave := hq.runs_leaveInitial hs hnot hflag hleft fun i hi => ((hmem i).1 hi).2.1
  have hcollapse (q' : Problem α) (hq' : v.Reduced I (fun i => i ∈ states) q') :
      Runs (Interruption.IsFault I.RangeFault) (fun q => ∃ E, v.Reduced I E q ∧ ¬E s ∧
          ∀ d ∈ (q.row s).columns, Problem.Ready v.event v.condition q d)
        (q'.collapseChains v.event v.condition s) := by
    refine (hq'.runs_collapseChains hflag).mono ?_
    -- Collapsing keeps the row of the initial state, so its successors are the same ones.
    rintro q'' ⟨hq'', hrow, hready⟩
    exact ⟨_, hq'', hnot, hrow ▸ hready⟩
  by_cases hempty : (q.predecessors s).isEmpty = true
  · rw [if_pos hempty] at hleave ⊢
    exact hleave.bind hcollapse
  · rw [if_neg hempty] at hleave ⊢
    exact hleave.bind hcollapse

/-! ### Reading off the probabilities -/

/-- **Behind a collapsed state**, the set that stops chains is one step away. -/
theorem dot_eq_of_collapsed {C : Nat → Prop} {f : Nat → ℚ} {r : Nat → Nat} {d : Nat}
    (hcollapsed : Problem.Collapsed stop p d)
    (hf : p.Harmonic I (fun i => stop.contains i = true) C E f)
    (hr : p.Ranked (fun i => stop.contains i = true) C E f r)
    (hone : ∀ i, stop.contains i = true → f i = 1) (hgone : ∀ c ∈ (p.row d).columns, ¬E c)
    (hC : C d) (hd : ¬E d) (hstop : stop.contains d = false) :
    (I.dot (p.row d) fun t => if stop.contains t then 1 else 0) = f d := by
  rw [hf.eq_dot d hC (by simp [hstop]) hd]
  refine I.dot_congr fun c hmem => ?_
  by_cases hc : stop.contains c = true
  · rw [if_pos hc, hone c hc]
  · -- A successor that does not stop the chain ends it.
    have hdead := (hcollapsed c hmem).resolve_left hc
    rw [if_neg hc, hr.eq_zero (hf.closed d hC c hmem) hc (hgone c hmem) hdead]

/-- The sum of a row over some columns. -/
theorem sumOver_meets {row : Row α} (hrow : I.ValidRow row) (columns : StateSet) :
    Meets I.RangeFault (fun a => I.Valid a ∧
        I.value a = I.dot row fun t => if columns.contains t then 1 else 0)
      (row.sumOver columns) := by
  have hvalid : I.ValidRow (row.filter fun e => columns.contains e.column) :=
    fun e he => hrow e (List.mem_filter.1 he).1
  refine (I.requireRange_meets fun hu => hu.totalFits 0 _).bind fun _ _ => ?_
  obtain ⟨hv, heq⟩ := I.foldl_add hvalid I.valid_zero
  refine ⟨hv, heq.trans ?_⟩
  rw [I.value_zero, zero_add, I.dot_filter columns.contains]

variable (I) in
/-- The two probabilities are known. -/
structure IsJoint (joint : Problem.Joint α) (both condition : ℚ) : Prop where
  valid_both : I.Valid joint.both
  valid_condition : I.Valid joint.condition
  both_eq : I.value joint.both = both
  condition_eq : I.value joint.condition = condition

/-- More of both probabilities. -/
theorem IsJoint.add_meets {joint : Problem.Joint α} {both condition : ℚ}
    (h : IsJoint I joint both condition) {a b : α} (ha : I.Valid a) (hb : I.Valid b) :
    Meets I.RangeFault
      (fun joint' => IsJoint I joint' (both + I.value a) (condition + I.value b))
      (joint.add a b) := by
  refine (I.checkedAdd_meets h.valid_both ha).bind fun x hx => ?_
  refine (I.checkedAdd_meets h.valid_condition hb).bind fun y hy => ?_
  exact ⟨hx.1, hy.1, by rw [hx.2, h.both_eq], by rw [hy.2, h.condition_eq]⟩

/-- **One successor** adds its entry times its probabilities. -/
theorem Reduced.addSuccessor_meets (h : v.Reduced I E p) {joint : Problem.Joint α}
    {both condition : ℚ} (hjoint : IsJoint I joint both condition) {e : Entry α}
    (he : e ∈ p.row s) (hready : Problem.Ready v.event v.condition p e.column) :
    Meets I.RangeFault
      (fun joint' => IsJoint I joint' (both + I.value e.value * v.both e.column)
        (condition + I.value e.value * v.toCondition e.column))
      (p.addSuccessor v.event v.condition joint e) := by
  have hmem : e.column ∈ (p.row s).columns := List.mem_map.2 ⟨e, he, rfl⟩
  have hvalid := (h.proper.positive s e he).1
  have hgone := h.gone s _ hmem
  have hrow := (h.proper.positive e.column).valid
  unfold Problem.addSuccessor
  cases hev : v.event.contains e.column with
  | true =>
    cases hco : v.condition.contains e.column with
    | true =>
      refine (hjoint.add_meets hvalid hvalid).mono fun joint' hjoint' => ?_
      rwa [v.both_event _ hev, v.toCondition_eq _ hco, mul_one]
    | false =>
      -- The weight of an event state counts for both: it is the way to the condition.
      refine (sumOver_meets hrow v.condition).bind fun a ha => ?_
      refine (I.checkedMul_meets hvalid ha.1).bind fun w hw => ?_
      refine (hjoint.add_meets hw.1 hw.1).mono fun joint' hjoint' => ?_
      have hdot := dot_eq_of_collapsed (hready.of_event hev hco) h.condition h.condition_ranked
        v.toCondition_eq (h.gone _) trivial hgone hco
      rw [hw.2, ha.2, hdot] at hjoint'
      rwa [v.both_event _ hev]
  | false =>
    -- The condition is reached in any case, and the event is one step away.
    have hco : v.condition.contains e.column = true :=
      (h.flagged s _ hmem).resolve_left (by simp [hev])
    rw [hco]
    refine (sumOver_meets hrow v.event).bind fun a ha => ?_
    refine (I.checkedMul_meets hvalid ha.1).bind fun w hw => ?_
    refine (hjoint.add_meets hw.1 hvalid).mono fun joint' hjoint' => ?_
    have hdot := dot_eq_of_collapsed (hready.of_condition hev hco) h.event h.event_ranked
      v.toEvent_eq (h.gone _) (v.behind_condition _ hco) hgone hev
    rw [hw.2, ha.2, hdot] at hjoint'
    rwa [v.both_condition _ hco, v.toCondition_eq _ hco, mul_one]

/-- **The conditional probability** that is read off a collapsed problem. -/
theorem Reduced.conditionalValue_meets (h : v.Reduced I E p) (hs : ¬v.Flagged s) (hEs : ¬E s)
    (hready : ∀ d ∈ (p.row s).columns, Problem.Ready v.event v.condition p d)
    (hne : v.toCondition s ≠ 0) :
    Meets I.RangeFault
      (fun a => I.Valid a ∧ I.value a = v.both s / v.toCondition s)
      (p.conditionalValue v.event v.condition s) := by
  -- What is still missing of both probabilities is what the rest of the row gives.
  let J (rest : List (Entry α)) (joint : Problem.Joint α) : Prop :=
    (∀ e ∈ rest, e ∈ p.row s) ∧ IsJoint I joint (v.both s - I.dot rest v.both)
      (v.toCondition s - I.dot rest v.toCondition)
  have hboth : v.both s = I.dot (p.row s) v.both := h.both.eq_dot s trivial hs hEs
  have hcondition : v.toCondition s = I.dot (p.row s) v.toCondition :=
    h.condition.eq_dot s trivial (fun hc => hs (.inr hc)) hEs
  have hstart : J (p.row s) ⟨0, 0⟩ := by
    refine ⟨fun e he => he, I.valid_zero, I.valid_zero, ?_, ?_⟩
    · rw [I.value_zero, ← hboth, sub_self]
    · rw [I.value_zero, ← hcondition, sub_self]
  refine (Meets.foldlM (J := J) (fun e rest joint hJ => ?_) hstart).bind fun joint hJ => ?_
  · obtain ⟨he, hrest⟩ := List.forall_mem_cons.1 hJ.1
    have hcol : e.column ∈ (p.row s).columns := List.mem_map.2 ⟨e, he, rfl⟩
    refine (h.addSuccessor_meets hJ.2 he (hready _ hcol)).mono fun joint' hjoint' => ⟨hrest, ?_⟩
    rw [I.dot_cons, I.dot_cons] at hjoint'
    convert hjoint' using 1 <;> ring
  · obtain ⟨-, hjoint⟩ := hJ
    rw [I.dot_nil, I.dot_nil, sub_zero, sub_zero] at hjoint
    refine (I.divide_meets hjoint.valid_both hjoint.valid_condition
      (by rw [hjoint.condition_eq]; exact hne)).bind fun a ha => ?_
    refine (I.checkedSimplify_meets ha.1).mono fun b hb => ⟨hb.1, ?_⟩
    rw [hb.2, ha.2, hjoint.both_eq, hjoint.condition_eq]

end Visits

end MarkovElimination
