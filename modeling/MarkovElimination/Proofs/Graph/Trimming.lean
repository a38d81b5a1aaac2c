import MarkovElimination.Proofs.Graph.ComponentSearch

/-! # What trimming leaves

A set of states is **stable** under a way of trimming if nothing has to be removed from it: every
state has a successor in the set, or a predecessor in it, or both. A round of trimming does not look
at all states, but only at the states removed in the round before and their neighbours. This is
enough because the frontier **watches** the set: a sink of the set is in the frontier or has a
successor in it (`Watches`). So no round overlooks a sink, and trimming ends with the **greatest**
stable part of the set (`isGreatest_run`), in which all cycles of the set survive. -/

namespace MarkovElimination.Trim

variable {g : Graph} {trim : Trim} {state : SearchState} {T : Set ℕ} {i : ℕ}

/-! ### Stable sets -/

/-- Every state of the set has a successor in the set. -/
def Continues (g : Graph) (T : Set ℕ) : Prop := ∀ i ∈ T, ∃ j ∈ T, j ∈ g.next i

/-- **Nothing has to be removed** from the set. The successors in the reversed graph are the
predecessors. -/
def Stable (g : Graph) (T : Set ℕ) : Trim → Prop
  | .both => Continues g T ∧ Continues g.reversed T
  | .sources => Continues g.reversed T
  | .sinks => Continues g T
  | .none => True

/-- The states on the cycles through one state. -/
def cycles (g : Graph) (set : StateSet) (i : ℕ) : Set ℕ :=
  {k | Relation.TransGen (g.Edge set) i k ∧ Relation.TransGen (g.Edge set) k i}

theorem cycles_reversed (g : Graph) (set : StateSet) (i : ℕ) :
    cycles g.reversed set i = cycles g set i := by
  ext k
  simp only [cycles, Set.mem_ofPred_eq, Graph.edge_reversed, Relation.transGen_swap]
  exact and_comm

theorem continues_cycles (g : Graph) (set : StateSet) (i : ℕ) : Continues g (cycles g set i) := by
  rintro k ⟨hik, hki⟩
  obtain ⟨j, hkj, hji⟩ := Relation.TransGen.head'_iff.1 hki
  exact ⟨j, ⟨hik.tail hkj, .trans_right hji (hik.trans hki)⟩, hkj.2.2⟩

theorem stable_cycles (g : Graph) (trim : Trim) (set : StateSet) (i : ℕ) :
    trim.Stable g (cycles g set i) := by
  have hback := continues_cycles g.reversed set i
  rw [cycles_reversed] at hback
  cases trim with
  | both => exact ⟨continues_cycles g set i, hback⟩
  | sources => exact hback
  | sinks => exact continues_cycles g set i
  | none => trivial

/-! ### One round -/

/-- **The frontier watches the set**: a state without a successor in the set is in the frontier, or
has a successor there. -/
def Watches (g : Graph) (state : SearchState) : Prop :=
  ∀ i, state.set.contains i = true → (∀ j ∈ g.next i, state.set.contains j = false) →
    state.frontier.contains i = true ∨ ∃ j ∈ g.next i, state.frontier.contains j = true

/-- At the start the frontier is the whole set. -/
theorem watches_start (g : Graph) (set : StateSet) : Watches g (Search.start set) :=
  fun _ hi _ => .inl hi

/-- A watched round finds all sinks. -/
theorem Watches.contains_newSinks (h : Watches g state) : (newSinks g state).contains i = true ↔
    state.set.contains i = true ∧ ∀ j ∈ g.next i, state.set.contains j = false := by
  simp only [newSinks, StateSet.contains_ofPredicate, Bool.and_eq_true, decide_eq_true_eq,
    Bool.or_eq_true, List.any_eq_true, Bool.not_eq_true', List.any_eq_false, Bool.not_eq_true]
  constructor
  · rintro ⟨-, ⟨hset, -⟩, hsink⟩
    exact ⟨hset, hsink⟩
  · rintro ⟨hset, hsink⟩
    exact ⟨StateSet.lt_size_of_contains hset, ⟨hset, h i hset hsink⟩, hsink⟩

/-- Where the sinks are removed, and possibly other states, the removed states watch what is
left. -/
theorem Watches.minus (h : Watches g state) {removed : StateSet} {n : ℕ}
    (hsinks : ∀ i, (newSinks g state).contains i = true → removed.contains i = true) :
    Watches g ⟨n, state.set.minus removed, removed⟩ := by
  intro i hi hsink
  simp only [StateSet.contains_minus, Bool.and_eq_true, Bool.not_eq_true'] at hi
  by_contra hnone
  push Not at hnone
  -- No successor was removed, so the state has been a sink before and would be removed itself.
  have hbefore (j : ℕ) (hj : j ∈ g.next i) : state.set.contains j = false := by
    have hleft := hsink j hj
    rw [StateSet.contains_minus, Bool.eq_false_iff.2 (hnone.2 j hj)] at hleft
    simpa using hleft
  have hremoved := hsinks i (h.contains_newSinks.2 ⟨hi.1, hbefore⟩)
  rw [hi.2] at hremoved
  cases hremoved

/-- The frontier watches the set in the directions in which it is trimmed. -/
def Guards (g : Graph) (state : SearchState) : Trim → Prop
  | .both => Watches g state ∧ Watches g.reversed state
  | .sources => Watches g.reversed state
  | .sinks => Watches g state
  | .none => True

theorem guards_start (g : Graph) (trim : Trim) (set : StateSet) :
    trim.Guards g (Search.start set) := by
  cases trim with
  | both => exact ⟨watches_start g set, watches_start g.reversed set⟩
  | sources => exact watches_start g.reversed set
  | sinks => exact watches_start g set
  | none => trivial

theorem contains_removable_both : (removable g .both state).contains i = true ↔
    (newSinks g.reversed state).contains i = true ∨ (newSinks g state).contains i = true := by
  rw [removable, StateSet.contains_union_of_size (by simp [newSinks]), Bool.or_eq_true]

/-- **A round keeps watch**: what it removes is the frontier of the next one. -/
theorem Guards.step (h : trim.Guards g state) {n : ℕ} :
    trim.Guards g ⟨n, state.set.minus (trim.removable g state), trim.removable g state⟩ := by
  cases trim with
  | both =>
    exact ⟨h.1.minus fun i hi => contains_removable_both.2 (.inr hi),
      h.2.minus fun i hi => contains_removable_both.2 (.inl hi)⟩
  | sources => exact Watches.minus h fun _ hi => hi
  | sinks => exact Watches.minus h fun _ hi => hi
  | none => trivial

/-! ### All rounds -/

/-- The states of a set. -/
def states (set : StateSet) : Set ℕ := {i | set.contains i = true}

@[simp] theorem mem_states {set : StateSet} : i ∈ states set ↔ set.contains i = true := Iff.rfl

/-- A state with a successor in the set is no sink. -/
theorem Continues.not_newSinks (h : Continues g T) (hsub : T ⊆ states state.set) (hi : i ∈ T) :
    (newSinks g state).contains i = false := by
  obtain ⟨j, hj, hij⟩ := h i hi
  have hany : (g.next i).any state.set.contains = true := List.any_eq_true.2 ⟨j, hij, hsub hj⟩
  simp [newSinks, hany]

/-- **A round spares stable parts.** -/
theorem Stable.not_removable (h : trim.Stable g T) (hsub : T ⊆ states state.set) (hi : i ∈ T) :
    (trim.removable g state).contains i = false := by
  cases trim with
  | both =>
    rw [← Bool.not_eq_true, contains_removable_both, h.1.not_newSinks hsub hi,
      h.2.not_newSinks hsub hi]
    simp
  | sources => exact Continues.not_newSinks h hsub hi
  | sinks => exact Continues.not_newSinks h hsub hi
  | none => exact StateSet.contains_empty _ _

/-- A watched set without sinks continues. -/
theorem Watches.continues (h : Watches g state)
    (hnone : ∀ i, (newSinks g state).contains i = false) : Continues g (states state.set) := by
  intro i hi
  by_contra hsink
  push Not at hsink
  have hoff (j : ℕ) (hj : j ∈ g.next i) : state.set.contains j = false :=
    Bool.eq_false_iff.2 fun hset => hsink j hset hj
  have hnew := h.contains_newSinks.2 ⟨hi, hoff⟩
  rw [hnone i] at hnew
  cases hnew

/-- **Where a round removes nothing**, the set is stable. -/
theorem Guards.stable (h : trim.Guards g state) (hempty : (trim.removable g state).isEmpty = true) :
    trim.Stable g (states state.set) := by
  have hnone := StateSet.isEmpty_iff.1 hempty
  cases trim with
  | both =>
    have hboth (i : ℕ) := contains_removable_both.not.1 (Bool.not_eq_true _ ▸ hnone i)
    push Not at hboth
    exact ⟨h.1.continues fun i => Bool.eq_false_iff.2 (hboth i).2,
      h.2.continues fun i => Bool.eq_false_iff.2 (hboth i).1⟩
  | sources => exact Watches.continues h hnone
  | sinks => exact Watches.continues h hnone
  | none => trivial

/-- The stable parts before and after a round are the same. -/
theorem stable_parts_minus (g : Graph) (trim : Trim) (state : SearchState) :
    {T | T ⊆ states (state.set.minus (trim.removable g state)) ∧ trim.Stable g T} =
      {T | T ⊆ states state.set ∧ trim.Stable g T} := by
  ext T
  refine and_congr_left fun hstable => ⟨fun hsub i hi => ?_, fun hsub i hi => ?_⟩
  · have hleft := hsub hi
    rw [mem_states, StateSet.contains_minus, Bool.and_eq_true] at hleft
    exact hleft.1
  · have hset : state.set.contains i = true := hsub hi
    rw [mem_states, StateSet.contains_minus, hset, hstable.not_removable hsub hi]
    rfl

/-- **A run** that is watched ends with the greatest stable part of its set. -/
theorem isGreatest_run (state : SearchState) (h : trim.Guards g state) :
    IsGreatest {T | T ⊆ states state.set ∧ trim.Stable g T} (states (trim.run g state).2) := by
  induction state using Trim.run.induct g trim with
  | case1 state hempty =>
    rw [Trim.run, dif_pos hempty]
    exact ⟨⟨subset_rfl, h.stable hempty⟩, fun T hT => hT.1⟩
  | case2 state hempty removed next ih =>
    rw [Trim.run, dif_neg hempty, ← stable_parts_minus]
    exact ih h.step

/-- **Trimming** comes to an end with the greatest part of a set in which every state has a
successor, or a predecessor, or both. Every state on a cycle within the set stays. -/
theorem apply_greatest (g : Graph) (trim : Trim) (set : StateSet) :
    Graph.Ends (trim.iterate g) (Search.start set) (trim.apply g set) ∧
      (trim.apply g set).size = set.size ∧
      IsGreatest {T | T ⊆ states set ∧ trim.Stable g T} (states (trim.apply g set)) ∧
      ∀ i, Relation.TransGen (g.Edge set) i i → (trim.apply g set).contains i = true := by
  have hgreatest := isGreatest_run (Search.start set) (guards_start g trim set)
  refine ⟨Graph.ends_trim g trim set, (apply_spec g trim set).1, hgreatest, fun i hi => ?_⟩
  have hsub : cycles g set i ⊆ states set := by
    rintro k ⟨-, hki⟩
    obtain ⟨j, hkj, -⟩ := Relation.TransGen.head'_iff.1 hki
    exact hkj.1
  exact hgreatest.2 ⟨hsub, stable_cycles g trim set i⟩ ⟨hi, hi⟩

end MarkovElimination.Trim
