import MarkovElimination.Proofs.Elimination.Chains
import MarkovElimination.Proofs.Elimination.Harmonic

/-! # Collapsing the chains between two sets

To find the probability to visit both an event and a condition, all other states are eliminated, and
then the states between the two sets are bypassed until every chain behind a successor of the
initial state has length one. Three vectors are harmonic all the time: the probability to reach the
event (behind the condition), the probability to reach the condition, and the probability to visit
both. They are part of the invariant `Visits.Invariant`, which every elimination keeps.

A state that is bypassed is a state of one of the sets and not of the other, so bypassing respects
both sets and keeps the invariant as well (`Reduced.of_bypassed`). -/

namespace MarkovElimination

/-- **Event and condition** of a problem with `n` states, with what is known about them before any
elimination: the probabilities to reach each of them and to visit both, ranks of the states on the
way, and the states behind the condition. -/
structure Visits (n : Nat) where
  event : StateSet
  condition : StateSet
  /-- The states behind the condition, on which the probability of the event counts. -/
  behind : Nat → Prop
  /-- The probability to reach the event. -/
  toEvent : Nat → ℚ
  /-- The probability to reach the condition. -/
  toCondition : Nat → ℚ
  /-- The probability to visit both. -/
  both : Nat → ℚ
  eventRank : Nat → Nat
  conditionRank : Nat → Nat
  event_size : event.size = n
  condition_size : condition.size = n
  behind_condition : ∀ i, condition.contains i = true → behind i
  toEvent_eq : ∀ i, event.contains i = true → toEvent i = 1
  toCondition_eq : ∀ i, condition.contains i = true → toCondition i = 1
  both_event : ∀ i, event.contains i = true → both i = toCondition i
  both_condition : ∀ i, condition.contains i = true → both i = toEvent i
  /-- All other states lead to the condition, or are behind it and lead to the event. -/
  leads : ∀ i, i < n → event.contains i = false → condition.contains i = false →
    toCondition i ≠ 0 ∨ behind i ∧ toEvent i ≠ 0

namespace Visits

variable {α : Type} [Weight α] {I : Interpretation α ℚ} {n : Nat} {v : Visits n}

/-- A state of the event or of the condition. -/
def Flagged (v : Visits n) (i : Nat) : Prop :=
  v.event.contains i = true ∨ v.condition.contains i = true

variable (I) in
/-- **The invariant of all eliminations**, of which those of the states in `E` dropped the row. -/
structure Invariant (v : Visits n) (E : Nat → Prop) (p : Problem α) : Prop where
  size_eq : p.size = n
  proper : p.Proper I
  sum_le : ∀ i, (I.dot (p.row i) fun _ => 1) ≤ 1
  gone : ∀ i, ∀ c ∈ (p.row i).columns, ¬E c
  event : p.Harmonic I (fun i => v.event.contains i = true) v.behind E v.toEvent
  condition : p.Harmonic I (fun i => v.condition.contains i = true) (fun _ => True) E v.toCondition
  both : p.Harmonic I v.Flagged (fun _ => True) E v.both
  event_ranked : p.Ranked (fun i => v.event.contains i = true) v.behind E v.toEvent v.eventRank
  condition_ranked :
    p.Ranked (fun i => v.condition.contains i = true) (fun _ => True) E v.toCondition
      v.conditionRank

variable {E : Nat → Prop} {p p' : Problem α} {s : Nat}

/-! ### Single eliminations -/

/-- A self-loop is below one where there is another entry. -/
theorem Invariant.loop_lt_one (h : v.Invariant I E p) {c : Nat} (hc : c ∈ (p.row s).columns)
    (hcs : c ≠ s) : p.loop I s < 1 :=
  h.proper.loop_lt_one_of_sum_le (h.sum_le s) hc hcs

/-- A state that is in none of the sets has a proper successor. -/
theorem Invariant.exists_column (h : v.Invariant I E p) (hs : s < n) (hEs : ¬E s)
    (hflag : ¬v.Flagged s) : ∃ c ∈ (p.row s).columns, c ≠ s := by
  rw [Flagged, not_or] at hflag
  -- It leads to one of the sets, and the next state on the way has a smaller rank.
  rcases v.leads s hs (by simpa using hflag.1)
    (by simpa using hflag.2) with hne | ⟨hbehind, hne⟩
  · obtain ⟨c, hc, -, hrank⟩ := h.condition_ranked s trivial hflag.2 hEs hne
    exact ⟨c, hc, fun hcs => by simp [hcs] at hrank⟩
  · obtain ⟨c, hc, -, hrank⟩ := h.event_ranked s hbehind hflag.1 hEs hne
    exact ⟨c, hc, fun hcs => by simp [hcs] at hrank⟩

/-- An elimination that respects both sets keeps the invariant. -/
theorem Invariant.of_eliminated {drop : Bool} {constraint : Option StateSet}
    (h : v.Invariant I E p) (hloop : p.loop I s < 1) (hEs : ¬E s)
    (hdrop : drop = true → constraint = none)
    (hevent : Problem.Respects (fun i => v.event.contains i = true) s constraint)
    (hcondition : Problem.Respects (fun i => v.condition.contains i = true) s constraint)
    (hproper : p'.Proper I) (he : p.Eliminated I s drop constraint p') :
    v.Invariant I (Problem.Gone E s drop) p' := by
  -- Where both sets are respected, so is their union.
  have hboth : Problem.Respects v.Flagged s constraint := by
    rcases hevent with hes | hall
    · rcases hcondition with hcs | hall
      · exact .inl fun hflag => hflag.elim hes hcs
      · exact .inr fun i hi => .inr (hall i hi)
    · exact .inr fun i hi => .inl (hall i hi)
  exact {
    size_eq := he.size_eq.trans h.size_eq
    proper := hproper
    sum_le := he.sum_le h.proper hloop h.sum_le
    gone := he.not_gone hdrop h.gone
    event := h.event.of_eliminated he hloop.ne hEs hevent
    condition := h.condition.of_eliminated he hloop.ne hEs hcondition
    both := h.both.of_eliminated he hloop.ne hEs hboth
    event_ranked := h.event_ranked.of_eliminated h.event he hEs hevent
    condition_ranked := h.condition_ranked.of_eliminated h.condition he hEs hcondition }

/-- The invariant only depends on which rows are dropped. -/
theorem Invariant.congr {E' : Nat → Prop} (h : v.Invariant I E p) (hE : ∀ i, E i ↔ E' i) :
    v.Invariant I E' p := by
  have heq : E = E' := funext fun i => propext (hE i)
  exact heq ▸ h

/-- **Eliminating a state of neither set** succeeds and keeps the invariant. -/
theorem Invariant.eliminate (h : v.Invariant I E p) (hs : s < n) (hEs : ¬E s)
    (hflag : ¬v.Flagged s) (drop : Bool) :
    Meets I.RangeFault
      (fun p' => v.Invariant I (Problem.Gone E s drop) p' ∧ p.Eliminated I s drop none p')
      (p.eliminate s drop none) := by
  obtain ⟨c, hc, hcs⟩ := h.exists_column hs hEs hflag
  have hloop := h.loop_lt_one hc hcs
  have hnone : ∀ set ∈ (none : Option StateSet), set.size = p.size := by simp
  refine (h.proper.eliminate (h.size_eq.symm ▸ hs) hloop drop hnone).mono fun p' hp' =>
    ⟨?_, hp'.2⟩
  rw [Flagged, not_or] at hflag
  exact h.of_eliminated hloop hEs (fun _ => rfl) (.inl hflag.1) (.inl hflag.2) hp'.1 hp'.2

/-- **Eliminating a list of states of neither set.** -/
theorem Invariant.eliminateFlat (h : v.Invariant I (fun _ => False) p) {states : List Nat}
    (hnodup : states.Nodup) (hlt : ∀ s ∈ states, s < n)
    (hflag : ∀ s ∈ states, ¬v.Flagged s) :
    Runs (Interruption.IsFault I.RangeFault) (v.Invariant I (fun i => i ∈ states))
      (p.eliminateFlat states) := by
  have hlist : Runs (Interruption.IsFault I.RangeFault) (v.Invariant I (fun i => i ∈ states))
      (p.eliminateList states) := by
    refine Runs.foldlM_done (J := fun done q => v.Invariant I (fun i => i ∈ done) q)
      (fun done s rest q hsplit hq => ?_) (h.congr (by simp))
    have hmem : s ∈ states := by simp [hsplit]
    have hnew : s ∉ done := by
      rw [hsplit, List.nodup_append] at hnodup
      exact fun hs => hnodup.2.2 s hs s List.mem_cons_self rfl
    refine Monitored.runs_checkpoint.bind fun _ _ => ?_
    have helim := hq.eliminate (hlt s hmem) hnew (hflag s hmem) true
    refine (Problem.runs_eliminateMonitored helim).mono fun q' hq' => hq'.1.congr fun i => ?_
    simp [Problem.Gone]
  refine hlist.bind fun q hq => ?_
  exact Monitored.runs_checkpoint.bind fun _ _ => .pure hq

/-! ### Bypassing -/

variable (I) in
/-- **The invariant of bypassing**: all other states are eliminated, so only states of the two sets
are successors. -/
structure Reduced (v : Visits n) (E : Nat → Prop) (p : Problem α) : Prop extends
    v.Invariant I E p where
  flagged : ∀ i, ∀ c ∈ (p.row i).columns, v.Flagged c
  kept : ∀ i, E i → ¬v.Flagged i

variable (I) in
/-- The problem after state `c` is bypassed: it is of the given kind and does not stop a chain, it
has a proper successor, and only predecessors of its kind are redirected. -/
structure Bypassed (stop kind : StateSet) (c : Nat) (p p' : Problem α) : Prop where
  free : stop.contains c = false
  member : kind.contains c = true
  leaves : ∃ d ∈ (p.row c).columns, d ≠ c
  proper : p'.Proper I
  eliminated : p.Eliminated I c false (some kind) p'

variable {stop kind : StateSet} {c : Nat}

/-- Bypassing a state is a shortcut. -/
theorem Bypassed.shortcut (hb : Bypassed I stop kind c p p') :
    Problem.Shortcut stop kind c p p' where
  free := hb.free
  member := hb.member
  leaves := hb.leaves
  columns_self d := by simp [hb.eliminated.columns_self]
  columns i hic hi := hb.eliminated.columns i hic (Problem.allows_some.2 hi)
  row_kept i hic hi := hb.eliminated.row_kept i hic (by simp [hi])

/-- **Bypassing keeps the invariant.** -/
theorem Reduced.of_bypassed (h : v.Reduced I E p)
    (hsides : Problem.Sides v.event v.condition stop kind) (hb : Bypassed I stop kind c p p') :
    v.Reduced I E p' := by
  obtain ⟨d, hd, hdc⟩ := hb.leaves
  have hEc : ¬E c := fun hE => h.kept c hE (hsides.mem_sets hb.member)
  have hgone (i : Nat) : Problem.Gone E c false i ↔ E i := by simp [Problem.Gone]
  have hrespects : Problem.Respects (fun i => v.event.contains i = true) c (some kind) ∧
      Problem.Respects (fun i => v.condition.contains i = true) c (some kind) := by
    -- The state is outside of the set that stops chains, and all others stay in its own set.
    rcases hsides with ⟨rfl, rfl⟩ | ⟨rfl, rfl⟩
    · exact ⟨.inr fun i hi => by simpa using hi, .inl (by simp [hb.free])⟩
    · exact ⟨.inl (by simp [hb.free]), .inr fun i hi => by simpa using hi⟩
  have hinv := h.of_eliminated (h.loop_lt_one hd hdc) hEc (by simp) hrespects.1 hrespects.2
    hb.proper hb.eliminated
  refine { hinv.congr hgone with flagged := ?_, kept := h.kept }
  intro i e he
  rcases hb.shortcut.mem_columns_of_mem he with he | ⟨-, -, he⟩
  · exact h.flagged i e he
  · exact h.flagged c e he

/-- **Bypassing a state succeeds**, if it does not stop the chain and has a proper successor. -/
theorem Reduced.runs_bypass_one (h : v.Reduced I E p)
    (hsides : Problem.Sides v.event v.condition stop kind) (hstop : stop.contains c = false)
    (hmember : kind.contains c = true) (hleaves : ∃ d ∈ (p.row c).columns, d ≠ c) :
    Runs (Interruption.IsFault I.RangeFault) (Bypassed I stop kind c p)
      (p.eliminateMonitored c false (some kind)) := by
  obtain ⟨d, hd, hdc⟩ := hleaves
  have hsize : ∀ set ∈ some kind, set.size = p.size := by
    intro set hset
    rw [← Option.mem_some.1 hset, hsides.size_eq v.event_size v.condition_size, h.size_eq]
  have helim := h.proper.eliminate (Problem.lt_size_of_mem_columns hd) (h.loop_lt_one hd hdc) false
    hsize
  refine Problem.runs_eliminateMonitored (helim.mono fun p' hp' => ?_)
  exact ⟨hstop, hmember, ⟨d, hd, hdc⟩, hp'.1, hp'.2⟩

/-- **Chains can be collapsed under the invariant.** -/
theorem bypassable_reduced (hsides : Problem.Sides v.event v.condition stop kind) :
    Problem.Bypassable (Interruption.IsFault I.RangeFault) stop kind (v.Reduced I E) where
  consistent _ h := h.proper.consistent
  member _ h i c hc hstop _ := hsides.mem_kind (h.flagged i c hc) hstop
  runs _ _ h hstop hmember hleaves :=
    (h.runs_bypass_one hsides hstop hmember hleaves).mono fun _ hb =>
      ⟨h.of_bypassed hsides hb, hb.shortcut⟩

end Visits

end MarkovElimination
