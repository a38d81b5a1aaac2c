import MarkovElimination.Proofs.Elimination.Progress
import MarkovElimination.Proofs.Graph.Decomposition
import MarkovElimination.Proofs.Graph.Distance

/-! # Every strategy eliminates every state

Under the invariant of full eliminations both methods succeed, in every order and with every
configuration, and at the end exactly the states that are not initial are eliminated
(`Progress.eliminateAllExcept`). For the hybrid method the proof follows its recursion: when a
component is treated, each of its states is eliminated or waits in the queue (`runs_treat`), and the
queue is eliminated last. -/

namespace MarkovElimination

/-! ### Rankings -/

/-- Sorting by distance lists every state once. -/
theorem perm_sortByDistance (distances : List (Option Nat)) (increasing : Bool) :
    (sortByDistance distances increasing).Perm (List.range distances.length) :=
  List.mergeSort_perm _ _

/-- **Every ranking lists every state once.** -/
theorem EliminationConfig.perm_ranking (config : EliminationConfig) {g : Graph}
    (hg : g.reversed.size = g.size) (initial targets : StateSet) :
    (config.ranking g initial targets).Perm (List.range g.size) := by
  have hforward (increasing : Bool) :
      (sortByDistance (g.distances initial) increasing).Perm (List.range g.size) := by
    simpa using perm_sortByDistance (g.distances initial) increasing
  have hbackward (increasing : Bool) :
      (sortByDistance (g.reversed.distances targets) increasing).Perm (List.range g.size) := by
    simpa [hg] using perm_sortByDistance (g.reversed.distances targets) increasing
  rw [ranking]
  cases config.order with
  | forward => exact hforward true
  | forwardReversed => exact hforward false
  | backward => exact hbackward true
  | backwardReversed => exact hbackward false
  | random => exact config.shuffle.perm config.seed g.size

/-- A set sorted by a ranking of all states still has its members. -/
theorem mem_sortByRanking {ranking : List Nat} {n : Nat} (h : ranking.Perm (List.range n))
    {set : StateSet} (hset : set.size = n) {i : Nat} :
    i ∈ sortByRanking ranking set ↔ set.contains i = true := by
  rw [sortByRanking, List.mem_filter, h.mem_iff, List.mem_range, ← hset]
  exact ⟨fun hi => hi.2, fun hi => ⟨StateSet.lt_size_of_contains hi, hi⟩⟩

/-- Noting a nesting of components does not touch the equations. -/
theorem Problem.Progress.recordDepth {α : Type} [Weight α] {I : Interpretation α ℚ}
    {x y : Nat → ℚ} {E : Nat → Prop} {p : Problem α} (h : p.Progress I x y E) (depth : Nat) :
    (p.recordDepth depth).Progress I x y E :=
  ⟨⟨⟨h.proper.consistent.incoming_size, h.proper.consistent.values_size,
    h.proper.consistent.sorted, h.proper.consistent.column_lt,
    h.proper.consistent.incoming_sorted, h.proper.consistent.agree⟩, h.proper.positive,
    h.proper.values⟩, h.pos, h.drains, h.solves, h.gone⟩

namespace HybridPlan

variable {α : Type} [Weight α] {I : Interpretation α ℚ} {x y : Nat → ℚ} {n : Nat}

/-- **The invariant of the hybrid method**: the states of `E` are eliminated, none of them is
protected, and the queue only holds states of the problem. -/
structure Progress (I : Interpretation α ℚ) (x y : Nat → ℚ) (n : Nat) (mode : ValueMode)
    (plan : HybridPlan) (E : Nat → Prop) (state : HybridState α) : Prop where
  progress : state.problem.Progress I x y E
  size_eq : state.problem.size = n
  mode_eq : state.problem.mode = mode
  kept : ∀ i, E i → plan.protectedStates.contains i = false
  queue_lt : ∀ i ∈ state.queue, i < n

variable {mode : ValueMode} {plan : HybridPlan} {E : Nat → Prop} {state : HybridState α}

/-- Eliminating listed states that are not protected. -/
theorem Progress.eliminateList (h : Progress I x y n mode plan E state) {states : List Nat}
    (hlt : ∀ s ∈ states, s < n)
    (hkept : ∀ s ∈ states, plan.protectedStates.contains s = false) :
    Runs (Interruption.IsFault I.RangeFault)
      (fun state' => Progress I x y n mode plan (fun i => E i ∨ i ∈ states) state' ∧
        state'.queue = state.queue) (HybridPlan.eliminateList state states) := by
  refine (h.progress.eliminateList (by rwa [h.size_eq])).bind fun p hp => .pure ?_
  refine ⟨⟨hp.1, hp.2.1.trans h.size_eq, hp.2.2.trans h.mode_eq, ?_, h.queue_lt⟩, rfl⟩
  exact fun i hi => hi.elim (h.kept i) (hkept i)

/-- What is left to say about a state: it is eliminated, or it waits in the queue and the queue will
be eliminated, or it is an entry state that the caller will treat. -/
def Handled (plan : HybridPlan) (entry : StateSet) (eliminateEntry : Bool) (E : Nat → Prop)
    (queue : List Nat) (i : Nat) : Prop :=
  E i ∨ i ∈ queue ∧ (plan.entryStatesLast = true ∨ eliminateEntry = false ∧
    entry.contains i = true)

/-- The result of treating a component: more states are eliminated, the queue is longer, and all
states of the component that are not protected are handled. -/
def Treated (I : Interpretation α ℚ) (x y : Nat → ℚ) (n : Nat) (mode : ValueMode)
    (plan : HybridPlan) (component entry : StateSet) (eliminateEntry : Bool) (E : Nat → Prop)
    (queue : List Nat) (state : HybridState α) : Prop :=
  ∃ E', Progress I x y n mode plan E' state ∧ (∀ i, E i → E' i) ∧
    (∀ i ∈ queue, i ∈ state.queue) ∧
    ∀ i, component.contains i = true → plan.protectedStates.contains i = false →
      Handled plan entry eliminateEntry E' state.queue i

/-- The entry states of a component come last: they are eliminated, or put into the queue. -/
theorem Progress.finish (h : Progress I x y n mode plan E state) {component entry : StateSet}
    (hcomponent : component.size = n)
    (hentry : ∀ i, entry.contains i = true → component.contains i = true)
    (eliminateEntry : Bool)
    (hinner : ∀ i, component.contains i = true → entry.contains i = false →
      E i ∨ i ∈ state.queue ∧ plan.entryStatesLast = true) :
    Runs (Interruption.IsFault I.RangeFault)
      (Treated I x y n mode plan component entry eliminateEntry E state.queue)
      (plan.finish entry eliminateEntry state) := by
  have hlt (i : Nat) (hi : entry.contains i = true) : i < n :=
    hcomponent ▸ StateSet.lt_size_of_contains (hentry i hi)
  cases eliminateEntry with
  | true =>
    -- Entry states are eliminated now, except for those that are protected.
    have hmem (i : Nat) : i ∈ plan.unprotected entry.toList ↔
        entry.contains i = true ∧ plan.protectedStates.contains i = false := by
      simp [unprotected]
    refine (h.eliminateList (fun s hs => hlt s ((hmem s).1 hs).1)
      fun s hs => ((hmem s).1 hs).2).mono fun state' hstate => ?_
    refine ⟨_, hstate.1, fun i hi => .inl hi, fun i hi =>
      by rwa [hstate.2], fun i hi hkept => ?_⟩
    by_cases he : entry.contains i = true
    · exact .inl (.inr ((hmem i).2 ⟨he, hkept⟩))
    · rcases hinner i hi (by simpa using he) with hE | ⟨hq, hlast⟩
      · exact .inl (.inl hE)
      · exact .inr ⟨by rwa [hstate.2], .inl hlast⟩
  | false =>
    -- Entry states are left to the caller, and noted in the queue.
    refine .pure ⟨E, ⟨h.progress, h.size_eq, h.mode_eq, h.kept, fun i hi => ?_⟩,
      fun _ hi => hi,
      fun i hi => List.mem_append_left _ hi, fun i hi _ => ?_⟩
    · exact (List.mem_append.1 hi).elim (h.queue_lt i) fun hi => hlt i (StateSet.mem_toList.1 hi)
    · by_cases he : entry.contains i = true
      · exact .inr ⟨List.mem_append_right _ (StateSet.mem_toList.2 he), .inr ⟨rfl, he⟩⟩
      · rcases hinner i hi (by simpa using he) with hE | ⟨hq, hlast⟩
        · exact .inl hE
        · exact .inr ⟨List.mem_append_left _ hq, .inl hlast⟩

omit [Weight α] in
/-- Entry states of a block are states of the block. -/
theorem contains_entryStates {p : Problem α} {block : StateSet} {i : Nat}
    (h : (p.entryStates block).contains i = true) : block.contains i = true := by
  rw [Problem.entryStates, StateSet.contains_ofPredicate] at h
  simp only [Bool.and_eq_true] at h
  exact h.2.1

/-- Eliminating a set of states that are not protected, in the order of the ranking. -/
theorem Progress.eliminateSet (h : Progress I x y n mode plan E state)
    (hranking : plan.ranking.Perm (List.range n)) {set : StateSet} (hset : set.size = n)
    (hkept : ∀ i, set.contains i = true → plan.protectedStates.contains i = false) :
    Runs (Interruption.IsFault I.RangeFault)
      (fun state' => Progress I x y n mode plan (fun i => E i ∨ set.contains i = true) state' ∧
        state'.queue = state.queue)
      (HybridPlan.eliminateList state (sortByRanking plan.ranking set)) := by
  have hsorted (i : Nat) := mem_sortByRanking hranking hset (i := i)
  refine (h.eliminateList (fun s hs => ?_) fun s hs => ?_).mono fun state' hstate => ?_
  · exact hset ▸ StateSet.lt_size_of_contains ((hsorted s).1 hs)
  · exact hkept s ((hsorted s).1 hs)
  · refine ⟨⟨hstate.1.progress.congr fun i => by rw [hsorted], hstate.1.size_eq,
      hstate.1.mode_eq, fun i hi => hstate.1.kept i ?_, hstate.1.queue_lt⟩, hstate.2⟩
    exact hi.imp_right (hsorted i).2

/-- What holds between two blocks of inner states, of which those in `rest` are left: every inner
state is eliminated, waits in the queue, or is in a block that is left. -/
def Between (I : Interpretation α ℚ) (x y : Nat → ℚ) (n : Nat) (mode : ValueMode)
    (plan : HybridPlan) (inner : StateSet) (E : Nat → Prop) (queue : List Nat)
    (rest : List StateSet) (state : HybridState α) : Prop :=
  ∃ E', Progress I x y n mode plan E' state ∧ (∀ i, E i → E' i) ∧
    (∀ i ∈ queue, i ∈ state.queue) ∧
    ∀ i, inner.contains i = true →
      (E' i ∨ i ∈ state.queue ∧ plan.entryStatesLast = true) ∨
        ∃ b ∈ rest, b.contains i = true

/-- When no block is left, the entry states follow. -/
theorem Between.runs_finish {component entry : StateSet} {queue : List Nat}
    (h : Between I x y n mode plan (component.minus entry) E queue [] state)
    (hcomponent : component.size = n)
    (hentry : ∀ i, entry.contains i = true → component.contains i = true)
    (eliminateEntry : Bool) : Runs (Interruption.IsFault I.RangeFault)
      (Treated I x y n mode plan component entry eliminateEntry E queue)
      (plan.finish entry eliminateEntry state) := by
  obtain ⟨E', hprogress, hE, hqueue, hdone⟩ := h
  refine (hprogress.finish hcomponent hentry eliminateEntry fun i hi he => ?_).mono ?_
  · refine (hdone i ?_).resolve_right (by simp)
    simp [StateSet.contains_minus, hi, he]
  · rintro state' ⟨E'', hprogress', hE', hqueue', hhandled⟩
    exact ⟨E'', hprogress', fun i hi => hE' i (hE i hi), fun i hi => hqueue' i (hqueue i hi),
      hhandled⟩

/-- A block that is treated is not left any more. -/
theorem Between.of_treated {inner block entry : StateSet} {queue : List Nat} {rest : List StateSet}
    {state' : HybridState α} {E' : Nat → Prop} (hE : ∀ i, E i → E' i)
    (hqueue : ∀ i ∈ queue, i ∈ state.queue)
    (hdone : ∀ i, inner.contains i = true →
      (E' i ∨ i ∈ state.queue ∧ plan.entryStatesLast = true) ∨
      ∃ b ∈ block :: rest, b.contains i = true)
    (hkept : ∀ i, inner.contains i = true → plan.protectedStates.contains i = false)
    (h : Treated I x y n mode plan block entry (!plan.entryStatesLast) E' state.queue state') :
    Between I x y n mode plan inner E queue rest state' := by
  obtain ⟨E'', hprogress, hE', hqueue', hhandled⟩ := h
  refine ⟨E'', hprogress, fun i hi => hE' i (hE i hi), fun i hi => hqueue' i (hqueue i hi), ?_⟩
  intro i hi
  rcases hdone i hi with (hEi | ⟨hq, hlast⟩) | ⟨b, hb, hbi⟩
  · exact .inl (.inl (hE' i hEi))
  · exact .inl (.inr ⟨hqueue' i hq, hlast⟩)
  · rcases List.mem_cons.1 hb with rfl | hb
    · -- Entry states of the block only wait if entry states come last.
      rcases hhandled i hbi (hkept i hi) with hEi | ⟨hq, hlast | ⟨hnot, -⟩⟩
      · exact .inl (.inl hEi)
      · exact .inl (.inr ⟨hq, hlast⟩)
      · exact .inl (.inr ⟨hq, by simpa using hnot⟩)
    · exact .inr ⟨b, hb, hbi⟩

/-- **Treating a component** handles each of its states. Inner components are smaller, so the proof
is by induction on the number of states. -/
theorem runs_treat (hranking : plan.ranking.Perm (List.range n)) (component entry : StateSet)
    (eliminateEntry : Bool) (level : Nat) (E : Nat → Prop) (state : HybridState α)
    (h : Progress I x y n mode plan E state) (hcomponent : component.size = n)
    (hentry : ∀ i, entry.contains i = true → component.contains i = true)
    (hinner : ∀ i, component.contains i = true → entry.contains i = false →
      plan.protectedStates.contains i = false) :
    Runs (Interruption.IsFault I.RangeFault)
      (Treated I x y n mode plan component entry eliminateEntry E state.queue)
      (plan.treat component entry eliminateEntry level state) := by
  induction hcard : component.card using Nat.strong_induction_on
    generalizing component entry eliminateEntry level E state with
  | _ card ih =>
    rw [treat]
    have hsize : (component.minus entry).size = n := by rw [StateSet.size_minus, hcomponent]
    have hmem (i : Nat) : (component.minus entry).contains i = true ↔
        component.contains i = true ∧ entry.contains i = false := by
      simp [StateSet.contains_minus]
    have hkept (i : Nat) (hi : (component.minus entry).contains i = true) :
        plan.protectedStates.contains i = false := hinner i ((hmem i).1 hi).1 ((hmem i).1 hi).2
    set start : HybridState α := { state with problem := state.problem.recordDepth level }
    have hstart : Progress I x y n mode plan E start :=
      ⟨h.progress.recordDepth level, h.size_eq, h.mode_eq, h.kept, h.queue_lt⟩
    -- A small component, and one that cannot be decomposed, is eliminated at once.
    have hall : Runs (Interruption.IsFault I.RangeFault)
        (Treated I x y n mode plan component entry eliminateEntry E state.queue)
        (HybridPlan.eliminateList start (sortByRanking plan.ranking (component.minus entry)) >>=
          plan.finish entry eliminateEntry) := by
      refine (hstart.eliminateSet hranking hsize hkept).bind fun state' hstate => ?_
      refine Between.runs_finish ?_ hcomponent hentry eliminateEntry
      exact ⟨_, hstate.1, fun i hi => .inl hi, fun i hi => by rwa [hstate.2],
        fun i hi => .inl (.inl (.inr hi))⟩
    simp only
    split
    · split
      · exact hall
      · rename_i hblocks
        have hparts := Graph.isBlocks_decompose plan.graph (component.minus entry)
        have htrivial := Graph.contains_trivial plan.graph (component.minus entry)
        refine (hstart.eliminateSet hranking ((Graph.size_trivial _ _).trans hsize)
          fun i hi => hkept i ((htrivial i).1 hi).1).bind fun state' hstate => ?_
        let J (rest : List StateSet) (s : HybridState α) : Prop :=
          (∀ b ∈ rest, b ∈ (plan.graph.decompose (component.minus entry)).blocks) ∧
            Between I x y n mode plan (component.minus entry) E state.queue rest s
        have hJ : J (plan.graph.decompose (component.minus entry)).blocks state' := by
          refine ⟨fun b hb => hb, _, hstate.1, fun i hi => .inl hi, fun i hi => by rwa [hstate.2],
            fun i hi => ?_⟩
          by_cases hb : ∃ b ∈ (plan.graph.decompose (component.minus entry)).blocks,
              b.contains i = true
          · exact .inr hb
          · refine .inl (.inl (.inr ((htrivial i).2 ⟨hi, fun b hmem => ?_⟩)))
            by_contra hbi
            exact hb ⟨b, hmem, by simpa using hbi⟩
        refine (Runs.foldlM (J := J) (fun block rest s hs => ?_) hJ).bind fun s hs =>
          hs.2.runs_finish hcomponent hentry eliminateEntry
        obtain ⟨hrest, E', hprogress, hE, hqueue, hdone⟩ := hs
        have hblock := hrest block (by simp)
        have hlt : block.card < component.card :=
          Graph.card_lt_of_blocks_minus_ne plan.graph hblocks hblock
        rw [if_pos hlt]
        refine (ih block.card (hcard ▸ hlt) block _ _ _ E' s hprogress
          ((hparts.size block hblock).trans hsize) (fun i hi => contains_entryStates hi)
          (fun i hi _ => hkept i (hparts.sub block hblock i hi)) rfl).mono fun s' hs' => ?_
        exact ⟨fun b hb => hrest b (List.mem_cons_of_mem _ hb),
          .of_treated hE hqueue hdone hkept hs'⟩
    · exact hall

/-- **The hybrid method** eliminates all states that are not protected. -/
theorem runs_run {p : Problem α} (hranking : plan.ranking.Perm (List.range p.size))
    (hgraph : plan.graph.size = p.size) (hprotected : plan.protectedStates.size = p.size)
    (h : p.Progress I x y fun _ => False) :
    Runs (Interruption.IsFault I.RangeFault)
      (fun p' => ∃ E, p'.Progress I x y E ∧ p'.size = p.size ∧
        (∀ i, E i → plan.protectedStates.contains i = false) ∧
        ∀ i, i < p.size → plan.protectedStates.contains i = false → E i) (plan.run p) := by
  have hstart : Progress I x y p.size p.mode plan (fun _ => False) ⟨p, []⟩ :=
    ⟨h, rfl, rfl, fun i hi => hi.elim, by simp⟩
  have htreat := runs_treat hranking (.full plan.graph.size) plan.protectedStates false 0
    (fun _ => False) ⟨p, []⟩ hstart (by rw [StateSet.size_full, hgraph])
    (fun i hi => by
      have := StateSet.lt_size_of_contains hi
      rw [StateSet.contains_full, decide_eq_true_eq]
      omega)
    fun i _ hi => hi
  rw [HybridPlan.run]
  refine htreat.bind fun state hstate => ?_
  obtain ⟨E, hprogress, -, -, hhandled⟩ := hstate
  -- The protected states are the entry of the whole, so every other state is gone or waits.
  have hall (i : Nat) (hi : i < p.size) (hkept : plan.protectedStates.contains i = false) :
      E i ∨ i ∈ state.queue ∧ plan.entryStatesLast = true := by
    rcases hhandled i (by simpa [hgraph] using hi) hkept with hE | ⟨hq, hlast | ⟨-, hentry⟩⟩
    · exact .inl hE
    · exact .inr ⟨hq, hlast⟩
    · rw [hkept] at hentry
      exact absurd hentry (by simp)
  have hcheckpoint (q : Problem α) (E' : Nat → Prop) (hq : q.Progress I x y E')
      (hsize : q.size = p.size) (hkept : ∀ i, E' i → plan.protectedStates.contains i = false)
      (hE : ∀ i, i < p.size → plan.protectedStates.contains i = false → E' i) :
      Runs (Interruption.IsFault I.RangeFault)
        (fun p' => ∃ E, p'.Progress I x y E ∧ p'.size = p.size ∧
          (∀ i, E i → plan.protectedStates.contains i = false) ∧
          ∀ i, i < p.size → plan.protectedStates.contains i = false → E i)
        (do Monitored.checkpoint; pure q) :=
    Monitored.runs_checkpoint.bind fun _ _ => .pure ⟨E', hq, hsize, hkept, hE⟩
  simp only
  split
  · have hqueue (i : Nat) : i ∈ plan.unprotected state.queue ↔
        i ∈ state.queue ∧ plan.protectedStates.contains i = false := by
      simp [unprotected]
    refine (hprogress.eliminateList (fun s hs => hprogress.queue_lt s ((hqueue s).1 hs).1)
      fun s hs => ((hqueue s).1 hs).2).bind fun state' hstate' => ?_
    refine hcheckpoint _ _ hstate'.1.progress hstate'.1.size_eq hstate'.1.kept fun i hi hkept => ?_
    rcases hall i hi hkept with hE | ⟨hq, -⟩
    · exact .inl hE
    · exact .inr ((hqueue i).2 ⟨hq, hkept⟩)
  · rename_i hlast
    refine hcheckpoint _ E hprogress.progress hprogress.size_eq hprogress.kept fun i hi hkept => ?_
    exact (hall i hi hkept).resolve_right fun hq => hlast hq.2

end HybridPlan

namespace Problem

variable {α : Type} [Weight α] {I : Interpretation α ℚ} {x y : Nat → ℚ}

/-- **Every configuration eliminates exactly the states that are not initial**, and keeps the
invariant of full eliminations. -/
theorem Progress.eliminateAllExcept {p : Problem α} (h : p.Progress I x y fun _ => False)
    (config : EliminationConfig) {g : Graph} (hg : g.size = p.size)
    (hreversed : g.reversed.size = g.size) {initial : StateSet} (hinitial : initial.size = p.size)
    (targets : StateSet) :
    Runs (Interruption.IsFault I.RangeFault)
      (fun p' => ∃ E, p'.Progress I x y E ∧ p'.size = p.size ∧
        (∀ i, E i → initial.contains i = false) ∧
        ∀ i, i < p.size → initial.contains i = false → E i)
      (p.eliminateAllExcept config g initial targets) := by
  have hranking := config.perm_ranking hreversed initial targets
  refine Monitored.runs_checkpoint.bind fun _ _ => ?_
  refine (Monitored.runs_expect _).bind fun _ _ => ?_
  cases config.method with
  | state =>
    -- The sorted list has exactly the states that are not initial.
    have hsize : ((StateSet.full g.size).minus initial).size = g.size := by simp
    have hsorted (i : Nat) : i ∈ sortByRanking (config.ranking g initial targets)
        ((StateSet.full g.size).minus initial) ↔ i < p.size ∧ initial.contains i = false := by
      rw [mem_sortByRanking hranking hsize]
      simp [StateSet.contains_minus, hg]
    refine (h.eliminateList fun s hs => ((hsorted s).1 hs).1).bind fun p' hp' => ?_
    refine Monitored.runs_checkpoint.bind fun _ _ => .pure ⟨_, hp'.1, hp'.2.1, ?_, ?_⟩
    · exact fun i hi => hi.elim False.elim fun hi => ((hsorted i).1 hi).2
    · exact fun i hi hkept => .inr ((hsorted i).2 ⟨hi, hkept⟩)
  | hybrid =>
    simp only
    rw [if_neg (not_not.2 hg)]
    refine HybridPlan.runs_run ?_ hg hinitial h
    exact hg ▸ hranking

end Problem

end MarkovElimination
