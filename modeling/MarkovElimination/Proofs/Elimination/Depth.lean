import MarkovElimination.Number.Rational
import MarkovElimination.Proofs.Elimination.Consistency
import MarkovElimination.Proofs.Elimination.Driver

/-! # How deep components are nested

The hybrid method only decomposes components with more states than its bound, and the blocks of a
decomposition are smaller than the component. So the level of a component and its number of states
never exceed the number of states of the problem together, and a problem with `n` states is nested
at most `n - maximalSccSize` deep. This is an invariant of the stack of work (`Nested.step`), and so
it holds of the problem that the driver of the method hands out (`Nested.depth_le_of_drives`). A
problem that is not larger than the bound is not decomposed at all: there the hybrid method is the
flat one (`run_eq_eliminateFlat`). -/

namespace MarkovElimination

namespace Problem

variable {α : Type} [Weight α]

/-- An elimination does not touch the note about the nesting of components. -/
theorem depth_eliminate {p q : Problem α} {s : Nat} {drop : Bool} {constraint : Option StateSet}
    (h : p.eliminate s drop constraint = .ok q) : q.depth = p.depth := by
  obtain ⟨r, -, rfl⟩ := eliminate_eq_ok h
  rfl

omit [Weight α] in
/-- Noting the nesting of the whole state space changes nothing. -/
@[simp] theorem recordDepth_zero (p : Problem α) : p.recordDepth 0 = p := by
  simp [recordDepth]

end Problem

namespace HybridPlan

variable {α : Type}

/-! ### The levels of components -/

/-- The number of states that a component may have at a level, and the levels that there are. -/
structure AtLevel (plan : HybridPlan) (component : StateSet) (level : Nat) : Prop where
  card_add_le : component.card + level ≤ plan.graph.size
  level_le : level ≤ plan.graph.size - plan.maximalSccSize

/-- A smaller component than one that is decomposed may be treated one level deeper. -/
theorem AtLevel.next {plan : HybridPlan} {component block : StateSet} {level : Nat}
    (h : plan.AtLevel component level) (hlarge : plan.maximalSccSize < component.card)
    (hlt : block.card < component.card) : plan.AtLevel block (level + 1) := by
  have := h.card_add_le
  exact ⟨by omega, by omega⟩

/-- An item of work treats its component at a level where it may be. -/
def Fits (plan : HybridPlan) : Work → Prop
  | .treat component _ _ level => plan.AtLevel component level
  | .block states level => plan.AtLevel states level
  | .eliminate _ => True
  | .finish _ _ => True

/-- **The invariant of the nesting**: all items of work fit, and the noted depth is the one that was
there before, or one of the levels. -/
structure Nested (plan : HybridPlan) (depth : Nat) (s : WorkState α) : Prop where
  fits : ∀ w ∈ s.stack, plan.Fits w
  depth_le : s.problem.depth ≤ max depth (plan.graph.size - plan.maximalSccSize)

variable {plan : HybridPlan} {depth : Nat}

/-- The work on the inner states of a component fits, since blocks are smaller than the
component. -/
theorem AtLevel.fits_expand {component : StateSet} {level : Nat} (h : plan.AtLevel component level)
    (entry : StateSet) : ∀ w ∈ plan.expand component entry level, plan.Fits w := by
  intro w hw
  rw [expand] at hw
  simp only at hw
  split at hw
  · rename_i hlarge
    split at hw
    · rw [List.mem_singleton.1 hw]
      trivial
    · rename_i hblocks
      rcases List.mem_cons.1 hw with rfl | hw
      · trivial
      · obtain ⟨block, hblock, rfl⟩ := List.mem_map.1 hw
        exact h.next hlarge (Graph.card_lt_of_blocks_minus_ne plan.graph hblocks hblock)
  · rw [List.mem_singleton.1 hw]
    trivial

variable [Weight α]

/-- **Every step keeps the nesting**: the last one hands out a problem within the bound. -/
theorem Nested.step {s : WorkState α} {r : Problem α ⊕ WorkState α} (h : plan.Nested depth s)
    (hstep : plan.step s = .ok r) :
    match r with
    | .inl q => q.depth ≤ max depth (plan.graph.size - plan.maximalSccSize)
    | .inr t => plan.Nested depth t := by
  obtain ⟨⟨p, queue⟩, stack, flushed⟩ := s
  have hdepth : p.depth ≤ max depth (plan.graph.size - plan.maximalSccSize) := h.depth_le
  -- Only the treatment of a component notes a level, and its blocks are those of `fits_expand`.
  cases stack with
  | nil =>
    simp only [HybridPlan.step] at hstep
    split at hstep
    · cases hstep
      exact ⟨List.forall_mem_singleton.2 trivial, hdepth⟩
    · cases hstep
      exact hdepth
  | cons w rest =>
    obtain ⟨hw, hrest⟩ := List.forall_mem_cons.1 h.fits
    cases w with
    | treat component entry eliminateEntry level =>
      cases hstep
      refine ⟨List.forall_mem_append.2 ⟨hw.fits_expand entry, ?_⟩, max_le hdepth ?_⟩
      · exact List.forall_mem_cons.2 ⟨trivial, hrest⟩
      · exact hw.level_le.trans (le_max_right _ _)
    | block states level =>
      cases hstep
      exact ⟨List.forall_mem_cons.2 ⟨hw, hrest⟩, hdepth⟩
    | eliminate states =>
      cases states with
      | nil =>
        cases hstep
        exact ⟨hrest, hdepth⟩
      | cons i states =>
        cases hp : p.eliminate i true none with
        | error f =>
          simp only [HybridPlan.step, hp] at hstep
          cases hstep
        | ok q =>
          simp only [HybridPlan.step, hp] at hstep
          cases hstep
          exact ⟨List.forall_mem_cons.2 ⟨trivial, hrest⟩,
            (Problem.depth_eliminate hp).trans_le hdepth⟩
    | finish entry eliminateEntry =>
      simp only [HybridPlan.step] at hstep
      split at hstep
      · cases hstep
        exact ⟨List.forall_mem_cons.2 ⟨trivial, hrest⟩, hdepth⟩
      · cases hstep
        exact ⟨hrest, hdepth⟩

omit [Weight α] in
/-- The whole state space is at level zero. -/
theorem nested_start (plan : HybridPlan) (p : Problem α) : plan.Nested p.depth (plan.start p) where
  fits := by
    refine List.forall_mem_singleton.2 ⟨?_, Nat.zero_le _⟩
    simpa using (StateSet.full plan.graph.size).card_le_size
  depth_le := le_max_left _ _

/-- **Driving the stack of work keeps the nesting**, up to the problem that is handed out. -/
theorem Nested.depth_le_of_drives {s : WorkState α} {m : Monitor} {q : Problem α}
    {out : Except Interruption (Problem α) × Monitor} (h : plan.Nested depth s)
    (hdrives : plan.Drives s m out) (hout : out.1 = .ok q) :
    q.depth ≤ max depth (plan.graph.size - plan.maximalSccSize) := by
  induction hdrives with
  | cancelled => cases hout
  | failed => cases hout
  | ended _ hstep =>
    cases hout
    exact h.step hstep
  | next _ hstep _ ih => exact ih (h.step hstep) hout

/-- **The nesting of a run that returns.** -/
theorem depth_le_of_run {p q : Problem α} {m : Monitor} (h : (outcome (plan.run p) m).1 = .ok q) :
    q.depth ≤ max p.depth (plan.graph.size - plan.maximalSccSize) :=
  (nested_start plan p).depth_le_of_drives (plan.drives_run p m) h

/-! ### Small problems -/

/-- There may be nothing to eliminate. -/
theorem eliminateList_nil (state : HybridState α) : eliminateList state [] = pure state := rfl

/-- A component that is not larger than the bound is eliminated in the order of the ranking, and its
entry states are left for the end. -/
theorem treat_of_card_le {component : StateSet} (h : component.card ≤ plan.maximalSccSize)
    (entry : StateSet) (level : Nat) (p : Problem α) (queue : List Nat) :
    plan.treat component entry false level ⟨p, queue⟩ = (do
      let q ← (p.recordDepth level).eliminateList
        (sortByRanking plan.ranking (component.minus entry))
      pure ⟨q, queue ++ entry.toList⟩) := by
  rw [treat]
  simp only [if_neg h.not_gt, eliminateList, finish, bind_assoc, pure_bind, Bool.false_eq_true,
    if_false]

/-- **A small problem is not decomposed**: the hybrid method eliminates the states that are not
protected one after the other, like the flat method. -/
theorem run_eq_eliminateFlat (h : plan.graph.size ≤ plan.maximalSccSize) (p : Problem α) :
    plan.run p = p.eliminateFlat (sortByRanking plan.ranking
      ((StateSet.full plan.graph.size).minus plan.protectedStates)) := by
  have hcard : (StateSet.full plan.graph.size).card ≤ plan.maximalSccSize :=
    ((StateSet.card_le_size _).trans_eq (StateSet.size_full _)).trans h
  -- The queue only holds protected states, so nothing is left for the end.
  have hqueue : plan.unprotected plan.protectedStates.toList = [] :=
    List.filter_eq_nil_iff.2 fun i hi => by simpa using hi
  rw [run, treat_of_card_le hcard, Problem.recordDepth_zero, Problem.eliminateFlat]
  simp only [bind_assoc, pure_bind, List.nil_append, hqueue, eliminateList_nil, ite_self]

end HybridPlan

namespace Problem

variable {α : Type} [Weight α]

/-- **The bound on the size of components governs the recursion.** For every problem with `n`
states, every graph with as many, all sets of states and every configuration of the hybrid method,
cancelled or not, a run that returns has not noted a nesting deeper than `n - maximalSccSize`. If
the problem has at most `maximalSccSize` states, then the hybrid method is the flat method with the
same order: it eliminates the same states one after the other, and returns the same problem with the
same rows and values, or stops for the same reason, whatever the values are. -/
theorem eliminateAllExcept_hybrid (p : Problem α) (config : EliminationConfig)
    (hmethod : config.method = .hybrid) {g : Graph} (hg : g.size = p.size)
    (initial targets : StateSet) :
    (∀ (m : Monitor) (q : Problem α),
      (outcome (p.eliminateAllExcept config g initial targets) m).1 = .ok q →
        q.depth ≤ max p.depth (p.size - config.maximalSccSize)) ∧
      (p.size ≤ config.maximalSccSize → p.eliminateAllExcept config g initial targets =
        p.eliminateAllExcept { config with method := .state } g initial targets) := by
  have hrun : p.eliminateAllExcept config g initial targets = (do
      Monitored.checkpoint
      Monitored.expect ((StateSet.full g.size).minus initial).card
      HybridPlan.run ⟨g, config.ranking g initial targets, initial, config.maximalSccSize,
        config.entryStatesLast⟩ p) := by
    simp only [eliminateAllExcept, eliminateRanked, hmethod, hg, ne_eq, not_true_eq_false, if_false]
  constructor
  · intro m q hq
    rw [hrun, outcome_bind, Monitored.outcome_checkpoint] at hq
    cases hset : m.isCancelled with
    | true => simp [hset] at hq
    | false =>
      simp only [hset, Bool.false_eq_true, if_false] at hq
      rw [← hg]
      exact HybridPlan.depth_le_of_run hq
  · intro hsmall
    rw [hrun, HybridPlan.run_eq_eliminateFlat (hg.trans_le hsmall)]
    rfl

/-- A way into a loop of three states, which contains a loop of two. -/
def nestedMatrix : Matrix ℚ :=
  .ofRows 4 [[⟨1, 1⟩], [⟨2, 1 / 2⟩, ⟨3, 1 / 2⟩], [⟨1, 1 / 2⟩, ⟨3, 1 / 2⟩],
    [⟨1, 1 / 3⟩, ⟨2, 1 / 3⟩]]

/-- The equations of the nested loops, which can be left from the last state. -/
def nestedProblem : Problem ℚ :=
  ⟨.probabilities, nestedMatrix.dropZeros.rows, nestedMatrix.transpose.connections.rows,
    #[0, 0, 0, 1 / 3], [], 0⟩

/-- The nested loops are decomposed twice, as often as the bound admits; with a bound of four they
are not decomposed. -/
theorem eliminateAllExcept_nestedProblem :
    (∃ q, (outcome (nestedProblem.eliminateAllExcept { method := .hybrid, maximalSccSize := 2 }
        (.ofMatrix nestedMatrix) (.singleton 4 0) (.singleton 4 3)) {}).1 = .ok q ∧
      q.depth = 4 - 2 ∧ q.depth ≤ max nestedProblem.depth (nestedProblem.size - 2)) ∧
    nestedProblem.eliminateAllExcept { method := .hybrid, maximalSccSize := 4 }
        (.ofMatrix nestedMatrix) (.singleton 4 0) (.singleton 4 3) =
      nestedProblem.eliminateAllExcept { method := .state, maximalSccSize := 4 }
        (.ofMatrix nestedMatrix) (.singleton 4 0) (.singleton 4 3) := by
  have hsize : (Graph.ofMatrix nestedMatrix).size = nestedProblem.size := by decide_cbv
  have hdepth : ((outcome (nestedProblem.eliminateAllExcept
      { method := .hybrid, maximalSccSize := 2 } (.ofMatrix nestedMatrix) (.singleton 4 0)
      (.singleton 4 3)) {}).1.toOption.map depth) = some 2 := by
    cbv
  constructor
  · have hbound := (eliminateAllExcept_hybrid nestedProblem
      { method := .hybrid, maximalSccSize := 2 } rfl hsize (.singleton 4 0) (.singleton 4 3)).1 {}
    generalize (outcome (nestedProblem.eliminateAllExcept
      { method := .hybrid, maximalSccSize := 2 } (.ofMatrix nestedMatrix) (.singleton 4 0)
      (.singleton 4 3)) {}).1 = result at hdepth hbound ⊢
    cases result with
    | ok q =>
      exact ⟨q, rfl, by simpa [Except.toOption] using hdepth, hbound q rfl⟩
    | error e => cases hdepth
  · exact (eliminateAllExcept_hybrid nestedProblem { method := .hybrid, maximalSccSize := 4 } rfl
      hsize (.singleton 4 0) (.singleton 4 3)).2 (by decide_cbv)

end Problem

end MarkovElimination
