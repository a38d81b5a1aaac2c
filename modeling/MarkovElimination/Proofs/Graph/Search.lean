import MarkovElimination.Graph.Search
import MarkovElimination.Proofs.StateSet

/-! # Correctness of breadth-first search

A search **passes** an edge if its source is not a state to stop at and its target lies within the
allowed states. A search without a limit ends with exactly the states that passed edges connect with
the initial ones (`Search.contains_closure`). From this follow the readings of the three analyses
that use it: which states can reach a goal, which are reached from the initial states, and which
have probability zero or one. -/

namespace MarkovElimination

namespace Search

/-- The search goes from `a` to `b`. -/
def Passes (s : Search) (a b : Nat) : Prop :=
  b ∈ s.graph.next a ∧ s.within.contains b = true ∧ s.stopAt.contains a = false

/-- What holds of a search that has not ended: everything found is connected with an initial state,
and only the frontier may have unseen neighbours. -/
structure Invariant (s : Search) (initial : StateSet) (state : SearchState) : Prop where
  size : state.set.size = initial.size
  sound : ∀ t, state.set.contains t = true →
    ∃ i, initial.contains i = true ∧ Relation.ReflTransGen s.Passes i t
  initial_sub : ∀ t, initial.contains t = true → state.set.contains t = true
  frontier_sub : ∀ t, state.frontier.contains t = true → state.set.contains t = true
  expanded : ∀ a b, state.set.contains a = true → state.frontier.contains a = false →
    s.Passes a b → state.set.contains b = true

variable {s : Search} {initial : StateSet}

/-- A search starts with the initial states as its frontier. -/
theorem invariant_start (s : Search) (initial : StateSet) :
    s.Invariant initial (start initial) where
  size := rfl
  sound t ht := ⟨t, ht, .refl⟩
  initial_sub _ h := h
  frontier_sub _ h := h
  expanded a b ha hf _ := by
    rw [start] at ha hf
    rw [ha] at hf
    exact absurd hf (by simp)

/-- A newly found state is passed to from the frontier, and was not found before. -/
theorem contains_expand {state : SearchState} {i : Nat} :
    (s.expand state).contains i = true ↔ i < state.set.size ∧ state.set.contains i = false ∧
      ∃ j, state.frontier.contains j = true ∧ s.Passes j i := by
  rw [expand, StateSet.contains_ofPredicate]
  simp only [Bool.and_eq_true, decide_eq_true_eq, Bool.not_eq_true', List.any_eq_true, Passes]
  constructor
  · rintro ⟨hlt, ⟨hw, hset⟩, j, hj, hf, hstop⟩
    exact ⟨hlt, hset, j, hf, (s.graph.agree j i).2 hj, hw, hstop⟩
  · rintro ⟨hlt, hset, j, hf, hj, hw, hstop⟩
    exact ⟨hlt, ⟨hw, hset⟩, j, (s.graph.agree j i).1 hj, hf, hstop⟩

/-- The search stays in the state space. -/
theorem Invariant.lt_size {state : SearchState} (h : s.Invariant initial state)
    (hsize : s.within.size ≤ initial.size) {a b : Nat} (hab : s.Passes a b) :
    b < state.set.size := by
  have hwithin := StateSet.lt_size_of_contains hab.2.1
  have hset := h.size
  omega

/-- An iteration keeps the invariant. -/
theorem Invariant.advance {state : SearchState} (h : s.Invariant initial state)
    (hsize : s.within.size ≤ initial.size) : s.Invariant initial (s.advance state) := by
  have hset (t : Nat) : (s.advance state).set.contains t = true ↔
      state.set.contains t = true ∨ (s.expand state).contains t = true := by
    rw [Search.advance, StateSet.contains_union_of_size (by simp [expand])]
    simp
  refine ⟨?_, ?_, ?_, ?_, ?_⟩
  · rw [Search.advance, StateSet.size_union, h.size]
  · intro t ht
    rcases (hset t).1 ht with ht | ht
    · exact h.sound t ht
    · obtain ⟨-, -, j, hj, hjt⟩ := contains_expand.1 ht
      obtain ⟨i, hi, hpath⟩ := h.sound j (h.frontier_sub j hj)
      exact ⟨i, hi, hpath.tail hjt⟩
  · intro t ht
    exact (hset t).2 (.inl (h.initial_sub t ht))
  · intro t ht
    exact (hset t).2 (.inr ht)
  · intro a b ha hf hab
    -- A state outside of the new frontier was found before the iteration.
    have hold : state.set.contains a = true := by
      rcases (hset a).1 ha with ha | ha
      · exact ha
      · rw [show (s.advance state).frontier = s.expand state from rfl, ha] at hf
        exact absurd hf (by simp)
    rw [hset]
    by_cases hb : state.set.contains b = true
    · exact .inl hb
    · cases hfa : state.frontier.contains a with
      | false => exact absurd (h.expanded a b hold hfa hab) hb
      | true =>
        exact .inr (contains_expand.2 ⟨h.lt_size hsize hab, by simpa using hb, a, hfa, hab⟩)

/-- Where an iteration finds nothing, everything connected with an initial state is found. -/
theorem Invariant.complete {state : SearchState} (h : s.Invariant initial state)
    (hsize : s.within.size ≤ initial.size) (hempty : (s.expand state).isEmpty = true) {i t : Nat}
    (hi : initial.contains i = true) (hpath : Relation.ReflTransGen s.Passes i t) :
    state.set.contains t = true := by
  -- Along the path: the first edge that leaves the set would be one that the frontier expands.
  induction hpath with
  | refl => exact h.initial_sub i hi
  | @tail b c _ hbc ih =>
    by_contra hc
    cases hfb : state.frontier.contains b with
    | false => exact hc (h.expanded b c ih hfb hbc)
    | true =>
      have hnew := contains_expand.2 ⟨h.lt_size hsize hbc, by simpa using hc, b, hfb, hbc⟩
      rw [StateSet.isEmpty_iff.1 hempty c] at hnew
      exact absurd hnew (by simp)

/-- A run without a limit ends with the states connected with the initial ones. -/
theorem run_spec (hlimit : s.limit = none) (hsize : s.within.size ≤ initial.size)
    (state : SearchState) (h : s.Invariant initial state) :
    ∃ found, (s.run state).2 = some found ∧ found.size = initial.size ∧
      ∀ t, found.contains t = true ↔
        ∃ i, initial.contains i = true ∧ Relation.ReflTransGen s.Passes i t := by
  induction state using Search.run.induct (s := s) with
  | case1 state hreached => simp [limitReached, hlimit] at hreached
  | case2 state hreached hempty =>
    refine ⟨state.set, ?_, h.size, fun t => ⟨h.sound t, ?_⟩⟩
    · rw [run, if_neg hreached, dif_pos hempty]
    · rintro ⟨i, hi, hpath⟩
      exact h.complete hsize hempty hi hpath
  | case3 state hreached hempty next ih =>
    obtain ⟨found, hrun, hspec⟩ := ih (h.advance hsize)
    refine ⟨found, ?_, hspec⟩
    rw [run, if_neg hreached, dif_neg hempty]
    exact hrun

/-- **The result of a search**: the states that passed edges connect with the initial ones. -/
theorem contains_closure (hlimit : s.limit = none) (hsize : s.within.size ≤ initial.size)
    {t : Nat} : (s.closure initial).contains t = true ↔
      ∃ i, initial.contains i = true ∧ Relation.ReflTransGen s.Passes i t := by
  obtain ⟨found, hrun, -, hspec⟩ := run_spec hlimit hsize _ (invariant_start s initial)
  rw [closure, hrun, Option.getD_some]
  exact hspec t

/-- A search stays in the state space of its initial states. -/
theorem size_closure (hlimit : s.limit = none) (hsize : s.within.size ≤ initial.size) :
    (s.closure initial).size = initial.size := by
  obtain ⟨found, hrun, hfound, -⟩ := run_spec hlimit hsize _ (invariant_start s initial)
  rw [closure, hrun, Option.getD_some, hfound]

end Search

namespace Graph

variable {g : Graph}

/-- The states from which a path through `within` leads to the goal. -/
theorem contains_canReach {within goal : StateSet} (hsize : within.size ≤ goal.size) {t : Nat} :
    (g.canReach within goal).contains t = true ↔ ∃ u, goal.contains u = true ∧
      Relation.ReflTransGen (fun a b => within.contains a = true ∧ b ∈ g.next a) t u := by
  rw [canReach, Search.contains_closure (s := Search.among g.reversed within) rfl hsize]
  have hswap (u : Nat) :
      Relation.ReflTransGen (Search.among g.reversed within).Passes u t ↔
        Relation.ReflTransGen (fun a b => within.contains a = true ∧ b ∈ g.next a) t u := by
    rw [← Relation.reflTransGen_swap]
    -- An edge of the reversed graph is an edge read backward.
    have hedge : Function.swap (Search.among g.reversed within).Passes =
        fun a b => within.contains a = true ∧ b ∈ g.next a := by
      funext a b
      have hagree : a ∈ g.reversed.next b ↔ b ∈ g.next a := (g.agree a b).symm
      simp [Function.swap, Search.Passes, Search.among, hagree, and_comm]
    rw [hedge]
  simp only [hswap]

/-- Backward search stays in the state space of the goal. -/
theorem size_canReach {within goal : StateSet} (hsize : within.size ≤ goal.size) :
    (g.canReach within goal).size = goal.size :=
  Search.size_closure (s := Search.among g.reversed within) rfl hsize

/-- The positive states are in the state space of the goal. -/
theorem size_probPositive {within goal : StateSet} (h : within.size = goal.size) :
    (g.probPositive within goal).size = goal.size :=
  size_canReach h.le

/-- The states reached from the initial ones through the constraint and the target, where no state
of the target is left. -/
theorem contains_reachable {initial constraint target : StateSet}
    (hconstraint : constraint.size = initial.size) (htarget : target.size = initial.size)
    {t : Nat} : (g.reachable initial constraint target).contains t = true ↔
      ∃ i, initial.contains i = true ∧ Relation.ReflTransGen (fun a b => b ∈ g.next a ∧
        (constraint.contains b = true ∨ target.contains b = true) ∧
          target.contains a = false) i t := by
  have hsize : (constraint.union target).size ≤ initial.size := by
    rw [StateSet.size_union, hconstraint]
  rw [reachable, Search.contains_closure rfl hsize]
  have hedge : Search.Passes ⟨g, constraint.union target, target, none⟩ = fun a b =>
      b ∈ g.next a ∧
      (constraint.contains b = true ∨ target.contains b = true) ∧
        target.contains a = false := by
    funext a b
    simp [Search.Passes, StateSet.contains_union_of_size (hconstraint.trans htarget.symm)]
  rw [hedge]

/-- Forward search stays in the state space of the initial states. -/
theorem size_reachable {initial constraint target : StateSet}
    (hconstraint : constraint.size = initial.size) :
    (g.reachable initial constraint target).size = initial.size := by
  refine Search.size_closure rfl ?_
  rw [StateSet.size_union, hconstraint]

/-- The states of probability one are in the state space of the goal. -/
theorem size_probOne {goal positive : StateSet} (h : goal.size = positive.size) :
    (g.probOne goal positive).size = goal.size := by
  rw [probOne, StateSet.size_complement, size_canReach, StateSet.size_complement, h]
  rw [StateSet.size_complement, StateSet.size_complement, h]

/-- A state has probability one unless a path outside of the goal leads to a state that is not
positive. -/
theorem contains_probOne {goal positive : StateSet} (h : goal.size = positive.size) {t : Nat} :
    (g.probOne goal positive).contains t = true ↔ t < goal.size ∧
      ¬∃ u, (u < goal.size ∧ positive.contains u = false) ∧ Relation.ReflTransGen
        (fun a b => (a < goal.size ∧ goal.contains a = false) ∧ b ∈ g.next a) t u := by
  have hsize : goal.complement.size ≤ positive.complement.size := by
    rw [StateSet.size_complement, StateSet.size_complement, h]
  rw [probOne, StateSet.contains_complement, size_canReach hsize, StateSet.size_complement,
    Bool.and_eq_true, Bool.not_eq_true', ← Bool.not_eq_true, contains_canReach hsize, ← h]
  simp only [StateSet.contains_complement, Bool.and_eq_true, decide_eq_true_eq, Bool.not_eq_true',
    ← h]

end Graph

end MarkovElimination
