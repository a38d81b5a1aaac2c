import MarkovElimination.Proofs.Graph.Search

/-! # The layers of a search

A state is **reached in `n` steps** if `n` edges lead to it from an initial state, none of which
leaves a state to stop at or enters a state that is not allowed. Its **layer** is the least such
number. Between two iterations a search has found the states of the layers up to the number of its
iterations, and its frontier is the last of these layers (`Layered`). So the last iteration, which
finds nothing, comes right behind the deepest layer, and a limit is large enough exactly if it
allows this iteration as well. -/

namespace MarkovElimination.Search

/-! ### Steps and layers -/

/-- **A state is reached in `n` steps** from the initial states: every state behind the first one
lies within the allowed states, and no state before the last one is to be stopped at. -/
inductive Reaches (edge : ℕ → ℕ → Prop) (initial within stopAt : StateSet) :
    ℕ → ℕ → Prop
  | start {i : ℕ} (h : initial.contains i = true) : Reaches edge initial within stopAt 0 i
  | step {n a b : ℕ} (h : Reaches edge initial within stopAt n a) (hedge : edge a b)
      (hwithin : within.contains b = true) (hstop : stopAt.contains a = false) :
      Reaches edge initial within stopAt (n + 1) b

/-- **The layer of a state**: the number of steps of a shortest path to it. -/
def Layer (edge : ℕ → ℕ → Prop) (initial within stopAt : StateSet) (n t : ℕ) : Prop :=
  IsLeast {m | Reaches edge initial within stopAt m t} n

/-- **What a search answers** from one of its states on. It finds exactly the states that are
reached in some number of steps, provided that its limit is above the deepest layer. The depth is
zero if there are no states but the initial ones. -/
structure Answers (s : Search) (edge : ℕ → ℕ → Prop) (initial : StateSet)
    (state : SearchState) (found : StateSet) (depth : ℕ) : Prop where
  size : found.size = initial.size
  contains_iff : ∀ t, found.contains t = true ↔
    ∃ n, Reaches edge initial s.within s.stopAt n t
  le_depth : ∀ n t, Layer edge initial s.within s.stopAt n t → n ≤ depth
  depth_attained : depth = 0 ∨ ∃ t, Layer edge initial s.within s.stopAt depth t
  run_limited : ∀ limit, ({ s with limit := some limit }.run state).2 =
    if depth + 1 ≤ limit then some found else none
  run_unlimited : ({ s with limit := none }.run state).2 = some found

variable {s : Search} {initial : StateSet} {state : SearchState} {n t : ℕ}

/-- The states that a search can reach in `n` steps. -/
abbrev ReachedIn (s : Search) (initial : StateSet) : ℕ → ℕ → Prop :=
  Reaches (fun a b => b ∈ s.graph.next a) initial s.within s.stopAt

/-- The states in the `n`-th layer of a search. -/
abbrev InLayer (s : Search) (initial : StateSet) : ℕ → ℕ → Prop :=
  Layer (fun a b => b ∈ s.graph.next a) initial s.within s.stopAt

theorem ReachedIn.tail {a : ℕ} (h : s.ReachedIn initial n a) (hpass : s.Passes a t) :
    s.ReachedIn initial (n + 1) t :=
  .step h hpass.1 hpass.2.1 hpass.2.2

theorem reachedIn_zero : s.ReachedIn initial 0 t ↔ initial.contains t = true := by
  constructor
  · rintro ⟨h⟩
    exact h
  · exact .start

/-- The state before the last one on a shortest path is in the layer before. -/
theorem InLayer.exists_passes (h : s.InLayer initial (n + 1) t) :
    ∃ a, s.InLayer initial n a ∧ s.Passes a t := by
  obtain ⟨hreach, hleast⟩ := h
  cases hreach with
  | @step _ a _ ha hedge hwithin hstop =>
    refine ⟨a, ⟨ha, fun m hm => ?_⟩, hedge, hwithin, hstop⟩
    exact Nat.le_of_succ_le_succ (hleast (ReachedIn.tail hm ⟨hedge, hwithin, hstop⟩))

/-- A state that is reached in one step more than some number, but not in fewer, is in that
layer. -/
theorem inLayer_succ (hreach : s.ReachedIn initial (n + 1) t)
    (hnot : ¬∃ m ≤ n, s.ReachedIn initial m t) : s.InLayer initial (n + 1) t := by
  refine ⟨hreach, fun m hm => ?_⟩
  by_contra hlt
  exact hnot ⟨m, by omega, hm⟩

/-! ### One iteration -/

/-- What holds between two iterations: the layers so far are found, and the frontier is the last of
them. -/
structure Layered (s : Search) (initial : StateSet) (state : SearchState) : Prop where
  size : state.set.size = initial.size
  contains_set : ∀ t, state.set.contains t = true ↔
    ∃ n ≤ state.iteration, s.ReachedIn initial n t
  contains_frontier : ∀ t, state.frontier.contains t = true ↔
    s.InLayer initial state.iteration t

theorem layered_start (s : Search) (initial : StateSet) : s.Layered initial (start initial) where
  size := rfl
  contains_set t := by
    constructor
    · exact fun h => ⟨0, le_rfl, .start h⟩
    · rintro ⟨n, hn, hreach⟩
      obtain rfl : n = 0 := Nat.le_zero.1 hn
      exact reachedIn_zero.1 hreach
  contains_frontier t := by
    constructor
    · exact fun h => ⟨reachedIn_zero.2 h, fun _ _ => Nat.zero_le _⟩
    · exact fun h => reachedIn_zero.1 h.1

/-- **The next iteration finds the next layer.** -/
theorem Layered.contains_expand (h : s.Layered initial state)
    (hsize : s.within.size ≤ initial.size) : (s.expand state).contains t = true ↔
      s.InLayer initial (state.iteration + 1) t := by
  rw [Search.contains_expand, ← Bool.not_eq_true, h.contains_set]
  constructor
  · rintro ⟨-, hnot, j, hj, hpass⟩
    exact inLayer_succ (ReachedIn.tail ((h.contains_frontier j).1 hj).1 hpass) hnot
  · intro hlayer
    obtain ⟨a, ha, hpass⟩ := InLayer.exists_passes hlayer
    refine ⟨?_, ?_, a, (h.contains_frontier a).2 ha, hpass⟩
    · have hlt := StateSet.lt_size_of_contains hpass.2.1
      have hset := h.size
      omega
    · rintro ⟨m, hm, hreach⟩
      have hle := hlayer.2 hreach
      omega

/-- An iteration goes one layer further. -/
theorem Layered.advance (h : s.Layered initial state) (hsize : s.within.size ≤ initial.size) :
    s.Layered initial (s.advance state) where
  size := by rw [Search.advance, StateSet.size_union, h.size]
  contains_set t := by
    rw [Search.advance, StateSet.contains_union_of_size (by simp [expand]), Bool.or_eq_true,
      h.contains_set, h.contains_expand hsize]
    constructor
    · rintro (⟨n, hn, hreach⟩ | hlayer)
      · exact ⟨n, Nat.le_succ_of_le hn, hreach⟩
      · exact ⟨_, le_rfl, hlayer.1⟩
    · rintro ⟨n, hn, hreach⟩
      by_cases hold : ∃ m ≤ state.iteration, s.ReachedIn initial m t
      · exact .inl hold
      · obtain rfl : n = state.iteration + 1 := by
          by_contra hne
          exact hold ⟨n, Nat.le_of_lt_succ (lt_of_le_of_ne hn hne), hreach⟩
        exact .inr (inLayer_succ hreach hold)
  contains_frontier t := h.contains_expand hsize

/-- Where an iteration finds nothing, all states that are reached are found. -/
theorem Layered.complete (h : s.Layered initial state) (hsize : s.within.size ≤ initial.size)
    (hempty : (s.expand state).isEmpty = true) (hreach : s.ReachedIn initial n t) :
    state.set.contains t = true := by
  -- A step to a state that is not found would go from the last layer to the next one.
  induction hreach with
  | start hi => exact (h.contains_set _).2 ⟨0, Nat.zero_le _, .start hi⟩
  | @step n a b _ hedge hwithin hstop ih =>
    obtain ⟨m, hm, hma⟩ := (h.contains_set a).1 ih
    have hstep : s.ReachedIn initial (m + 1) b := .step hma hedge hwithin hstop
    rw [h.contains_set]
    rcases hm.lt_or_eq with hlt | rfl
    · exact ⟨m + 1, hlt, hstep⟩
    · by_contra hnot
      have hnew := (h.contains_expand hsize).2 (inLayer_succ hstep hnot)
      rw [StateSet.isEmpty_iff.1 hempty b] at hnew
      cases hnew

/-! ### All iterations -/

/-- A search that finds nothing more has come to its deepest layer. -/
theorem Layered.le_iteration (h : s.Layered initial state) (hsize : s.within.size ≤ initial.size)
    (hempty : (s.expand state).isEmpty = true) (hlayer : s.InLayer initial n t) :
    n ≤ state.iteration := by
  obtain ⟨m, hm, hreach⟩ := (h.contains_set t).1 (h.complete hsize hempty hlayer.1)
  exact (hlayer.2 hreach).trans hm

/-- A limit that is reached ends the search. -/
theorem run_of_limit_le {limit : ℕ} (h : limit ≤ state.iteration) :
    ({ s with limit := some limit }.run state).2 = none := by
  rw [Search.run, if_pos (by simpa [limitReached] using h)]

/-- The search ends where it finds nothing. -/
theorem run_of_isEmpty {limit : Option ℕ} (h : ∀ m ∈ limit, state.iteration < m)
    (hempty : (s.expand state).isEmpty = true) :
    ({ s with limit := limit }.run state).2 = some state.set := by
  have hexpand : ({ s with limit := limit }.expand state).isEmpty = true := hempty
  rw [Search.run, if_neg (by simpa [limitReached, Option.any_eq_true] using h), dif_pos hexpand]

/-- The search goes on where it finds something. -/
theorem run_of_not_isEmpty {limit : Option ℕ} (h : ∀ m ∈ limit, state.iteration < m)
    (hempty : ¬(s.expand state).isEmpty = true) :
    ({ s with limit := limit }.run state).2 =
      ({ s with limit := limit }.run (s.advance state)).2 := by
  have hexpand : ¬({ s with limit := limit }.expand state).isEmpty = true := hempty
  rw [Search.run, if_neg (by simpa [limitReached, Option.any_eq_true] using h), dif_neg hexpand]
  rfl

/-- **A run** from between two iterations finds what is reached, and needs one iteration more than
there are layers. -/
theorem Layered.exists_answers (h : s.Layered initial state)
    (hsize : s.within.size ≤ initial.size)
    (hlast : state.iteration = 0 ∨ ∃ t, s.InLayer initial state.iteration t) :
    ∃ found depth, state.iteration ≤ depth ∧
      s.Answers (fun a b => b ∈ s.graph.next a) initial state found depth := by
  -- The iterations do not depend on the limit, so the induction is along the search without one.
  induction state using Search.run.induct { s with limit := none } with
  | case1 state hreached => simp [limitReached] at hreached
  | case2 state _ hempty =>
    refine ⟨state.set, state.iteration, le_rfl, h.size, fun t => ⟨fun ht => ?_, ?_⟩,
      fun n t => h.le_iteration hsize hempty, hlast, fun limit => ?_,
      run_of_isEmpty (by simp) hempty⟩
    · obtain ⟨n, -, hn⟩ := (h.contains_set t).1 ht
      exact ⟨n, hn⟩
    · rintro ⟨n, hn⟩
      exact h.complete hsize hempty hn
    · rcases Nat.lt_or_ge state.iteration limit with hlt | hge
      · rw [run_of_isEmpty (by simpa using hlt) hempty, if_pos (by omega)]
      · rw [run_of_limit_le hge, if_neg (by omega)]
  | case3 state _ hempty next ih =>
    obtain ⟨t, ht⟩ := StateSet.isEmpty_eq_false_iff.1 (Bool.eq_false_iff.2 hempty)
    have hnext : s.InLayer initial (state.iteration + 1) t := (h.contains_expand hsize).1 ht
    obtain ⟨found, depth, hle, hanswers⟩ := ih (h.advance hsize) (.inr ⟨t, hnext⟩)
    have hlt : state.iteration < depth := hle
    refine ⟨found, depth, hlt.le,
      { hanswers with run_limited := fun limit => ?_, run_unlimited := ?_ }⟩
    · rcases Nat.lt_or_ge state.iteration limit with hlimit | hge
      · rw [run_of_not_isEmpty (by simpa using hlimit) hempty]
        exact hanswers.run_limited limit
      · rw [run_of_limit_le hge, if_neg (by omega)]
    · rw [run_of_not_isEmpty (by simp) hempty]
      exact hanswers.run_unlimited

/-- **Searching is exact.** A search finds the states that are reached from the initial states
within the allowed ones, without going on from a state to stop at, provided that its limit is above
the deepest layer; otherwise it gives up. A search in the reversed graph does the same against the
edges. -/
theorem run_exact (g : Graph) {initial within : StateSet} (stopAt : StateSet)
    (hsize : within.size ≤ initial.size) :
    (∃ found depth, Answers ⟨g, within, stopAt, none⟩ (fun a b => b ∈ g.next a) initial
      (start initial) found depth) ∧
    ∃ found depth, Answers ⟨g.reversed, within, stopAt, none⟩
    (fun a b => a ∈ g.next b) initial (start initial) found depth := by
  have hforward := (layered_start ⟨g, within, stopAt, none⟩ initial).exists_answers hsize
    (.inl rfl)
  have hbackward :=
    (layered_start ⟨g.reversed, within, stopAt, none⟩ initial).exists_answers hsize (.inl rfl)
  have hedge : (fun a b => b ∈ g.reversed.next a) = fun a b => a ∈ g.next b := by
    funext a b
    exact propext (g.agree b a).symm
  obtain ⟨found, depth, -, hanswers⟩ := hforward
  obtain ⟨found', depth', -, hanswers'⟩ := hbackward
  exact ⟨⟨found, depth, hanswers⟩, found', depth', hedge ▸ hanswers'⟩

/-- The states `0 → 1 → 2 → 3`. -/
def line : Graph := .ofEdges 4 [(0, 1), (1, 2), (2, 3)]

/-- From the start of the line a search that stops at `2` has two layers behind the first one, and
needs a limit of three. -/
theorem run_exact_line : (StateSet.full 4).size ≤ (StateSet.singleton 4 0).size ∧
    ∃ found, Answers ⟨line, .full 4, .singleton 4 2, none⟩ (fun a b => b ∈ line.next a)
      (.singleton 4 0) (start (.singleton 4 0)) found 2 ∧ found.toList = [0, 1, 2] := by
  have hsize : (StateSet.full 4).size ≤ (StateSet.singleton 4 0).size := by decide
  obtain ⟨found, depth, hanswers⟩ := (run_exact line (.singleton 4 2) hsize).1
  have hthree := hanswers.run_limited 3
  have htwo := hanswers.run_limited 2
  have hrun₃ : ((Search.mk line (.full 4) (.singleton 4 2) (some 3)).run
      (start (.singleton 4 0))).2 = some (.ofList 4 [0, 1, 2]) := by cbv
  have hrun₂ : ((Search.mk line (.full 4) (.singleton 4 2) (some 2)).run
      (start (.singleton 4 0))).2 = none := by cbv
  rw [hrun₃] at hthree
  rw [hrun₂] at htwo
  split at hthree
  case isTrue hle =>
    split at htwo
    case isTrue => cases htwo
    case isFalse hgt =>
      obtain rfl : depth = 2 := by omega
      obtain rfl := Option.some.inj hthree
      exact ⟨hsize, _, hanswers, by decide⟩
  case isFalse => cases hthree

end MarkovElimination.Search
