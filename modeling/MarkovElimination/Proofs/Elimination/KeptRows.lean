import MarkovElimination.Proofs.Elimination.Substitution

/-! # Eliminations that keep their row

An elimination can keep the row of its state, and a constraint can exclude some predecessors. The
equation of the state is then solved for the state and stays in the system, and the predecessors
that are not excluded get it inserted. In a problem of probabilities neither changes a **solution**
of the system: a vector solves all equations afterwards exactly if it did before, at the state
itself and at the excluded predecessors as well (`eliminate_keeps_solutions`). -/

namespace MarkovElimination.Problem

variable {α K : Type} [Weight α] [Field K] (I : Interpretation α K)

/-- **The solutions** of a problem: the vectors that satisfy the equations of all states. -/
def solutions (p : Problem α) : Set (Nat → K) := {x | ∀ i, i < p.size → p.Satisfies I x i}

/-- **A state is detached** from the predecessors that a constraint allows, and keeps its row. -/
structure Detached (p : Problem α) (s : Nat) (constraint : Option StateSet) (q : Problem α) :
    Prop where
  size_eq : q.size = p.size
  consistent : q.Consistent
  /-- The system has the solutions that it had. -/
  solutions_eq : q.solutions I = p.solutions I
  /-- The row that is kept has no self-loop. -/
  no_loop : s ∉ (q.row s).columns
  /-- Predecessors that the constraint allows have no entry for the state. -/
  unlinked : ∀ i, Allows constraint i → s ∉ (q.row i).columns
  /-- Excluded predecessors, and states that are no predecessors, keep their equations. -/
  untouched : ∀ i, i ≠ s → i ∉ p.predecessors s ∨ ¬Allows constraint i →
    q.row i = p.row i ∧ q.value i = p.value i

variable {I} {p q : Problem α} {s : Nat} {constraint : Option StateSet}

/-- The row that is kept is the equation of the state, solved for the state. -/
theorem Eliminated.satisfies_self_iff (he : p.Eliminated I s false constraint q)
    (hp : p.Consistent) (hmode : p.mode = .probabilities) (hs : s < p.size) {y : Nat → K} :
    q.Satisfies I y s ↔ y s = p.solvedFor I s y := by
  have hvalue := he.value_self
  rw [hmode] at hvalue
  rw [he.consistent.satisfies_iff, hp.solvedFor_eq hs, he.dot_self rfl, hvalue, add_comm]

/-- **No solution is lost or gained.** A solution of either system satisfies the equation of the
state, so it has the solved value there, and then all other equations say the same. -/
theorem Eliminated.solutions_eq (he : p.Eliminated I s false constraint q) (hp : p.Consistent)
    (hmode : p.mode = .probabilities) (hs : s < p.size) (hloop : p.loop I s ≠ 1) :
    q.solutions I = p.solutions I := by
  ext y
  have hself : q.Satisfies I y s ↔ p.Satisfies I y s := by
    rw [he.satisfies_self_iff hp hmode hs, hp.satisfies_self_iff hs hloop]
  have hiff (hsolved : p.Satisfies I y s) (i : Nat) : q.Satisfies I y i ↔ p.Satisfies I y i := by
    by_cases his : i = s
    · rw [his]
      exact hself
    · exact he.satisfies_iff hp hs ((hp.satisfies_self_iff hs hloop).1 hsolved) his
  constructor
  · intro hy i hi
    rw [← he.size_eq] at hi hs
    exact (hiff (hself.1 (hy s hs)) i).1 (hy i hi)
  · intro hy i hi
    rw [he.size_eq] at hi
    exact (hiff (hy s hs) i).2 (hy i hi)

/-- No row that the constraint allows to be changed has an entry for the state. -/
theorem Eliminated.unlinked (he : p.Eliminated I s false constraint q) {i : Nat}
    (hallow : Allows constraint i) : s ∉ (q.row i).columns := by
  intro hmem
  by_cases his : i = s
  · rw [his] at hmem
    exact ((he.columns_self s).1 hmem).2.2 rfl
  · exact ((he.columns i his hallow s).1 hmem).1 rfl

/-- **An elimination that keeps its row detaches the state**, unless it leaves the range of
weights. -/
theorem eliminate_meets_detached (hI : I.Exact) (hp : p.Consistent) (hv : p.Valid I)
    (hmode : p.mode = .probabilities) (hs : s < p.size)
    (hloop : ∀ a, (p.row s).get? s = some a → Weight.isOne a = false)
    (hcovers : p.Covers s constraint) :
    Meets I.RangeFault (p.Detached I s constraint) (p.eliminate s false constraint) := by
  have hne := loop_ne_one hI hv hloop
  refine (eliminate_meets_plan hp hv hs hne false hcovers).mono ?_
  rintro q ⟨r, hr, rfl⟩
  have he := hr.eliminated hp hv
  exact {
    size_eq := he.size_eq
    consistent := he.consistent
    solutions_eq := he.solutions_eq hp hmode hs hne
    no_loop := fun hmem => ((he.columns_self s).1 hmem).2.2 rfl
    unlinked := fun i => he.unlinked
    untouched := by
      intro i his h
      rcases h with hi | hallow
      · exact hr.kept hp hv his hi
      · exact ⟨he.row_kept i his hallow, he.value_kept i his hallow⟩ }

/-- **Constrained eliminations that keep their row preserve every value** of a problem of
probabilities, for rational numbers and for rational functions, with arbitrary entries and whatever
predecessors the constraint excludes. With rational functions an exponent can leave its range; if
that does not happen, the elimination succeeds. -/
theorem eliminate_keeps_solutions :
    (∀ (p : Problem ℚ) (s : Nat) (constraint : Option StateSet), p.Consistent →
      p.mode = .probabilities → s < p.size → (∀ a, (p.row s).get? s = some a → a ≠ 1) →
      p.Covers s constraint →
      ∃ q, p.eliminate s false constraint = .ok q ∧ p.Detached .rat s constraint q) ∧
    (∀ (p : Problem RationalFunction) (s : Nat) (constraint : Option StateSet), p.Consistent →
      (∀ i, ∀ e ∈ p.row i, e.value.WellFormed) → (∀ i, (p.value i).WellFormed) →
      p.mode = .probabilities → s < p.size →
      (∀ a, (p.row s).get? s = some a → a.isOne = false) → p.Covers s constraint →
      p.eliminate s false constraint ≠ .error .degreeOverflow →
      ∃ q, p.eliminate s false constraint = .ok q ∧ p.Detached .field s constraint q) := by
  constructor
  · intro p s constraint hp hmode hs hloop hcovers
    have hmeets := eliminate_meets_detached Interpretation.exact_rat hp p.valid_rat hmode hs
      (fun a ha => decide_eq_false (hloop a ha)) hcovers
    exact hmeets.exists_ok fun f hf => hf.1
  · intro p s constraint hp hrows hvalues hmode hs hloop hcovers hrange
    have hmeets := eliminate_meets_detached Interpretation.exact_field hp
      (valid_field hrows hvalues) hmode hs hloop hcovers
    exact hmeets.exists_ok_of_ne (fun f hf => hf.2) hrange

/-- Both of the states `0` and `1` lead to state `2`, which has a self-loop. -/
def forkMatrix : Matrix ℚ :=
  .ofRows 4 [[⟨2, 1 / 2⟩, ⟨3, 1 / 2⟩], [⟨2, 3 / 5⟩, ⟨3, 2 / 5⟩],
    [⟨2, 1 / 2⟩, ⟨3, 1 / 4⟩], [⟨3, 1 / 2⟩]]

/-- Every problem of the fork is consistent, and its state `2` has a self-loop. -/
theorem fork_shape {mode : ValueMode} {values : List ℚ} {p : Problem ℚ}
    (hp : ofMatrix mode forkMatrix values = .ok p) :
    p.Consistent ∧ p.size = 4 ∧ (p.row 2).get? 2 = some (1 / 2) := by
  refine ⟨consistent_ofMatrix (by decide) hp, size_ofMatrix hp, ?_⟩
  rw [row_ofMatrix hp]
  cbv

/-- State `2` of the fork is detached from one of its predecessors and keeps the other; a state with
a parameter as self-loop is detached from all of them. -/
theorem eliminate_keeps_solutions_fork :
    (∃ p q, ofMatrix .probabilities forkMatrix [0, 0, 1 / 4, 1 / 5] = .ok p ∧
      1 ∈ p.predecessors 2 ∧ p.eliminate 2 false (some (.singleton 4 0)) = .ok q ∧
      p.Detached .rat 2 (some (.singleton 4 0)) q) ∧
    ∃ p q, ofMatrix .probabilities spinMatrix [.ofParameter "y", 1] = .ok p ∧
      p.eliminate 0 false none = .ok q ∧ p.Detached .field 0 none q := by
  constructor
  · obtain ⟨p, hp⟩ := exists_eq_ok_of_isOk
      (x := ofMatrix .probabilities forkMatrix [0, 0, 1 / 4, 1 / 5]) (by cbv)
    obtain ⟨hconsistent, hsize, hloop⟩ := fork_shape hp
    have hpred : 1 ∈ p.predecessors 2 := by
      rw [hconsistent.agree, row_ofMatrix hp]
      decide_cbv
    obtain ⟨q, hq⟩ := eliminate_keeps_solutions.1 p 2 (some (.singleton 4 0)) hconsistent
      (mode_ofMatrix hp) (by omega) (by rw [hloop]; simp) (hconsistent.covers (by simp [hsize]))
    exact ⟨p, q, hp, hpred, hq⟩
  · have hok : (ofMatrix .probabilities spinMatrix [.ofParameter "y", 1] >>= fun p =>
        p.eliminate 0 false none).isOk = true := by
      cbv
    obtain ⟨p, hp⟩ := exists_eq_ok_of_isOk
      (x := ofMatrix .probabilities spinMatrix [.ofParameter "y", 1]) (by cbv)
    rw [hp] at hok
    have hvalues : ∀ a ∈ [RationalFunction.ofParameter "y", 1], a.WellFormed := by decide
    obtain ⟨hpending, -⟩ := pending_ofMatrix (I := .field) (by decide)
      (fun s e he => (wellFormed_spinMatrix s e he).valid_field)
      (fun a ha => (hvalues a ha).valid_field) hp
    have hrange : p.eliminate 0 false none ≠ .error .degreeOverflow := ne_error_of_isOk hok _
    obtain ⟨q, hq⟩ := eliminate_keeps_solutions.2 p 0 none hpending.consistent
      (fun i e he => (hpending.valid.rows i e he).wellFormed)
      (fun i => (hpending.valid.values i).wellFormed) (mode_ofMatrix hp)
      (by rw [size_ofMatrix hp]; decide) (by rw [row_ofMatrix hp]; decide) (covers_none p 0) hrange
    exact ⟨p, q, hp, hq⟩

/-- With the greatest exponent that can be represented, state `1` has no self-loop and cannot be
eliminated: the product of the two entries leaves the range. -/
theorem eliminate_swap_overflow :
    (∀ i ∈ List.range 2, ∀ e ∈ (swapMatrix 4294967295).row i,
      e.value.WellFormed ∧ e.value.numerator.InRange ∧ e.value.denominator.InRange) ∧
    ∃ p, ofMatrix .probabilities (swapMatrix 4294967295) [0, 1] = .ok p ∧ p.Consistent ∧
      1 < p.size ∧ (p.row 1).get? 1 = none ∧
      p.eliminate 1 false none = .error .degreeOverflow :=
  eliminate_swapMatrix false

end MarkovElimination.Problem
