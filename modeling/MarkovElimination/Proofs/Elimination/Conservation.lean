import MarkovElimination.Proofs.Elimination.Harmonic
import MarkovElimination.Proofs.Elimination.KeptRows
import MarkovElimination.Proofs.Elimination.Sides

/-! # Conservation of probability

The **mass** of a state is the sum of its row together with its value. In a problem of probabilities
the mass of a state is one exactly if the vector of ones satisfies its equation. An elimination only
inserts the equation of its state into others, so whatever satisfies all equations keeps satisfying
them (`Conserving`). Hence all states that are not removed keep mass one through every sequence of
eliminations, whether they keep or drop their rows, and whatever predecessors they exclude
(`mass_conserved`). -/

namespace MarkovElimination.Problem

variable {α K : Type} [Weight α] [Field K] {I : Interpretation α K} {p q : Problem α} {s : Nat}
  {drop : Bool} {constraint : Option StateSet} {E : Nat → Prop}

/-- **The mass of a state**: the sum of its row together with its value. -/
def mass (p : Problem α) (i : Nat) : α := (p.row i).sum + p.value i

/-- The states that a sequence of calls removes for good. -/
def RemovedBy (calls : List EliminationCall) (i : Nat) : Prop :=
  ∃ c ∈ calls, c.dropOutgoing = true ∧ i = c.state

/-- **A state has mass one exactly if the vector of ones satisfies its equation.** -/
theorem Consistent.isOne_mass_iff (hp : p.Consistent) (hI : I.Exact) (hv : p.Valid I) {i : Nat} :
    Weight.isOne (p.mass i) = true ↔ p.Satisfies I (fun _ => 1) i := by
  obtain ⟨hvalid, hsum⟩ := I.sum_row (hv.rows i)
  have hmass : I.Valid (p.mass i) := I.valid_add hvalid (hv.values i)
  have hvalue : I.value (p.mass i) = I.dot (p.row i) (fun _ => 1) + I.value (p.value i) := by
    rw [mass, I.value_add hvalid (hv.values i), hsum]
  rw [hp.satisfies_iff, add_comm, ← hvalue]
  constructor
  · intro h
    exact (I.value_of_isOne hmass h).symm
  · intro h
    exact hI.isOne_of_value hmass h.symm

/-! ### Calls one after the other -/

/-- An equation that does not mention the state says the same as before. -/
theorem Eliminated.satisfies_iff_of_not_mem (he : p.Eliminated I s drop constraint q)
    (hp : p.Consistent) {i : Nat} (his : i ≠ s) (hcol : s ∉ (p.row i).columns) {y : Nat → K} :
    q.Satisfies I y i ↔ p.Satisfies I y i := by
  rw [he.consistent.satisfies_iff, hp.satisfies_iff]
  by_cases hallow : Allows constraint i
  · rw [he.value i his hallow, he.dot i his hallow, I.coefficient_of_not_mem hcol, zero_mul,
      zero_mul, add_zero, add_zero]
  · rw [he.row_kept i his hallow, he.value_kept i his hallow]

variable (I) in
/-- **The invariant of calls**: the vector of ones satisfies the equations of all states outside of
`E`, and no equation mentions a state of `E`. -/
structure Conserving (E : Nat → Prop) (p : Problem α) : Prop where
  consistent : p.Consistent
  valid : p.Valid I
  mode_eq : p.mode = .probabilities
  ones : ∀ i, i < p.size → ¬E i → p.Satisfies I (fun _ => 1) i
  gone : ∀ i, ∀ c ∈ (p.row i).columns, ¬E c

/-- **What an elimination does keeps the invariant.** -/
theorem Conserving.of_eliminated (h : p.Conserving I E) (hs : s < p.size) (hloop : p.loop I s ≠ 1)
    (hdrop : drop = true → constraint = none) (he : p.Eliminated I s drop constraint q) :
    q.Conserving I (Gone E s drop) where
  consistent := he.consistent
  valid := he.valid
  mode_eq := he.mode_eq.trans h.mode_eq
  ones i hi hleft := by
    rw [Gone, not_or, not_and] at hleft
    rw [he.size_eq] at hi
    have hones := h.ones i hi hleft.1
    by_cases his : i = s
    · -- The state is still there, so its row is kept and solved for the state.
      subst his
      obtain rfl : drop = false := by simpa using fun hd => hleft.2 hd rfl
      rw [he.satisfies_self_iff h.consistent h.mode_eq hs]
      exact (h.consistent.satisfies_self_iff hs hloop).1 hones
    by_cases hcol : s ∈ (p.row i).columns
    · have hself := h.ones s hs (h.gone i s hcol)
      exact (he.satisfies_iff h.consistent hs
        ((h.consistent.satisfies_self_iff hs hloop).1 hself) his).2 hones
    · exact (he.satisfies_iff_of_not_mem h.consistent his hcol).2 hones
  gone := he.not_gone hdrop h.gone

/-- **One call** keeps the invariant, if it succeeds. -/
theorem Conserving.eliminate (hI : I.Exact) (h : p.Conserving I E) (s : Nat)
    (hdrop : drop = true → constraint = none) :
    Meets (fun _ => True) (fun q => q.Conserving I (Gone E s drop) ∧ q.size = p.size)
      (p.eliminate s drop constraint) := by
  cases hrun : p.eliminate s drop constraint with
  | error f => trivial
  | ok q =>
    obtain ⟨hs, hloop, he⟩ := eliminate_exact hI h.consistent h.valid hrun
    exact ⟨h.of_eliminated hs hloop hdrop he, he.size_eq⟩

/-- **A sequence of calls** keeps the invariant, if all of them succeed. -/
theorem Conserving.eliminateCalls (hI : I.Exact) (h : p.Conserving I E)
    {calls : List EliminationCall}
    (hcalls : ∀ c ∈ calls, c.dropOutgoing = true → c.constraint = none) :
    Meets (fun _ => True)
      (fun q => q.Conserving I (fun i => E i ∨ RemovedBy calls i) ∧ q.size = p.size)
      (p.eliminateCalls calls) := by
  induction calls generalizing p E with
  | nil => exact ⟨by simpa [RemovedBy] using h, rfl⟩
  | cons c calls ih =>
    rw [List.forall_mem_cons] at hcalls
    rw [Problem.eliminateCalls, List.foldlM_cons]
    refine (h.eliminate hI c.state hcalls.1).bind fun q hq => ?_
    refine (ih hq.1 hcalls.2).mono fun r hr => ?_
    have hremoved : (fun i => Gone E c.state c.dropOutgoing i ∨ RemovedBy calls i) =
        fun i => E i ∨ RemovedBy (c :: calls) i := by
      funext i
      simp [Gone, RemovedBy, or_assoc]
    exact ⟨hremoved ▸ hr.1, hr.2.trans hq.2⟩

/-- Masses of one stay one, under every exact interpretation. -/
theorem Consistent.isOne_mass_eliminateCalls (hp : p.Consistent) (hI : I.Exact) (hv : p.Valid I)
    (hmode : p.mode = .probabilities) {calls : List EliminationCall}
    (hcalls : ∀ c ∈ calls, c.dropOutgoing = true → c.constraint = none)
    (hmass : ∀ i, i < p.size → Weight.isOne (p.mass i) = true)
    (hrun : p.eliminateCalls calls = .ok q) {i : Nat} (hi : i < p.size)
    (hleft : ¬RemovedBy calls i) : Weight.isOne (q.mass i) = true := by
  have hstart : p.Conserving I fun _ => False :=
    ⟨hp, hv, hmode, fun i hi _ => (hp.isOne_mass_iff hI hv).1 (hmass i hi), fun _ _ _ =>
      not_false⟩
  have hmeets := hstart.eliminateCalls hI hcalls
  rw [hrun] at hmeets
  obtain ⟨hq, hsize⟩ := hmeets
  rw [hq.consistent.isOne_mass_iff hI hq.valid]
  exact hq.ones i (by rwa [hsize]) (by simpa using hleft)

/-- **Probability mass is conserved exactly**, for rational numbers and for rational functions, with
arbitrary entries. If every state of a problem of probabilities has mass one, then after any
sequence of eliminations, each of which drops its row or excludes arbitrary predecessors, every
state whose row was not dropped still has mass one. -/
theorem mass_conserved :
    (∀ (p q : Problem ℚ) (calls : List EliminationCall), p.Consistent →
      p.mode = .probabilities →
      (∀ c ∈ calls, c.dropOutgoing = true → c.constraint = none) →
      (∀ i, i < p.size → p.mass i = 1) → p.eliminateCalls calls = .ok q →
      ∀ i, i < p.size → ¬RemovedBy calls i → q.mass i = 1) ∧
    (∀ (p q : Problem RationalFunction) (calls : List EliminationCall), p.Consistent →
      (∀ i, ∀ e ∈ p.row i, e.value.WellFormed) → (∀ i, (p.value i).WellFormed) →
      p.mode = .probabilities →
      (∀ c ∈ calls, c.dropOutgoing = true → c.constraint = none) →
      (∀ i, i < p.size → (p.mass i).isOne = true) → p.eliminateCalls calls = .ok q →
      ∀ i, i < p.size → ¬RemovedBy calls i → (q.mass i).isOne = true) := by
  constructor
  · intro p q calls hp hmode hcalls hmass hrun i hi hleft
    exact of_decide_eq_true (hp.isOne_mass_eliminateCalls Interpretation.exact_rat p.valid_rat hmode
      hcalls (fun i hi => decide_eq_true (hmass i hi)) hrun hi hleft)
  · intro p q calls hp hrows hvalues hmode hcalls hmass hrun i hi hleft
    exact hp.isOne_mass_eliminateCalls Interpretation.exact_field (valid_field hrows hvalues) hmode
      hcalls hmass hrun hi hleft

/-- State `2` of the fork is detached from one predecessor; then state `3` is removed. -/
def forkCalls : List EliminationCall := [⟨2, false, some (.singleton 4 0)⟩, ⟨3, true, none⟩]

/-- Two states that return to the first one with the probability `x`. -/
def returnMatrix : Matrix RationalFunction :=
  .ofRows 2 [[⟨0, .ofParameter "x"⟩, ⟨1, 1 - .ofParameter "x"⟩],
    [⟨0, .ofParameter "x"⟩]]

/-- All entries of the two states are well formed. -/
theorem wellFormed_returnMatrix (s : Nat) : ∀ e ∈ returnMatrix.row s, e.value.WellFormed := by
  intro e he
  have hs : s < 2 := Matrix.lt_rowCount_of_mem_columns (List.mem_map_of_mem he)
  interval_cases s <;> revert e <;> decide_cbv

/-- The state that excluded a predecessor keeps mass one, and so does the excluded predecessor; so
does the first of the two states once the second one is removed. -/
theorem mass_conserved_fork :
    (∃ p q, ofMatrix .probabilities forkMatrix [0, 0, 1 / 4, 1 / 2] = .ok p ∧
      p.eliminateCalls forkCalls = .ok q ∧ q.mass 1 = 1 ∧ q.mass 2 = 1) ∧
    ∃ p q, ofMatrix .probabilities returnMatrix [0, 1 - .ofParameter "x"] = .ok p ∧
      p.eliminateCalls [⟨1, true, none⟩] = .ok q ∧ (q.mass 0).isOne = true := by
  constructor
  · have hrun : (ofMatrix .probabilities forkMatrix [0, 0, 1 / 4, 1 / 2] >>= fun p =>
        p.eliminateCalls forkCalls).isOk = true := by
      cbv
    have hmasses : (ofMatrix .probabilities forkMatrix [0, 0, 1 / 4, 1 / 2]).map (fun p =>
        (List.range 4).all fun i => decide (p.mass i = 1)) = .ok true := by
      cbv
    obtain ⟨p, hp⟩ := exists_eq_ok_of_isOk
      (x := ofMatrix .probabilities forkMatrix [0, 0, 1 / 4, 1 / 2]) (by cbv)
    rw [hp] at hrun hmasses
    obtain ⟨q, hq⟩ := exists_eq_ok_of_isOk hrun
    obtain ⟨hconsistent, hsize, -⟩ := fork_shape hp
    have hmass : ∀ i, i < p.size → p.mass i = 1 := by
      intro i hi
      have hall := List.all_eq_true.1 (Except.ok.inj hmasses) i (List.mem_range.2 (by omega))
      exact of_decide_eq_true hall
    have hconserved := mass_conserved.1 p q forkCalls hconsistent (mode_ofMatrix hp) (by decide)
      hmass hq
    exact ⟨p, q, hp, hq, hconserved 1 (by omega) (by simp [RemovedBy, forkCalls]),
      hconserved 2 (by omega) (by simp [RemovedBy, forkCalls])⟩
  · have hrun : (ofMatrix .probabilities returnMatrix [0, 1 - .ofParameter "x"] >>= fun p =>
        p.eliminateCalls [⟨1, true, none⟩]).isOk = true := by
      cbv
    have hmasses : (ofMatrix .probabilities returnMatrix [0, 1 - .ofParameter "x"]).map (fun p =>
        (List.range 2).all fun i => (p.mass i).isOne) = .ok true := by
      cbv
    obtain ⟨p, hp⟩ := exists_eq_ok_of_isOk
      (x := ofMatrix .probabilities returnMatrix [0, 1 - .ofParameter "x"]) (by cbv)
    rw [hp] at hrun hmasses
    obtain ⟨q, hq⟩ := exists_eq_ok_of_isOk hrun
    have hsize : p.size = 2 := size_ofMatrix hp
    have hmass : ∀ i, i < p.size → (p.mass i).isOne = true := fun i hi =>
      List.all_eq_true.1 (Except.ok.inj hmasses) i (List.mem_range.2 (by omega))
    have hvalues : ∀ a ∈ [(0 : RationalFunction), 1 - .ofParameter "x"], a.WellFormed := by
      decide_cbv
    obtain ⟨hpending, -⟩ := pending_ofMatrix (I := .field) (by decide_cbv)
      (fun s e he => (wellFormed_returnMatrix s e he).valid_field)
      (fun a ha => (hvalues a ha).valid_field) hp
    have hconserved := mass_conserved.2 p q [⟨1, true, none⟩] hpending.consistent
      (fun i e he => (hpending.valid.rows i e he).wellFormed)
      (fun i => (hpending.valid.values i).wellFormed) (mode_ofMatrix hp) (by simp) hmass hq
    exact ⟨p, q, hp, hq, hconserved 0 (by omega) (by simp [RemovedBy])⟩

end MarkovElimination.Problem
