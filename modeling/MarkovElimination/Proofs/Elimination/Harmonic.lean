import MarkovElimination.Proofs.Elimination.Progress

/-! # Harmonic vectors

A vector is **harmonic** outside of a set `T` of states if it has, at every other state, the value
that the row of the state gives it. Probabilities to reach `T` are harmonic outside of `T`. An
elimination keeps a vector harmonic if the eliminated state is outside of `T`, or if only states of
`T` are redirected (`Harmonic.of_eliminated`); this holds for all constraints, so also for
eliminations that keep some predecessors. That a path of decreasing **rank** leads from every state
where the vector does not vanish is kept in the same way (`Ranked.of_eliminated`), and shows that a
state without proper successors has value zero. -/

namespace MarkovElimination.Problem

variable {α : Type} [Weight α] {I : Interpretation α ℚ}

/-- Row sums stay at most one. -/
theorem Eliminated.sum_le {p p' : Problem α} {s : Nat} {drop : Bool}
    {constraint : Option StateSet} (he : p.Eliminated I s drop constraint p') (hp : p.Proper I)
    (hloop : p.loop I s < 1) (hsum : ∀ i, (I.dot (p.row i) fun _ => 1) ≤ 1) (i : Nat) :
    (I.dot (p'.row i) fun _ => 1) ≤ 1 := by
  have hexit : (p.exit I s fun _ => 1) ≤ 1 := by
    rw [exit, div_le_one (by linarith)]
    linarith [hsum s]
  by_cases his : i = s
  · subst his
    cases drop with
    | true =>
      rw [I.dot_eq_zero (by simp [he.columns_dropped])]
      exact zero_le_one
    | false =>
      rw [he.dot_self rfl]
      exact hexit
  · by_cases hallow : Allows constraint i
    · -- What went to the state leaves it again, up to what is lost on exit.
      rw [he.dot i his hallow]
      nlinarith [hsum i, (hp.positive i).coefficient_nonneg s]
    · rw [he.row_kept i his hallow]
      exact hsum i

/-- The states eliminated for good: those before, and the state of an elimination that drops its
row. -/
def Gone (E : Nat → Prop) (s : Nat) (drop : Bool) (i : Nat) : Prop :=
  E i ∨ drop = true ∧ i = s

/-- An elimination that drops a row leaves no entry for the state. -/
theorem Eliminated.not_gone {K : Type} [Field K] {I : Interpretation α K} {p p' : Problem α}
    {s : Nat} {drop : Bool} {constraint : Option StateSet} {E : Nat → Prop}
    (he : p.Eliminated I s drop constraint p') (hdrop : drop = true → constraint = none)
    (hE : ∀ i, ∀ c ∈ (p.row i).columns, ¬E c) (i c : Nat)
    (hc : c ∈ (p'.row i).columns) : ¬Gone E s drop c := by
  rw [Gone, not_or, not_and]
  by_cases his : i = s
  · subst his
    have hcol := (he.columns_self c).1 hc
    exact ⟨hE i c hcol.2.1, fun _ => hcol.2.2⟩
  · by_cases hallow : Allows constraint i
    · obtain ⟨hcs, hcol⟩ := (he.columns i his hallow c).1 hc
      exact ⟨hcol.elim (hE i c) fun h => hE s c h.2, fun _ => hcs⟩
    · -- Predecessors are only kept by a constraint, and there is none if the row is dropped.
      rw [he.row_kept i his hallow] at hc
      refine ⟨hE i c hc, fun hd => ?_⟩
      rw [hdrop hd] at hallow
      exact absurd (allows_none i) hallow

/-- A condition on an elimination: its state is outside of `T`, or only states of `T` are
redirected. -/
def Respects (T : Nat → Prop) (s : Nat) (constraint : Option StateSet) : Prop :=
  ¬T s ∨ ∀ i, Allows constraint i → T i

variable (I) in
/-- **A harmonic vector** on a set `C` of states that is closed under successors: outside of `T`,
and where rows are not dropped, it has the value that the row gives it. -/
structure Harmonic (T C E : Nat → Prop) (f : Nat → ℚ) (p : Problem α) : Prop where
  closed : ∀ i, C i → ∀ c ∈ (p.row i).columns, C c
  eq_dot : ∀ i, C i → ¬T i → ¬E i → f i = I.dot (p.row i) f

/-- Where a vector does not vanish, outside of `T`, a state of smaller rank follows where it does
not vanish either. -/
def Ranked (T C E : Nat → Prop) (f : Nat → ℚ) (r : Nat → Nat) (p : Problem α) : Prop :=
  ∀ i, C i → ¬T i → ¬E i → f i ≠ 0 → ∃ c ∈ (p.row i).columns, f c ≠ 0 ∧
    r c < r i

variable {T C E : Nat → Prop} {f : Nat → ℚ} {r : Nat → Nat} {p p' : Problem α} {s : Nat}
  {drop : Bool} {constraint : Option StateSet}

/-- **Eliminations keep vectors harmonic.** -/
theorem Harmonic.of_eliminated (h : p.Harmonic I T C E f)
    (he : p.Eliminated I s drop constraint p') (hloop : p.loop I s ≠ 1) (hs : ¬E s)
    (hT : Respects T s constraint) : p'.Harmonic I T C (Gone E s drop) f where
  closed := by
    intro i hi c hc
    by_cases his : i = s
    · subst his
      exact h.closed i hi c ((he.columns_self c).1 hc).2.1
    · by_cases hallow : Allows constraint i
      · rcases ((he.columns i his hallow c).1 hc).2 with hc | ⟨hsi, hc⟩
        · exact h.closed i hi c hc
        · exact h.closed s (h.closed i hi s hsi) c hc
      · rw [he.row_kept i his hallow] at hc
        exact h.closed i hi c hc
  eq_dot := by
    intro i hi hTi hgone
    rw [Gone, not_or] at hgone
    by_cases his : i = s
    · subst his
      have hdrop : drop = false := by
        by_contra hd
        exact hgone.2 ⟨by simpa using hd, rfl⟩
      rw [he.dot_self hdrop, exit_eq hloop (h.eq_dot i hi hTi hs)]
    · by_cases hallow : Allows constraint i
      · have hTs : ¬T s := hT.resolve_right fun hall => hTi (hall i hallow)
        rw [he.dot i his hallow, h.eq_dot i hi hTi hgone.1]
        -- The eliminated state has its value on exit, if the row has an entry for it.
        by_cases hsi : s ∈ (p.row i).columns
        · rw [exit_eq hloop (h.eq_dot s (h.closed i hi s hsi) hTs hs), sub_self, mul_zero,
            add_zero]
        · rw [I.coefficient_of_not_mem hsi, zero_mul, add_zero]
      · rw [he.row_kept i his hallow]
        exact h.eq_dot i hi hTi hgone.1

/-- **Eliminations keep vectors ranked.** -/
theorem Ranked.of_eliminated (hr : p.Ranked T C E f r) (h : p.Harmonic I T C E f)
    (he : p.Eliminated I s drop constraint p') (hs : ¬E s) (hT : Respects T s constraint) :
    p'.Ranked T C (Gone E s drop) f r := by
  intro i hi hTi hgone hfi
  rw [Gone, not_or] at hgone
  obtain ⟨c, hc, hfc, hrc⟩ := hr i hi hTi hgone.1 hfi
  by_cases his : i = s
  · subst his
    have hdrop : drop = false := by
      by_contra hd
      exact hgone.2 ⟨by simpa using hd, rfl⟩
    refine ⟨c, (he.columns_self c).2 ⟨hdrop, hc, ?_⟩, hfc, hrc⟩
    rintro rfl
    exact lt_irrefl _ hrc
  · by_cases hallow : Allows constraint i
    · have hTs : ¬T s := hT.resolve_right fun hall => hTi (hall i hallow)
      by_cases hcs : c = s
      · -- The successor is eliminated: its own successor of smaller rank takes its place.
        subst hcs
        obtain ⟨d, hd, hfd, hrd⟩ := hr c (h.closed i hi c hc) hTs hs hfc
        refine ⟨d, (he.columns i his hallow d).2 ⟨?_, .inr ⟨hc, hd⟩⟩, hfd,
          hrd.trans hrc⟩
        rintro rfl
        exact lt_irrefl _ hrd
      · exact ⟨c, (he.columns i his hallow c).2 ⟨hcs, .inl hc⟩, hfc, hrc⟩
    · exact ⟨c, by rw [he.row_kept i his hallow]; exact hc, hfc, hrc⟩

omit [Weight α] in
/-- A state without proper successors has value zero. -/
theorem Ranked.eq_zero (hr : p.Ranked T C E f r) {i : Nat} (hi : C i) (hTi : ¬T i) (hEi : ¬E i)
    (hdead : ∀ c ∈ (p.row i).columns, c = i) : f i = 0 := by
  by_contra hne
  obtain ⟨c, hc, -, hrc⟩ := hr i hi hTi hEi hne
  rw [hdead c hc] at hrc
  exact lt_irrefl _ hrc

end MarkovElimination.Problem
