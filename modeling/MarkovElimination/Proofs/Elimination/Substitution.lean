import MarkovElimination.Proofs.Elimination.OrderIndependence
import MarkovElimination.Proofs.Elimination.Sides

/-! # A full elimination is a substitution

To eliminate a state for good is to solve its equation for the state and to insert the result into
the equations of the others. So a vector on the other states solves what is left exactly if it
**extends** to a solution of the whole system, and there is one extension only (`Substituted`). This
holds in both kinds of problems, for entries and values of any sign, as long as the self-loop of the
state is not one (`eliminate_substitutes`). -/

namespace MarkovElimination.Problem

variable {α K : Type} [Weight α] [Field K] (I : Interpretation α K)

/-- The coefficient that the equation of a state has for a state. -/
def entry (p : Problem α) (i t : Nat) : K := I.coefficient (p.row i) t

/-- A vector **satisfies the equation** of a state. -/
def Satisfies (p : Problem α) (x : Nat → K) (i : Nat) : Prop :=
  x i = I.value (p.value i) + ∑ t ∈ Finset.range p.size, p.entry I i t * x t

/-- What the equation of a state, solved for the state, makes of the other places of a vector. -/
def solvedFor (p : Problem α) (s : Nat) (x : Nat → K) : K :=
  (I.value (p.value s) + ∑ t ∈ (Finset.range p.size).erase s, p.entry I s t * x t) /
    (1 - p.entry I s s)

/-- **The equation of a state is inserted into all others.** -/
structure Substituted (p : Problem α) (s : Nat) (q : Problem α) : Prop where
  size_eq : q.size = p.size
  /-- No equation that is left mentions the state. -/
  not_mentioned : ∀ i, s ∉ (q.row i).columns
  /-- A vector solves what is left exactly if it extends to a solution, and then in one way. -/
  extends_iff : ∀ x : Nat → K, (∀ i, i < p.size → i ≠ s → q.Satisfies I x i) ↔
    ∃! y : Nat → K, (∀ i, i ≠ s → y i = x i) ∧ ∀ i, i < p.size → p.Satisfies I y i
  /-- The extension is what the equation of the state says. -/
  extension : ∀ y : Nat → K, (∀ i, i < p.size → p.Satisfies I y i) →
    y s = p.solvedFor I s y
  /-- States that do not lead to the state keep their equations. -/
  kept : ∀ i, i ≠ s → i ∉ p.predecessors s → q.row i = p.row i ∧ q.value i = p.value i

variable {I} {p q : Problem α} {s : Nat}

/-- The sum over all states is the dot product with the row. -/
theorem Consistent.sum_entry (hp : p.Consistent) (i : Nat) (x : Nat → K) :
    ∑ t ∈ Finset.range p.size, p.entry I i t * x t = I.dot (p.row i) x := by
  rw [I.dot_eq_sum (hp.sorted i) (hp.column_lt i), Finset.sum_range]
  rfl

theorem Consistent.satisfies_iff (hp : p.Consistent) {x : Nat → K} {i : Nat} :
    p.Satisfies I x i ↔ x i = I.value (p.value i) + I.dot (p.row i) x := by
  rw [Satisfies, hp.sum_entry]

/-- The solved equation is the exit of the state together with its value. -/
theorem Consistent.solvedFor_eq (hp : p.Consistent) (hs : s < p.size) (x : Nat → K) :
    p.solvedFor I s x = p.exit I s x + p.exitValue I s := by
  have hsum := Finset.add_sum_erase (Finset.range p.size) (fun t => p.entry I s t * x t)
    (Finset.mem_range.2 hs)
  rw [hp.sum_entry] at hsum
  have hrest : ∑ t ∈ (Finset.range p.size).erase s, p.entry I s t * x t =
      I.dot (p.row s) x - p.entry I s s * x s := by
    linear_combination hsum
  rw [solvedFor, hrest, exit, exitValue, ← add_div, add_comm]
  rfl

/-- **The equation of a state, solved for it**: a vector satisfies the equation exactly if it has
the solved value. -/
theorem Consistent.satisfies_self_iff (hp : p.Consistent) (hs : s < p.size)
    (hloop : p.loop I s ≠ 1) {y : Nat → K} :
    p.Satisfies I y s ↔ y s = p.solvedFor I s y := by
  have hne : 1 - p.loop I s ≠ 0 := sub_ne_zero.2 (Ne.symm hloop)
  rw [hp.satisfies_iff, hp.solvedFor_eq hs]
  constructor
  · intro hy
    exact (exit_add_exitValue hloop hy).symm
  · intro hy
    rw [exit, exitValue, ← add_div, eq_div_iff hne] at hy
    linear_combination hy

/-- **The equations of the others**: where a vector has the solved value of the state, they say the
same as before, whether the constraint lets them be changed or not. -/
theorem Eliminated.satisfies_iff {drop : Bool} {constraint : Option StateSet}
    (he : p.Eliminated I s drop constraint q) (hp : p.Consistent) (hs : s < p.size) {y : Nat → K}
    (hy : y s = p.solvedFor I s y) {i : Nat} (his : i ≠ s) :
    q.Satisfies I y i ↔ p.Satisfies I y i := by
  rw [hp.solvedFor_eq hs] at hy
  rw [he.consistent.satisfies_iff, hp.satisfies_iff]
  by_cases hallow : Allows constraint i
  · rw [he.value i his hallow, he.dot i his hallow]
    constructor
    · intro h
      linear_combination h - I.coefficient (p.row i) s * hy
    · intro h
      linear_combination h + I.coefficient (p.row i) s * hy
  · rw [he.row_kept i his hallow, he.value_kept i his hallow]

/-- An equation that is left does not depend on the place of the eliminated state. -/
theorem Eliminated.not_mem_columns (he : p.Eliminated I s true none q) (i : Nat) :
    s ∉ (q.row i).columns := by
  intro hmem
  by_cases his : i = s
  · rw [his, he.columns_dropped] at hmem
    cases hmem
  · exact ((he.columns i his (allows_none i) s).1 hmem).1 rfl

/-- Vectors that differ in the place of the eliminated state satisfy the same equations of what is
left. -/
theorem Eliminated.satisfies_congr (he : p.Eliminated I s true none q) {x y : Nat → K}
    (h : ∀ i, i ≠ s → y i = x i) {i : Nat} (his : i ≠ s) :
    q.Satisfies I x i ↔ q.Satisfies I y i := by
  have hdot : I.dot (q.row i) y = I.dot (q.row i) x :=
    I.dot_congr fun c hc => h c fun hcs => he.not_mem_columns i (hcs ▸ hc)
  rw [he.consistent.satisfies_iff, he.consistent.satisfies_iff, hdot, h i his]

/-- The solved equation does not look at the place of its own state. -/
theorem solvedFor_congr {x y : Nat → K} (h : ∀ i, i ≠ s → y i = x i) :
    p.solvedFor I s y = p.solvedFor I s x := by
  have hsum : ∑ t ∈ (Finset.range p.size).erase s, p.entry I s t * y t =
      ∑ t ∈ (Finset.range p.size).erase s, p.entry I s t * x t :=
    Finset.sum_congr rfl fun t ht => by rw [h t (Finset.ne_of_mem_erase ht)]
  rw [solvedFor, solvedFor, hsum]

/-- **Solutions extend, and in one way.** -/
theorem Eliminated.extends_iff (he : p.Eliminated I s true none q) (hp : p.Consistent)
    (hs : s < p.size) (hloop : p.loop I s ≠ 1) (x : Nat → K) :
    (∀ i, i < p.size → i ≠ s → q.Satisfies I x i) ↔
      ∃! y : Nat → K, (∀ i, i ≠ s → y i = x i) ∧ ∀ i, i < p.size →
      p.Satisfies I y i := by
  constructor
  · intro hx
    set y := Function.update x s (p.solvedFor I s x) with hy
    have hagree : ∀ i, i ≠ s → y i = x i := fun i his => Function.update_of_ne his _ _
    have hself : y s = p.solvedFor I s y := by
      rw [solvedFor_congr hagree, hy, Function.update_self]
    refine ⟨y, ⟨hagree, fun i hi => ?_⟩, ?_⟩
    · by_cases his : i = s
      · rw [his]
        exact (hp.satisfies_self_iff hs hloop).2 hself
      · rw [← he.satisfies_iff hp hs hself his, ← he.satisfies_congr hagree his]
        exact hx i hi his
    · -- any other extension has the solved value as well
      rintro z ⟨hz, hsolves⟩
      funext i
      by_cases his : i = s
      · rw [his, (hp.satisfies_self_iff hs hloop).1 (hsolves s hs), solvedFor_congr hz, hy,
          Function.update_self]
      · rw [hz i his, hagree i his]
  · rintro ⟨y, ⟨hagree, hsolves⟩, -⟩ i hi his
    have hself := (hp.satisfies_self_iff hs hloop).1 (hsolves s hs)
    rw [he.satisfies_congr hagree his, he.satisfies_iff hp hs hself his]
    exact hsolves i hi

/-- A plan that is carried out keeps the equations of states that do not lead to the state. -/
theorem Planned.kept {drop : Bool} {constraint : Option StateSet} {r : Redirection α}
    (h : p.Planned I s drop constraint r) (hp : p.Consistent) (hv : p.Valid I) {i : Nat}
    (his : i ≠ s) (hi : i ∉ p.predecessors s) :
    (p.redirect r).row i = p.row i ∧ (p.redirect r).value i = p.value i := by
  have hmem : i ∉ r.redirected := fun hmem => hi ((h.mem_redirected i).1 hmem).1.1
  refine ⟨h.row_redirect_of_not_mem his hmem, ?_⟩
  rcases h.value_cases hp hv his with ⟨-, heq⟩ | ⟨m, -, -, hmem', -⟩
  · exact heq
  · exact absurd hmem' hmem

/-- Well-formed rational functions have values in their field. -/
theorem valid_field {p : Problem RationalFunction}
    (hrows : ∀ i, ∀ e ∈ p.row i, e.value.WellFormed)
    (hvalues : ∀ i, (p.value i).WellFormed) : p.Valid .field :=
  ⟨fun i e he => (hrows i e he).valid_field, fun i => (hvalues i).valid_field⟩

/-- A self-loop that is not recognized as one is not one. -/
theorem loop_ne_one (hI : I.Exact) (hv : p.Valid I)
    (hloop : ∀ a, (p.row s).get? s = some a → Weight.isOne a = false) : p.loop I s ≠ 1 := by
  cases hget : (p.row s).get? s with
  | none =>
    rw [loop_of_get?_eq_none hget]
    exact zero_ne_one
  | some a =>
    rw [loop, I.coefficient_of_get? hget]
    intro hone
    have hnot := hloop a hget
    rw [hI.isOne_of_value ((hv.rows s).get? I hget) hone] at hnot
    cases hnot

/-- **A full elimination substitutes the equation of its state**, unless it leaves the range of
weights. -/
theorem eliminate_meets_substituted (hI : I.Exact) (hp : p.Consistent) (hv : p.Valid I)
    (hs : s < p.size) (hloop : ∀ a, (p.row s).get? s = some a → Weight.isOne a = false) :
    Meets I.RangeFault (p.Substituted I s) (p.eliminate s true none) := by
  have hne := loop_ne_one hI hv hloop
  refine (eliminate_meets_plan hp hv hs hne true (covers_none p s)).mono ?_
  rintro q ⟨r, hr, rfl⟩
  have he := hr.eliminated hp hv
  exact {
    size_eq := he.size_eq
    not_mentioned := he.not_mem_columns
    extends_iff := he.extends_iff hp hs hne
    extension := fun y hy => (hp.satisfies_self_iff hs hne).1 (hy s hs)
    kept := fun i => hr.kept hp hv }

/-- **A full elimination preserves all remaining values**, for rational numbers and for rational
functions, with arbitrary entries and in both kinds of problems. A state whose self-loop is not one
can always be eliminated from a problem of rational numbers; from a problem of rational functions it
can unless an exponent leaves its range. -/
theorem eliminate_substitutes :
    (∀ (p : Problem ℚ) (s : Nat), p.Consistent → s < p.size →
      (∀ a, (p.row s).get? s = some a → a ≠ 1) →
      ∃ q, p.eliminate s true none = .ok q ∧ p.Substituted .rat s q) ∧
    (∀ (p : Problem RationalFunction) (s : Nat), p.Consistent →
      (∀ i, ∀ e ∈ p.row i, e.value.WellFormed) → (∀ i, (p.value i).WellFormed) →
      s < p.size →
      (∀ a, (p.row s).get? s = some a → a.isOne = false) →
      p.eliminate s true none ≠ .error .degreeOverflow →
      ∃ q, p.eliminate s true none = .ok q ∧ p.Substituted .field s q) := by
  constructor
  · intro p s hp hs hloop
    have hmeets := eliminate_meets_substituted Interpretation.exact_rat hp p.valid_rat hs
      fun a ha => decide_eq_false (hloop a ha)
    exact hmeets.exists_ok fun f hf => hf.1
  · intro p s hp hrows hvalues hs hloop hrange
    have hmeets := eliminate_meets_substituted Interpretation.exact_field hp
      (valid_field hrows hvalues) hs hloop
    exact hmeets.exists_ok_of_ne (fun f hf => hf.2) hrange

/-- Two states that stay where they are with a parameter and pass the rest on, one of them with a
negative weight. -/
def spinMatrix : Matrix RationalFunction :=
  .ofRows 2 [[⟨0, .ofParameter "x"⟩, ⟨1, .const (-1)⟩],
    [⟨0, .const 2⟩, ⟨1, .ofParameter "x"⟩]]

/-- All entries of the two states are well formed. -/
theorem wellFormed_spinMatrix (s : Nat) : ∀ e ∈ spinMatrix.row s, e.value.WellFormed := by
  intro e he
  have hs : s < 2 := Matrix.lt_rowCount_of_mem_columns (List.mem_map_of_mem he)
  interval_cases s <;> revert e <;> decide

/-- The state with the negative weight is eliminated, and so is a state with a self-loop of a
problem of rational numbers. -/
theorem eliminate_substitutes_spin :
    (∃ p q, ofMatrix .rewards spinMatrix [.ofParameter "y", 1] = .ok p ∧
      p.eliminate 0 true none = .ok q ∧ p.Substituted .field 0 q) ∧
    ∃ p q, ofMatrix .rewards detour [1, 0, 2] = .ok p ∧ p.eliminate 0 true none = .ok q ∧
      p.Substituted .rat 0 q := by
  constructor
  · have hok : (ofMatrix .rewards spinMatrix [.ofParameter "y", 1] >>= fun p =>
        p.eliminate 0 true none).isOk = true := by
      cbv
    obtain ⟨p, hp⟩ := exists_eq_ok_of_isOk
      (x := ofMatrix .rewards spinMatrix [.ofParameter "y", 1]) (by cbv)
    rw [hp] at hok
    have hvalues : ∀ a ∈ [RationalFunction.ofParameter "y", 1], a.WellFormed := by decide
    obtain ⟨hpending, -⟩ := pending_ofMatrix (I := .field) (by decide)
      (fun s e he => (wellFormed_spinMatrix s e he).valid_field)
      (fun a ha => (hvalues a ha).valid_field) hp
    have hrange : p.eliminate 0 true none ≠ .error .degreeOverflow := ne_error_of_isOk hok _
    obtain ⟨q, hq⟩ := eliminate_substitutes.2 p 0 hpending.consistent
      (fun i e he => (hpending.valid.rows i e he).wellFormed)
      (fun i => (hpending.valid.values i).wellFormed) (by rw [size_ofMatrix hp]; decide)
      (by rw [row_ofMatrix hp]; decide) hrange
    exact ⟨p, q, hp, hq⟩
  · obtain ⟨p, hp⟩ := exists_eq_ok_of_isOk (x := ofMatrix .rewards detour [1, 0, 2]) (by cbv)
    have hloop : (p.row 0).get? 0 = some (1 / 2) := by
      rw [row_ofMatrix hp]
      cbv
    obtain ⟨q, hq⟩ := eliminate_substitutes.1 p 0 (consistent_ofMatrix (by decide) hp)
      (by rw [size_ofMatrix hp]; decide) (by rw [hloop]; simp)
    exact ⟨p, q, hp, hq⟩

/-- Two states that lead to each other, one of them with a power of the parameter of the other. -/
def swapMatrix (n : ℕ) : Matrix RationalFunction :=
  .ofRows 2 [[⟨1, .ofPolynomial ⟨[⟨⟨[⟨"q", n⟩]⟩, 1⟩]⟩⟩],
    [⟨0, .ofParameter "q"⟩]]

/-- With the greatest exponent that can be represented, state `1` has no self-loop and cannot be
eliminated, whether or not its row is kept: the product of the two entries leaves the range. -/
theorem eliminate_swapMatrix (dropOutgoing : Bool) :
    (∀ i ∈ List.range 2, ∀ e ∈ (swapMatrix 4294967295).row i,
      e.value.WellFormed ∧ e.value.numerator.InRange ∧ e.value.denominator.InRange) ∧
    ∃ p, ofMatrix .probabilities (swapMatrix 4294967295) [0, 1] = .ok p ∧ p.Consistent ∧
      1 < p.size ∧ (p.row 1).get? 1 = none ∧
      p.eliminate 1 dropOutgoing none = .error .degreeOverflow := by
  refine ⟨by decide_cbv, ?_⟩
  obtain ⟨p, hp⟩ := exists_eq_ok_of_isOk
    (x := ofMatrix .probabilities (swapMatrix 4294967295) [0, 1]) (by cbv)
  have hrun : (ofMatrix .probabilities (swapMatrix 4294967295) [0, 1] >>= fun p =>
      p.eliminate 1 dropOutgoing none) = .error .degreeOverflow := by
    cases dropOutgoing <;> cbv
  rw [hp] at hrun
  exact ⟨p, hp, consistent_ofMatrix (by decide_cbv) hp, by rw [size_ofMatrix hp]; decide,
    by rw [row_ofMatrix hp]; cbv, hrun⟩

/-- The full elimination of state `1` leaves the range of exponents. -/
theorem eliminate_substitutes_overflow :
    (∀ i ∈ List.range 2, ∀ e ∈ (swapMatrix 4294967295).row i,
      e.value.WellFormed ∧ e.value.numerator.InRange ∧ e.value.denominator.InRange) ∧
    ∃ p, ofMatrix .probabilities (swapMatrix 4294967295) [0, 1] = .ok p ∧ p.Consistent ∧
      1 < p.size ∧ (p.row 1).get? 1 = none ∧
      p.eliminate 1 true none = .error .degreeOverflow :=
  eliminate_swapMatrix true

end MarkovElimination.Problem
