import MarkovElimination.Proofs.Elimination.Harmonic
import MarkovElimination.Proofs.Elimination.Substitution
import MarkovElimination.Proofs.Kernel.Comparison

/-! # Leaking problems

A problem of rational numbers **leaks** if its entries are not negative, its rows sum to at most
one, and every state leads to a state whose row sums to less. Eliminations create self-loops,
enlarge them and reroute all paths. What survives them is a positive vector that every row strictly
decreases (`Draining`): the expected number of steps before the problem is left. Where such a vector
exists, no self-loop reaches one, so the states of a leaking problem can be eliminated in any order,
to the last one (`eliminateEach_leaking`). -/

namespace MarkovElimination.Problem

/-! ### Entries -/

section Entries

variable {α K : Type} [Weight α] [Field K] {I : Interpretation α K} {p q : Problem α}
    {s i t : Nat}

/-- An entry is the dot product of its row with a unit vector. -/
theorem Consistent.dot_single (hp : p.Consistent) (i t : Nat) :
    I.dot (p.row i) (Pi.single t 1) = p.entry I i t := by
  have hzero : I.dot (p.row i) 0 = 0 := I.dot_eq_zero fun _ _ => rfl
  have hupdate : I.dot (p.row i) (Pi.single t 1) = _ :=
    Interpretation.dot_update (hp.sorted i) 0 t 1
  rw [hupdate, hzero, entry, Pi.zero_apply]
  ring

/-- **The entries after an elimination**: what led to the state leads on to its successors. -/
theorem Eliminated.entry_eq {drop : Bool} {constraint : Option StateSet}
    (he : p.Eliminated I s drop constraint q) (hp : p.Consistent) (his : i ≠ s)
    (hallow : Allows constraint i) (hts : t ≠ s) :
    q.entry I i t = p.entry I i t + p.entry I i s * (p.entry I s t / (1 - p.loop I s)) := by
  have hdot := he.dot i his hallow (Pi.single t 1)
  rw [he.consistent.dot_single, hp.dot_single, exit, hp.dot_single, Pi.single_eq_of_ne hts.symm,
    mul_zero, sub_zero, sub_zero] at hdot
  exact hdot

end Entries

/-! ### Draining vectors -/

section Draining

variable {α : Type} [Weight α] {I : Interpretation α ℚ} {p q : Problem α} {y : Nat → ℚ}
  {E : Nat → Prop} {s : Nat}

variable (I) in
/-- **The invariant of eliminations**: no entry is negative, the positive vector `y` is decreased by
all rows, and no row has an entry for the states of `E`, which are eliminated. -/
structure Draining (y : Nat → ℚ) (E : Nat → Prop) (p : Problem α) : Prop where
  consistent : p.Consistent
  valid : p.Valid I
  nonneg : ∀ i t, 0 ≤ p.entry I i t
  pos : ∀ i, 0 < y i
  drains : ∀ i, I.dot (p.row i) y < y i
  gone : ∀ i, ∀ c ∈ (p.row i).columns, ¬E c

/-- **Under the invariant every self-loop is below one.** -/
theorem Draining.loop_lt_one (h : p.Draining I y E) (s : Nat) : p.loop I s < 1 := by
  by_cases hs : s ∈ (p.row s).columns
  · have hterm : p.entry I s s * y s ≤ I.dot (p.row s) y := by
      rw [← h.consistent.sum_entry]
      refine Finset.single_le_sum (f := fun t => p.entry I s t * y t) (fun t _ => ?_)
        (Finset.mem_range.2 (h.consistent.column_lt s s hs))
      exact mul_nonneg (h.nonneg s t) (h.pos t).le
    -- A self-loop of at least one would already return all of `y s`.
    by_contra hge
    have hone : 1 ≤ p.entry I s s := not_lt.1 hge
    nlinarith [h.drains s, h.pos s]
  · rw [loop, I.coefficient_of_not_mem hs]
    exact zero_lt_one

/-- **What a full elimination does keeps the invariant.** -/
theorem Draining.of_eliminated (h : p.Draining I y E) (he : p.Eliminated I s true none q) :
    q.Draining I y (Gone E s true) := by
  have hloop := h.loop_lt_one s
  have hdropped : q.row s = [] := List.map_eq_nil_iff.1 he.columns_dropped
  refine ⟨he.consistent, he.valid, fun i t => ?_, h.pos, fun i => ?_,
    he.not_gone (fun _ => rfl) h.gone⟩
  · by_cases his : i = s
    · rw [his, entry, hdropped]
      exact le_rfl
    by_cases hts : t = s
    · rw [hts, entry, I.coefficient_of_not_mem]
      exact fun hmem => ((he.columns i his (allows_none i) s).1 hmem).1 rfl
    · rw [he.entry_eq h.consistent his (allows_none i) hts]
      have hexit : 0 ≤ p.entry I s t / (1 - p.loop I s) :=
        div_nonneg (h.nonneg s t) (by linarith)
      exact add_nonneg (h.nonneg i t) (mul_nonneg (h.nonneg i s) hexit)
  · by_cases his : i = s
    · rw [his, hdropped]
      exact h.pos s
    · -- The row gets the exit value of the state in place of its value, which is smaller.
      rw [he.dot i his (allows_none i)]
      have hexit := exit_lt hloop (h.drains s)
      have hentry : 0 ≤ I.coefficient (p.row i) s := h.nonneg i s
      nlinarith [h.drains i]

/-- **One full elimination** succeeds and keeps the invariant. -/
theorem Draining.eliminate (h : p.Draining I y E) (hs : s < p.size) :
    Meets I.RangeFault (fun q => q.Draining I y (Gone E s true) ∧ q.size = p.size)
      (p.eliminate s true none) :=
  (eliminate_meets h.consistent h.valid hs (h.loop_lt_one s).ne true (covers_none p s)).mono
    fun _ he => ⟨h.of_eliminated he, he.size_eq⟩

/-- **Eliminations one after the other** succeed and keep the invariant. -/
theorem Draining.eliminateEach (h : p.Draining I y E) {order : List Nat}
    (horder : ∀ s ∈ order, s < p.size) :
    Meets I.RangeFault (fun q => q.Draining I y (fun i => E i ∨ i ∈ order) ∧ q.size = p.size)
      (p.eliminateEach order) := by
  induction order generalizing p E with
  | nil => exact ⟨by simpa using h, rfl⟩
  | cons s order ih =>
    rw [List.forall_mem_cons] at horder
    rw [Problem.eliminateEach, List.foldlM_cons]
    refine (h.eliminate horder.1).bind fun q hq => ?_
    have hrest := ih hq.1 fun t ht => by
      rw [hq.2]
      exact horder.2 t ht
    refine hrest.mono fun r hr => ?_
    have hgone : (fun i => Gone E s true i ∨ i ∈ order) = fun i => E i ∨
        i ∈ s :: order := by
      funext i
      simp [Gone, or_assoc]
    exact ⟨hgone ▸ hr.1, hr.2.trans hq.2⟩

/-- **The last state** of a problem of rewards is resolved without a fault. -/
theorem Draining.resolveLast (h : p.Draining I y E) (hs : s < p.size)
    (hE : ∀ i, i < p.size → i ≠ s → E i) :
    Meets I.RangeFault (fun _ => True) (p.resolveLast s) := by
  refine (resolveLast_meets h.consistent h.valid hs (h.loop_lt_one s).ne fun c hc => ?_).mono
    fun _ _ => trivial
  by_contra hcs
  exact h.gone s c hc (hE c (h.consistent.column_lt s c hc) hcs)

end Draining

/-! ### Leaking problems -/

section Leaking

variable {p : Problem ℚ}

/-- Some path of positive entries leads from one state to another. -/
def Leads (p : Problem ℚ) : Nat → Nat → Prop :=
  Relation.ReflTransGen fun a b => 0 < p.entry .rat a b

/-- **A leaking problem**: no entry is negative, rows sum to at most one, and every state leads to
one whose row sums to less. -/
structure Leaking (p : Problem ℚ) : Prop where
  consistent : p.Consistent
  nonneg : ∀ i, ∀ e ∈ p.row i, 0 ≤ e.value
  sum_le : ∀ i, (p.row i).sum ≤ 1
  leaks : ∀ i, i < p.size → ∃ t, p.Leads i t ∧ (p.row t).sum < 1

theorem Leaking.entry_nonneg (h : p.Leaking) (i t : Nat) : 0 ≤ p.entry .rat i t := by
  cases hget : (p.row i).get? t with
  | none => rw [entry, Interpretation.rat.coefficient_of_not_mem (Row.get?_eq_none_iff.1 hget)]
  | some a =>
    obtain ⟨e, he, -, rfl⟩ := Row.exists_entry_of_get? hget
    rw [entry, Interpretation.rat.coefficient_of_get? hget]
    exact h.nonneg i e he

/-- The row of a state sums to what its entries sum to. -/
theorem Consistent.row_sum (hp : p.Consistent) (i : Nat) :
    (p.row i).sum = ∑ t : Fin p.size, p.entry .rat i t := by
  have hsum := (Interpretation.rat.sum_row (p.valid_rat.rows i)).2
  rw [Interpretation.rat.dot_eq_sum (hp.sorted i) (hp.column_lt i)] at hsum
  simp only [mul_one] at hsum
  exact hsum

/-- **The kernel of a problem**: the state outside receives what a row lacks to one. -/
def kernel (p : Problem ℚ) : Option (Fin p.size) → Option (Fin p.size) → ℚ
  | some i, some t => p.entry .rat i t
  | some i, none => 1 - (p.row i).sum
  | none, _ => 0

/-- A state as a state of the kernel. -/
def node (p : Problem ℚ) (i : Nat) : Option (Fin p.size) :=
  if h : i < p.size then some ⟨i, h⟩ else none

/-- Paths of the problem are paths of the kernel. -/
theorem Consistent.reaches_node (hp : p.Consistent) {i t : Nat} (h : p.Leads i t) :
    Kernel.Reaches p.kernel (p.node i) (p.node t) := by
  refine Relation.ReflTransGen.lift p.node (fun a b hab => ?_) _ _ h
  have hcol : b ∈ (p.row a).columns := by
    by_contra hcol
    rw [entry, Interpretation.rat.coefficient_of_not_mem hcol] at hab
    exact lt_irrefl 0 hab
  show 0 < p.kernel (p.node a) (p.node b)
  rw [node, dif_pos (lt_size_of_mem_columns hcol), node, dif_pos (hp.column_lt a b hcol)]
  exact hab

/-- The states of a leaking problem form a transient set. -/
theorem Leaking.transient (h : p.Leaking) : Kernel.Transient p.kernel fun i => i.isSome where
  nonneg i t := by
    cases i with
    | none => exact le_rfl
    | some i =>
      cases t with
      | none => exact sub_nonneg.2 (h.sum_le i)
      | some t => exact h.entry_nonneg i t
  row_le i hi := by
    obtain ⟨i, rfl⟩ := Option.isSome_iff_exists.1 hi
    rw [Fintype.sum_option]
    show 1 - (p.row i).sum + ∑ t : Fin p.size, p.entry .rat i t ≤ 1
    rw [h.consistent.row_sum]
    linarith
  exits i hi := by
    obtain ⟨i, rfl⟩ := Option.isSome_iff_exists.1 hi
    obtain ⟨t, hpath, hleak⟩ := h.leaks i i.isLt
    have hreach := h.consistent.reaches_node hpath
    rw [node, dif_pos i.isLt] at hreach
    refine ⟨none, by simp, ?_⟩
    by_cases ht : t < p.size
    · rw [node, dif_pos ht] at hreach
      exact hreach.tail (sub_pos.2 hleak)
    · rwa [node, dif_neg ht] at hreach

/-- **A leaking problem drains.** -/
theorem Leaking.exists_draining (h : p.Leaking) : ∃ y, p.Draining .rat y fun _ => False := by
  obtain ⟨y, hpos, hout, hdrain⟩ := h.transient.exists_drain
  have hone : y none = 0 := hout none (by simp)
  -- Outside of the problem there is nothing to decrease.
  refine ⟨fun i => if h : i < p.size then y (some ⟨i, h⟩) else 1, h.consistent, p.valid_rat,
    h.entry_nonneg, fun i => ?_, fun i => ?_, fun _ _ _ => not_false⟩
  · split
    · exact hpos _ rfl
    · exact zero_lt_one
  · by_cases hi : i < p.size
    · have hstep := hdrain (some ⟨i, hi⟩) rfl
      rw [Kernel.step, Fintype.sum_option, hone, mul_zero, zero_add] at hstep
      rw [Interpretation.rat.dot_eq_sum (h.consistent.sorted i) (h.consistent.column_lt i),
        dif_pos hi]
      simp only [Fin.is_lt, dif_pos]
      exact hstep
    · rw [row_of_size_le (not_lt.1 hi), dif_neg hi]
      exact zero_lt_one

/-- **No self-loop of a leaking problem becomes one**, in problems of either kind. Its states can be
eliminated in any order, up to the last one, and each of them has a self-loop below one when its
turn comes. A state that is left alone can also be resolved as the last one. -/
theorem eliminateEach_leaking (p : Problem ℚ) (h : p.Leaking) (order : List Nat)
    (horder : ∀ s ∈ order, s < p.size) :
    (∃ q, p.eliminateEach order = .ok q) ∧
    ∀ done s rest, order = done ++ s :: rest →
      ∃ q, p.eliminateEach done = .ok q ∧ q.loop .rat s < 1 ∧
        ((∀ i, i < p.size → i ≠ s → i ∈ done) → ∃ q', q.resolveLast s = .ok q') := by
  obtain ⟨y, hy⟩ := h.exists_draining
  constructor
  · obtain ⟨q, hq, -⟩ := (hy.eliminateEach horder).exists_ok fun _ hf => hf.1
    exact ⟨q, hq⟩
  · rintro done s rest rfl
    have hdone : ∀ t ∈ done, t < p.size := fun t ht => horder t (List.mem_append_left _ ht)
    obtain ⟨q, hq, hdraining, hsize⟩ := (hy.eliminateEach hdone).exists_ok fun _ hf => hf.1
    refine ⟨q, hq, hdraining.loop_lt_one s, fun hlast => ?_⟩
    have hs : s < q.size := by
      rw [hsize]
      exact horder s (by simp)
    obtain ⟨q', hq', -⟩ := (hdraining.resolveLast hs fun i hi his =>
      .inr (hlast i (by rwa [← hsize]) his)).exists_ok fun _ hf => hf.1
    exact ⟨q', hq'⟩

/-- Three states that lead to each other; only the last one leaks. -/
def spillMatrix : Matrix ℚ :=
  .ofRows 3 [[⟨1, 1⟩], [⟨0, 1 / 2⟩, ⟨2, 1 / 2⟩], [⟨0, 1 / 2⟩, ⟨1, 1 / 4⟩]]

/-- A problem of the three states leaks, whatever its values are. -/
theorem leaking_spill {mode : ValueMode} {values : List ℚ}
    (hp : ofMatrix mode spillMatrix values = .ok p) : p.Leaking := by
  have hsize : p.size = 3 := size_ofMatrix hp
  have hrow₀ : p.row 0 = [⟨1, 1⟩] := by rw [row_ofMatrix hp]; cbv
  have hrow₁ : p.row 1 = [⟨0, 1 / 2⟩, ⟨2, 1 / 2⟩] := by rw [row_ofMatrix hp]; cbv
  have hrow₂ : p.row 2 = [⟨0, 1 / 2⟩, ⟨1, 1 / 4⟩] := by rw [row_ofMatrix hp]; cbv
  have hleak : (p.row 2).sum < 1 := by rw [hrow₂]; decide_cbv
  have hto₂ : p.Leads 1 2 := .single (by rw [entry, hrow₁]; decide_cbv)
  have hto₁ : p.Leads 0 1 := .single (by rw [entry, hrow₀]; decide_cbv)
  refine ⟨consistent_ofMatrix (by decide) hp, fun i e he => ?_, fun i => ?_, fun i hi => ?_⟩
  · have hi := lt_size_of_mem_columns (List.mem_map_of_mem he)
    rw [hsize] at hi
    revert e
    interval_cases i
    · rw [hrow₀]; decide_cbv
    · rw [hrow₁]; decide_cbv
    · rw [hrow₂]; decide_cbv
  · by_cases hi : i < 3
    · interval_cases i
      · rw [hrow₀]; decide_cbv
      · rw [hrow₁]; decide_cbv
      · exact hleak.le
    · rw [row_of_size_le (by omega)]
      decide_cbv
  · refine ⟨2, ?_, hleak⟩
    rw [hsize] at hi
    interval_cases i
    · exact hto₁.trans hto₂
    · exact hto₂
    · exact .refl

/-- The state that leaks is eliminated first, and the last state has a self-loop by then. -/
theorem eliminateEach_leaking_spill : ∃ p, ofMatrix .rewards spillMatrix [1, 1, 1] = .ok p ∧
    p.Leaking ∧ (∃ q, p.eliminateEach [2, 0, 1] = .ok q) ∧
    ∃ q, p.eliminateEach [2, 0] = .ok q ∧ q.loop .rat 1 < 1 ∧
    ∃ q', q.resolveLast 1 = .ok q' := by
  obtain ⟨p, hp⟩ := exists_eq_ok_of_isOk (x := ofMatrix .rewards spillMatrix [1, 1, 1]) (by cbv)
  have hsize : p.size = 3 := size_ofMatrix hp
  have hleaking := leaking_spill hp
  have horder : ∀ s ∈ [2, 0, 1], s < p.size := by
    rw [hsize]
    decide
  obtain ⟨hall, hsplit⟩ := eliminateEach_leaking p hleaking [2, 0, 1] horder
  obtain ⟨q, hq, hloop, hlast⟩ := hsplit [2, 0] 1 [] rfl
  refine ⟨p, hp, hleaking, hall, q, hq, hloop, hlast ?_⟩
  intro i hi hne
  have : i = 2 ∨ i = 0 := by omega
  simpa using this

end Leaking

end MarkovElimination.Problem
