import MarkovElimination.Proofs.Elimination.KeptRows

/-! # Resumed eliminations

An elimination can be done in two steps: the first one redirects the predecessors in a set and keeps
the row of its state, the second one redirects the others and drops the row. The three plans (first
step, second step, and everything at once) fit together (`Resumption`), whatever the kind of
weights. So both ways lead to the same rows on both sides, and in a problem of probabilities to the
same values.

In a problem of rewards the first step resolves the self-loop in the row that it keeps, but not in
the value of the state. The second step then finds no self-loop, and the predecessors that were left
for it lose what the self-loop would have added (`forgotten`). -/

namespace MarkovElimination.Problem

section Plans

variable {α : Type} [Weight α]

/-- What marks a predecessor after a plan is carried out. -/
theorem IsPlan.get?_incomingRow_redirect {p : Problem α} {s : Nat} {drop : Bool}
    {constraint : Option StateSet} {r : Redirection α} (h : p.IsPlan s drop constraint r)
    (hp : p.Consistent) (j c : Nat) :
    ((p.redirect r).incomingRow j).get? c =
      if j = s then if c ∈ r.kept then some 1 else none
      else if j ∈ r.outgoing.columns then
        (if drop = true ∧ c = s then none else (p.incomingRow j).get? c).or
          (if c ∈ r.redirected then some 1 else none)
      else (p.incomingRow j).get? c := by
  rw [h.incomingRow_redirect hp, Redirection.newIncoming, h.state_eq, h.drop_eq]
  by_cases hjs : j = s
  · rw [if_pos hjs, if_pos hjs, Row.get?_marks]
  rw [if_neg hjs, if_neg hjs]
  by_cases hj : j ∈ r.outgoing.columns
  · rw [if_pos (Row.hasColumn_iff.2 hj), if_pos hj]
    cases drop with
    | true =>
      rw [if_pos rfl, Row.get?_mark ((hp.incoming_sorted j).erase s), Row.get?_erase]
      simp
    | false =>
      rw [if_neg (by simp), Row.get?_mark (hp.incoming_sorted j)]
      simp
  · rw [if_neg (by rwa [Row.hasColumn_iff]), if_neg hj]

/-- **The plans of a resumed elimination** of a state: the first step redirects the predecessors in
a set, the second step all that are left, and the full plan does it at once. -/
structure Resumption (p : Problem α) (s : Nat) (set : StateSet)
    (first second full : Redirection α) : Prop where
  consistent : p.Consistent
  first_eq : p.redirection s false (some set) = .ok first
  second_eq : (p.redirect first).redirection s true none = .ok second
  full_eq : p.redirection s true none = .ok full

namespace Resumption

variable {p : Problem α} {s : Nat} {set : StateSet} {first second full : Redirection α}

theorem isPlan_first (h : p.Resumption s set first second full) :
    p.IsPlan s false (some set) first :=
  isPlan_of_redirection h.first_eq

theorem isPlan_second (h : p.Resumption s set first second full) :
    (p.redirect first).IsPlan s true none second :=
  isPlan_of_redirection h.second_eq

theorem isPlan_full (h : p.Resumption s set first second full) : p.IsPlan s true none full :=
  isPlan_of_redirection h.full_eq

/-- Both steps start from consistent problems. -/
theorem consistent_first (h : p.Resumption s set first second full) :
    (p.redirect first).Consistent :=
  h.consistent.redirect h.isPlan_first

/-! ### How the plans fit together -/

/-- The first step and the full plan agree about the state itself. -/
theorem first_agrees (h : p.Resumption s set first second full) :
    first.factor = full.factor ∧ first.outgoing = full.outgoing ∧ first.value = full.value := by
  obtain ⟨-, factor, hfactor, -, hf, hout, hvalue, -⟩ := redirection_eq_ok h.first_eq
  obtain ⟨-, factor', hfactor', -, hf', hout', hvalue', -⟩ := redirection_eq_ok h.full_eq
  obtain rfl : factor = factor' := by
    rw [hfactor] at hfactor'
    cases hfactor'
    rfl
  exact ⟨hf.trans hf'.symm, hout.trans hout'.symm, hvalue.trans hvalue'.symm⟩

/-- The first step leaves what the full plan sends on as the row of the state. -/
theorem row_first_self (h : p.Resumption s set first second full) :
    (p.redirect first).row s = full.outgoing := by
  rw [h.isPlan_first.row_redirect_self, ← h.first_agrees.2.1]
  rfl

/-- The first step leaves the value of the full plan at the state. -/
theorem value_first_self (h : p.Resumption s set first second full) :
    (p.redirect first).value s = full.value := by
  rw [h.isPlan_first.value_redirect_self h.consistent, h.first_agrees.2.2]

/-- What the full plan sends on does not return to the state. -/
theorem not_mem_columns_outgoing (h : p.Resumption s set first second full) :
    s ∉ full.outgoing.columns := by
  rw [h.isPlan_full.mem_columns_outgoing]
  exact fun hmem => hmem.2 rfl

/-- **The second step finds no self-loop**, and the state as the full plan has it. -/
theorem second_agrees (h : p.Resumption s set first second full) :
    second.factor = none ∧ second.outgoing = full.outgoing ∧ second.value = full.value := by
  obtain ⟨-, factor, hfactor, -, hf, hout, hvalue, -⟩ := redirection_eq_ok h.second_eq
  have hloop : ((p.redirect first).row s).get? s = none := by
    rw [h.row_first_self, Row.get?_eq_none_iff]
    exact h.not_mem_columns_outgoing
  obtain rfl : factor = none := by
    rw [rescaling, hloop] at hfactor
    cases hfactor
    rfl
  refine ⟨hf, ?_, ?_⟩
  · rw [hout, h.row_first_self]
    exact Row.erase_eq_self h.not_mem_columns_outgoing
  · rw [hvalue, h.value_first_self]
    cases (p.redirect first).mode <;> rfl

/-- The second step redirects the predecessors that the first step keeps. -/
theorem mem_redirected_second (h : p.Resumption s set first second full) {i : Nat} :
    i ∈ second.redirected ↔ i ∈ first.kept := by
  rw [h.isPlan_second.mem_redirected, h.isPlan_first.mem_predecessors_redirect h.consistent,
    if_pos rfl]
  constructor
  · intro hi
    exact hi.1.1
  · intro hi
    exact ⟨⟨hi, ((h.isPlan_first.mem_kept i).1 hi).1.2⟩, allows_none i⟩

/-- The full plan redirects what either step redirects. -/
theorem mem_redirected_full (h : p.Resumption s set first second full) {i : Nat} :
    i ∈ full.redirected ↔ i ∈ first.redirected ∨ i ∈ first.kept := by
  rw [h.isPlan_full.mem_redirected, h.isPlan_first.mem_redirected, h.isPlan_first.mem_kept]
  have := allows_none i
  tauto

/-- No predecessor is redirected twice. -/
theorem not_mem_kept (h : p.Resumption s set first second full) {i : Nat}
    (hi : i ∈ first.redirected) : i ∉ first.kept := by
  intro hkept
  exact ((h.isPlan_first.mem_kept i).1 hkept).2 ((h.isPlan_first.mem_redirected i).1 hi).2

/-- The state itself is neither redirected nor kept. -/
theorem self_not_mem (h : p.Resumption s set first second full) :
    s ∉ first.redirected ∧ s ∉ first.kept :=
  ⟨fun hs => ((h.isPlan_first.mem_redirected s).1 hs).1.2 rfl,
    fun hs => ((h.isPlan_first.mem_kept s).1 hs).1.2 rfl⟩

/-- The second step keeps no predecessor, and neither does the full plan. -/
theorem kept_eq_nil (h : p.Resumption s set first second full) :
    second.kept = [] ∧ full.kept = [] := by
  constructor
  · rw [List.eq_nil_iff_forall_not_mem]
    intro i hi
    exact ((h.isPlan_second.mem_kept i).1 hi).2 (allows_none i)
  · rw [List.eq_nil_iff_forall_not_mem]
    intro i hi
    exact ((h.isPlan_full.mem_kept i).1 hi).2 (allows_none i)

/-! ### Both sides of the result -/

/-- **Both ways lead to the same rows.** -/
theorem row_eq (h : p.Resumption s set first second full) (i : Nat) :
    ((p.redirect first).redirect second).row i = (p.redirect full).row i := by
  have hfirst := h.isPlan_first
  have hsecond := h.isPlan_second
  have hfull := h.isPlan_full
  by_cases his : i = s
  · rw [his, hsecond.row_redirect_self, hfull.row_redirect_self]
    rfl
  by_cases hred : i ∈ first.redirected
  · -- Redirected by the first step, and left alone by the second one.
    obtain ⟨m, hm⟩ := hfirst.exists_multiplier h.consistent hred
    have hnot : i ∉ second.redirected := by
      rw [h.mem_redirected_second]
      exact h.not_mem_kept hred
    rw [hsecond.row_redirect_of_not_mem his hnot, hfirst.row_redirect_of_mem hred hm,
      hfull.row_redirect_of_mem (h.mem_redirected_full.2 (.inl hred)) hm, h.first_agrees.2.1]
  have hrow := hfirst.row_redirect_of_not_mem his hred
  by_cases hkept : i ∈ first.kept
  · -- Left alone by the first step, and redirected by the second one.
    obtain ⟨m, hm⟩ := hsecond.exists_multiplier h.consistent_first
      (h.mem_redirected_second.2 hkept)
    rw [hsecond.row_redirect_of_mem (h.mem_redirected_second.2 hkept) hm, hrow,
      hfull.row_redirect_of_mem (h.mem_redirected_full.2 (.inr hkept)) (hrow ▸ hm),
      h.second_agrees.2.1]
  · rw [hsecond.row_redirect_of_not_mem his (by rwa [h.mem_redirected_second]), hrow,
      hfull.row_redirect_of_not_mem his (by rw [h.mem_redirected_full]; tauto)]

/-- **Both ways mark the same predecessors.** -/
theorem incomingRow_eq (h : p.Resumption s set first second full) (j : Nat) :
    ((p.redirect first).redirect second).incomingRow j = (p.redirect full).incomingRow j := by
  have hsecond := h.consistent_first.redirect h.isPlan_second
  have hfull := h.consistent.redirect h.isPlan_full
  refine (hsecond.incoming_sorted j).ext_get? (hfull.incoming_sorted j) fun c => ?_
  rw [h.isPlan_second.get?_incomingRow_redirect h.consistent_first,
    h.isPlan_first.get?_incomingRow_redirect h.consistent,
    h.isPlan_full.get?_incomingRow_redirect h.consistent, h.kept_eq_nil.1, h.kept_eq_nil.2,
    h.second_agrees.2.1, h.first_agrees.2.1]
  by_cases hjs : j = s
  · simp [hjs]
  by_cases hj : j ∈ full.outgoing.columns
  · simp only [if_neg hjs, if_pos hj, h.mem_redirected_second, h.mem_redirected_full]
    by_cases hcs : c = s
    · -- Both ways drop the mark of the state, and neither redirects the state.
      simp [hcs, h.self_not_mem]
    · -- The first step marks what it redirects, the second step the others.
      by_cases hred : c ∈ first.redirected
      · simp [hcs, hred, h.not_mem_kept hred]
      · simp [hcs, hred]
  · simp [hjs, hj]

/-! ### The values -/

/-- The first step passes on what the full plan passes on. -/
theorem flow_first (h : p.Resumption s set first second full) (mode : ValueMode) (m : α) :
    first.flow mode m = full.flow mode m := by
  unfold Redirection.flow
  rw [h.first_agrees.1, h.first_agrees.2.2]

/-- The second step passes on the value of the state without a factor. -/
theorem flow_second (h : p.Resumption s set first second full) (mode : ValueMode) (m : α) :
    second.flow mode m = Weight.simplify (m * full.value) := by
  unfold Redirection.flow
  rw [h.second_agrees.1, h.second_agrees.2.2]
  cases mode <;> rfl

/-- What the first step redirects, and what is no predecessor, has the same value both ways. -/
theorem value_eq_of_not_mem_kept (h : p.Resumption s set first second full) {i : Nat}
    (hi : i ∉ first.kept) :
    ((p.redirect first).redirect second).value i = (p.redirect full).value i := by
  have hfirst := h.isPlan_first
  have hsecond := h.isPlan_second
  have hfull := h.isPlan_full
  by_cases his : i = s
  · rw [his, hsecond.value_redirect_self h.consistent_first,
      hfull.value_redirect_self h.consistent, h.second_agrees.2.2]
  rw [hsecond.value_redirect_of_not_mem h.consistent_first his (by rwa [h.mem_redirected_second])]
  by_cases hred : i ∈ first.redirected
  · obtain ⟨m, hm⟩ := hfirst.exists_multiplier h.consistent hred
    rw [hfirst.value_redirect_of_mem h.consistent hred hm,
      hfull.value_redirect_of_mem h.consistent (h.mem_redirected_full.2 (.inl hred)) hm,
      h.flow_first]
  · rw [hfirst.value_redirect_of_not_mem h.consistent his hred,
      hfull.value_redirect_of_not_mem h.consistent his (by rw [h.mem_redirected_full]; tauto)]

/-- **A predecessor that is left for the second step** gets the value of the state as it stands. -/
theorem value_of_mem_kept (h : p.Resumption s set first second full) {i : Nat}
    (hi : i ∈ first.kept) : ∃ m, (p.row i).get? s = some m ∧
      ((p.redirect first).redirect second).value i =
        Weight.simplify (p.value i + Weight.simplify (m * full.value)) ∧
      (p.redirect full).value i = Weight.simplify (p.value i + full.flow p.mode m) := by
  have his : i ≠ s := ((h.isPlan_first.mem_kept i).1 hi).1.2
  have hred : i ∉ first.redirected := fun hred => h.not_mem_kept hred hi
  have hrow := h.isPlan_first.row_redirect_of_not_mem his hred
  have hvalue := h.isPlan_first.value_redirect_of_not_mem h.consistent his hred
  obtain ⟨m, hm⟩ := h.isPlan_second.exists_multiplier h.consistent_first
    (h.mem_redirected_second.2 hi)
  rw [hrow] at hm
  refine ⟨m, hm, ?_, h.isPlan_full.value_redirect_of_mem h.consistent
    (h.mem_redirected_full.2 (.inr hi)) hm⟩
  rw [h.isPlan_second.value_redirect_of_mem h.consistent_first (h.mem_redirected_second.2 hi)
    (by rwa [hrow]), hvalue, h.flow_second]

/-- **In a problem of probabilities both ways lead to the same values.** -/
theorem value_eq (h : p.Resumption s set first second full) (hmode : p.mode = .probabilities)
    (i : Nat) : ((p.redirect first).redirect second).value i = (p.redirect full).value i := by
  by_cases hi : i ∈ first.kept
  · obtain ⟨m, -, hresumed, hfull⟩ := h.value_of_mem_kept hi
    rw [hresumed, hfull, hmode]
    rfl
  · exact h.value_eq_of_not_mem_kept hi

end Resumption

end Plans

/-! ### Rational numbers -/

/-- What an excluded predecessor loses if the elimination is resumed: in a problem of rewards, all
that the self-loop of the state adds. -/
def forgotten (p : Problem ℚ) (s : Nat) (set : StateSet) (i : Nat) : ℚ :=
  match p.mode with
  | .probabilities => 0
  | .rewards =>
    if set.contains i then 0
    else p.entry .rat i s * p.value s * (p.loop .rat s / (1 - p.loop .rat s))

/-- **A resumed elimination compared with a full one**: the same rows on both sides, and the same
values up to what is forgotten. -/
structure Resumes (p : Problem ℚ) (s : Nat) (set : StateSet) (resumed full : Problem ℚ) :
    Prop where
  size_eq : resumed.size = full.size
  row_eq : ∀ i, resumed.row i = full.row i
  incomingRow_eq : ∀ j, resumed.incomingRow j = full.incomingRow j
  value_self : full.value s = resumed.value s
  value_eq : ∀ i, i ≠ s → full.value i = resumed.value i + p.forgotten s set i

variable {p : Problem ℚ} {s : Nat} {set : StateSet} {first second full : Redirection ℚ}

/-- Nothing is forgotten about a state that is not left for the second step. -/
theorem Resumption.forgotten_eq_zero (h : p.Resumption s set first second full) {i : Nat}
    (his : i ≠ s) (hi : i ∉ first.kept) : p.forgotten s set i = 0 := by
  unfold forgotten
  cases p.mode with
  | probabilities => rfl
  | rewards =>
    by_cases hset : set.contains i = true
    · exact if_pos hset
    · have hcol : s ∉ (p.row i).columns := by
        rw [← h.consistent.agree]
        intro hpred
        exact hi ((h.isPlan_first.mem_kept i).2 ⟨⟨hpred, his⟩, by rwa [allows_some]⟩)
      have hentry : p.entry .rat i s = 0 := Interpretation.rat.coefficient_of_not_mem hcol
      simp [hset, hentry]

/-- What is forgotten about a predecessor that is left for the second step. -/
theorem Resumption.forgotten_of_mem_kept (h : p.Resumption s set first second full)
    (hmode : p.mode = .rewards) {i : Nat} {m : ℚ} (hi : i ∈ first.kept)
    (hm : (p.row i).get? s = some m) :
    p.forgotten s set i = m * p.value s * (p.loop .rat s / (1 - p.loop .rat s)) := by
  have hset : ¬set.contains i = true := by
    rw [← allows_some]
    exact ((h.isPlan_first.mem_kept i).1 hi).2
  have hentry : p.entry .rat i s = m := Interpretation.rat.coefficient_of_get? hm
  rw [forgotten, hmode, ← hentry]
  exact if_neg hset

/-- **The value of a state after a full elimination** is its value after the two steps, and what
those forget. -/
theorem Resumption.value_eq_add (h : p.Resumption s set first second full)
    (hloop : p.loop .rat s ≠ 1) {i : Nat} (his : i ≠ s) :
    (p.redirect full).value i =
      ((p.redirect first).redirect second).value i + p.forgotten s set i := by
  by_cases hi : i ∈ first.kept
  · cases hmode : p.mode with
    | probabilities =>
      have hzero : p.forgotten s set i = 0 := by rw [forgotten, hmode]
      rw [h.value_eq hmode, hzero, add_zero]
    | rewards =>
      -- The full plan scales the flow by the factor of the self-loop, the second step does not.
      have hplanned := planned_of_redirection p.valid_rat hloop h.full_eq
      obtain ⟨m, hm, hresumed, hfull⟩ := h.value_of_mem_kept hi
      have hvalue : full.value = p.value s := by
        have := hplanned.value_eq
        rwa [hmode] at this
      have hflow : full.flow p.mode m = m * (p.value s / (1 - p.loop .rat s)) :=
        (hplanned.flow_eq trivial).2
      have hne : 1 - p.loop .rat s ≠ 0 := sub_ne_zero.2 hloop.symm
      calc (p.redirect full).value i
          = p.value i + m * (p.value s / (1 - p.loop .rat s)) := by rw [hfull, hflow]; rfl
        _ = p.value i + m * p.value s + m * p.value s * (p.loop .rat s / (1 - p.loop .rat s)) := by
            field_simp
            ring
        _ = ((p.redirect first).redirect second).value i + p.forgotten s set i := by
            rw [hresumed, hvalue, h.forgotten_of_mem_kept hmode hi hm]
            rfl
  · rw [h.value_eq_of_not_mem_kept hi, h.forgotten_eq_zero his hi, add_zero]

/-- **An elimination can be resumed**: a state is first detached from the predecessors in a set and
then from the others. Compared with an elimination at once this leads to the same rows on both
sides, and in a problem of probabilities to the same values. In a problem of rewards the
predecessors that are not in the set lose what the self-loop of the state adds, and no other value
differs. -/
theorem eliminate_resumes (p : Problem ℚ) (s : Nat) (set : StateSet) (hp : p.Consistent)
    (hs : s < p.size) (hloop : ∀ a, (p.row s).get? s = some a → a ≠ 1)
    (hcovers : p.Covers s (some set)) :
    ∃ first resumed full, p.eliminate s false (some set) = .ok first ∧
      first.eliminate s true none = .ok resumed ∧ p.eliminate s true none = .ok full ∧
      p.Resumes s set resumed full := by
  have hne : p.loop .rat s ≠ 1 :=
    loop_ne_one Interpretation.exact_rat p.valid_rat fun a ha => decide_eq_false (hloop a ha)
  obtain ⟨q, hfirst, he⟩ := exists_eliminate_rat hp hs hne false hcovers
  obtain ⟨full, hfull, -⟩ := exists_eliminate_rat hp hs hne true (covers_none p s)
  -- The row that is left has no self-loop, so the second step succeeds as well.
  have hnone : q.loop .rat s = 0 :=
    Interpretation.rat.coefficient_of_not_mem fun hmem => ((he.columns_self s).1 hmem).2.2 rfl
  obtain ⟨resumed, hsecond, -⟩ := exists_eliminate_rat he.consistent (by rwa [he.size_eq])
    (by rw [hnone]; exact zero_ne_one) true (covers_none q s)
  obtain ⟨r, hr, rfl⟩ := eliminate_eq_ok hfirst
  obtain ⟨r', hr', rfl⟩ := eliminate_eq_ok hsecond
  obtain ⟨r'', hr'', rfl⟩ := eliminate_eq_ok hfull
  have h : p.Resumption s set r r' r'' := ⟨hp, hr, hr', hr''⟩
  exact ⟨_, _, _, hfirst, hsecond, hfull, {
    size_eq := by rw [IsPlan.size_redirect, IsPlan.size_redirect, IsPlan.size_redirect]
    row_eq := h.row_eq
    incomingRow_eq := h.incomingRow_eq
    value_self := (h.value_eq_of_not_mem_kept h.self_not_mem.2).symm
    value_eq := fun i his => h.value_eq_add hne his }⟩

/-- State `2` of the fork is detached from one predecessor and later from the other. -/
theorem eliminate_resumes_fork : ∃ p first resumed full,
    ofMatrix .probabilities forkMatrix [0, 0, 1 / 4, 1 / 5] = .ok p ∧
      p.eliminate 2 false (some (.singleton 4 0)) = .ok first ∧
      first.eliminate 2 true none = .ok resumed ∧ p.eliminate 2 true none = .ok full ∧
      p.Resumes 2 (.singleton 4 0) resumed full := by
  obtain ⟨p, hp⟩ := exists_eq_ok_of_isOk
    (x := ofMatrix .probabilities forkMatrix [0, 0, 1 / 4, 1 / 5]) (by cbv)
  obtain ⟨hconsistent, hsize, hloop⟩ := fork_shape hp
  obtain ⟨first, resumed, full, h⟩ :=
    eliminate_resumes p 2 (.singleton 4 0) hconsistent (by omega)
    (by rw [hloop]; simp) (hconsistent.covers (by simp [hsize]))
  exact ⟨p, first, resumed, full, hp, h⟩

/-- A state that leads to a state with a self-loop. -/
def delayMatrix : Matrix ℚ := .ofRows 2 [[⟨1, 1⟩], [⟨1, 1 / 2⟩]]

/-- If the elimination of state `1` first excludes its only predecessor and is then resumed, the
predecessor gets the reward of one visit only. Eliminated at once, it gets that of all visits. -/
theorem eliminate_resumed_delay :
    (∃ p, ofMatrix .rewards delayMatrix [1, 2] = .ok p ∧ p.Consistent ∧ 1 < p.size ∧
      (p.row 1).get? 1 = some (1 / 2)) ∧
    (do
      let p ← ofMatrix .rewards delayMatrix [1, 2]
      let first ← p.eliminate 1 false (some (.empty 2))
      let resumed ← first.eliminate 1 true none
      pure (resumed.value 0)) = .ok 3 ∧
    (do
      let p ← ofMatrix .rewards delayMatrix [1, 2]
      let full ← p.eliminate 1 true none
      pure (full.value 0)) = .ok 5 := by
  obtain ⟨p, hp⟩ := exists_eq_ok_of_isOk (x := ofMatrix .rewards delayMatrix [1, 2]) (by cbv)
  refine ⟨⟨p, hp, consistent_ofMatrix (by decide) hp, ?_, ?_⟩, by cbv, by cbv⟩
  · rw [size_ofMatrix hp]
    decide
  · rw [row_ofMatrix hp]
    cbv

end MarkovElimination.Problem
