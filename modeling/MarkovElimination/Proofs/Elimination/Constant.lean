import MarkovElimination.Elimination.Constant
import MarkovElimination.Proofs.Elimination.Progress
import MarkovElimination.Proofs.Elimination.Schedule

/-! # Partial elimination

Eliminating the constant states of a parametric problem stops before all states but one are gone.
What is left is still a system of equations: it is **closed**, since no row of a state that remains
has an entry for an eliminated one, and the positive vector that all rows decrease shows that it has
one solution only (`Progress.eq_of_solutions`). The invariant of full eliminations carries both
through the visit of all states (`Progress.runs_eliminateConstant`). -/

namespace MarkovElimination

/-! ### Erasing states -/

namespace StateSet

@[simp] theorem size_erase (s : StateSet) (i : Nat) : (s.erase i).size = s.size :=
  size_ofPredicate _ _

/-- The members of a set without one state. -/
theorem contains_erase (s : StateSet) (i j : Nat) :
    (s.erase i).contains j = (j != i && s.contains j) := by
  rw [erase, contains_ofPredicate]
  cases h : s.contains j
  · simp
  · simp [lt_size_of_contains h]

/-- A set has one member more than without it. -/
theorem card_erase_add_one {s : StateSet} {i : Nat} (h : s.contains i = true) :
    (s.erase i).card + 1 = s.card := by
  have hlist : (s.erase i).toList = s.toList.erase i := by
    rw [s.nodup_toList.erase_eq_filter, toList, toList, List.filter_filter, size_erase]
    exact List.filter_congr fun j _ => s.contains_erase i j
  rw [card, card, hlist, List.length_erase_of_mem (mem_toList.2 h)]
  have hpos : 0 < s.toList.length := List.length_pos_of_mem (mem_toList.2 h)
  omega

/-- All states are members of the full set. -/
theorem card_full (n : Nat) : (full n).card = n := by
  have hlist : (full n).toList = List.range n := by
    rw [toList, size_full, List.filter_eq_self]
    intro i hi
    simpa using hi
  rw [card, hlist, List.length_range]

end StateSet

/-! ### Linear combinations -/

namespace Interpretation

variable {α : Type} [Weight α] (I : Interpretation α ℚ)

/-- The dot product with a difference. -/
theorem dot_sub (row : Row α) (x y : Nat → ℚ) :
    I.dot row (fun c => x c - y c) = I.dot row x - I.dot row y := by
  induction row with
  | nil => simp
  | cons e row ih =>
    rw [I.dot_cons, I.dot_cons, I.dot_cons, ih]
    ring

/-- The dot product with a multiple. -/
theorem dot_smul (row : Row α) (a : ℚ) (x : Nat → ℚ) :
    I.dot row (fun c => a * x c) = a * I.dot row x := by
  induction row with
  | nil => simp
  | cons e row ih =>
    rw [I.dot_cons, I.dot_cons, ih]
    ring

end Interpretation

namespace Problem

/-! ### Solutions of what remains -/

section Solutions

variable {α : Type} [Weight α] {I : Interpretation α ℚ} {p : Problem α}
    {x y z w : Nat → ℚ}
  {E : Nat → Prop}

variable (I) in
/-- A vector satisfies the equations of all states outside of `E`. -/
def SolvesOutside (p : Problem α) (E : Nat → Prop) (z : Nat → ℚ) : Prop :=
  ∀ i, i < p.size → ¬E i → z i = I.value (p.value i) + I.dot (p.row i) z

/-- One solution is nowhere larger than another. -/
theorem Progress.le_of_solutions (h : p.Progress I x y E) (hz : p.SolvesOutside I E z)
    (hw : p.SolvesOutside I E w) {i : Nat} (hi : i < p.size) (hE : ¬E i) : z i ≤ w i := by
  classical
  -- Look at the state where the difference is largest, compared with the draining vector.
  let S := (Finset.range p.size).filter fun i => ¬E i
  have hmem {i : Nat} : i ∈ S ↔ i < p.size ∧ ¬E i := by simp [S]
  obtain ⟨k, hk, hmax⟩ :=
    S.exists_max_image (fun i => (z i - w i) / y i) ⟨i, hmem.2 ⟨hi, hE⟩⟩
  obtain ⟨hksize, hkE⟩ := hmem.1 hk
  set a := (z k - w k) / y k with ha
  have hbound {j : Nat} (hj : j < p.size) (hjE : ¬E j) : z j - w j ≤ a * y j :=
    (div_le_iff₀ (h.pos j)).1 (hmax j (hmem.2 ⟨hj, hjE⟩))
  have hak : z k - w k = a * y k := by
    rw [ha, div_mul_cancel₀ _ (h.pos k).ne']
  have hnonpos : a ≤ 0 := by
    by_contra hpos
    -- The row would carry the largest difference to its own state, but it drains.
    have hrow : z k - w k ≤ a * I.dot (p.row k) y := by
      calc z k - w k = I.dot (p.row k) fun c => z c - w c := by
            rw [I.dot_sub, hz k hksize hkE, hw k hksize hkE]
            ring
        _ ≤ I.dot (p.row k) fun c => a * y c :=
            (h.proper.positive k).dot_mono fun c hc =>
              hbound (h.proper.consistent.column_lt k c hc) (h.gone k c hc)
        _ = a * I.dot (p.row k) y := I.dot_smul _ _ _
    nlinarith [h.drains k, not_le.1 hpos]
  have hle := hbound hi hE
  nlinarith [h.pos i]

/-- **What remains has one solution.** -/
theorem Progress.eq_of_solutions (h : p.Progress I x y E) (hz : p.SolvesOutside I E z)
    (hw : p.SolvesOutside I E w) {i : Nat} (hi : i < p.size) (hE : ¬E i) : z i = w i :=
  le_antisymm (h.le_of_solutions hz hw hi hE) (h.le_of_solutions hw hz hi hE)

end Solutions

/-! ### Visiting all states -/

section Constant

variable {I : Interpretation RationalFunction ℚ} {p : Problem RationalFunction}
    {x y : Nat → ℚ}

/-- Whether entries are constant can be told where no operation leaves the range. -/
theorem constantFits_of_unbounded (h : Weight.Unbounded RationalFunction)
    (row : Row RationalFunction) : constantFits row = true := by
  induction row with
  | nil => rfl
  | cons e row ih =>
    have he : e.value.simplifyFits = true := h.simplifyFits e.value
    simp [constantFits, he, ih]

variable (I) in
/-- **The invariant of a partial elimination** of `p`, after the states of `done` are visited: the
states that do not remain are eliminated, and every state that is not visited remains. -/
structure Reducing (x y : Nat → ℚ) (p : Problem RationalFunction) (done : List Nat)
    (state : StateSet × Problem RationalFunction) : Prop where
  progress : state.2.Progress I x y fun i => i < p.size ∧ state.1.contains i = false
  size_eq : state.2.size = p.size
  remaining_size : state.1.size = p.size
  unvisited : ∀ i, i < p.size → i ∉ done → state.1.contains i = true
  count : state.1.card + state.2.eliminated = p.size + p.eliminated

/-- No state is eliminated at the start. -/
theorem Progress.reducing (h : p.Progress I x y fun _ => False) :
    p.Reducing I x y [] (.full p.size, p) where
  progress := h.congr fun i => by simp
  size_eq := rfl
  remaining_size := StateSet.size_full _
  unvisited i hi _ := by simpa using hi
  count := by rw [StateSet.card_full]

/-- A state that is visited may remain. -/
theorem Reducing.keep {done : List Nat} {state : StateSet × Problem RationalFunction} {s : Nat}
    (h : p.Reducing I x y done state) : p.Reducing I x y (done ++ [s]) state where
  progress := h.progress
  size_eq := h.size_eq
  remaining_size := h.remaining_size
  unvisited i hi hnot := h.unvisited i hi fun hmem => hnot (List.mem_append_left _ hmem)
  count := h.count

/-- **A state that is visited may be eliminated.** -/
theorem Reducing.eliminate {done : List Nat} {state : StateSet × Problem RationalFunction}
    {s : Nat} (h : p.Reducing I x y done state) (hs : s < p.size) (hnew : s ∉ done) :
    Meets I.RangeFault (fun q => p.Reducing I x y (done ++ [s]) (state.1.erase s, q))
      (state.2.eliminate s true none) := by
  have hmem : state.1.contains s = true := h.unvisited s hs hnew
  have hmeets := h.progress.eliminate (h.size_eq ▸ hs)
  cases hq : state.2.eliminate s true none with
  | error f =>
    rw [hq] at hmeets
    exact hmeets
  | ok q =>
    rw [hq] at hmeets
    obtain ⟨hprogress, hsize, -⟩ := hmeets
    refine ⟨hprogress.congr fun i => ?_, hsize.trans h.size_eq, ?_, fun i hi hnot => ?_, ?_⟩
    · rw [StateSet.contains_erase, Bool.and_eq_false_iff, bne_eq_false_iff_eq]
      constructor
      · rintro (⟨hi, hgone⟩ | rfl)
        · exact ⟨hi, .inr hgone⟩
        · exact ⟨hs, .inl rfl⟩
      · rintro ⟨hi, rfl | hgone⟩
        · exact .inr rfl
        · exact .inl ⟨hi, hgone⟩
    · rw [StateSet.size_erase, h.remaining_size]
    · rw [List.mem_append, List.mem_singleton, not_or] at hnot
      rw [StateSet.contains_erase, h.unvisited i hi hnot.1]
      simpa using hnot.2
    · have hcard := StateSet.card_erase_add_one hmem
      have hcount := h.count
      have hlength : q.eliminated = state.2.eliminated + 1 := by
        rw [eliminated, history_eliminate hq]
        rfl
      show (state.1.erase s).card + q.eliminated = _
      omega

/-- **Eliminating the constant states** succeeds and keeps the invariant. -/
theorem Progress.runs_eliminateConstant (h : p.Progress I x y fun _ => False)
    {protectedStates : StateSet} (hsize : protectedStates.size = p.size) :
    Runs (Interruption.IsFault I.RangeFault)
      (p.Reducing I x y protectedStates.complement.toList)
      (p.eliminateConstant protectedStates) := by
  refine Runs.foldlM_done (J := p.Reducing I x y) (fun done s rest state hsplit hJ => ?_) h.reducing
  have hs : s < p.size := by
    have hmem : s ∈ protectedStates.complement.toList := by
      rw [hsplit]
      simp
    have hlt := StateSet.lt_size_of_contains (StateSet.mem_toList.1 hmem)
    rwa [StateSet.size_complement, hsize] at hlt
  have hnew : s ∉ done := by
    -- The states to visit are listed once.
    have hnodup := protectedStates.complement.nodup_toList
    rw [hsplit, List.nodup_append] at hnodup
    exact fun hmem => hnodup.2.2 s hmem s List.mem_cons_self rfl
  refine (Monitored.runs_ofFault (I.requireRange_meets fun hu =>
    constantFits_of_unbounded hu _)).bind fun _ _ => ?_
  by_cases hconstant : state.2.isConstantState s = true
  · rw [if_pos hconstant]
    exact (runs_eliminateMonitored (hJ.eliminate hs hnew)).bind fun q hq => .pure hq
  · rw [if_neg hconstant]
    exact .pure hJ.keep

end Constant

end Problem

end MarkovElimination
