import Mathlib
import MarkovElimination.Checking.Reachability
import MarkovElimination.Proofs.Elimination.Strategy
import MarkovElimination.Proofs.Model.Semantics

/-! # Chains restricted to a set of states

A check hands the transitions among a set `R` of states to elimination, renumbered: state `k` of the
problem stands for the `k`-th member of `R`. The problem of a restriction is proper, and a vector
that vanishes outside of `R` has the same dot products with its rows as with the rows of the chain
(`IsRestriction.dot_row`). If `R` is transient, the elimination of all states but one therefore ends
with the solution of a system on the whole chain (`runs_eliminateMaybe`). -/

namespace MarkovElimination

/-- The position of a member, if there is one. -/
theorem StateSet.idxOf?_eq_some_iff {s : StateSet} {i k : Nat} :
    s.toList.idxOf? i = some k ↔ s.toList[k]? = some i := by
  rw [List.idxOf?_eq_map_finIdxOf?_val, Option.map_eq_some_iff]
  constructor
  · rintro ⟨j, hj, rfl⟩
    rw [List.finIdxOf?_eq_some_iff] at hj
    rw [List.getElem?_eq_getElem j.isLt, ← hj.1]
    rfl
  · intro h
    obtain ⟨hk, hi⟩ := List.getElem?_eq_some_iff.1 h
    refine ⟨⟨k, hk⟩, ?_, rfl⟩
    rw [List.finIdxOf?_eq_some_iff]
    refine ⟨hi, fun j hj hji => ?_⟩
    have hjk : (j : Nat) = k := s.nodup_toList.getElem_inj_iff.1 (hji.trans hi.symm)
    exact absurd hjk (Nat.ne_of_lt hj)

/-- The value of a vector over the states of a space at the position of a member, `d` at positions
without one. -/
def StateSet.atPosition {β : Type} (s : StateSet) (d : β) (x : Nat → β) (k : Nat) : β :=
  (s.toList[k]?).elim d x

/-- The value at the position of a member is that of the member. -/
theorem StateSet.atPosition_of_getElem? {β : Type} {s : StateSet} {k i : Nat}
    (h : s.toList[k]? = some i) (d : β) (x : Nat → β) : s.atPosition d x k = x i := by
  rw [atPosition, h]
  rfl

namespace Matrix

variable {α : Type} [Weight α]

/-! ### Restricted rows -/

omit [Weight α] in
/-- The columns of a restricted row are the positions of its columns in the set. -/
theorem mem_columns_restrictRow {R : StateSet} {row : Row α} {j : Nat} :
    j ∈ (restrictRow R row).columns ↔ ∃ t, R.toList[j]? = some t ∧ t ∈ row.columns := by
  simp only [restrictRow, Row.columns, List.mem_map, List.mem_filterMap, Option.map_eq_some_iff,
    StateSet.idxOf?_eq_some_iff]
  constructor
  · rintro ⟨_, ⟨e, he, j, hj, rfl⟩, rfl⟩
    exact ⟨e.column, hj, e, he, rfl⟩
  · rintro ⟨_, hj, e, he, rfl⟩
    exact ⟨⟨j, e.value⟩, ⟨e, he, j, hj, rfl⟩, rfl⟩

omit [Weight α] in
/-- A restricted row starts with the position of its first column, if that is in the set. -/
theorem restrictRow_cons (R : StateSet) (e : Entry α) (row : Row α) :
    restrictRow R (e :: row) = (match R.toList.idxOf? e.column with
      | none => restrictRow R row
      | some j => ⟨j, e.value⟩ :: restrictRow R row) := by
  rw [restrictRow, List.filterMap_cons]
  cases R.toList.idxOf? e.column <;> rfl

omit [Weight α] in
/-- Renumbering keeps the order of columns. -/
theorem sorted_restrictRow {row : Row α} (h : row.Sorted) (R : StateSet) :
    (restrictRow R row).Sorted := by
  induction row with
  | nil => exact List.Pairwise.nil
  | cons e row ih =>
    obtain ⟨hlt, hrow⟩ := Row.sorted_cons.1 h
    rw [restrictRow_cons]
    cases hj : R.toList.idxOf? e.column with
    | none => exact ih hrow
    | some j =>
      refine Row.sorted_cons.2 ⟨fun k hk => ?_, ih hrow⟩
      obtain ⟨t, ht, hmem⟩ := mem_columns_restrictRow.1 hk
      -- Positions increase with the members.
      rw [StateSet.idxOf?_eq_some_iff] at hj
      obtain ⟨hjlt, hjcol⟩ := List.getElem?_eq_some_iff.1 hj
      obtain ⟨hklt, hkcol⟩ := List.getElem?_eq_some_iff.1 ht
      by_contra hjk
      rcases (not_lt.1 hjk).eq_or_lt with heq | hkj
      · subst heq
        have := hlt t hmem
        omega
      · have hpair := List.pairwise_iff_getElem.1 R.pairwise_toList k j hklt hjlt hkj
        have := hlt t hmem
        omega

/-- Entries of a restricted row have the values of entries of the row. -/
theorem positiveRow_restrictRow {I : Interpretation α ℚ} {row : Row α} (h : I.PositiveRow row)
    (R : StateSet) : I.PositiveRow (restrictRow R row) := by
  intro e he
  obtain ⟨d, hd, hmap⟩ := List.mem_filterMap.1 he
  obtain ⟨j, -, rfl⟩ := Option.map_eq_some_iff.1 hmap
  exact h d hd

/-- **Dot products of restricted rows** are those of the row, for vectors that vanish where it is
cut off. -/
theorem dot_restrictRow (I : Interpretation α ℚ) {R : StateSet} {row : Row α} {x : Nat → ℚ}
    (hx : ∀ t ∈ row.columns, R.contains t = false → x t = 0) (d : ℚ) :
    I.dot (restrictRow R row) (R.atPosition d x) = I.dot row x := by
  induction row with
  | nil => rfl
  | cons e row ih =>
    obtain ⟨he, hrow⟩ := List.forall_mem_cons.1 hx
    rw [restrictRow_cons, I.dot_cons]
    cases hj : R.toList.idxOf? e.column with
    | none =>
      -- The entry is cut off, where the vector vanishes.
      have hout : R.contains e.column = false := by
        rw [← Bool.not_eq_true, ← StateSet.mem_toList]
        exact List.idxOf?_eq_none_iff.1 hj
      show I.dot (restrictRow R row) _ = _
      rw [he hout, mul_zero, zero_add, ih hrow]
    | some j =>
      show I.dot (⟨j, e.value⟩ :: restrictRow R row) _ = _
      rw [I.dot_cons, ih hrow, StateSet.atPosition_of_getElem? (StateSet.idxOf?_eq_some_iff.1 hj)]

/-- The number of rows of a submatrix. -/
@[simp] theorem rowCount_submatrix (m : Matrix α) (R C : StateSet) :
    (m.submatrix R C).rowCount = R.card := by
  simp [submatrix, ofRows, rowCount, StateSet.card]

/-- The rows of a submatrix. -/
theorem row_submatrix (m : Matrix α) (R C : StateSet) (k : Nat) : (m.submatrix R C).row k =
    (R.toList[k]?).elim [] fun s => (restrictRow C (m.row s)).dropZeros := by
  rw [submatrix, row, ofRows, Array.getD_eq_getD_getElem?, List.getElem?_toArray, List.getElem?_map]
  cases R.toList[k]? <;> rfl

end Matrix

/-! ### The problem of a restriction -/

namespace Problem

variable {α : Type} [Weight α] {I : Interpretation α ℚ}

variable (I) in
/-- The problem of a matrix and a list of values. -/
structure IsOfMatrix (m : Matrix α) (mode : ValueMode) (values : List α) (p : Problem α) :
    Prop where
  proper : p.Proper I
  size_eq : p.size = m.rowCount
  mode_eq : p.mode = mode
  value_eq : ∀ k, p.value k = values.getD k 0
  row_eq : ∀ k, p.row k = m.row k

/-- **A square matrix of positive entries** gives a proper problem. -/
theorem ofMatrix_meets {m : Matrix α} (mode : ValueMode) {values : List α}
    (hsquare : m.rowCount = m.columns) (hlength : m.rowCount = values.length)
    (hpositive : ∀ k, I.PositiveRow (m.row k)) (hsorted : ∀ k, (m.row k).Sorted)
    (hlt : ∀ k, ∀ j ∈ (m.row k).columns, j < m.rowCount)
    (hvalid : ∀ a ∈ values, I.Valid a) :
    Meets I.RangeFault (IsOfMatrix I m mode values) (Problem.ofMatrix mode m values) := by
  have hguard : ¬(m.rowCount ≠ m.columns || m.rowCount ≠ values.length) = true := by
    simp [hsquare, ← hlength]
  have hm : m.WellFormed := ⟨hsorted, fun k j hj => hsquare ▸ hlt k j hj⟩
  cases h : Problem.ofMatrix mode m values with
  | error f =>
    rw [Problem.ofMatrix, if_neg hguard] at h
    simp [pure, Except.pure] at h
  | ok p =>
    -- Entries are positive, so no zero is dropped.
    have hrow (k : Nat) : p.row k = m.row k := by
      rw [row_ofMatrix h, (hpositive k).dropZeros_eq]
    have hvalue (k : Nat) : p.value k = values.getD k 0 := by
      obtain ⟨-, -, rfl⟩ := ofMatrix_eq_ok h
      rw [value, Array.getD_eq_getD_getElem?, List.getElem?_toArray, List.getD_eq_getElem?_getD]
    have hmode : p.mode = mode := by
      obtain ⟨-, -, rfl⟩ := ofMatrix_eq_ok h
      rfl
    refine ⟨⟨consistent_ofMatrix hm h, fun k => ?_, fun k => ?_⟩, size_ofMatrix h, hmode,
      hvalue, hrow⟩
    · rw [hrow]
      exact hpositive k
    · rw [hvalue, List.getD_eq_getElem?_getD]
      cases hk : values[k]? with
      | none => exact I.valid_zero
      | some a => exact hvalid a (List.mem_of_getElem? hk)

end Problem

namespace Chain

variable {α : Type} [Weight α] {I : Interpretation α ℚ} {c : Chain α}

variable (I) in
/-- A problem that stands for the transitions of a chain among the states of `R`. -/
structure IsRestriction (c : Chain α) (R : StateSet) (mode : ValueMode) (values : List α)
    (p : Problem α) : Prop where
  proper : p.Proper I
  size_eq : p.size = R.card
  mode_eq : p.mode = mode
  value_eq : ∀ k, p.value k = values.getD k 0
  row_eq : ∀ k s, R.toList[k]? = some s →
    p.row k = Matrix.restrictRow R (c.transitions.row s)

/-- Transitions are positive, so the submatrix of a set of states drops none of them. -/
theorem Stochastic.row_submatrix (h : c.Stochastic I) (R : StateSet) (k : Nat) :
    (c.transitions.submatrix R R).row k =
      (R.toList[k]?).elim [] fun s => Matrix.restrictRow R (c.transitions.row s) := by
  rw [Matrix.row_submatrix]
  cases R.toList[k]? with
  | none => rfl
  | some s => exact (Matrix.positiveRow_restrictRow (h.positive s) R).dropZeros_eq

/-- **The problem of a restriction** of a stochastic chain. -/
theorem Stochastic.ofMatrix_meets (h : c.Stochastic I) (R : StateSet) (mode : ValueMode)
    {values : List α} (hlength : values.length = R.card) (hvalid : ∀ a ∈ values, I.Valid a) :
    Meets I.RangeFault (c.IsRestriction I R mode values)
      (Problem.ofMatrix mode (c.transitions.submatrix R R) values) := by
  have hcount : (c.transitions.submatrix R R).rowCount = R.card := Matrix.rowCount_submatrix _ _ _
  refine (Problem.ofMatrix_meets mode hcount (hcount.trans hlength.symm) (fun k => ?_)
    (fun k => ?_) (fun k j hj => ?_) hvalid).mono fun p hp => ?_
  · rw [h.row_submatrix]
    cases R.toList[k]? with
    | none => exact fun e he => absurd he (by simp)
    | some s => exact Matrix.positiveRow_restrictRow (h.positive s) R
  · rw [h.row_submatrix]
    cases R.toList[k]? with
    | none => exact List.Pairwise.nil
    | some s => exact Matrix.sorted_restrictRow (h.sorted s) R
  · rw [h.row_submatrix] at hj
    rw [hcount]
    cases hk : R.toList[k]? with
    | none => simp [hk] at hj
    | some s =>
      rw [hk] at hj
      obtain ⟨t, ht, -⟩ := Matrix.mem_columns_restrictRow.1 hj
      exact (List.getElem?_eq_some_iff.1 ht).1
  · refine ⟨hp.proper, hp.size_eq.trans hcount, hp.mode_eq, hp.value_eq, fun k s hk => ?_⟩
    rw [hp.row_eq, h.row_submatrix, hk]
    rfl

omit [Weight α] in
/-- The value of an extended vector at the position of a state. -/
theorem atPosition_extend {β : Type} [Zero β] {R : StateSet} {k : Nat} {s : Fin c.size}
    (hk : R.toList[k]? = some ↑s) {d : β} {x : Fin c.size → β} :
    R.atPosition d (c.extend x) k = x s := by
  rw [StateSet.atPosition_of_getElem? hk, c.extend_val]

namespace IsRestriction

variable {R : StateSet} {mode : ValueMode} {values : List α} {p : Problem α}

/-- The columns of the problem are the positions of the successors in the set. -/
theorem mem_columns (hp : c.IsRestriction I R mode values p) {k s : Nat}
    (hk : R.toList[k]? = some s) {j : Nat} :
    j ∈ (p.row k).columns ↔ ∃ t, R.toList[j]? = some t ∧
    t ∈ (c.transitions.row s).columns := by
  rw [hp.row_eq k s hk, Matrix.mem_columns_restrictRow]

/-- Dot products with vectors that vanish outside of the set are those of the chain. -/
theorem dot_row (hp : c.IsRestriction I R mode values p) {k s : Nat} (hk : R.toList[k]? = some s)
    {x : Nat → ℚ} (hx : ∀ t ∈ (c.transitions.row s).columns, R.contains t = false →
      x t = 0)
    (d : ℚ) : I.dot (p.row k) (R.atPosition d x) = I.dot (c.transitions.row s) x := by
  rw [hp.row_eq k s hk, Matrix.dot_restrictRow I hx]

/-- There is nothing in a row without a member. -/
theorem row_of_none (hp : c.IsRestriction I R mode values p) {k : Nat}
    (hk : R.toList[k]? = none) : p.row k = [] := by
  refine Problem.row_of_size_le ?_
  rw [hp.size_eq]
  exact List.getElem?_eq_none_iff.1 hk

/-- States of the problem stand for members of the set. -/
theorem exists_member (hp : c.IsRestriction I R mode values p) {k : Nat} (hk : k < p.size) :
    ∃ s, R.toList[k]? = some s := by
  rw [hp.size_eq] at hk
  exact ⟨_, List.getElem?_eq_getElem hk⟩

omit [Weight α] in
/-- What stands at a position is a state of the chain. -/
theorem exists_state (hR : R.size = c.size) {k i : Nat} (hk : R.toList[k]? = some i) :
    ∃ s : Fin c.size, (s : Nat) = i ∧ R.contains s = true := by
  have hi := StateSet.contains_of_getElem? hk
  exact ⟨⟨i, hR ▸ StateSet.lt_size_of_contains hi⟩, rfl, hi⟩

omit [Weight α] in
/-- A vector that vanishes outside of a set of states does so everywhere. -/
theorem extend_eq_zero {z : Fin c.size → ℚ} (hz : ∀ s : Fin c.size, ¬R.contains s = true →
      z s = 0)
    {t : Nat} (ht : R.contains t = false) : c.extend z t = 0 := by
  unfold Chain.extend
  split
  · rename_i hlt
    exact hz ⟨t, hlt⟩ (by simp [ht])
  · rfl

/-- **The invariant of eliminations** holds at the start, for a solution of the system of a
transient set. -/
theorem progress (hp : c.IsRestriction I R mode values p) (h : c.Stochastic I)
    {b x y : Fin c.size → ℚ}
    (hb : ∀ k (s : Fin c.size), R.toList[k]? = some ↑s → I.value (values.getD k 0) = b s)
    (hR : R.size = c.size)
    (hx : ∀ s : Fin c.size, R.contains s = true →
      x s = b s + Kernel.step (c.kernel I.value) x s)
    (hxout : ∀ s : Fin c.size, ¬R.contains s = true → x s = 0)
    (hypos : ∀ s : Fin c.size, R.contains s = true → 0 < y s)
    (hyout : ∀ s : Fin c.size, ¬R.contains s = true → y s = 0)
    (hy : ∀ s : Fin c.size, R.contains s = true → Kernel.step (c.kernel I.value) y s < y s) :
    p.Progress I (R.atPosition 0 (c.extend x)) (R.atPosition 1 (c.extend y)) fun _ => False := by
  -- Outside of the set the draining vector is one, so that rows without entries decrease it too.
  refine ⟨hp.proper, fun k => ?_, fun k => ?_, fun k hk _ => ?_, fun _ _ _ => not_false⟩
  · cases hk : R.toList[k]? with
    | none => simp [StateSet.atPosition, hk]
    | some i =>
      obtain ⟨s, rfl, hs⟩ := exists_state hR hk
      rw [atPosition_extend hk]
      exact hypos s hs
  · cases hk : R.toList[k]? with
    | none =>
      rw [hp.row_of_none hk, I.dot_nil]
      simp [StateSet.atPosition, hk]
    | some i =>
      obtain ⟨s, rfl, hs⟩ := exists_state hR hk
      rw [hp.dot_row hk (fun t _ ht => extend_eq_zero hyout ht), ← h.step_eq,
        atPosition_extend hk]
      exact hy s hs
  · obtain ⟨i, hki⟩ := hp.exists_member hk
    obtain ⟨s, rfl, hs⟩ := exists_state hR hki
    rw [hp.dot_row hki (fun t _ ht => extend_eq_zero hxout ht), ← h.step_eq,
      atPosition_extend hki, hp.value_eq, hb k s hki]
    exact hx s hs

end IsRestriction

omit [Weight α] in
/-- In a restriction of a chain with one initial state, that state is the only initial one. -/
theorem contains_compress_initial {R : StateSet} {s₀ : Nat} (hinitial : c.initial.toList = [s₀])
    (hs₀ : R.contains s₀ = true) (k : Nat) :
    (c.initial.compress R).contains k = true ↔ k = positionIn R s₀ := by
  rw [StateSet.contains_compress, Option.any_eq_true]
  constructor
  · rintro ⟨s, hks, hs⟩
    rw [← StateSet.mem_toList, hinitial, List.mem_singleton] at hs
    rw [positionIn, ← hs, StateSet.idxOf_of_getElem? hks]
  · rintro rfl
    refine ⟨s₀, StateSet.getElem?_idxOf hs₀, ?_⟩
    rw [← StateSet.mem_toList, hinitial]
    simp

variable (I) in
/-- The result is about state `s`, and its value is finite and stands for `q`. -/
def Settles (s : Nat) (q : ℚ) (r : CheckResult α) : Prop :=
  r.initial = s ∧ ∃ a, r.value = .finite a ∧ I.Valid a ∧ I.value a = q

/-- Checks of chains of rational numbers meet no fault. -/
theorem not_isFault_rat (e : CheckError) :
    ¬CheckError.IsFault Interpretation.rat.RangeFault e := by
  cases e with
  | fault f => exact fun h => h.1
  | _ => exact id

/-- **Elimination of the maybe states.** If the maybe states are transient, the elimination of all
but the initial one ends with the solution of the system that the values define. -/
theorem Stochastic.runs_eliminateMaybe (h : c.Stochastic I) (config : EliminationConfig)
    {s₀ : Fin c.size} (hinitial : c.initial.toList = [↑s₀]) {maybe : StateSet}
    (hsize : maybe.size = c.size) (hs₀ : maybe.contains s₀ = true)
    (hU : Kernel.Transient (c.kernel I.value) fun s => maybe.contains s = true)
    (mode : ValueMode) {values : List α} (hlength : values.length = maybe.card)
    (hvalid : ∀ a ∈ values, I.Valid a) {b x : Fin c.size → ℚ}
    (hb : ∀ k (s : Fin c.size), maybe.toList[k]? = some ↑s → I.value (values.getD k 0) = b s)
    (hx : ∀ s : Fin c.size, maybe.contains s = true →
      x s = b s + Kernel.step (c.kernel I.value) x s)
    (hout : ∀ s : Fin c.size, ¬maybe.contains s = true → x s = 0) (targets : StateSet) :
    Runs (CheckError.IsFault I.RangeFault) (Settles I s₀ (x s₀))
      (c.eliminateMaybe config s₀ maybe mode values targets) := by
  obtain ⟨y, hypos, hyout, hy⟩ := hU.exists_drain
  have hpos : maybe.toList[positionIn maybe s₀]? = some ↑s₀ := StateSet.getElem?_idxOf hs₀
  have hinit := contains_compress_initial hinitial hs₀
  refine (Checked.runs_ofFault (h.ofMatrix_meets maybe mode hlength hvalid)).bind fun p hp => ?_
  have hprogress := hp.progress h hb hsize hx hout hypos hyout hy
  have hcount : (c.transitions.submatrix maybe maybe).rowCount = p.size := by
    rw [Matrix.rowCount_submatrix, hp.size_eq]
  refine (Checked.runs_ofMonitored (hprogress.eliminateAllExcept config
    (g := Graph.ofMatrix (c.transitions.submatrix maybe maybe)) ?_ ?_ ?_ targets)).bind
      fun p' hp' => ?_
  · rw [Graph.size_ofMatrix, hcount]
  · rw [Graph.size_reversed_ofMatrix, Graph.size_ofMatrix]
  · rw [StateSet.size_compress, hp.size_eq]
  -- Only the initial state is left, and its equation gives its value.
  obtain ⟨E, hE, hsize', hkept, hgone⟩ := hp'
  have hlt : positionIn maybe s₀ < p'.size := by
    rw [hsize', hp.size_eq]
    exact (List.getElem?_eq_some_iff.1 hpos).1
  have hEinit : ¬E (positionIn maybe s₀) := by
    intro hEs
    have hnot := hkept _ hEs
    rw [(hinit _).2 rfl] at hnot
    exact absurd hnot (by simp)
  have hlast := hE.eliminateLast hlt hEinit fun i hi hne =>
    hgone i (hsize' ▸ hi) (by rw [← Bool.not_eq_true, hinit]; exact hne)
  refine (Checked.runs_ofMonitored hlast).bind fun result hresult => .pure ?_
  refine ⟨rfl, result.1, rfl, hresult.1, ?_⟩
  rw [hresult.2, atPosition_extend hpos]

end Chain

end MarkovElimination
