import MarkovElimination.Proofs.Matrix.Shape
import MarkovElimination.Proofs.StateSet

/-! # Consistency of elimination problems

A problem is **consistent** if rows are sorted and stay within the states, and the two sides list
the same transitions. The **plan** of an elimination is what it knows before it changes anything.
Carrying out a plan keeps a problem consistent (`Consistent.redirect`), and a consistent problem
never misses a transition or a predecessor (`Consistent.redirectFault?_eq`). Nothing here looks at
the values of entries, so it holds for weights of every kind. -/

namespace MarkovElimination.Problem

variable {α : Type}

/-- Sorted rows within the states, and two sides that list the same transitions. -/
structure Consistent (p : Problem α) : Prop where
  incoming_size : p.incoming.size = p.size
  values_size : p.values.size = p.size
  sorted : ∀ s, (p.row s).Sorted
  column_lt : ∀ s, ∀ c ∈ (p.row s).columns, c < p.size
  incoming_sorted : ∀ s, (p.incomingRow s).Sorted
  agree : ∀ s t, s ∈ p.predecessors t ↔ t ∈ (p.row s).columns

/-- There is nothing in a row outside of the problem. -/
theorem row_of_size_le {p : Problem α} {s : Nat} (h : p.size ≤ s) : p.row s = [] := by
  rw [row, Array.getD_eq_getD_getElem?, Array.getElem?_eq_none h, Option.getD_none]

/-- Only states of the problem have a column. -/
theorem lt_size_of_mem_columns {p : Problem α} {s c : Nat} (h : c ∈ (p.row s).columns) :
    s < p.size := by
  by_contra hs
  rw [row_of_size_le (not_lt.1 hs)] at h
  simp at h

/-! ### The problem of a matrix -/

section OfMatrix

variable [Weight α] {mode : ValueMode} {m : Matrix α} {values : List α} {p : Problem α}

/-- A problem can be formed of a square matrix and a value for each state. -/
theorem ofMatrix_eq_ok (h : ofMatrix mode m values = .ok p) :
    m.rowCount = m.columns ∧ m.rowCount = values.length ∧
      p = { mode := mode, forward := m.dropZeros.rows, incoming := m.transpose.connections.rows,
            values := values.toArray } := by
  unfold ofMatrix at h
  split at h
  · simp [throw, throwThe, MonadExceptOf.throw] at h
  · rename_i hguard
    simp only [ne_eq, Bool.or_eq_true, decide_eq_true_eq, not_or, not_not] at hguard
    exact ⟨hguard.1, hguard.2, by simpa [pure, Except.pure] using h.symm⟩

/-- The problem of a matrix has a state for each row. -/
theorem size_ofMatrix (h : ofMatrix mode m values = .ok p) : p.size = m.rowCount := by
  obtain ⟨-, -, rfl⟩ := ofMatrix_eq_ok h
  exact Matrix.rowCount_dropZeros m

/-- The values of the problem of a matrix mean what they are said to mean. -/
theorem mode_ofMatrix (h : ofMatrix mode m values = .ok p) : p.mode = mode := by
  obtain ⟨-, -, rfl⟩ := ofMatrix_eq_ok h
  rfl

/-- The equations of the problem of a matrix have its entries that are not zero. -/
theorem row_ofMatrix (h : ofMatrix mode m values = .ok p) (s : Nat) :
    p.row s = (m.row s).dropZeros := by
  obtain ⟨-, -, rfl⟩ := ofMatrix_eq_ok h
  exact Matrix.row_dropZeros m s

/-- The problem of a matrix marks what its transpose lists. -/
theorem incomingRow_ofMatrix (h : ofMatrix mode m values = .ok p) (s : Nat) :
    p.incomingRow s = Row.marks (m.transpose.row s).columns := by
  obtain ⟨-, -, rfl⟩ := ofMatrix_eq_ok h
  exact Matrix.row_connections_transpose m s

/-- **The problem of a well-formed matrix** is consistent. -/
theorem consistent_ofMatrix (hm : m.WellFormed) (h : ofMatrix mode m values = .ok p) :
    p.Consistent where
  incoming_size := by
    rw [size_ofMatrix h]
    obtain ⟨hsquare, -, rfl⟩ := ofMatrix_eq_ok h
    simp [Matrix.connections, Matrix.dropZeros, Matrix.transpose, Matrix.ofRows, hsquare]
  values_size := by
    rw [size_ofMatrix h]
    obtain ⟨-, hlength, rfl⟩ := ofMatrix_eq_ok h
    simpa using hlength.symm
  sorted s := by
    rw [row_ofMatrix h]
    exact (hm.sorted s).dropZeros
  column_lt s c hc := by
    rw [row_ofMatrix h] at hc
    rw [size_ofMatrix h, (ofMatrix_eq_ok h).1]
    exact hm.column_lt s c (Row.mem_columns_of_mem_dropZeros hc)
  incoming_sorted s := by
    rw [incomingRow_ofMatrix h, Row.sorted_iff, Row.columns_marks]
    exact Row.sorted_iff.1 (Matrix.sorted_transpose m s)
  agree s t := by
    rw [predecessors, incomingRow_ofMatrix h, Row.columns_marks, row_ofMatrix h]
    exact hm.mem_columns_transpose

end OfMatrix

/-- The constraint of an elimination lets a predecessor be redirected. -/
def Allows (constraint : Option StateSet) (i : Nat) : Prop :=
  ∀ set ∈ constraint, set.contains i = true

/-- Without a constraint every predecessor is redirected. -/
@[simp] theorem allows_none (i : Nat) : Allows none i := by simp [Allows]

@[simp] theorem allows_some {set : StateSet} {i : Nat} :
    Allows (some set) i ↔ set.contains i = true := by simp [Allows]

/-- The shape of the plan of an elimination of `s`. -/
structure IsPlan (p : Problem α) (s : Nat) (drop : Bool) (constraint : Option StateSet)
    (r : Redirection α) : Prop where
  state_eq : r.state = s
  state_lt : s < p.size
  drop_eq : r.dropOutgoing = drop
  columns_outgoing : r.outgoing.columns = ((p.row s).erase s).columns
  mem_redirected : ∀ i, i ∈ r.redirected ↔ (i ∈ p.predecessors s ∧ i ≠ s) ∧
    Allows constraint i
  mem_kept : ∀ i, i ∈ r.kept ↔ (i ∈ p.predecessors s ∧ i ≠ s) ∧ ¬Allows constraint i
  redirected_sub : List.Sublist r.redirected (p.predecessors s)
  kept_sub : List.Sublist r.kept (p.predecessors s)

variable [Weight α]

/-- **What a plan consists of**, when there is one: the state is a state of the problem, and the
factor of its self-loop is known. -/
theorem redirection_eq_ok {p : Problem α} {s : Nat} {drop : Bool} {constraint : Option StateSet}
    {r : Redirection α} (h : p.redirection s drop constraint = .ok r) :
    s < p.size ∧ ∃ factor, p.rescaling s = .ok factor ∧ r.state = s ∧ r.factor = factor ∧
      r.outgoing = (match factor with
        | none => (p.row s).erase s
        | some f => ((p.row s).erase s).scale f) ∧
      r.value = (match p.mode, factor with
        | .probabilities, some f => Weight.simplify (p.value s * f)
        | _, _ => p.value s) ∧
      r.redirected = ((p.predecessors s).filter (· != s)).filter (fun i => match constraint with
        | none => true
        | some set => set.contains i) ∧
      r.kept = ((p.predecessors s).filter (· != s)).filter (fun i => !match constraint with
        | none => true
        | some set => set.contains i) ∧
      r.dropOutgoing = drop := by
  unfold redirection at h
  -- The checks of a plan come one after the other: the state, its self-loop, the constraint.
  by_cases hs : p.size ≤ s
  · simp [hs, throw, throwThe, MonadExceptOf.throw, bind, Except.bind] at h
  · refine ⟨not_le.1 hs, ?_⟩
    rw [if_neg hs] at h
    simp only [bind, Except.bind, pure, Except.pure] at h
    split at h
    · simp at h
    · rename_i factor hfactor
      refine ⟨factor, hfactor, ?_⟩
      split at h
      · rename_i set
        split at h
        · simp [throw, throwThe, MonadExceptOf.throw] at h
        · simp only [Except.ok.injEq] at h
          subst h
          exact ⟨rfl, rfl, rfl, rfl, rfl, rfl, rfl⟩
      · simp only [Except.ok.injEq] at h
        subst h
        exact ⟨rfl, rfl, rfl, rfl, rfl, rfl, rfl⟩

/-- A plan has the shape of a plan. -/
theorem isPlan_of_redirection {p : Problem α} {s : Nat} {drop : Bool}
    {constraint : Option StateSet} {r : Redirection α}
    (h : p.redirection s drop constraint = .ok r) : p.IsPlan s drop constraint r := by
  obtain ⟨hs, factor, -, hstate, -, hout, -, hred, hkept, hdrop⟩ := redirection_eq_ok h
  refine ⟨hstate, hs, hdrop, ?_, ?_, ?_, ?_, ?_⟩
  · rw [hout]
    cases factor with
    | none => rfl
    | some f => exact Row.columns_scale f _
  · intro i
    rw [hred]
    cases constraint <;> simp only [List.mem_filter, bne_iff_ne, allows_none, allows_some]
  · intro i
    rw [hkept]
    cases constraint with
    | none => simp
    | some set =>
      simp only [List.mem_filter, bne_iff_ne, Bool.not_eq_true', Bool.not_eq_true, allows_some]
  · rw [hred]
    exact List.filter_sublist.trans List.filter_sublist
  · rw [hkept]
    exact List.filter_sublist.trans List.filter_sublist

namespace IsPlan

variable {p : Problem α} {s : Nat} {drop : Bool} {constraint : Option StateSet}
    {r : Redirection α}

omit [Weight α] in
/-- What leaves the eliminated state: its columns but itself. -/
theorem mem_columns_outgoing (h : p.IsPlan s drop constraint r) {c : Nat} :
    c ∈ r.outgoing.columns ↔ c ∈ (p.row s).columns ∧ c ≠ s := by
  rw [h.columns_outgoing, Row.mem_columns_erase]

omit [Weight α] in
/-- What leaves the eliminated state is sorted. -/
theorem sorted_outgoing (h : p.IsPlan s drop constraint r) (hp : p.Consistent) :
    r.outgoing.Sorted := by
  rw [Row.sorted_iff, h.columns_outgoing, ← Row.sorted_iff]
  exact (hp.sorted s).erase s

/-! ### The view of a redirected problem -/

/-- Carrying out a plan keeps the number of states. -/
@[simp] theorem size_redirect (p : Problem α) (r : Redirection α) :
    (p.redirect r).size = p.size := by
  simp [redirect, size]

/-- The rows after a plan is carried out. -/
theorem row_redirect (h : p.IsPlan s drop constraint r) (i : Nat) :
    (p.redirect r).row i = r.newRow i (p.row i) := by
  rcases Nat.lt_or_ge i p.size with hi | hi
  · have hi' : i < p.forward.size := hi
    simp [redirect, row, hi']
  · have hi' : p.forward.size ≤ i := hi
    have hne : i ≠ r.state := by
      have := h.state_eq
      have := h.state_lt
      omega
    rw [row_of_size_le (by rw [size_redirect]; exact hi), row_of_size_le hi, Redirection.newRow,
      if_neg hne]
    simp [Row.get?]

/-- The eliminated state keeps what leaves it, unless that is dropped. -/
theorem row_redirect_self (h : p.IsPlan s drop constraint r) :
    (p.redirect r).row s = if drop then [] else r.outgoing := by
  rw [h.row_redirect, Redirection.newRow, if_pos h.state_eq.symm, h.drop_eq]

/-- A redirected predecessor gets what leaves the eliminated state in place of its entry. -/
theorem row_redirect_of_mem (h : p.IsPlan s drop constraint r) {i : Nat} {m : α}
    (hi : i ∈ r.redirected) (hm : (p.row i).get? s = some m) :
    (p.redirect r).row i = Row.addScaled m ((p.row i).erase s) r.outgoing := by
  have hne : i ≠ r.state := by
    rw [h.state_eq]
    exact ((h.mem_redirected i).1 hi).1.2
  rw [h.row_redirect, Redirection.newRow, if_neg hne, if_pos (by simpa using hi), h.state_eq, hm]

/-- All other rows stay as they are. -/
theorem row_redirect_of_not_mem (h : p.IsPlan s drop constraint r) {i : Nat} (hne : i ≠ s)
    (hi : i ∉ r.redirected) : (p.redirect r).row i = p.row i := by
  rw [h.row_redirect, Redirection.newRow, if_neg (by rw [h.state_eq]; exact hne),
    if_neg (by simpa using hi)]

omit [Weight α] in
/-- A predecessor of a consistent problem has an entry for the eliminated state. -/
theorem exists_multiplier (h : p.IsPlan s drop constraint r) (hp : p.Consistent) {i : Nat}
    (hi : i ∈ r.redirected) : ∃ m, (p.row i).get? s = some m :=
  Row.exists_get? ((hp.agree i s).1 ((h.mem_redirected i).1 hi).1.1)

/-- The columns after a plan is carried out: a redirected predecessor exchanges the eliminated state
for the columns of that state. -/
theorem mem_columns_redirect (h : p.IsPlan s drop constraint r) (hp : p.Consistent) {i c : Nat} :
    c ∈ ((p.redirect r).row i).columns ↔
      if i = s then drop = false ∧ c ∈ (p.row s).columns ∧ c ≠ s
      else if i ∈ r.redirected then
        c ≠ s ∧ (c ∈ (p.row i).columns ∨ c ∈ (p.row s).columns)
      else c ∈ (p.row i).columns := by
  by_cases his : i = s
  · subst his
    rw [if_pos rfl, h.row_redirect_self]
    cases drop with
    | true => simp
    | false => simp [h.mem_columns_outgoing]
  · rw [if_neg his]
    by_cases hi : i ∈ r.redirected
    · obtain ⟨m, hm⟩ := h.exists_multiplier hp hi
      rw [if_pos hi, h.row_redirect_of_mem hi hm, Row.mem_columns_addScaled,
        Row.mem_columns_erase, h.mem_columns_outgoing]
      tauto
    · rw [if_neg hi, h.row_redirect_of_not_mem his hi]

/-- A state that the constraint lets be redirected leads past the eliminated state. -/
theorem mem_columns_redirect_of_allows (h : p.IsPlan s drop constraint r) (hp : p.Consistent)
    {i c : Nat} (his : i ≠ s) (hallow : Allows constraint i) :
    c ∈ ((p.redirect r).row i).columns ↔
      c ≠ s ∧ (c ∈ (p.row i).columns ∨ s ∈ (p.row i).columns ∧
        c ∈ (p.row s).columns) := by
  have hmem : i ∈ r.redirected ↔ s ∈ (p.row i).columns := by
    rw [h.mem_redirected, hp.agree]
    simp [his, hallow]
  rw [h.mem_columns_redirect hp, if_neg his]
  by_cases hs : s ∈ (p.row i).columns
  · simp [hmem.2 hs, hs]
  · -- Without an entry for the state nothing changes.
    rw [if_neg (mt hmem.1 hs)]
    simp only [hs, false_and, or_false]
    exact ⟨fun hc => ⟨fun hcs => hs (hcs ▸ hc), hc⟩, And.right⟩

/-- A state that the constraint keeps keeps its row. -/
theorem row_redirect_of_not_allows (h : p.IsPlan s drop constraint r) {i : Nat} (his : i ≠ s)
    (hallow : ¬Allows constraint i) : (p.redirect r).row i = p.row i :=
  h.row_redirect_of_not_mem his fun hmem => hallow ((h.mem_redirected i).1 hmem).2

/-- The marks of predecessors after a plan is carried out. -/
theorem incomingRow_redirect (h : p.IsPlan s drop constraint r) (hp : p.Consistent) (j : Nat) :
    (p.redirect r).incomingRow j = r.newIncoming j (p.incomingRow j) := by
  have hsize : p.incoming.size = p.size := hp.incoming_size
  rcases Nat.lt_or_ge j p.size with hj | hj
  · have hj' : j < p.incoming.size := by omega
    simp [redirect, incomingRow, hj']
  · -- Neither the state nor its successors lie outside of the problem.
    have hj' : p.incoming.size ≤ j := by omega
    have hne : j ≠ r.state := by
      have := h.state_eq
      have := h.state_lt
      omega
    have hcol : r.outgoing.hasColumn j = false := by
      rw [← Bool.not_eq_true, Row.hasColumn_iff, h.mem_columns_outgoing]
      intro hc
      have := hp.column_lt s j hc.1
      omega
    simp [redirect, incomingRow, Redirection.newIncoming, hj', hne, hcol]

/-- The members of the predecessor lists after a plan is carried out. -/
theorem mem_predecessors_redirect (h : p.IsPlan s drop constraint r) (hp : p.Consistent)
    {i j : Nat} : i ∈ (p.redirect r).predecessors j ↔
      if j = s then i ∈ r.kept
      else if j ∈ (p.row s).columns then
        (i ∈ p.predecessors j ∧ ¬(drop = true ∧ i = s)) ∨ i ∈ r.redirected
      else i ∈ p.predecessors j := by
  rw [predecessors, h.incomingRow_redirect hp, Redirection.newIncoming, h.state_eq]
  by_cases hjs : j = s
  · rw [if_pos hjs, if_pos hjs, Row.columns_marks]
  · have hcol : r.outgoing.hasColumn j = true ↔ j ∈ (p.row s).columns := by
      rw [Row.hasColumn_iff, h.mem_columns_outgoing]
      exact ⟨fun hc => hc.1, fun hc => ⟨hc, hjs⟩⟩
    rw [if_neg hjs, if_neg hjs]
    by_cases hj : j ∈ (p.row s).columns
    · -- A successor of the state exchanges the state, if its row is dropped, for the predecessors.
      rw [if_pos (hcol.2 hj), if_pos hj, Row.mem_columns_mark, h.drop_eq]
      cases drop with
      | true => simp [predecessors]
      | false => simp [predecessors]
    · rw [if_neg (fun hc => hj (hcol.1 hc)), if_neg hj, predecessors]

/-- **The two sides agree** after a plan is carried out. -/
theorem agree_redirect (h : p.IsPlan s drop constraint r) (hp : p.Consistent) (i j : Nat) :
    i ∈ (p.redirect r).predecessors j ↔ j ∈ ((p.redirect r).row i).columns := by
  -- Both sides are read off the old rows, and compared for `j` and `i` equal to `s` or not.
  rw [h.mem_predecessors_redirect hp, h.mem_columns_redirect hp]
  have hred := h.mem_redirected i
  have hkept := h.mem_kept i
  simp only [hp.agree] at hred hkept ⊢
  by_cases hjs : j = s
  · -- Only predecessors that the constraint keeps still lead to the state.
    subst hjs
    rw [if_pos rfl, hkept]
    by_cases his : i = j
    · simp [his]
    · rw [if_neg his]
      by_cases hi : i ∈ r.redirected
      · simp [hi, (hred.1 hi).2]
      · rw [if_neg hi]
        simp only [hred, not_and] at hi
        exact ⟨fun h => h.1.1, fun h => ⟨⟨h, his⟩, hi ⟨h, his⟩⟩⟩
  · rw [if_neg hjs]
    by_cases his : i = s
    · subst his
      by_cases hj : j ∈ (p.row i).columns <;> simp [hj, hjs, hred]
    · simp only [if_neg his]
      by_cases hj : j ∈ (p.row s).columns <;> by_cases hi : i ∈ r.redirected <;>
        simp [hj, hi, his, hjs]

end IsPlan

/-- **Consistency is kept** when a plan is carried out, whatever the constraint. -/
theorem Consistent.redirect {p : Problem α} {s : Nat} {drop : Bool} {constraint : Option StateSet}
    {r : Redirection α} (hp : p.Consistent) (h : p.IsPlan s drop constraint r) :
    (p.redirect r).Consistent where
  incoming_size := by
    rw [IsPlan.size_redirect]
    simpa [Problem.redirect] using hp.incoming_size
  values_size := by
    rw [IsPlan.size_redirect]
    simpa [Problem.redirect] using hp.values_size
  sorted i := by
    by_cases his : i = s
    · subst his
      rw [h.row_redirect_self]
      cases drop with
      | true => exact List.Pairwise.nil
      | false => exact h.sorted_outgoing hp
    · by_cases hi : i ∈ r.redirected
      · obtain ⟨m, hm⟩ := h.exists_multiplier hp hi
        rw [h.row_redirect_of_mem hi hm]
        exact Row.sorted_addScaled ((hp.sorted i).erase s) (h.sorted_outgoing hp)
      · rw [h.row_redirect_of_not_mem his hi]
        exact hp.sorted i
  column_lt i c hc := by
    rw [IsPlan.size_redirect]
    rw [h.mem_columns_redirect hp] at hc
    split at hc
    · exact hp.column_lt s c hc.2.1
    · split at hc
      · exact hc.2.elim (hp.column_lt i c) (hp.column_lt s c)
      · exact hp.column_lt i c hc
  incoming_sorted j := by
    have hs := Row.sorted_iff.1 (hp.incoming_sorted s)
    rw [h.incomingRow_redirect hp, Redirection.newIncoming]
    split
    · rw [Row.sorted_iff, Row.columns_marks]
      exact hs.sublist h.kept_sub
    · split
      · refine Row.sorted_mark ?_ (hs.sublist h.redirected_sub)
        split
        · exact (hp.incoming_sorted j).erase r.state
        · exact hp.incoming_sorted j
      · exact hp.incoming_sorted j
  agree := h.agree_redirect hp

/-- In a consistent problem a plan only fails if a weight outgrows its range. -/
theorem Consistent.redirectFault?_eq {p : Problem α} {s : Nat} {drop : Bool}
    {constraint : Option StateSet} {r : Redirection α} {f : Fault} (hp : p.Consistent)
    (h : p.IsPlan s drop constraint r) (hf : p.redirectFault? r = some f) :
    f = .degreeOverflow ∧ ∃ i m, r.updateFits p.mode m (p.row i) (p.value i) = false := by
  rw [redirectFault?, Option.or_eq_some_iff] at hf
  rcases hf with hf | ⟨-, hf⟩
  · -- A predecessor has an entry for the state, so only its range check can fail.
    obtain ⟨i, hi, hfault⟩ := List.exists_of_findSome?_eq_some hf
    obtain ⟨m, hm⟩ := h.exists_multiplier hp hi
    rw [predecessorFault?, h.state_eq, hm] at hfault
    simp only at hfault
    split at hfault
    · simp at hfault
    · rename_i hfits
      simp only [Option.some.injEq] at hfault
      exact ⟨hfault.symm, i, m, by simpa using hfits⟩
  · -- Every successor lists the state, so no predecessor is missing.
    rw [successorFault?] at hf
    split at hf
    · obtain ⟨e, he, -⟩ := Option.map_eq_some_iff.1 hf
      have hmem := List.mem_of_find?_eq_some he
      have hmiss := List.find?_some he
      have hcol : e.column ∈ r.outgoing.columns := List.mem_map.2 ⟨e, hmem, rfl⟩
      have hagree := (hp.agree s e.column).2 (h.mem_columns_outgoing.1 hcol).1
      rw [h.state_eq] at hmiss
      simp [hagree] at hmiss
    · simp at hf

/-- In a consistent problem the rows that a plan writes are sorted. -/
theorem Consistent.writtenSorted_redirect {p : Problem α} {s : Nat} {drop : Bool}
    {constraint : Option StateSet} {r : Redirection α} (hp : p.Consistent)
    (h : p.IsPlan s drop constraint r) : (p.redirect r).writtenSorted r = true := by
  have hnext := hp.redirect h
  rw [writtenSorted, Bool.and_eq_true, List.all_eq_true, List.all_eq_true]
  exact ⟨fun i _ => decide_eq_true (hnext.sorted i),
    fun j _ => decide_eq_true (hnext.incoming_sorted j)⟩

/-- An elimination that succeeds carries out its plan. -/
theorem eliminate_eq_ok {p p' : Problem α} {s : Nat} {drop : Bool} {constraint : Option StateSet}
    (h : p.eliminate s drop constraint = .ok p') :
    ∃ r, p.redirection s drop constraint = .ok r ∧ p' = p.redirect r := by
  simp only [eliminate, bind, Except.bind] at h
  split at h
  · simp at h
  · rename_i r hr
    refine ⟨r, hr, ?_⟩
    split at h
    · simp [throw, throwThe, MonadExceptOf.throw] at h
    · split at h
      · simp only [pure, Except.pure, Except.ok.injEq] at h
        exact h.symm
      · simp [throw, throwThe, MonadExceptOf.throw] at h

/-- **Eliminations keep a problem consistent.** -/
theorem Consistent.eliminate {p p' : Problem α} {s : Nat} {drop : Bool}
    {constraint : Option StateSet} (hp : p.Consistent)
    (h : p.eliminate s drop constraint = .ok p') : p'.Consistent := by
  obtain ⟨r, hr, rfl⟩ := eliminate_eq_ok h
  exact hp.redirect (isPlan_of_redirection hr)

end MarkovElimination.Problem
