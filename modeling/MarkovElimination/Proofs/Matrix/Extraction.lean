import MarkovElimination.Proofs.Matrix.Builder
import MarkovElimination.Proofs.Model.CallOrder
import MarkovElimination.Proofs.Model.Restriction

/-! # Positions in matrices

What stands at a position after each operation: a matrix of rational entries holds the sum of what
was added at the position unless that is zero (`IsSum`), a transpose exchanges the parts of a
position, and a submatrix renumbers both. All renumberings of a set of states go by the list of its
members, so the submatrix, the sums of rows and the compressed sets of one check agree about which
state is meant (`Agrees`). -/

namespace MarkovElimination

/-- Dropping zeros keeps the other values. -/
theorem Row.Sorted.get?_dropZeros {α : Type} [Weight α] {row : Row α} (h : row.Sorted)
    (c : Nat) : row.dropZeros.get? c = (row.get? c).filter fun a => !Weight.isZero a := by
  induction row with
  | nil => rfl
  | cons e row ih =>
    have hrest := ih (sorted_cons.1 h).2
    rw [Row.dropZeros] at hrest ⊢
    rw [List.filter_cons, get?_cons]
    by_cases hc : e.column = c
    · -- A zero is dropped, and its column is not listed again.
      rw [h.get?_eq_none hc.ge] at hrest
      cases hzero : Weight.isZero e.value with
      | true => simpa [hc, Option.filter_some, hzero] using hrest
      | false => simp [hc, Option.filter_some, hzero, get?_cons]
    · cases hzero : Weight.isZero e.value with
      | true => simpa [hc] using hrest
      | false => simpa [hc, get?_cons] using hrest

namespace Matrix

/-! ### Transposes -/

section Transpose

variable {α : Type}

/-- Matrices with the same rows and dimensions are equal. -/
theorem ext_row {m m' : Matrix α} (hrows : m.rowCount = m'.rowCount)
    (hcolumns : m.columns = m'.columns) (h : ∀ i, m.row i = m'.row i) : m = m' := by
  obtain ⟨rows, columns⟩ := m
  obtain ⟨rows', columns'⟩ := m'
  simp only at hcolumns
  subst hcolumns
  congr 1
  refine Array.ext hrows fun i hi hi' => ?_
  have hrow := h i
  simp only [row, Array.getD_eq_getD_getElem?] at hrow
  simpa [hi, hi'] using hrow

/-- The values found in the rows one after the other. -/
theorem get?_columnEntries (m : Matrix α) (i j : Nat) :
    Row.get? ((List.range m.rowCount).filterMap fun i =>
      (m.get? i j).map fun value => (⟨i, value⟩ : Entry α)) i = m.get? i j := by
  refine Option.ext fun a => ⟨fun h => ?_, fun h => ?_⟩
  · obtain ⟨e, he, rfl, rfl⟩ := Row.exists_entry_of_get? h
    obtain ⟨k, -, hk⟩ := List.mem_filterMap.1 he
    obtain ⟨b, hb, rfl⟩ := Option.map_eq_some_iff.1 hk
    exact hb
  · have hi : i < m.rowCount := by
      obtain ⟨e, he, rfl, -⟩ := Row.exists_entry_of_get? h
      exact lt_rowCount_of_mem_columns (List.mem_map_of_mem he)
    refine (sorted_columnEntries m j).get?_of_mem (e := ⟨i, a⟩)
      (List.mem_filterMap.2 ⟨i, ?_, ?_⟩)
    · exact List.mem_range.2 hi
    · rw [h]
      rfl

variable [Weight α]

/-- **A clean matrix**: well formed and without zero entries. -/
structure Clean (m : Matrix α) : Prop extends m.WellFormed where
  nonzero : ∀ i, ∀ e ∈ m.row i, Weight.isZero e.value = false

/-- What stands in a clean matrix is not zero. -/
theorem Clean.filter_get? {m : Matrix α} (h : m.Clean) (i j : Nat) :
    ((m.get? i j).filter fun a => !Weight.isZero a) = m.get? i j := by
  cases hget : m.get? i j with
  | none => rfl
  | some a =>
    obtain ⟨e, he, -, rfl⟩ := Row.exists_entry_of_get? hget
    simp [h.nonzero i e he]

/-- **A transpose exchanges rows and columns.** -/
theorem WellFormed.get?_transpose {m : Matrix α} (h : m.WellFormed) (i j : Nat) :
    m.transpose.get? j i = (m.get? i j).filter fun a => !Weight.isZero a := by
  rw [get?]
  rcases Nat.lt_or_ge j m.columns with hj | hj
  · rw [row_transpose m hj, (sorted_columnEntries m j).get?_dropZeros, get?_columnEntries]
  · have hnone : m.get? i j = none :=
      Row.get?_eq_none_iff.2 fun hmem => absurd (h.column_lt i j hmem) (not_lt.2 hj)
    rw [row_of_rowCount_le (by simpa using hj), hnone]
    rfl

/-- A transpose is well formed. -/
theorem WellFormed.transpose {m : Matrix α} (h : m.WellFormed) : m.transpose.WellFormed where
  sorted := sorted_transpose m
  column_lt _ _ hi := lt_rowCount_of_mem_columns
    (Row.mem_columns_of_mem_dropZeros (h.mem_columns_transpose.1 hi))

/-- **Transposing twice** gives back a clean matrix. -/
theorem Clean.transpose_transpose {m : Matrix α} (h : m.Clean) : m.transpose.transpose = m := by
  refine ext_row (rowCount_transpose _) (rowCount_transpose _) fun i => ?_
  refine (sorted_transpose _ i).ext_get? (h.sorted i) fun j => ?_
  have htwice := h.toWellFormed.transpose.get?_transpose j i
  rwa [h.get?_transpose, h.filter_get?, h.filter_get?] at htwice

end Transpose

/-! ### Submatrices -/

section Submatrix

variable {α : Type}

/-- A restricted row has the values of the row, at the positions of their columns. -/
theorem get?_restrictRow (C : StateSet) (row : Row α) (j : Nat) :
    (restrictRow C row).get? j = C.toList[j]?.bind (Row.get? row) := by
  induction row with
  | nil => cases C.toList[j]? <;> rfl
  | cons e row ih =>
    -- The first entry stands at the position `j` exactly if its column does.
    have hfirst : C.toList[j]?.bind (Row.get? (e :: row)) =
        if C.toList.idxOf? e.column = some j then some e.value else C.toList[j]?.bind
          (Row.get? row) := by
      simp only [StateSet.idxOf?_eq_some_iff]
      cases C.toList[j]? with
      | none => rfl
      | some c => simp [Row.get?_cons, eq_comm]
    rw [restrictRow_cons, hfirst]
    cases C.toList.idxOf? e.column with
    | none => simpa using ih
    | some k => simp [Row.get?_cons, ih]

variable [Weight α]

/-- **A submatrix renumbers rows and columns**: at a position stands what the matrix has in the row
and in the column of the members at the two places. -/
theorem Clean.get?_submatrix {m : Matrix α} (h : m.Clean) (R C : StateSet) (i j : Nat) :
    (m.submatrix R C).get? i j =
      R.toList[i]?.bind fun r => C.toList[j]?.bind fun c => m.get? r c := by
  rw [get?, row_submatrix]
  cases R.toList[i]? with
  | none => rfl
  | some r =>
    rw [Option.elim_some, (sorted_restrictRow (h.sorted r) C).get?_dropZeros, get?_restrictRow]
    cases C.toList[j]? with
    | none => rfl
    | some c => exact h.filter_get? r c

/-- The entries at one of several numbered places. -/
theorem flatMap_zipIdx_ite {β γ : Type} (l : List β) (f : β → List γ) (n i : Nat) :
    ((l.zipIdx n).flatMap fun (b, k) => if k = n + i then f b else []) =
      (l[i]?).elim [] f := by
  induction l generalizing n i with
  | nil => rfl
  | cons b l ih =>
    rw [List.zipIdx_cons, List.flatMap_cons]
    cases i with
    | zero =>
      -- All other places come later.
      have hlater : ((l.zipIdx (n + 1)).flatMap fun (b, k) => if k = n + 0 then f b else []) =
          [] := by
        refine List.flatMap_eq_nil_iff.2 fun (b, k) hk => if_neg ?_
        have := List.le_snd_of_mem_zipIdx hk
        omega
      rw [hlater]
      simp
    | succ i =>
      have hrest := ih (n + 1) i
      rw [show n + 1 + i = n + (i + 1) by omega] at hrest
      rw [hrest]
      simp

omit [Weight α] in
/-- The entries that are selected for a row. -/
theorem entriesOf_selectedEntries (m : Matrix α) (R C : StateSet) (i : Nat) :
    entriesOf (m.selectedEntries R C) i =
      (R.toList[i]?).elim [] fun r => restrictRow C (m.row r) := by
  rw [selectedEntries, entriesOf_flatMap, ← flatMap_zipIdx_ite _ _ 0]
  refine List.flatMap_congr fun (r, k) _ => ?_
  by_cases hk : k = i
  · simp [entriesOf, hk]
  · simp [entriesOf, hk]

/-- **A submatrix is collected** from the entries at their new positions. -/
theorem WellFormed.submatrix?_eq {m : Matrix α} (h : m.WellFormed) {R C : StateSet}
    (hR : R.size = m.rowCount) (hC : C.size = m.columns) (hrows : m.rowCount < rowBound) :
    m.submatrix? R C = .ok (m.submatrix R C) := by
  have hsorted (i : Nat) : Row.Sorted (entriesOf (m.selectedEntries R C) i) := by
    rw [entriesOf_selectedEntries]
    cases R.toList[i]? with
    | none => exact List.Pairwise.nil
    | some r => exact sorted_restrictRow (h.sorted r) C
  have hpositions : ∀ e ∈ m.selectedEntries R C, e.1 < R.card ∧ e.2.1 < C.card := by
    intro e he
    obtain ⟨⟨r, i⟩, hi, hrow⟩ := List.mem_flatMap.1 he
    obtain ⟨d, hd, rfl⟩ := List.mem_map.1 hrow
    obtain ⟨t, ht, -⟩ := mem_columns_restrictRow.1 (List.mem_map_of_mem hd)
    exact ⟨List.snd_lt_of_mem_zipIdx hi, (List.getElem?_eq_some_iff.1 ht).1⟩
  have hcard : R.card < rowBound := (R.card_le_size.trans_eq hR).trans_lt hrows
  rw [submatrix?, if_neg (not_not.2 hR), if_neg (not_not.2 hC)]
  refine (collect_of_sorted hcard hpositions hsorted).trans ?_
  refine congrArg (fun rows => Except.ok (ofRows C.card rows)) <|
    List.ext_getElem (by simp [StateSet.card]) fun i hi hi' => ?_
  have hlt : i < R.toList.length := by simpa using hi'
  simp [entriesOf_selectedEntries, hlt]

end Submatrix

/-! ### Sums -/

/-- The sum of all values that are given for a position. -/
def givenAt (entries : List (Nat × Nat × ℚ)) (i j : Nat) : ℚ :=
  ((entries.filter fun e => e.1 = i ∧ e.2.1 = j).map fun e => e.2.2).sum

/-- One more value. -/
theorem givenAt_cons (e : Nat × Nat × ℚ) (entries : List (Nat × Nat × ℚ)) (i j : Nat) :
    givenAt (e :: entries) i j =
      (if e.1 = i ∧ e.2.1 = j then e.2.2 else 0) + givenAt entries i j := by
  rw [givenAt, givenAt, List.filter_cons]
  by_cases h : e.1 = i ∧ e.2.1 = j <;> simp [h]

/-- What is given for a position is the dot product of the entries of the row with a unit vector. -/
theorem dot_entriesOf (entries : List (Nat × Nat × ℚ)) (i j : Nat) :
    Interpretation.rat.dot (entriesOf entries i) (Pi.single j 1) = givenAt entries i j := by
  induction entries with
  | nil => rfl
  | cons e entries ih =>
    rw [givenAt_cons, ← ih, entriesOf, List.filterMap_cons]
    by_cases hi : e.1 = i
    · simp [hi, entriesOf, Interpretation.rat, Pi.single_apply, eq_comm]
    · simp [hi, entriesOf]

/-- **The values of a sorted row without zeros** are its dot products with unit vectors. -/
theorem get?_eq_ite {row : Row ℚ} (h : row.Sorted)
    (hnonzero : ∀ e ∈ row, Weight.isZero e.value = false) (c : Nat) :
    row.get? c = if Interpretation.rat.dot row (Pi.single c 1) = 0 then none
      else some (Interpretation.rat.dot row (Pi.single c 1)) := by
  cases hget : row.get? c with
  | none =>
    rw [if_pos]
    refine Interpretation.rat.dot_eq_zero fun d hd => Pi.single_eq_of_ne ?_ 1
    rintro rfl
    exact Row.get?_eq_none_iff.1 hget hd
  | some a =>
    obtain ⟨e, he, rfl, rfl⟩ := Row.exists_entry_of_get? hget
    have hvalue : e.value = Interpretation.rat.dot row (Pi.single e.column 1) :=
      Interpretation.rat.value_eq_dot h he
    have hne : e.value ≠ 0 := of_decide_eq_false (hnonzero e he)
    rw [← hvalue, if_neg hne]

/-- **The sum of a row over some columns** adds up the coefficients in these columns. -/
theorem sum_coefficient {row : Row ℚ} (h : row.Sorted) (C : StateSet) :
    (C.toList.map (Interpretation.rat.coefficient row)).sum =
      Interpretation.rat.dot row fun c => if C.contains c then 1 else 0 := by
  induction row with
  | nil =>
    have hnone : Interpretation.rat.coefficient [] = fun _ => (0 : ℚ) := rfl
    simp [hnone]
  | cons e row ih =>
    obtain ⟨hlt, hrow⟩ := Row.sorted_cons.1 h
    have hnot : e.column ∉ Row.columns row := fun hmem => lt_irrefl _ (hlt _ hmem)
    -- The first entry adds its value in its column, where there is no other entry.
    have hcoefficient : Interpretation.rat.coefficient (e :: row) = fun c =>
        (Pi.single e.column e.value : Nat → ℚ) c + Interpretation.rat.coefficient row c := by
      funext c
      rw [Interpretation.coefficient_cons]
      by_cases hc : e.column = c
      · subst hc
        rw [if_pos rfl, Pi.single_eq_same, Interpretation.rat.coefficient_of_not_mem hnot, add_zero]
        rfl
      · rw [if_neg hc, Pi.single_eq_of_ne (Ne.symm hc), zero_add]
    have hfirst : (C.toList.map (Pi.single e.column e.value : Nat → ℚ)).sum =
        e.value * if C.contains e.column then 1 else 0 := by
      rw [List.sum_map_eq_nsmul_single e.column _ fun c hc _ => Pi.single_eq_of_ne hc _,
        C.nodup_toList.count, Pi.single_eq_same]
      simp [StateSet.mem_toList]
    rw [hcoefficient, List.sum_map_add, hfirst, ih hrow, Interpretation.dot_cons]
    rfl

/-- The sum of a row over some columns, position by position. -/
def sumOver (m : Matrix ℚ) (r : Nat) (C : StateSet) : ℚ :=
  (C.toList.map fun c => (m.get? r c).getD 0).sum

/-- **The sums of rows** are the sums over the positions. -/
theorem rowSum_eq_sumOver {m : Matrix ℚ} (h : m.WellFormed) (r : Nat) (C : StateSet) :
    m.rowSum r C = m.sumOver r C := by
  have hrow : (m.rowSum r C : ℚ) = Interpretation.rat.dot (m.row r) fun c =>
      if C.contains c then 1 else 0 := by
    rw [← Interpretation.dot_filter]
    exact (Interpretation.rat.sum_row fun _ _ => trivial).2
  rw [hrow, ← sum_coefficient (h.sorted r), sumOver]
  congr 2
  funext c
  rw [Interpretation.coefficient, get?]
  cases (m.row r).get? c <;> rfl

/-- Sums of rational numbers can always be computed. -/
theorem WellFormed.checkedRowSums_rat {m : Matrix ℚ} (h : m.WellFormed) {R C : StateSet}
    (hR : R.size = m.rowCount) (hC : C.size = m.columns) :
    m.checkedRowSums R C = .ok (m.rowSums R C) :=
  (h.returnsIf_checkedRowSums hR hC).eq_ok <| List.all_eq_true.2 fun _ _ =>
    (Interpretation.rat.unbounded not_false).rowSumFits _

/-! ### Collected matrices -/

/-- **A matrix that holds the sums** of the values given for each position, except for zeros. -/
structure IsSum (m : Matrix ℚ) (rows columns : Nat) (entries : List (Nat × Nat × ℚ)) :
    Prop where
  rowCount_eq : m.rowCount = rows
  columns_eq : m.columns = columns
  sorted : ∀ i, (m.row i).Sorted
  nonzero : ∀ i, ∀ e ∈ m.row i, e.value ≠ 0
  get?_eq : ∀ i j, m.get? i j = if givenAt entries i j = 0 then none else some
    (givenAt entries i j)

/-- **Everything that is renumbered by the members of two sets agrees** about which row and column
is meant: the submatrix, the compressed sets of states, and the sums of rows. -/
structure Agrees (m : Matrix ℚ) (R C : StateSet) : Prop where
  rowCount_submatrix : (m.submatrix R C).rowCount = R.card
  columns_submatrix : (m.submatrix R C).columns = C.card
  get?_submatrix : ∀ i j, (m.submatrix R C).get? i j =
    R.toList[i]?.bind fun r => C.toList[j]?.bind fun c => m.get? r c
  size_compress : ∀ s : StateSet, (s.compress R).size = R.card
  contains_compress : ∀ (s : StateSet) (i : Nat), (s.compress R).contains i = true ↔
    ∃ r, R.toList[i]? = some r ∧ s.contains r = true
  length_rowSums : (m.rowSums R C).length = R.card
  getElem?_rowSums : ∀ i : Nat, (m.rowSums R C)[i]? = R.toList[i]?.map fun r => m.sumOver r C

/-- **Sets of rows and columns of the matrix are accepted** by the operations that check them. -/
structure Accepts (m : Matrix ℚ) (R C : StateSet) : Prop where
  submatrix?_eq : m.submatrix? R C = .ok (m.submatrix R C)
  compress_eq : ∀ s : StateSet, s.size = R.size →
    StateSet.checked .compress s R = .ok (s.compress R)
  rowSums_eq : m.checkedRowSums R C = .ok (m.rowSums R C)

/-- Collected matrices without zeros are clean. -/
theorem clean_ofEntries {rows columns : Nat} {entries : List (Nat × Nat × ℚ)}
    (h : ∀ e ∈ entries, e.2.1 < columns) : (ofEntries rows columns entries false).Clean where
  toWellFormed := wellFormed_ofEntries h false
  nonzero i e he := by
    have hi : i < rows := by
      have := lt_rowCount_of_mem_columns (List.mem_map_of_mem he)
      rwa [rowCount_ofEntries] at this
    rw [row_ofEntries hi] at he
    simpa using (List.mem_filter.1 he).2

/-- **A collected matrix holds the sums** of what is given. -/
theorem isSum_ofEntries {rows columns : Nat} {entries : List (Nat × Nat × ℚ)}
    (h : ∀ e ∈ entries, e.1 < rows ∧ e.2.1 < columns) :
    (ofEntries rows columns entries false).IsSum rows columns entries := by
  have hclean : (ofEntries rows columns entries false).Clean :=
    clean_ofEntries fun e he => (h e he).2
  refine ⟨rowCount_ofEntries .., rfl, hclean.sorted, fun i e he =>
    of_decide_eq_false (hclean.nonzero i e he), fun i j => ?_⟩
  rw [get?, get?_eq_ite (hclean.sorted i) (hclean.nonzero i)]
  have hdot : Interpretation.rat.dot ((ofEntries rows columns entries false).row i)
      (Pi.single j 1) = givenAt entries i j := by
    rw [← dot_entriesOf]
    rcases Nat.lt_or_ge i rows with hi | hi
    · rw [row_ofEntries hi, if_neg Bool.false_ne_true,
        Interpretation.rat.dot_dropZeros fun _ _ => trivial,
        (Interpretation.rat.dot_ofEntries (fun _ _ => trivial) _).2]
    · -- Nothing is given for a row outside of the matrix.
      have hnone : entriesOf entries i = [] := by
        refine List.eq_nil_iff_forall_not_mem.2 fun e he => ?_
        have := (h _ (mem_of_mem_entriesOf he)).1
        omega
      rw [row_of_rowCount_le (by simpa using hi), hnone]
  rw [hdot]

/-- Parts of a clean matrix agree. -/
theorem Clean.agrees {m : Matrix ℚ} (h : m.Clean) (R C : StateSet) : m.Agrees R C where
  rowCount_submatrix := Matrix.rowCount_submatrix m R C
  columns_submatrix := rfl
  get?_submatrix := h.get?_submatrix R C
  size_compress s := StateSet.size_compress s R
  contains_compress s i := by
    rw [StateSet.contains_compress]
    cases R.toList[i]? <;> simp
  length_rowSums := List.length_map _
  getElem?_rowSums i := by simp only [rowSums, List.getElem?_map, rowSum_eq_sumOver h.toWellFormed]

/-- Well-formed matrices accept sets of their rows and columns. -/
theorem WellFormed.accepts {m : Matrix ℚ} (h : m.WellFormed) (hrows : m.rowCount < rowBound)
    {R C : StateSet} (hR : R.size = m.rowCount) (hC : C.size = m.columns) : m.Accepts R C where
  submatrix?_eq := h.submatrix?_eq hR hC hrows
  compress_eq s hs := by rw [StateSet.checked, if_pos hs]; rfl
  rowSums_eq := h.checkedRowSums_rat hR hC

/-- **Sparse matrices are index-correct.** Entries that are given in any order for positions within
the dimensions are collected into a matrix, whose rows have strictly increasing columns and no zero
entries: at a position stands the sum of all values given for it, unless that is zero. Transposing
the matrix twice gives it back. For every set of rows and every set of columns, a position of the
submatrix holds what the matrix has at the members with these numbers; the set of states is
compressed and the sums of rows are listed with the same numbers. Nothing of this fails for rows of
the matrix and for sets of its rows and columns. -/
theorem collect_index_correct {rows columns : Nat} {entries : List (Nat × Nat × ℚ)}
    (hrows : rows < rowBound) (h : ∀ e ∈ entries, e.1 < rows ∧ e.2.1 < columns) :
    ∃ m, collect rows columns entries false = .ok m ∧ m.IsSum rows columns entries ∧
      m.transpose.transpose = m ∧
      (columns < rowBound → m.transpose? = .ok m.transpose ∧ m.transpose.transpose? = .ok m) ∧
      (∀ R C : StateSet, m.Agrees R C) ∧
      (∀ i < rows, ∀ j, m.checkedGet i j = .ok (m.get? i j)) ∧
      ∀ R C : StateSet, R.size = rows → C.size = columns → m.Accepts R C := by
  have hclean : (ofEntries rows columns entries false).Clean :=
    clean_ofEntries fun e he => (h e he).2
  have hsize : (ofEntries rows columns entries false).rowCount = rows := rowCount_ofEntries ..
  have htwice := hclean.transpose_transpose
  refine ⟨_, collect_eq_ok hrows h (entriesFit_rat rows entries) false, isSum_ofEntries h, htwice,
    fun hcolumns => ⟨hclean.transpose?_eq hcolumns, ?_⟩, hclean.agrees, fun i hi j => ?_,
    fun R C hR hC => hclean.accepts ?_ (hR.trans hsize.symm) hC⟩
  · rw [hclean.transpose.transpose?_eq, htwice]
    exact hsize.trans_lt hrows
  · rw [checkedGet, rowAt, if_pos (hi.trans_eq hsize.symm)]
    rfl
  · exact hsize.trans_lt hrows

/-- Entries of three rows, in which some positions occur twice. -/
def repeatedEntries : List (Nat × Nat × ℚ) :=
  [(0, 2, 1 / 4), (0, 1, 1 / 2), (2, 1, 1 / 2), (0, 1, 1 / 4), (2, 2, 1), (2, 1, -1 / 2), (1, 0, 0)]

/-- Values at one position are added, and dropped where they cancel. The first and the last row are
the rows of the submatrix, and its columns are the last two. -/
theorem collect_repeatedEntries :
    3 < rowBound ∧ (∀ e ∈ repeatedEntries, e.1 < 3 ∧ e.2.1 < 3) ∧
    ∃ m, collect 3 3 repeatedEntries false = .ok m ∧ m.get? 0 1 = some (3 / 4) ∧
      m.get? 2 1 = none ∧ m.transpose.transpose? = .ok m ∧
      (m.submatrix (.ofList 3 [0, 2]) (.ofList 3 [1, 2])).get? 1 1 = m.get? 2 2 ∧
      ((StateSet.singleton 3 2).compress (.ofList 3 [0, 2])).contains 1 = true ∧
      ∃ sums, m.checkedRowSums (.ofList 3 [0, 2]) (.ofList 3 [1, 2]) = .ok sums ∧
        sums[1]? = some (m.sumOver 2 (.ofList 3 [1, 2])) := by
  have hrows : 3 < rowBound := by decide
  have hentries : ∀ e ∈ repeatedEntries, e.1 < 3 ∧ e.2.1 < 3 := by decide
  have hadded : givenAt repeatedEntries 0 1 = 3 / 4 := by cbv
  have hcancelled : givenAt repeatedEntries 2 1 = 0 := by cbv
  obtain ⟨m, hm, hsum, -, htranspose, hagrees, -, haccepts⟩ :=
    collect_index_correct hrows hentries
  have hparts := hagrees (.ofList 3 [0, 2]) (.ofList 3 [1, 2])
  have hmember : (StateSet.ofList 3 [0, 2]).toList[1]? = some 2 := by decide
  have hcolumn : (StateSet.ofList 3 [1, 2]).toList[1]? = some 2 := by decide
  have hchecked := haccepts (.ofList 3 [0, 2]) (.ofList 3 [1, 2]) rfl rfl
  refine ⟨hrows, hentries, m, hm, ?_, ?_, (htranspose hrows).2, ?_, ?_, _,
    hchecked.rowSums_eq, ?_⟩
  · rw [hsum.get?_eq, hadded]
    norm_num
  · rw [hsum.get?_eq, hcancelled, if_pos rfl]
  · rw [hparts.get?_submatrix, hmember, hcolumn]
    rfl
  · exact (hparts.contains_compress _ 1).2 ⟨2, hmember, by decide⟩
  · rw [hparts.getElem?_rowSums, hmember]
    rfl

end Matrix

end MarkovElimination
