import MarkovElimination.Proofs.Fault
import MarkovElimination.Proofs.Matrix.Row

/-! # Well-formed matrices

A matrix is **well formed** if its rows are sorted and stay within its columns. A matrix of entries
that lie within its columns is well formed (`wellFormed_ofEntries`), and a transpose lists exactly
the entries of a well-formed matrix that are not zero (`mem_columns_transpose`). -/

namespace MarkovElimination

namespace Row

variable {α : Type}

/-- In a sorted row an entry is what is found in its column. -/
theorem Sorted.get?_of_mem {row : Row α} (h : row.Sorted) {e : Entry α} (he : e ∈ row) :
    row.get? e.column = some e.value := by
  induction row with
  | nil => simp at he
  | cons f row ih =>
    obtain ⟨hlt, hrow⟩ := sorted_cons.1 h
    rcases List.mem_cons.1 he with rfl | he
    · simp [get?]
    · have hne : f.column ≠ e.column := (hlt e.column (List.mem_map_of_mem he)).ne
      rw [get?_cons, if_neg hne]
      exact ih hrow he

variable [Weight α]

/-- The columns that are left without zeros. -/
theorem Sorted.mem_columns_dropZeros {row : Row α} (h : row.Sorted) {c : Nat} :
    c ∈ row.dropZeros.columns ↔ ∃ a, row.get? c = some a ∧ Weight.isZero a = false := by
  constructor
  · intro hc
    obtain ⟨e, he, rfl⟩ := List.mem_map.1 hc
    obtain ⟨hmem, hzero⟩ := List.mem_filter.1 he
    exact ⟨e.value, h.get?_of_mem hmem, by simpa using hzero⟩
  · rintro ⟨a, ha, hzero⟩
    obtain ⟨e, he, rfl, rfl⟩ := exists_entry_of_get? ha
    exact List.mem_map.2 ⟨e, List.mem_filter.2 ⟨he, by simpa using hzero⟩, rfl⟩

/-- What is left without zeros was there before. -/
theorem mem_columns_of_mem_dropZeros {row : Row α} {c : Nat} (h : c ∈ row.dropZeros.columns) :
    c ∈ row.columns := by
  obtain ⟨e, he, rfl⟩ := List.mem_map.1 h
  exact List.mem_map_of_mem (List.mem_filter.1 he).1

/-! ### Collecting entries -/

/-- Putting in an entry adds its column. -/
@[simp] theorem mem_columns_insert {entry : Entry α} {row : Row α} {c : Nat} :
    c ∈ (row.insert entry).columns ↔ c = entry.column ∨ c ∈ row.columns := by
  fun_induction insert entry row with
  | case1 => simp
  | case2 first rest hcmp => simp
  | case3 first rest hcmp =>
    rw [Nat.compare_eq_eq] at hcmp
    simp [hcmp]
  | case4 first rest hcmp ih =>
    simp only [columns_cons, List.mem_cons, ih]
    tauto

/-- Putting in an entry keeps a row sorted. -/
theorem Sorted.insert {row : Row α} (h : row.Sorted) (entry : Entry α) :
    (row.insert entry).Sorted := by
  fun_induction Row.insert entry row with
  | case1 => exact List.pairwise_singleton _ _
  | case2 first rest hcmp =>
    rw [Nat.compare_eq_lt] at hcmp
    refine sorted_cons.2 ⟨fun c hc => ?_, h⟩
    rcases List.mem_cons.1 hc with rfl | hc
    · exact hcmp
    · exact hcmp.trans ((sorted_cons.1 h).1 c hc)
  | case3 first rest hcmp => exact sorted_cons.2 (sorted_cons (e := first).1 h)
  | case4 first rest hcmp ih =>
    rw [Nat.compare_eq_gt] at hcmp
    obtain ⟨hlt, hrest⟩ := sorted_cons.1 h
    refine sorted_cons.2 ⟨fun c hc => ?_, ih hrest⟩
    rcases mem_columns_insert.1 hc with rfl | hc
    · exact hcmp
    · exact hlt c hc

/-- Collected entries form a sorted row with their columns. -/
theorem ofEntries_spec (entries : List (Entry α)) :
    (ofEntries entries).Sorted ∧ ∀ c ∈ (ofEntries entries).columns, ∃ e ∈ entries,
    e.column = c := by
  -- The invariant of the loop: a sorted row whose columns are those of entries seen so far.
  have hloop (todo : List (Entry α)) (row : Row α) (hrow : row.Sorted) :
      (todo.foldl (fun row entry => row.insert entry) row).Sorted ∧
        ∀ c ∈ columns (todo.foldl (fun row entry => row.insert entry) row),
          c ∈ row.columns ∨ ∃ e ∈ todo, e.column = c := by
    induction todo generalizing row with
    | nil => exact ⟨hrow, fun c hc => .inl hc⟩
    | cons e todo ih =>
      obtain ⟨hsorted, hcolumns⟩ := ih (row.insert e) (hrow.insert e)
      refine ⟨hsorted, fun c hc => ?_⟩
      rcases hcolumns c hc with hc | ⟨f, hf, rfl⟩
      · rcases mem_columns_insert.1 hc with rfl | hc
        · exact .inr ⟨e, List.mem_cons_self, rfl⟩
        · exact .inl hc
      · exact .inr ⟨f, List.mem_cons_of_mem _ hf, rfl⟩
  obtain ⟨hsorted, hcolumns⟩ := hloop entries [] List.Pairwise.nil
  exact ⟨hsorted, fun c hc => (hcolumns c hc).resolve_left (by simp)⟩

end Row

namespace Matrix

variable {α : Type}

/-- There is nothing in a row outside of a matrix. -/
theorem row_of_rowCount_le {m : Matrix α} {i : Nat} (h : m.rowCount ≤ i) : m.row i = [] := by
  rw [row, Array.getD_eq_getD_getElem?, Array.getElem?_eq_none h, Option.getD_none]

/-- Only rows of a matrix have columns. -/
theorem lt_rowCount_of_mem_columns {m : Matrix α} {i c : Nat} (h : c ∈ (m.row i).columns) :
    i < m.rowCount := by
  by_contra hi
  rw [row_of_rowCount_le (not_lt.1 hi)] at h
  simp at h

/-- Sorted rows within the columns. -/
structure WellFormed (m : Matrix α) : Prop where
  sorted : ∀ i, (m.row i).Sorted
  column_lt : ∀ i, ∀ c ∈ (m.row i).columns, c < m.columns

/-- Only the rows of a matrix have to be looked at. -/
theorem wellFormed_iff {m : Matrix α} : m.WellFormed ↔ ∀ i ∈ List.range m.rowCount,
    (m.row i).Sorted ∧ ∀ c ∈ (m.row i).columns, c < m.columns := by
  constructor
  · exact fun h i _ => ⟨h.sorted i, h.column_lt i⟩
  · refine fun h => ⟨fun i => ?_, fun i c hc => ?_⟩
    · rcases Nat.lt_or_ge i m.rowCount with hi | hi
      · exact (h i (List.mem_range.2 hi)).1
      · rw [row_of_rowCount_le hi]
        exact List.Pairwise.nil
    · exact (h i (List.mem_range.2 (lt_rowCount_of_mem_columns hc))).2 c hc

instance (m : Matrix α) : Decidable m.WellFormed := decidable_of_iff' _ wellFormed_iff

variable [Weight α]

/-- Dropping zeros drops them row by row. -/
theorem row_dropZeros (m : Matrix α) (i : Nat) :
    m.dropZeros.row i = (m.row i).dropZeros := by
  simp only [dropZeros, row, Array.getD_eq_getD_getElem?, Array.getElem?_map]
  cases m.rows[i]? <;> rfl

/-- Dropping zeros keeps the number of rows. -/
@[simp] theorem rowCount_dropZeros (m : Matrix α) : m.dropZeros.rowCount = m.rowCount := by
  simp [dropZeros, rowCount]

/-- The rows of a matrix of entries. -/
theorem row_ofEntries {rows columns : Nat} {entries : List (Nat × Nat × α)} {keepZeros : Bool}
    {i : Nat} (hi : i < rows) : (ofEntries rows columns entries keepZeros).row i =
      (if keepZeros then Row.ofEntries (entriesOf entries i)
        else (Row.ofEntries (entriesOf entries i)).dropZeros) := by
  simp [ofEntries, row, hi]

@[simp] theorem rowCount_ofEntries (rows columns : Nat) (entries : List (Nat × Nat × α))
    (keepZeros : Bool) : (ofEntries rows columns entries keepZeros).rowCount = rows := by
  simp [ofEntries, rowCount]

omit [Weight α] in
/-- The entries of one row are entries. -/
theorem mem_of_mem_entriesOf {entries : List (Nat × Nat × α)} {i : Nat} {e : Entry α}
    (h : e ∈ entriesOf entries i) : (i, e.column, e.value) ∈ entries := by
  obtain ⟨⟨r, c, value⟩, hentry, hsome⟩ := List.mem_filterMap.1 h
  by_cases hr : r = i
  · simp only [hr, if_true, Option.some.injEq] at hsome
    rw [← hsome, ← hr]
    exact hentry
  · simp [hr] at hsome

/-- **A matrix of entries** that lie within its columns is well formed. -/
theorem wellFormed_ofEntries {rows columns : Nat} {entries : List (Nat × Nat × α)}
    (h : ∀ e ∈ entries, e.2.1 < columns) (keepZeros : Bool) :
    (ofEntries rows columns entries keepZeros).WellFormed := by
  rw [wellFormed_iff]
  intro i hi
  rw [rowCount_ofEntries, List.mem_range] at hi
  obtain ⟨hsorted, hcolumns⟩ := Row.ofEntries_spec (entriesOf entries i)
  have hcolumn : ∀ c ∈ (Row.ofEntries (entriesOf entries i)).columns, c < columns := by
    intro c hc
    obtain ⟨e, he, rfl⟩ := hcolumns c hc
    exact h _ (mem_of_mem_entriesOf he)
  rw [row_ofEntries hi]
  cases keepZeros with
  | true => exact ⟨hsorted, hcolumn⟩
  | false => exact ⟨hsorted.dropZeros, fun c hc =>
      hcolumn c (Row.mem_columns_of_mem_dropZeros hc)⟩

/-! ### Sums of rows -/

/-- A sum over columns that are all states of the set. -/
theorem returnsIf_addWithin {C : StateSet} {row : Row α} (h : ∀ c ∈ row.columns, c < C.size)
    (total : α) :
    ReturnsIf (Row.totalFits total (row.filter fun e => C.contains e.column))
      ((row.filter fun e => C.contains e.column).foldl (fun total e => total + e.value) total)
      (addWithin C total row) := by
  induction row generalizing total with
  | nil => exact .pure total
  | cons e row ih =>
    obtain ⟨he, hrow⟩ := List.forall_mem_cons.1 h
    rw [addWithin, StateSet.checkedAt, if_pos he, pure_bind]
    rw [List.filter_cons]
    cases C.contains e.column with
    | false => exact ih hrow total
    | true => exact (Weight.returnsIf_checkedAdd _ _).bind fun _ => ih hrow _

/-- **The sum of a row** over a set of columns of the matrix. -/
theorem WellFormed.returnsIf_checkedRowSum {m : Matrix α} (h : m.WellFormed) {C : StateSet}
    (hC : C.size = m.columns) {i : Nat} (hi : i < m.rowCount) :
    ReturnsIf (m.rowSumFits i C) (m.rowSum i C) (m.checkedRowSum i C) := by
  rw [checkedRowSum, rowAt, if_pos hi, pure_bind]
  exact (returnsIf_addWithin (fun c hc => hC ▸ h.column_lt i c hc) 0).bind fun _ =>
    Weight.returnsIf_checkedSimplify _

/-- **The sums of rows** over a set of columns of the matrix. -/
theorem WellFormed.returnsIf_checkedRowSums {m : Matrix α} (h : m.WellFormed) {R C : StateSet}
    (hR : R.size = m.rowCount) (hC : C.size = m.columns) :
    ReturnsIf (R.toList.all fun i => m.rowSumFits i C) (m.rowSums R C) (m.checkedRowSums R C) :=
  .mapM fun _ hi => h.returnsIf_checkedRowSum hC
    (hR ▸ StateSet.lt_size_of_contains (StateSet.mem_toList.1 hi))

/-! ### Transposes -/

/-- The rows of a matrix of connections mark the columns that are not zero. -/
theorem row_connections (m : Matrix α) (i : Nat) :
    m.connections.row i = Row.marks (m.row i).dropZeros.columns := by
  simp only [connections, dropZeros, row, Array.getD_eq_getD_getElem?, Array.getElem?_map,
    Row.marks, Row.columns]
  cases m.rows[i]? <;> simp [Row.dropZeros]

/-- The rows of a transpose. -/
theorem row_transpose (m : Matrix α) {j : Nat} (hj : j < m.columns) :
    m.transpose.row j = Row.dropZeros ((List.range m.rowCount).filterMap fun i =>
      (m.get? i j).map fun value => ⟨i, value⟩) := by
  simp [transpose, row, ofRows, hj]

/-- A transpose has a row for every column. -/
@[simp] theorem rowCount_transpose (m : Matrix α) : m.transpose.rowCount = m.columns := by
  simp [transpose, ofRows, rowCount]

omit [Weight α] in
/-- The columns found in the rows one after the other, as they stand in a transpose. -/
theorem sorted_columnEntries (m : Matrix α) (j : Nat) :
    Row.Sorted ((List.range m.rowCount).filterMap fun i =>
      (m.get? i j).map fun value => (⟨i, value⟩ : Entry α)) := by
  refine List.Pairwise.filterMap _ (fun i k hik e he f hf => ?_) List.pairwise_lt_range
  obtain ⟨_, _, rfl⟩ := Option.map_eq_some_iff.1 he
  obtain ⟨_, _, rfl⟩ := Option.map_eq_some_iff.1 hf
  exact hik

/-- The rows of a transpose are sorted. -/
theorem sorted_transpose (m : Matrix α) (j : Nat) : (m.transpose.row j).Sorted := by
  rcases Nat.lt_or_ge j m.columns with hj | hj
  · rw [row_transpose m hj]
    exact (sorted_columnEntries m j).dropZeros
  · rw [row_of_rowCount_le (by simpa using hj)]
    exact List.Pairwise.nil

/-- **A transpose lists the entries** of a well-formed matrix that are not zero. -/
theorem WellFormed.mem_columns_transpose {m : Matrix α} (h : m.WellFormed) {i j : Nat} :
    i ∈ (m.transpose.row j).columns ↔ j ∈ (m.row i).dropZeros.columns := by
  rw [(h.sorted i).mem_columns_dropZeros]
  constructor
  · intro hi
    have hj : j < m.columns := by simpa using lt_rowCount_of_mem_columns hi
    rw [row_transpose m hj] at hi
    obtain ⟨e, he, rfl⟩ := List.mem_map.1 hi
    obtain ⟨hmem, hzero⟩ := List.mem_filter.1 he
    obtain ⟨i, -, hsome⟩ := List.mem_filterMap.1 hmem
    obtain ⟨a, ha, rfl⟩ := Option.map_eq_some_iff.1 hsome
    exact ⟨a, ha, by simpa using hzero⟩
  · rintro ⟨a, ha, hzero⟩
    have hcol : j ∈ (m.row i).columns := by
      by_contra hnot
      rw [Row.get?_eq_none_iff.2 hnot] at ha
      simp at ha
    rw [row_transpose m (h.column_lt i j hcol)]
    refine List.mem_map.2 ⟨⟨i, a⟩,
      List.mem_filter.2 ⟨List.mem_filterMap.2 ⟨i, ?_, ?_⟩, ?_⟩, rfl⟩
    · exact List.mem_range.2 (lt_rowCount_of_mem_columns hcol)
    · rw [get?, ha]
      rfl
    · simpa using hzero

/-- Connections of a transpose mark what the transpose lists. -/
theorem row_connections_transpose (m : Matrix α) (j : Nat) :
    m.transpose.connections.row j = Row.marks (m.transpose.row j).columns := by
  rw [row_connections]
  rcases Nat.lt_or_ge j m.columns with hj | hj
  · simp [row_transpose m hj, Row.dropZeros]
  · rw [row_of_rowCount_le (by simpa using hj)]
    rfl

end Matrix

end MarkovElimination
