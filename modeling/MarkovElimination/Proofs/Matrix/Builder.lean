import Mathlib
import MarkovElimination.Matrix.Builder
import MarkovElimination.Proofs.Fault
import MarkovElimination.Proofs.Matrix.Shape

/-! # What a builder builds

Sorting entries by columns and adding neighbours makes the same row of them as putting them in one
after the other: the sort is stable, so it only moves an entry past entries in greater columns, and
these do not meet it in a row. The rows can be read off the array in which they stand one behind the
other, so a builder returns the matrix of its entries (`collect_eq`). -/

namespace MarkovElimination

namespace Row

variable {α : Type} [Weight α]

/-! ### Putting in many entries -/

/-- Entries put into a row one after the other. -/
def insertAll (row : Row α) (entries : List (Entry α)) : Row α :=
  entries.foldl (fun row entry => row.insert entry) row

@[simp] theorem insertAll_cons (row : Row α) (e : Entry α) (entries : List (Entry α)) :
    row.insertAll (e :: entries) = (row.insert e).insertAll entries := rfl

/-- Entries in different columns are put in in any order. -/
theorem insert_comm_of_lt {e f : Entry α} (h : e.column < f.column) (row : Row α) :
    (row.insert e).insert f = (row.insert f).insert e := by
  have hcmp : compare e.column f.column = .lt := Nat.compare_eq_lt.2 h
  have hcmp' : compare f.column e.column = .gt := Nat.compare_eq_gt.2 h
  induction row with
  | nil => simp [Row.insert, hcmp, hcmp']
  | cons first rest ih =>
    rcases lt_trichotomy e.column first.column with hfirst | hfirst | hfirst
    · have hfirst' : compare e.column first.column = .lt := Nat.compare_eq_lt.2 hfirst
      cases h : compare f.column first.column <;> simp [Row.insert, hcmp, hcmp', hfirst', h]
    · simp [Row.insert, ← hfirst, hcmp']
    · have he : compare e.column first.column = .gt := Nat.compare_eq_gt.2 hfirst
      have hf : compare f.column first.column = .gt := Nat.compare_eq_gt.2 (hfirst.trans h)
      simp [Row.insert, he, hf, ih]

/-- An entry leaves the values in other columns as they are. -/
theorem get?_insert_of_ne {e : Entry α} {c : Nat} (h : e.column ≠ c) (row : Row α) :
    (row.insert e).get? c = row.get? c := by
  fun_induction insert e row with
  | case1 => simp [get?_cons, h]
  | case2 first rest hcmp => rw [get?_cons, if_neg h]
  | case3 first rest hcmp =>
    rw [Nat.compare_eq_eq] at hcmp
    rw [get?_cons, get?_cons, if_neg (hcmp ▸ h), if_neg (hcmp ▸ h)]
  | case4 first rest hcmp ih => rw [get?_cons, get?_cons, ih]

/-- Whether an entry fits does not depend on entries in other columns. -/
theorem insertFits_insert {e f : Entry α} (h : f.column ≠ e.column) (row : Row α) :
    insertFits e (row.insert f) = insertFits e row := by
  rw [insertFits, insertFits, get?_insert_of_ne h]

/-- An entry is put in before entries in smaller columns as well as after them. -/
theorem insertAll_append_cons {e : Entry α} {before : List (Entry α)}
    (h : ∀ f ∈ before, f.column < e.column) (row : Row α) (behind : List (Entry α)) :
    row.insertAll (before ++ e :: behind) = row.insertAll (e :: (before ++ behind)) ∧
      insertAllFits row (before ++ e :: behind) = insertAllFits row (e :: (before ++ behind)) := by
  -- The entry moves past one smaller column after the other, whatever is in the row by then.
  induction before generalizing row with
  | nil => exact ⟨rfl, rfl⟩
  | cons f before ih =>
    obtain ⟨hf, hbefore⟩ := List.forall_mem_cons.1 h
    obtain ⟨hall, hfits⟩ := ih hbefore (row.insert f)
    simp only [List.cons_append, insertAll_cons, insertAllFits] at hall hfits ⊢
    rw [hall, hfits, insert_comm_of_lt hf, insertFits_insert hf.ne, insertFits_insert hf.ne']
    exact ⟨rfl, Bool.and_left_comm _ _ _⟩

omit [Weight α] in
/-- Entries are compared by their columns, which is transitive. -/
theorem column_le_trans (e f g : Entry α) : decide (e.column ≤ f.column) = true →
    decide (f.column ≤ g.column) = true → decide (e.column ≤ g.column) = true := by
  simpa using Nat.le_trans

omit [Weight α] in
/-- Any two entries can be compared. -/
theorem column_le_total (e f : Entry α) :
    (decide (e.column ≤ f.column) || decide (f.column ≤ e.column)) = true := by
  simpa using Nat.le_total _ _

omit [Weight α] in
/-- **A stable sort** moves an entry past entries in smaller columns only. -/
theorem sortByColumn_cons (e : Entry α) (entries : List (Entry α)) :
    ∃ before behind, sortByColumn (e :: entries) = before ++ e :: behind ∧
      sortByColumn entries = before ++ behind ∧ ∀ f ∈ before, f.column < e.column := by
  simpa [sortByColumn] using List.mergeSort_cons column_le_trans column_le_total e entries

omit [Weight α] in
/-- Entries are sorted by their columns. -/
theorem pairwise_sortByColumn (entries : List (Entry α)) :
    (sortByColumn entries).Pairwise fun e f => e.column ≤ f.column := by
  simpa [sortByColumn] using List.pairwise_mergeSort column_le_trans column_le_total entries

/-- **Sorting** does not change what entries make of a row. -/
theorem insertAll_sortByColumn (row : Row α) (entries : List (Entry α)) :
    row.insertAll (sortByColumn entries) = row.insertAll entries ∧
      insertAllFits row (sortByColumn entries) = insertAllFits row entries := by
  -- The first entry goes into the sorted others, behind smaller columns only.
  induction entries generalizing row with
  | nil => simp [sortByColumn]
  | cons e entries ih =>
    obtain ⟨before, behind, hsort, hrest, hlt⟩ := sortByColumn_cons e entries
    obtain ⟨hall, hfits⟩ := insertAll_append_cons hlt row behind
    obtain ⟨ihall, ihfits⟩ := ih (row.insert e)
    rw [hrest] at ihall ihfits
    rw [hsort, hall, hfits, insertAll_cons, insertAllFits, ihall, ihfits]
    exact ⟨rfl, rfl⟩

/-! ### Adding neighbours -/

/-- An entry behind a smaller column is put into the rest of a row. -/
theorem insert_cons_of_lt {first e : Entry α} (h : first.column < e.column) (row : Row α) :
    insert e (first :: row) = first :: insert e row ∧
      insertFits e (first :: row) = insertFits e row := by
  rw [insert, Nat.compare_eq_gt.2 h, insertFits, insertFits, get?_cons, if_neg h.ne]
  exact ⟨rfl, rfl⟩

/-- Entries behind a smaller column are put into the rest of a row. -/
theorem insertAll_cons_of_lt {first : Entry α} {entries : List (Entry α)}
    (h : ∀ e ∈ entries, first.column < e.column) (row : Row α) :
    insertAll (first :: row) entries = first :: insertAll row entries ∧
      insertAllFits (first :: row) entries = insertAllFits row entries := by
  induction entries generalizing row with
  | nil => exact ⟨rfl, rfl⟩
  | cons e entries ih =>
    obtain ⟨he, hentries⟩ := List.forall_mem_cons.1 h
    obtain ⟨hinsert, hfits⟩ := insert_cons_of_lt he row
    obtain ⟨ihall, ihfits⟩ := ih hentries (row.insert e)
    rw [insertAll_cons, insertAll_cons, insertAllFits, insertAllFits, hinsert, hfits, ihall, ihfits]
    exact ⟨rfl, rfl⟩

/-- **Adding neighbours** in sorted entries makes the row of these entries. -/
theorem returnsIf_mergeFrom {last : Entry α} {entries : List (Entry α)}
    (h : (last :: entries).Pairwise fun e f => e.column ≤ f.column) :
    ReturnsIf (insertAllFits [last] entries) (insertAll [last] entries)
      (mergeFrom last entries) := by
  induction entries generalizing last with
  | nil => exact .pure [last]
  | cons e entries ih =>
    obtain ⟨hlast, hentries⟩ := List.pairwise_cons.1 h
    rw [mergeFrom, insertAll_cons, insertAllFits]
    by_cases hcolumn : last.column = e.column
    · have hfits : insertFits e [last] = Weight.sumFits last.value e.value := by
        simp [insertFits, get?_cons, hcolumn]
      have hinsert : insert e [last] =
          [⟨last.column, Weight.simplify (last.value + e.value)⟩] := by
        simp [Row.insert, hcolumn]
      rw [if_pos hcolumn, hfits, hinsert, Weight.sumFits, Bool.and_assoc]
      refine (Weight.returnsIf_checkedAdd _ _).bind fun _ =>
        (Weight.returnsIf_checkedSimplify _).bind fun _ =>
          ih (List.pairwise_cons.2 ⟨fun f hf => ?_, ?_⟩)
      · exact hlast f (List.mem_cons_of_mem _ hf)
      · exact (List.pairwise_cons.1 hentries).2
    · -- The last entry is complete, since all that follow are in greater columns.
      have hlt : last.column < e.column := lt_of_le_of_ne (hlast e List.mem_cons_self) hcolumn
      have hbehind : ∀ f ∈ entries, last.column < f.column := fun f hf =>
        hlt.trans_le ((List.pairwise_cons.1 hentries).1 f hf)
      obtain ⟨hinsert, hfits⟩ := insert_cons_of_lt hlt []
      obtain ⟨hall, hallfits⟩ := insertAll_cons_of_lt hbehind (insert e [])
      rw [if_neg hcolumn, hinsert, hfits, hall, hallfits]
      exact (ih hentries).map (last :: ·)

/-- **The row of entries in any order.** -/
theorem returnsIf_mergeNeighbours (entries : List (Entry α)) :
    ReturnsIf (insertAllFits [] entries) (ofEntries entries)
      (mergeNeighbours (sortByColumn entries)) := by
  have hsorted := pairwise_sortByColumn entries
  obtain ⟨hall, hfits⟩ := insertAll_sortByColumn [] entries
  rw [show ofEntries entries = insertAll [] entries from rfl, ← hall, ← hfits]
  cases hrow : sortByColumn entries with
  | nil => exact .pure []
  | cons first rest =>
    rw [hrow] at hsorted
    exact returnsIf_mergeFrom hsorted

/-- An entry in a column that is greater than all others comes last. -/
theorem insert_of_forall_lt {e : Entry α} {row : Row α}
    (h : ∀ c ∈ row.columns, c < e.column) :
    row.insert e = row ++ [e] ∧ insertFits e row = true := by
  have hfits : insertFits e row = true := by
    rw [insertFits, get?_eq_none_iff.2 fun hmem => (h _ hmem).false]
  refine ⟨?_, hfits⟩
  induction row with
  | nil => rfl
  | cons first row ih =>
    obtain ⟨hfirst, hrow⟩ := List.forall_mem_cons.1 h
    have hrest : insertFits e row = true := (insert_cons_of_lt hfirst row).2 ▸ hfits
    rw [(insert_cons_of_lt hfirst row).1, ih hrow hrest, List.cons_append]

/-- **Increasing entries** are the row that is made of them. -/
theorem insertAll_of_sorted {row entries : List (Entry α)} (h : Sorted (row ++ entries)) :
    insertAll row entries = row ++ entries ∧ insertAllFits row entries = true := by
  induction entries generalizing row with
  | nil => exact ⟨(List.append_nil row).symm, rfl⟩
  | cons e entries ih =>
    have hlast : ∀ c ∈ columns row, c < e.column := by
      intro c hc
      obtain ⟨f, hf, rfl⟩ := List.mem_map.1 hc
      exact (List.pairwise_append.1 h).2.2 f hf e List.mem_cons_self
    obtain ⟨hinsert, hfits⟩ := insert_of_forall_lt hlast
    rw [List.append_cons] at h
    obtain ⟨hall, hallfits⟩ := ih h
    rw [insertAll_cons, insertAllFits, hinsert, hall, hfits, hallfits]
    exact ⟨(List.append_cons ..).symm, rfl⟩

end Row

namespace CompressedMatrix

variable {α : Type} {m : CompressedMatrix α}

/-! ### Rows one behind the other -/

/-- The rows from the first to the last. -/
def rowList (m : CompressedMatrix α) : List (Row α) := (List.range m.rowCount).map m.row

/-- **The entries are used up**: every row ends within them, and the last one at their end. -/
structure Filled (m : CompressedMatrix α) : Prop where
  size_rowStarts : m.rowStarts.size = m.rowCount + 1
  le_size : ∀ i, m.rowStarts.getD i 0 ≤ m.entries.size
  last_eq : m.rowStarts.getD m.rowCount 0 = m.entries.size

theorem filled_empty (columns : Nat) : (empty columns : CompressedMatrix α).Filled where
  size_rowStarts := rfl
  le_size i := by rcases i with _ | i <;> simp [empty]
  last_eq := rfl

/-- One more place where a row starts. -/
theorem Filled.getD_appendRow (h : m.Filled) (row : Row α) (i : Nat) :
    (m.appendRow row).rowStarts.getD i 0 =
      if i = m.rowCount + 1 then m.entries.size + row.length else m.rowStarts.getD i 0 := by
  simp only [appendRow, Array.getD_eq_getD_getElem?, Array.getElem?_push, h.size_rowStarts]
  split <;> simp

theorem Filled.rowCount_appendRow (h : m.Filled) (row : Row α) :
    (m.appendRow row).rowCount = m.rowCount + 1 := by
  have hsize := h.size_rowStarts
  simp only [rowCount, appendRow, Array.size_push] at hsize ⊢
  omega

/-- Another row keeps the entries used up. -/
theorem Filled.appendRow (h : m.Filled) (row : Row α) : (m.appendRow row).Filled where
  size_rowStarts := by
    rw [h.rowCount_appendRow, CompressedMatrix.appendRow, Array.size_push, h.size_rowStarts]
  le_size i := by
    have hle := h.le_size i
    rw [h.getD_appendRow]
    simp only [CompressedMatrix.appendRow, Array.size_append, List.size_toArray]
    split <;> omega
  last_eq := by
    rw [h.rowCount_appendRow, h.getD_appendRow, if_pos rfl]
    simp [CompressedMatrix.appendRow]

/-- **A row that is written behind the others** is read as the last one. -/
theorem Filled.rowList_appendRow (h : m.Filled) (row : Row α) :
    (m.appendRow row).rowList = m.rowList ++ [row] := by
  rw [rowList, rowList, h.rowCount_appendRow, List.range_succ, List.map_append]
  congr 1
  · refine List.map_congr_left fun i hi => ?_
    rw [List.mem_range] at hi
    rw [CompressedMatrix.row, CompressedMatrix.row, h.getD_appendRow, h.getD_appendRow,
      if_neg (by omega), if_neg (by omega), CompressedMatrix.appendRow,
      Array.extract_append_of_stop_le_size_left (h.le_size _)]
  · rw [List.map_singleton, CompressedMatrix.row, h.getD_appendRow, h.getD_appendRow,
      if_neg (by omega), if_pos rfl, h.last_eq, CompressedMatrix.appendRow,
      Array.extract_append_right]
    simp

/-- **Rows written one behind the other** are read again. -/
theorem toMatrix_foldl_appendRow (rows : List (Row α)) (columns : Nat) :
    (rows.foldl CompressedMatrix.appendRow (empty columns)).toMatrix = .ofRows columns rows := by
  -- The rows that are already there are read before the others.
  have hloop (rows : List (Row α)) (m : CompressedMatrix α) (hm : m.Filled) :
      (rows.foldl CompressedMatrix.appendRow m).toMatrix =
        .ofRows m.columns (m.rowList ++ rows) := by
    induction rows generalizing m with
    | nil => rw [List.append_nil]; rfl
    | cons row rows ih =>
      rw [List.foldl_cons, ih _ (hm.appendRow row), hm.rowList_appendRow, List.append_assoc]
      rfl
  exact hloop rows (empty columns) (filled_empty columns)

end CompressedMatrix

namespace MatrixBuilder

variable {α : Type}

/-! ### Placing entries -/

/-- The entries that were given for a row. -/
def rowEntries (b : MatrixBuilder α) (i : Nat) : List (Entry α) := (b.rows.getD i #[]).toList

/-- Entries placed one after the other. -/
def placeAll (b : MatrixBuilder α) (entries : List (Nat × Nat × α)) : MatrixBuilder α :=
  entries.foldl place b

@[simp] theorem size_place (b : MatrixBuilder α) (e : Nat × Nat × α) :
    (b.place e).rows.size = b.rows.size := by
  simp [place]

/-- An entry comes last in its row. -/
theorem rowEntries_place (b : MatrixBuilder α) (e : Nat × Nat × α) {i : Nat}
    (hi : i < b.rows.size) :
    (b.place e).rowEntries i = b.rowEntries i ++ Matrix.entriesOf [e] i := by
  obtain ⟨r, c, value⟩ := e
  by_cases hr : r = i
  · simp [place, rowEntries, Matrix.entriesOf, Array.getD_eq_getD_getElem?, Array.getElem_modify,
      hr, hi]
  · simp [place, rowEntries, Matrix.entriesOf, Array.getD_eq_getD_getElem?, Array.getElem_modify,
      hr, hi]

/-- **Entries that are placed** come behind the others of their rows. -/
theorem placeAll_spec (b : MatrixBuilder α) (entries : List (Nat × Nat × α)) :
    (b.placeAll entries).rows.size = b.rows.size ∧ (b.placeAll entries).columns = b.columns ∧
      (b.placeAll entries).keepZeros = b.keepZeros ∧ ∀ i < b.rows.size,
        (b.placeAll entries).rowEntries i = b.rowEntries i ++ Matrix.entriesOf entries i := by
  induction entries generalizing b with
  | nil => exact ⟨rfl, rfl, rfl, fun i _ => (List.append_nil _).symm⟩
  | cons e entries ih =>
    obtain ⟨hsize, hcolumns, hkeep, hrow⟩ := ih (b.place e)
    refine ⟨hsize.trans (size_place b e), hcolumns, hkeep, fun i hi => ?_⟩
    refine (hrow i (by rwa [size_place])).trans ?_
    rw [rowEntries_place b e hi, List.append_assoc, Matrix.entriesOf, Matrix.entriesOf,
      ← List.filterMap_append]
    rfl

/-- Positions are checked one after the other. -/
theorem forM_checkPosition_cons (rows columns : Nat) (e : Nat × Nat × α)
    (entries : List (Nat × Nat × α)) :
    (e :: entries).forM (fun (r, c, _) => Matrix.checkPosition rows columns r c) = (do
      Matrix.checkPosition rows columns e.1 e.2.1
      entries.forM fun (r, c, _) => Matrix.checkPosition rows columns r c) := rfl

/-- Entries are placed if all of them lie within the dimensions. -/
theorem foldlM_add (b : MatrixBuilder α) (entries : List (Nat × Nat × α)) :
    entries.foldlM add b = (do
      entries.forM fun (r, c, _) => Matrix.checkPosition b.rows.size b.columns r c
      pure (b.placeAll entries)) := by
  induction entries generalizing b with
  | nil => rfl
  | cons e entries ih =>
    rw [List.foldlM_cons, add, forM_checkPosition_cons]
    cases Matrix.checkPosition b.rows.size b.columns e.1 e.2.1 with
    | error fault => rfl
    | ok =>
      refine (ih (b.place e)).trans ?_
      rw [size_place]
      rfl

/-- The rows of the builder into which entries were placed. -/
theorem rows_placeAll_new (rows columns : Nat) (entries : List (Nat × Nat × α))
    (keepZeros : Bool) :
    ((new rows columns keepZeros).placeAll entries).rows.toList.map Array.toList =
      (List.range rows).map (Matrix.entriesOf entries) := by
  obtain ⟨hsize, -, -, hrow⟩ := (new rows columns keepZeros).placeAll_spec entries
  have hrows : (new rows columns keepZeros : MatrixBuilder α).rows.size = rows := by simp [new]
  rw [hrows] at hsize hrow
  refine List.ext_getElem (by simp [hsize]) fun i hi _ => ?_
  have hlt : i < rows := by simpa [hsize] using hi
  have hnew : (new rows columns keepZeros : MatrixBuilder α).rowEntries i = [] := by
    simp [new, rowEntries, hlt]
  have hi' := hrow i hlt
  rw [hnew, List.nil_append, rowEntries, Array.getD_eq_getD_getElem?,
    Array.getElem?_eq_getElem (hsize.symm ▸ hlt)] at hi'
  simpa using hi'

variable [Weight α]

/-! ### Building -/

/-- The row of entries in any order. -/
theorem returnsIf_finishRow (keepZeros : Bool) (entries : Array (Entry α)) :
    ReturnsIf (Row.insertAllFits [] entries.toList)
      (if keepZeros then Row.ofEntries entries.toList else (Row.ofEntries entries.toList).dropZeros)
      (finishRow keepZeros entries) :=
  (Row.returnsIf_mergeNeighbours entries.toList).map fun row =>
    if keepZeros then row else row.dropZeros

/-- **What a builder returns**: the rows of what was given for each of them. -/
theorem returnsIf_build (b : MatrixBuilder α) :
    ReturnsIf (b.rows.toList.all fun entries => Row.insertAllFits [] entries.toList)
      (Matrix.ofRows b.columns (b.rows.toList.map fun entries =>
        if b.keepZeros then Row.ofEntries entries.toList
        else (Row.ofEntries entries.toList).dropZeros))
      (do
        let m ← b.build
        pure m.toMatrix) := by
  rw [← CompressedMatrix.toMatrix_foldl_appendRow, List.foldl_map]
  refine ReturnsIf.map _ (ReturnsIf.foldlM (fun m entries _ => ?_) _)
  exact (returnsIf_finishRow b.keepZeros entries).map m.appendRow

/-- **Building** returns the matrix of the entries that were placed. -/
theorem returnsIf_build_placeAll (rows columns : Nat) (entries : List (Nat × Nat × α))
    (keepZeros : Bool) :
    ReturnsIf (Matrix.entriesFit rows entries) (Matrix.ofEntries rows columns entries keepZeros)
      (do
        let m ← ((new rows columns keepZeros).placeAll entries).build
        pure m.toMatrix) := by
  have hbuild := returnsIf_build ((new rows columns keepZeros).placeAll entries)
  obtain ⟨-, hcolumns, hkeep, -⟩ := (new rows columns keepZeros).placeAll_spec entries
  have hrows := rows_placeAll_new rows columns entries keepZeros
  rw [hcolumns, hkeep] at hbuild
  convert hbuild using 1
  · rw [← Function.comp_def, ← List.all_map, hrows, List.all_map]
    rfl
  · have hmap := congrArg (List.map fun entries : List (Entry α) =>
      if keepZeros then Row.ofEntries entries else (Row.ofEntries entries).dropZeros) hrows
    rw [List.map_map, List.map_map] at hmap
    refine Eq.trans ?_ (congrArg (Matrix.ofRows columns) hmap.symm)
    refine congrArg (Matrix.mk · columns) (Array.ext (by simp) fun i hi _ => ?_)
    simp

end MatrixBuilder

namespace Matrix

variable {α : Type} [Weight α]

/-- **Collecting** checks the positions of all entries, and returns the matrix of the entries if all
sums can be computed. -/
theorem collect_eq_of_fits (rows columns : Nat) (entries : List (Nat × Nat × α))
    (keepZeros : Bool) : collect rows columns entries keepZeros = (do
      checkRowCount rows
      entries.forM fun (r, c, _) => checkPosition rows columns r c
      requireRange (entriesFit rows entries)
      pure (ofEntries rows columns entries keepZeros)) := by
  have hsize : (MatrixBuilder.new rows columns keepZeros : MatrixBuilder α).rows.size = rows := by
    simp [MatrixBuilder.new]
  rw [collect, MatrixBuilder.foldlM_add, hsize, bind_assoc]
  simp only [pure_bind]
  rw [MatrixBuilder.returnsIf_build_placeAll]
  rfl

/-- Collecting does not fail where all positions lie within the dimensions and all sums can be
computed. -/
theorem collect_eq_ok {rows columns : Nat} {entries : List (Nat × Nat × α)}
    (hrows : rows < rowBound) (h : ∀ e ∈ entries, e.1 < rows ∧ e.2.1 < columns)
    (hfits : entriesFit rows entries = true) (keepZeros : Bool) :
    collect rows columns entries keepZeros = .ok (ofEntries rows columns entries keepZeros) := by
  have hpositions : entries.forM (fun (r, c, _) => checkPosition rows columns r c) =
      (.ok () : Except Fault Unit) := by
    clear hfits
    induction entries with
    | nil => rfl
    | cons e entries ih =>
      obtain ⟨he, hentries⟩ := List.forall_mem_cons.1 h
      rw [MatrixBuilder.forM_checkPosition_cons, checkPosition, if_pos (by simpa using he)]
      exact ih hentries
  rw [collect_eq_of_fits, checkRowCount, if_pos hrows, hpositions, hfits]
  rfl

/-! ### Entries that come in order -/

omit [Weight α] in
/-- Entries of several parts. -/
theorem entriesOf_flatMap {β : Type} (l : List β) (f : β → List (Nat × Nat × α)) (i : Nat) :
    entriesOf (l.flatMap f) i = l.flatMap fun b => entriesOf (f b) i :=
  List.filterMap_flatMap ..

/-- **Entries that come in the order of columns** are the rows of their matrix. -/
theorem collect_of_sorted {rows columns : Nat} {entries : List (Nat × Nat × α)}
    (hrows : rows < rowBound) (h : ∀ e ∈ entries, e.1 < rows ∧ e.2.1 < columns)
    (hsorted : ∀ i, Row.Sorted (entriesOf entries i)) : collect rows columns entries false =
      .ok (ofRows columns ((List.range rows).map fun i =>
        Row.dropZeros (entriesOf entries i))) := by
  have hrow (i : Nat) : Row.ofEntries (entriesOf entries i) = entriesOf entries i ∧
      Row.insertAllFits [] (entriesOf entries i) = true :=
    Row.insertAll_of_sorted (List.nil_append (entriesOf entries i) ▸ hsorted i)
  rw [collect_eq_ok hrows h (List.all_eq_true.2 fun i _ => (hrow i).2)]
  refine congrArg (fun rows => Except.ok (Matrix.mk rows columns)) <|
    Array.ext (by simp) fun i hi _ => ?_
  simp [(hrow i).1]

omit [Weight α] in
/-- The entry of a sorted row in a column. -/
theorem entriesOf_exchanged {row : Row α} (h : row.Sorted) (i j : Nat) :
    entriesOf (row.map fun e => (e.column, i, e.value)) j =
      ((row.get? j).map fun value => (⟨i, value⟩ : Entry α)).toList := by
  induction row with
  | nil => rfl
  | cons e row ih =>
    have hrest := ih (Row.sorted_cons.1 h).2
    rw [List.map_cons, entriesOf, List.filterMap_cons, ← entriesOf, hrest, Row.get?_cons]
    by_cases hj : e.column = j
    · rw [h.get?_eq_none hj.ge]
      simp [hj]
    · simp [hj]

/-- **A transpose is collected** from the entries with rows and columns exchanged. -/
theorem WellFormed.transpose?_eq {m : Matrix α} (h : m.WellFormed)
    (hcolumns : m.columns < rowBound) : m.transpose? = .ok m.transpose := by
  have hentries (j : Nat) : entriesOf m.exchangedEntries j =
      (List.range m.rowCount).filterMap fun i => (m.get? i j).map fun value => ⟨i, value⟩ := by
    have hexchanged : m.exchangedEntries = (List.range m.rowCount).flatMap fun i =>
        (m.row i).map fun e => (e.column, i, e.value) := by
      simp [exchangedEntries, entries, List.map_flatMap, Function.comp_def]
    rw [hexchanged, entriesOf_flatMap, List.filterMap_eq_flatMap_toList]
    exact List.flatMap_congr fun i _ => entriesOf_exchanged (h.sorted i) i j
  have hpositions : ∀ e ∈ m.exchangedEntries, e.1 < m.columns ∧ e.2.1 < m.rowCount := by
    intro e he
    obtain ⟨_, hmem, rfl⟩ := List.mem_map.1 he
    obtain ⟨i, hi, hrow⟩ := List.mem_flatMap.1 hmem
    obtain ⟨d, hd, rfl⟩ := List.mem_map.1 hrow
    exact ⟨h.column_lt i _ (List.mem_map_of_mem hd), List.mem_range.1 hi⟩
  rw [transpose?, collect_of_sorted hcolumns hpositions fun j =>
    (hentries j).symm ▸ sorted_columnEntries m j]
  simp only [hentries, transpose]

end Matrix

end MarkovElimination
