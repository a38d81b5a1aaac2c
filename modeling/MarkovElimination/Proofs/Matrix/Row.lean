import Mathlib
import MarkovElimination.Elimination.Step

/-! # The shape of rows

Which columns a row has after each operation, and that rows stay sorted. Nothing here looks at the
values of entries, so it holds for weights of every kind. -/

namespace MarkovElimination

namespace Row

variable {α : Type}

/-! ### Columns and entries -/

@[simp] theorem columns_nil : columns ([] : Row α) = [] := rfl

@[simp] theorem columns_cons (e : Entry α) (row : Row α) :
    columns (e :: row) = e.column :: columns row := rfl

/-- A column has an entry exactly if it is listed. -/
theorem hasColumn_iff {row : Row α} {c : Nat} : row.hasColumn c = true ↔ c ∈ row.columns := by
  simp [hasColumn, columns]

/-- There is an entry in another column exactly if another column is listed. -/
theorem hasOtherColumn_iff {row : Row α} {c : Nat} :
    row.hasOtherColumn c = true ↔ ∃ d ∈ row.columns, d ≠ c := by
  simp [hasOtherColumn, columns]

/-- What is found in a column is the value of an entry. -/
theorem exists_entry_of_get? {row : Row α} {c : Nat} {a : α} (h : row.get? c = some a) :
    ∃ e ∈ row, e.column = c ∧ e.value = a := by
  obtain ⟨e, he, hval⟩ := Option.map_eq_some_iff.1 h
  have hcol := List.find?_some he
  exact ⟨e, List.mem_of_find?_eq_some he, by simpa using hcol, hval⟩

/-- Only listed columns have a value. -/
theorem get?_eq_none_iff {row : Row α} {c : Nat} : row.get? c = none ↔ c ∉ row.columns := by
  simp [get?, columns, List.find?_eq_none]

/-- Every listed column has a value. -/
theorem exists_get? {row : Row α} {c : Nat} (h : c ∈ row.columns) :
    ∃ a, row.get? c = some a := by
  rw [← Option.isSome_iff_exists, Option.isSome_iff_ne_none, Ne, get?_eq_none_iff]
  exact fun hc => hc h

/-- The first entry is found in its column. -/
theorem get?_cons (e : Entry α) (row : Row α) (c : Nat) :
    get? (e :: row) c = if e.column = c then some e.value else get? row c := by
  rw [get?, get?, List.find?_cons]
  by_cases h : e.column = c
  · simp [h]
  · have hne : (e.column == c) = false := by simpa using h
    rw [hne, if_neg h]

/-- The columns of a sorted row strictly increase. -/
theorem sorted_iff {row : Row α} : row.Sorted ↔ row.columns.Pairwise (· < ·) := by
  rw [columns, List.pairwise_map]
  rfl

/-- A sorted row lists every column once. -/
theorem Sorted.nodup {row : Row α} (h : row.Sorted) : row.columns.Nodup :=
  (sorted_iff.1 h).imp fun hlt => hlt.ne

/-- A sorted row continues with greater columns. -/
theorem sorted_cons {e : Entry α} {row : Row α} :
    Sorted (e :: row) ↔ (∀ c ∈ row.columns, e.column < c) ∧ row.Sorted := by
  rw [sorted_iff, sorted_iff, columns_cons, List.pairwise_cons]

/-- Nothing is found in a column that comes before all others. -/
theorem Sorted.get?_eq_none {e : Entry α} {row : Row α} (h : Sorted (e :: row)) {c : Nat}
    (hc : c ≤ e.column) : get? row c = none := by
  rw [get?_eq_none_iff]
  intro hmem
  have := (sorted_cons.1 h).1 c hmem
  omega

/-- **Sorted rows are equal** if they have the same value in every column. -/
theorem Sorted.ext_get? {row other : Row α} (hrow : row.Sorted) (hother : other.Sorted)
    (h : ∀ c, row.get? c = other.get? c) : row = other := by
  induction row generalizing other with
  | nil =>
    cases other with
    | nil => rfl
    | cons f other =>
      have hf := h f.column
      rw [get?_cons, if_pos rfl] at hf
      cases hf
  | cons e row ih =>
    cases other with
    | nil =>
      have he := h e.column
      rw [get?_cons, if_pos rfl] at he
      cases he
    | cons f other =>
      have he := h e.column
      have hf := h f.column
      rw [get?_cons, if_pos rfl, get?_cons] at he
      rw [get?_cons, get?_cons, if_pos rfl] at hf
      -- The smaller of the first columns would be missing in the other row.
      have hcolumn : f.column = e.column := by
        rcases lt_trichotomy e.column f.column with hlt | heq | hlt
        · rw [if_neg hlt.ne', hother.get?_eq_none hlt.le] at he
          cases he
        · exact heq.symm
        · rw [if_neg hlt.ne', hrow.get?_eq_none hlt.le] at hf
          cases hf
      rw [if_pos hcolumn] at he
      have hhead : e = f := by
        cases e
        cases f
        simp_all
      have htail : row = other := by
        refine ih (sorted_cons.1 hrow).2 (sorted_cons.1 hother).2 fun c => ?_
        by_cases hc : e.column = c
        · rw [hrow.get?_eq_none hc.ge, hother.get?_eq_none (hcolumn.trans hc).ge]
        · have hboth := h c
          rwa [get?_cons, get?_cons, if_neg hc, if_neg (hcolumn ▸ hc)] at hboth
      rw [hhead, htail]

/-! ### Erasing a column -/

/-- Erasing removes exactly one column. -/
@[simp] theorem mem_columns_erase {row : Row α} {c d : Nat} :
    d ∈ (row.erase c).columns ↔ d ∈ row.columns ∧ d ≠ c := by
  simp only [erase, columns, List.mem_map, List.mem_filter, bne_iff_ne]
  constructor
  · rintro ⟨e, ⟨he, hne⟩, rfl⟩
    exact ⟨⟨e, he, rfl⟩, hne⟩
  · rintro ⟨⟨e, he, rfl⟩, hne⟩
    exact ⟨e, ⟨he, hne⟩, rfl⟩

/-- Entries that remain after erasing were there before. -/
theorem mem_of_mem_erase {row : Row α} {c : Nat} {e : Entry α} (h : e ∈ row.erase c) :
    e ∈ row :=
  (List.mem_filter.1 h).1

/-- Erasing keeps a row sorted. -/
theorem Sorted.erase {row : Row α} (h : row.Sorted) (c : Nat) : (row.erase c).Sorted :=
  List.Pairwise.filter _ h

/-- Erasing a column keeps the values of the others. -/
theorem get?_erase (row : Row α) (c d : Nat) :
    (row.erase c).get? d = if d = c then none else row.get? d := by
  induction row with
  | nil => simp [erase, get?]
  | cons e row ih =>
    by_cases hc : e.column = c
    · have herase : erase (e :: row) c = erase row c := by simp [erase, hc]
      rw [herase, ih, get?_cons, hc]
      by_cases hd : d = c
      · rw [if_pos hd, if_pos hd]
      · rw [if_neg hd, if_neg hd, if_neg (Ne.symm hd)]
    · have herase : erase (e :: row) c = e :: erase row c := by simp [erase, hc]
      rw [herase, get?_cons, get?_cons, ih]
      by_cases he : e.column = d
      · rw [if_pos he, if_pos he, if_neg (he ▸ hc)]
      · rw [if_neg he, if_neg he]

/-- Erasing a column that has no entry changes nothing. -/
theorem erase_eq_self {row : Row α} {c : Nat} (h : c ∉ row.columns) : row.erase c = row := by
  rw [erase, List.filter_eq_self]
  intro e he
  have hne : e.column ≠ c := fun heq => h (heq ▸ List.mem_map_of_mem he)
  simpa using hne

variable [Weight α]

/-- Dropping zeros keeps a row sorted. -/
theorem Sorted.dropZeros {row : Row α} (h : row.Sorted) : row.dropZeros.Sorted :=
  List.Pairwise.filter _ h

/-! ### Scaling -/

/-- Scaling keeps the columns. -/
@[simp] theorem columns_scale (f : α) (row : Row α) : (row.scale f).columns = row.columns := by
  simp [scale, columns]

/-! ### Adding a multiple of another row -/

/-- A sum has the columns of both rows. -/
@[simp] theorem mem_columns_addScaled {m : α} {row other : Row α} {c : Nat} :
    c ∈ (addScaled m row other).columns ↔ c ∈ row.columns ∨ c ∈ other.columns := by
  fun_induction addScaled m row other with
  | case1 row => simp
  | case2 f other ih => simp [ih]
  | case3 e row f other hcmp ih => simp only [columns_cons, List.mem_cons, ih, or_assoc]
  | case4 e row f other hcmp ih =>
    simp only [columns_cons, List.mem_cons, ih]
    tauto
  | case5 e row f other hcmp ih =>
    rw [Nat.compare_eq_eq] at hcmp
    simp only [columns_cons, List.mem_cons, ih, hcmp]
    tauto

/-- A sum of sorted rows is sorted. -/
theorem sorted_addScaled {m : α} {row other : Row α} (hrow : row.Sorted) (hother : other.Sorted) :
    (addScaled m row other).Sorted := by
  fun_induction addScaled m row other with
  | case1 row => exact hrow
  | case2 f other ih =>
    rw [sorted_cons] at hother ⊢
    exact ⟨fun c hc => hother.1 c (by simpa using hc), ih hrow hother.2⟩
  | case3 e row f other hcmp ih =>
    -- The smaller of the first columns comes first, and is below all others of both rows.
    rw [Nat.compare_eq_lt] at hcmp
    rw [sorted_cons] at hrow ⊢
    refine ⟨fun c hc => ?_, ih hrow.2 hother⟩
    rcases mem_columns_addScaled.1 hc with hc | hc
    · exact hrow.1 c hc
    · rcases List.mem_cons.1 hc with rfl | hc
      · exact hcmp
      · exact hcmp.trans ((sorted_cons.1 hother).1 c hc)
  | case4 e row f other hcmp ih =>
    rw [Nat.compare_eq_gt] at hcmp
    rw [sorted_cons] at hother ⊢
    refine ⟨fun c hc => ?_, ih hrow hother.2⟩
    rcases mem_columns_addScaled.1 hc with hc | hc
    · rcases List.mem_cons.1 hc with rfl | hc
      · exact hcmp
      · exact hcmp.trans ((sorted_cons.1 hrow).1 c hc)
    · exact hother.1 c hc
  | case5 e row f other hcmp ih =>
    rw [Nat.compare_eq_eq] at hcmp
    rw [sorted_cons] at hrow hother ⊢
    refine ⟨fun c hc => ?_, ih hrow.2 hother.2⟩
    rcases mem_columns_addScaled.1 hc with hc | hc
    · exact hrow.1 c hc
    · simpa only [hcmp] using hother.1 c hc

/-- A property of weights that products and sums have holds of all values of a sum of rows. -/
theorem forall_addScaled {q : α → Prop} {m : α} {row other : Row α}
    (hmul : ∀ b, q b → q (Weight.simplify (m * b)))
    (hadd : ∀ a b, q a → q b → q (Weight.simplify (a + b)))
    (hrow : ∀ e ∈ row, q e.value) (hother : ∀ e ∈ other, q e.value) :
    ∀ e ∈ addScaled m row other, q e.value := by
  fun_induction addScaled m row other with
  | case1 row => exact hrow
  | case2 f other ih =>
    rw [List.forall_mem_cons] at hother ⊢
    exact ⟨hmul _ hother.1, ih hrow hother.2⟩
  | case3 e row f other hcmp ih =>
    rw [List.forall_mem_cons] at hrow ⊢
    exact ⟨hrow.1, ih hrow.2 hother⟩
  | case4 e row f other hcmp ih =>
    rw [List.forall_mem_cons] at hother ⊢
    exact ⟨hmul _ hother.1, ih hrow hother.2⟩
  | case5 e row f other hcmp ih =>
    rw [List.forall_mem_cons] at hrow hother ⊢
    exact ⟨hadd _ _ hrow.1 (hmul _ hother.1), ih hrow.2 hother.2⟩

/-! ### Marking columns -/

/-- A row of marks has the listed columns. -/
@[simp] theorem columns_marks (columns : List Nat) :
    (marks columns : Row α).columns = columns := by
  simp [marks, Row.columns, Function.comp_def]

/-- Marking adds the listed columns. -/
@[simp] theorem mem_columns_mark {row : Row α} {columns : List Nat} {c : Nat} :
    c ∈ (row.mark columns).columns ↔ c ∈ row.columns ∨ c ∈ columns := by
  fun_induction mark row columns with
  | case1 columns => simp
  | case2 e row => simp
  | case3 e row d columns hcmp ih => simp only [columns_cons, List.mem_cons, ih, or_assoc]
  | case4 e row d columns hcmp ih =>
    simp only [columns_cons, List.mem_cons, ih]
    tauto
  | case5 e row d columns hcmp ih =>
    rw [Nat.compare_eq_eq] at hcmp
    simp only [columns_cons, List.mem_cons, ih, hcmp]
    tauto

/-- Marking increasing columns keeps a row sorted. -/
theorem sorted_mark {row : Row α} {columns : List Nat} (hrow : row.Sorted)
    (hcolumns : columns.Pairwise (· < ·)) : (row.mark columns).Sorted := by
  fun_induction mark row columns with
  | case1 columns => rwa [sorted_iff, columns_marks]
  | case2 e row => exact hrow
  | case3 e row d columns hcmp ih =>
    rw [Nat.compare_eq_lt] at hcmp
    rw [sorted_cons] at hrow ⊢
    refine ⟨fun c hc => ?_, ih hrow.2 hcolumns⟩
    rcases mem_columns_mark.1 hc with hc | hc
    · exact hrow.1 c hc
    · rcases List.mem_cons.1 hc with rfl | hc
      · exact hcmp
      · exact hcmp.trans ((List.pairwise_cons.1 hcolumns).1 c hc)
  | case4 e row d columns hcmp ih =>
    rw [Nat.compare_eq_gt] at hcmp
    rw [List.pairwise_cons] at hcolumns
    rw [sorted_cons]
    refine ⟨fun c hc => ?_, ih hrow hcolumns.2⟩
    rcases mem_columns_mark.1 hc with hc | hc
    · rcases List.mem_cons.1 hc with rfl | hc
      · exact hcmp
      · exact hcmp.trans ((sorted_cons.1 hrow).1 c hc)
    · exact hcolumns.1 c hc
  | case5 e row d columns hcmp ih =>
    rw [Nat.compare_eq_eq] at hcmp
    rw [sorted_cons] at hrow ⊢
    rw [List.pairwise_cons] at hcolumns
    refine ⟨fun c hc => ?_, ih hrow.2 hcolumns.2⟩
    rcases mem_columns_mark.1 hc with hc | hc
    · exact hrow.1 c hc
    · simpa only [hcmp] using hcolumns.1 c hc

/-- Marks are ones. -/
theorem get?_marks (columns : List Nat) (c : Nat) :
    (marks columns : Row α).get? c = if c ∈ columns then some 1 else none := by
  induction columns with
  | nil => rfl
  | cons d columns ih =>
    rw [marks, List.map_cons, get?_cons]
    by_cases hd : d = c
    · simp [hd]
    · rw [if_neg hd]
      have hmem : c ∈ d :: columns ↔ c ∈ columns := by simp [Ne.symm hd]
      simp only [hmem]
      exact ih

/-- Marking keeps the values of a row and puts ones into the new columns. -/
theorem get?_mark {row : Row α} {columns : List Nat} (hrow : row.Sorted) (c : Nat) :
    (row.mark columns).get? c = (row.get? c).or (if c ∈ columns then some 1 else none) := by
  fun_induction mark row columns with
  | case1 columns => rw [get?_marks]; rfl
  | case2 e row => simp
  | case3 e row d columns hcmp ih =>
    rw [get?_cons, ih (sorted_cons.1 hrow).2, get?_cons]
    by_cases he : e.column = c <;> simp [he]
  | case4 e row d columns hcmp ih =>
    -- The new column comes before all columns of the row.
    rw [Nat.compare_eq_gt] at hcmp
    rw [get?_cons, ih hrow]
    by_cases hd : d = c
    · have hnone : get? (e :: row) c = none := by
        rw [get?_cons, if_neg (by omega), hrow.get?_eq_none (by omega)]
      simp [hd, hnone]
    · simp [hd, Ne.symm hd]
  | case5 e row d columns hcmp ih =>
    rw [Nat.compare_eq_eq] at hcmp
    rw [get?_cons, ih (sorted_cons.1 hrow).2, get?_cons]
    by_cases he : e.column = c
    · simp [he]
    · have hd : c ≠ d := fun h => he (hcmp.trans h.symm)
      simp [he, hd]

end Row

end MarkovElimination
