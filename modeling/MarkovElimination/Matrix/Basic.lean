import MarkovElimination.Matrix.Row
import MarkovElimination.StateSet

/-! # Sparse matrices

A sparse matrix is an array of rows together with its number of columns. Matrices are collected from
entries in any order: entries at the same position are added, and zeros are dropped unless they are
asked for. Rows and columns can be restricted to a state set, whose members are renumbered in their
order. -/

namespace MarkovElimination

/-- The number of rows from which on no address space can hold them all. -/
def rowBound : Nat := Nat.pow 2 63 / 24 + 1

/-- Rows can only be laid out if an address space can hold them. -/
def checkRowCount (rows : Nat) : Except Fault Unit :=
  if rows < rowBound then pure () else throw .tooManyStates

/-- A sparse matrix. -/
structure Matrix (α : Type) where
  /-- The rows from the first to the last. -/
  rows : Array (Row α)
  /-- The number of columns. -/
  columns : Nat

namespace Matrix

variable {α : Type}

/-- The number of rows. -/
def rowCount (m : Matrix α) : Nat := m.rows.size

/-- The row of a state; there is nothing in a row outside of the matrix. -/
def row (m : Matrix α) (i : Nat) : Row α := m.rows.getD i []

/-- The row of a state, which has to be a row of the matrix. -/
def rowAt (m : Matrix α) (i : Nat) : Except Fault (Row α) :=
  if i < m.rowCount then pure (m.row i) else throw (.rowOutOfRange i m.rowCount)

/-- The value at a position, if there is an entry. -/
def get? (m : Matrix α) (i j : Nat) : Option α := (m.row i).get? j

/-- The value at a position, if there is an entry. The row has to be a row of the matrix. -/
def checkedGet (m : Matrix α) (i j : Nat) : Except Fault (Option α) := do
  let row ← m.rowAt i
  pure (row.get? j)

/-- All entries with their positions, row by row. -/
def entries (m : Matrix α) : List (Nat × Nat × α) :=
  (List.range m.rowCount).flatMap fun i => (m.row i).map fun e => (i, e.column, e.value)

/-- The number of entries. -/
def entryCount (m : Matrix α) : Nat := m.rows.foldl (fun count row => count + row.length) 0

/-- A matrix of the given rows. -/
def ofRows (columns : Nat) (rows : List (Row α)) : Matrix α := ⟨rows.toArray, columns⟩

/-- The square matrix without entries, provided that its rows can be laid out. -/
def empty? (size : Nat) : Except Fault (Matrix α) := do
  checkRowCount size
  pure (ofRows size (List.replicate size []))

variable [Weight α]

omit [Weight α] in
/-- The entries `(row, column, value)` of one row, in their order. -/
def entriesOf (entries : List (Nat × Nat × α)) (i : Nat) : List (Entry α) :=
  entries.filterMap fun (r, c, value) => if r = i then some ⟨c, value⟩ else none

/-- The matrix of entries `(row, column, value)` in any order. -/
def ofEntries (rows columns : Nat) (entries : List (Nat × Nat × α)) (keepZeros : Bool) :
    Matrix α :=
  ⟨Array.ofFn fun i : Fin rows =>
    let row := Row.ofEntries (entriesOf entries i)
    if keepZeros then row else row.dropZeros, columns⟩

/-- Whether entries at the same position can be added. -/
def entriesFit (rows : Nat) (entries : List (Nat × Nat × α)) : Bool :=
  (List.range rows).all fun i => Row.insertAllFits [] (entriesOf entries i)

/-- A position has to lie within the dimensions of a matrix. -/
def checkPosition (rows columns r c : Nat) : Except Fault Unit :=
  if r < rows && c < columns then pure () else throw (.entryOutOfRange r c rows columns)

/-- The matrix without its zero entries. -/
def dropZeros (m : Matrix α) : Matrix α := ⟨m.rows.map Row.dropZeros, m.columns⟩

/-- The sum of a row over the given columns. -/
def rowSum (m : Matrix α) (i : Nat) (columns : StateSet) : α :=
  Row.sum ((m.row i).filter fun e => columns.contains e.column)

/-- Whether the sum of a row over the given columns can be computed. -/
def rowSumFits (m : Matrix α) (i : Nat) (columns : StateSet) : Bool :=
  Row.sumFits ((m.row i).filter fun e => columns.contains e.column)

/-- A total and the values of entries in the given columns, added one after the other. All columns
of the entries have to be states of the set. -/
def addWithin (columns : StateSet) (total : α) : Row α → Except Fault α
  | [] => pure total
  | e :: row => do
    if ← columns.checkedAt StateSet.contains e.column then
      addWithin columns (← Weight.checkedAdd total e.value) row
    else
      addWithin columns total row

/-- The sum of a row over the given columns, if it can be computed. -/
def checkedRowSum (m : Matrix α) (i : Nat) (columns : StateSet) : Except Fault α := do
  let total ← addWithin columns 0 (← m.rowAt i)
  Weight.checkedSimplify total

/-- The sums of the given rows over the given columns, in the order of the rows. -/
def rowSums (m : Matrix α) (rows columns : StateSet) : List α :=
  rows.toList.map fun i => m.rowSum i columns

/-- The sums of the given rows over the given columns, if they can be computed. -/
def checkedRowSums (m : Matrix α) (rows columns : StateSet) : Except Fault (List α) :=
  rows.toList.mapM fun i => m.checkedRowSum i columns

/-- The products of the entries of a row with the entries at the same positions of another row. -/
def productRow (row other : Row α) : Row α :=
  row.filterMap fun e => (other.get? e.column).map fun value => ⟨e.column, e.value * value⟩

/-- Whether the products of two rows and their sum can be computed. -/
def productRowFits (row other : Row α) : Bool :=
  row.all (fun e =>
    match other.get? e.column with
    | none => true
    | some value => Weight.mulFits e.value value) && Row.sumFits (productRow row other)

/-- For every row the sum of `m[i][j] * other[i][j]` over all columns. -/
def productRowSums (m other : Matrix α) : Except Fault (List α) := do
  if m.rowCount ≠ other.rowCount then throw .sizeMismatch
  requireRange ((List.range m.rowCount).all fun i => productRowFits (m.row i) (other.row i))
  pure ((List.range m.rowCount).map fun i => Row.sum (productRow (m.row i) (other.row i)))

/-- The entries of a row in the given columns, renumbered. -/
def restrictRow (columns : StateSet) (row : Row α) : Row α :=
  row.filterMap fun e => (columns.toList.idxOf? e.column).map fun j => ⟨j, e.value⟩

/-- The given rows and columns, both renumbered. -/
def submatrix (m : Matrix α) (rows columns : StateSet) : Matrix α :=
  ofRows columns.card (rows.toList.map fun i => (restrictRow columns (m.row i)).dropZeros)

/-- Rows and columns exchanged. -/
def transpose (m : Matrix α) : Matrix α :=
  ofRows m.rowCount <| (List.range m.columns).map fun j => Row.dropZeros <|
    (List.range m.rowCount).filterMap fun i => (m.get? i j).map fun value => ⟨i, value⟩

/-- All values replaced, zeros dropped. -/
def mapValues {β : Type} [Weight β] (f : α → β) (m : Matrix α) : Matrix β :=
  ⟨m.rows.map fun row => Row.dropZeros (row.map fun e => ⟨e.column, f e.value⟩), m.columns⟩

/-- The matrix of ones at the places of the entries that are not zero. -/
def connections (m : Matrix α) : Matrix α :=
  ⟨m.dropZeros.rows.map fun row => row.map fun e => ⟨e.column, 1⟩, m.columns⟩

omit [Weight α]

/-- The matrix with one row replaced, which has to be sorted and a row of the matrix. -/
def setRow (m : Matrix α) (i : Nat) (row : Row α) : Except Fault (Matrix α) :=
  if ¬row.Sorted then throw .unsortedRow
  else if i < m.rowCount then pure ⟨m.rows.setIfInBounds i row, m.columns⟩
  else throw (.rowOutOfRange i m.rowCount)

end Matrix

end MarkovElimination
