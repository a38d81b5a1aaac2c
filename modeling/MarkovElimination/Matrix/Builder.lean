import MarkovElimination.Matrix.Basic

/-! # Building matrices

A builder takes entries in any order and keeps them by rows. Once all of them are there, every row
is sorted by columns, neighbours in the same column are added, and zeros are dropped unless they are
asked for. The rows are then written one behind the other into a single array (`CompressedMatrix`),
next to the places where they start. Transposes and submatrices are built from the entries of the
matrix at their new positions. -/

namespace MarkovElimination

namespace Row

variable {α : Type}

/-- Entries sorted by columns. Entries in the same column stay in their order. -/
def sortByColumn (entries : List (Entry α)) : List (Entry α) :=
  entries.mergeSort fun e f => e.column ≤ f.column

variable [Weight α]

/-- The row of some entries behind `last`: an entry in the column of the one before it is added to
that one. -/
def mergeFrom (last : Entry α) : List (Entry α) → Except Fault (Row α)
  | [] => pure [last]
  | entry :: entries => do
    if last.column = entry.column then
      let total ← Weight.checkedAdd last.value entry.value
      mergeFrom ⟨last.column, ← Weight.checkedSimplify total⟩ entries
    else
      pure (last :: (← mergeFrom entry entries))

/-- The row of some entries, of which neighbours in the same column are added. -/
def mergeNeighbours : List (Entry α) → Except Fault (Row α)
  | [] => pure []
  | first :: entries => mergeFrom first entries

end Row

/-- A matrix whose rows stand one behind the other. -/
structure CompressedMatrix (α : Type) where
  /-- The places where the rows start, and behind them the place where the last row ends. -/
  rowStarts : Array Nat
  /-- The entries of all rows. -/
  entries : Array (Entry α)
  /-- The number of columns. -/
  columns : Nat

namespace CompressedMatrix

variable {α : Type}

/-- The matrix without rows. -/
def empty (columns : Nat) : CompressedMatrix α := ⟨#[0], #[], columns⟩

/-- One more row behind the others. -/
def appendRow (m : CompressedMatrix α) (row : Row α) : CompressedMatrix α :=
  let entries := m.entries ++ row.toArray
  ⟨m.rowStarts.push entries.size, entries, m.columns⟩

/-- The number of rows. -/
def rowCount (m : CompressedMatrix α) : Nat := m.rowStarts.size - 1

/-- The entries of a row, from where it starts to where the next one does. -/
def row (m : CompressedMatrix α) (i : Nat) : Row α :=
  (m.entries.extract (m.rowStarts.getD i 0) (m.rowStarts.getD (i + 1) 0)).toList

/-- The matrix read row by row. -/
def toMatrix (m : CompressedMatrix α) : Matrix α :=
  .ofRows m.columns ((List.range m.rowCount).map m.row)

end CompressedMatrix

/-- What has been given of a matrix so far. -/
structure MatrixBuilder (α : Type) where
  /-- The entries of every row, in the order in which they were given. -/
  rows : Array (Array (Entry α))
  /-- The number of columns. -/
  columns : Nat
  /-- Whether entries that are zero stay in the matrix. -/
  keepZeros : Bool

namespace MatrixBuilder

variable {α : Type}

/-- Nothing given yet. -/
def new (rows columns : Nat) (keepZeros : Bool) : MatrixBuilder α :=
  ⟨Array.replicate rows #[], columns, keepZeros⟩

/-- One more entry `(row, column, value)`. -/
def place (b : MatrixBuilder α) : Nat × Nat × α → MatrixBuilder α
  | (r, c, value) => { b with rows := b.rows.modify r (·.push ⟨c, value⟩) }

/-- One more entry, which has to lie within the dimensions. -/
def add (b : MatrixBuilder α) (entry : Nat × Nat × α) : Except Fault (MatrixBuilder α) := do
  Matrix.checkPosition b.rows.size b.columns entry.1 entry.2.1
  pure (b.place entry)

variable [Weight α]

/-- The row of entries in any order. -/
def finishRow (keepZeros : Bool) (entries : Array (Entry α)) : Except Fault (Row α) := do
  let row ← Row.mergeNeighbours (Row.sortByColumn entries.toList)
  pure (if keepZeros then row else row.dropZeros)

/-- The matrix of what was given. -/
def build (b : MatrixBuilder α) : Except Fault (CompressedMatrix α) :=
  b.rows.toList.foldlM
    (fun m entries => do pure (m.appendRow (← finishRow b.keepZeros entries))) (.empty b.columns)

end MatrixBuilder

namespace Matrix

variable {α : Type} [Weight α]

/-- The matrix of entries, all of which have to lie within its dimensions. -/
def collect (rows columns : Nat) (entries : List (Nat × Nat × α)) (keepZeros : Bool) :
    Except Fault (Matrix α) := do
  checkRowCount rows
  let b ← entries.foldlM MatrixBuilder.add (.new rows columns keepZeros)
  let m ← b.build
  pure m.toMatrix

/-- The entries with rows and columns exchanged. -/
def exchangedEntries (m : Matrix α) : List (Nat × Nat × α) :=
  m.entries.map fun (i, j, value) => (j, i, value)

/-- Rows and columns exchanged. -/
def transpose? (m : Matrix α) : Except Fault (Matrix α) :=
  collect m.columns m.rowCount m.exchangedEntries false

/-- The entries in the given rows and columns, at their new positions. -/
def selectedEntries (m : Matrix α) (rows columns : StateSet) : List (Nat × Nat × α) :=
  rows.toList.zipIdx.flatMap fun (row, i) =>
    (restrictRow columns (m.row row)).map fun e => (i, e.column, e.value)

/-- The given rows and columns, both renumbered. They have to be sets of rows and columns of the
matrix. -/
def submatrix? (m : Matrix α) (rows columns : StateSet) : Except Fault (Matrix α) := do
  if rows.size ≠ m.rowCount then throw .sizeMismatch
  if columns.size ≠ m.columns then throw .sizeMismatch
  collect rows.card columns.card (m.selectedEntries rows columns) false

end Matrix

end MarkovElimination
