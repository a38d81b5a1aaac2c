import MarkovElimination.Weight

/-! # Sparse rows

A **row** of a sparse matrix lists its entries by increasing column, at most one for each column. A
column without an entry counts as zero. -/

namespace MarkovElimination

/-- A value in a column. -/
structure Entry (α : Type) where
  column : Nat
  value : α
deriving DecidableEq

/-- The entries of a row by increasing column. -/
abbrev Row (α : Type) := List (Entry α)

namespace Row

variable {α : Type}

/-- Columns strictly increase. -/
def Sorted (row : Row α) : Prop :=
  row.Pairwise fun e f => e.column < f.column

instance (row : Row α) : Decidable row.Sorted :=
  inferInstanceAs (Decidable (List.Pairwise _ _))

/-- The columns that have an entry. -/
def columns (row : Row α) : List Nat := row.map (·.column)

/-- The value in a column, if there is an entry. -/
def get? (row : Row α) (column : Nat) : Option α :=
  (row.find? fun e => e.column == column).map (·.value)

/-- Whether a column has an entry. -/
def hasColumn (row : Row α) (column : Nat) : Bool := row.any fun e => e.column == column

/-- The row without the entry of one column. -/
def erase (row : Row α) (column : Nat) : Row α := row.filter fun e => e.column != column

/-- Whether there is an entry in another column. -/
def hasOtherColumn (row : Row α) (column : Nat) : Bool := row.any fun e => e.column != column

variable [Weight α]

/-- An entry put in its place; its value is added to one that is already there. -/
def insert (entry : Entry α) : Row α → Row α
  | [] => [entry]
  | first :: rest =>
    match compare entry.column first.column with
    | .lt => entry :: first :: rest
    | .eq => ⟨first.column, Weight.simplify (first.value + entry.value)⟩ :: rest
    | .gt => first :: insert entry rest

/-- Entries in any order collected into a row. -/
def ofEntries (entries : List (Entry α)) : Row α :=
  entries.foldl (fun row entry => insert entry row) []

/-- Whether an entry can be put in its place. -/
def insertFits (entry : Entry α) (row : Row α) : Bool :=
  match row.get? entry.column with
  | none => true
  | some value => Weight.sumFits value entry.value

/-- Whether entries can be put into a row one after the other. -/
def insertAllFits : Row α → List (Entry α) → Bool
  | _, [] => true
  | row, entry :: entries => insertFits entry row && insertAllFits (insert entry row) entries

/-- The entries that are not zero. -/
def dropZeros (row : Row α) : Row α := row.filter fun e => !Weight.isZero e.value

/-- The sum of the values, in the order of the columns. -/
def sum (row : Row α) : α :=
  Weight.simplify (row.foldl (fun total e => total + e.value) 0)

/-- Whether the values can be added one after the other to a total, without simplification. -/
def totalFits : α → Row α → Bool
  | _, [] => true
  | total, e :: row => Weight.addFits total e.value && totalFits (total + e.value) row

/-- Whether the sum of the values can be computed. -/
def sumFits (row : Row α) : Bool :=
  totalFits 0 row && Weight.simplifyFits (row.foldl (fun total e => total + e.value) 0)

end Row

end MarkovElimination
