import MarkovElimination.Fault

/-! # Progress reports and cancellation

A long computation runs under a **monitor**. It reports every further tenth of its expected steps,
and it can be cancelled: a trigger is set when a given number of reports has been made, and the
computation stops at the next checkpoint. -/

namespace MarkovElimination

/-- How many of the expected eliminations are done. -/
structure Report where
  eliminated : Nat
  total : Nat
deriving DecidableEq

/-- What a computation does after each elimination: count it, and report now and then. -/
structure Tracker where
  /-- The number of eliminations that are expected; zero means that nothing is reported. -/
  total : Nat
  /-- The number of eliminations between two reports. -/
  chunk : Nat
  /-- The number of eliminations so far. -/
  done : Nat
  /-- The number of eliminations at which the next report is due. -/
  due : Nat
deriving DecidableEq

namespace Tracker

/-- A tracker that expects `total` eliminations. -/
def start (total : Nat) : Tracker :=
  let chunk := max 1 (total / 10)
  ⟨total, chunk, 0, chunk⟩

/-- One more elimination, with the report that is due after it. -/
def tick (t : Tracker) : Tracker × Option Report :=
  let done := t.done + 1
  if t.total = 0 || (done < t.due && done ≠ t.total) then
    ({ t with done := done }, none)
  else
    ({ t with done := done, due := done + t.chunk }, some ⟨min done t.total, t.total⟩)

end Tracker

/-- What is known about a monitored computation. -/
structure Monitor where
  /-- The number of reports after which the trigger is set. -/
  cancelAt : Option Nat := none
  tracker : Tracker := .start 0
  /-- All reports so far, the first one first. -/
  reports : List Report := []

/-- Why a monitored computation stopped early. -/
inductive Interruption where
  | cancelled
  | fault (fault : Fault)

/-- A computation under a monitor. -/
abbrev Monitored := ExceptT Interruption (StateM Monitor)

namespace Monitor

/-- Whether the trigger is set. -/
def isCancelled (m : Monitor) : Bool := m.cancelAt.any (· ≤ m.reports.length)

/-- The monitor after one more elimination. -/
def tick (m : Monitor) : Monitor :=
  let (tracker, report) := m.tracker.tick
  { m with tracker := tracker, reports := m.reports ++ report.toList }

end Monitor

namespace Monitored

/-- Stops the computation if the trigger is set. -/
def checkpoint : Monitored Unit := do
  if (← get).isCancelled then throw .cancelled

/-- Expect the given number of eliminations from now on. -/
def expect (total : Nat) : Monitored Unit :=
  modify fun m => { m with tracker := .start total }

/-- Counts an elimination. -/
def tick : Monitored Unit := modify Monitor.tick

/-- A step that can meet a fault. -/
def ofFault {α : Type} (result : Except Fault α) : Monitored α :=
  match result with
  | .ok a => pure a
  | .error f => throw (.fault f)

end Monitored

end MarkovElimination
