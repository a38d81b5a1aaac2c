import MarkovElimination.Graph.Basic

/-! # Distances in a graph

The number of edges on a shortest path from a source to every state, found by breadth-first search
with a **queue**: a state gets its distance when it is first seen, and joins the queue; the states
of the queue are taken in the order in which they joined, and their successors are looked at. -/

namespace MarkovElimination

/-- How far a search for distances has come. -/
structure DistanceSearch where
  /-- The distance of every state; a state that has not been seen has none. -/
  distances : Array (Option Nat)
  /-- The states that have been seen and whose successors have not been looked at yet, the first to
  be taken in front. -/
  queue : List Nat

namespace DistanceSearch

/-- The start of a search. -/
def start (size : Nat) (sources : StateSet) : DistanceSearch :=
  sources.toList.foldl (fun d s => ⟨d.distances.setIfInBounds s (some 0), d.queue ++ [s]⟩)
    ⟨Array.replicate size none, []⟩

/-- The distance of a state that has been seen. -/
def distance (d : DistanceSearch) (s : Nat) : Option Nat := d.distances.getD s none

/-- A state that is seen for the first time gets its distance and joins the queue. -/
def see (distance : Nat) (d : DistanceSearch) (s : Nat) : DistanceSearch :=
  if d.distances[s]? = some none then
    ⟨d.distances.setIfInBounds s (some distance), d.queue ++ [s]⟩
  else d

/-- Takes a state from the queue and looks at its successors. -/
def take (g : Graph) (d : DistanceSearch) (s : Nat) (rest : List Nat) : DistanceSearch :=
  (g.next s).foldl (see ((d.distance s).getD 0 + 1)) { d with queue := rest }

/-- The states that have not been seen, and those in the queue. -/
def remaining (d : DistanceSearch) : Nat := d.distances.count none + d.queue.length

/-- A state that is seen for the first time moves into the queue. -/
theorem remaining_see (distance : Nat) (d : DistanceSearch) (s : Nat) :
    (see distance d s).remaining = d.remaining := by
  unfold see
  split
  · rename_i h
    obtain ⟨hs, hnone⟩ := Array.getElem?_eq_some_iff.1 h
    have hpos : 0 < d.distances.count none :=
      Array.count_pos_iff.2 (hnone ▸ Array.getElem_mem hs)
    have hsome : (some distance == (none : Option Nat)) = false := rfl
    simp only [remaining, Array.setIfInBounds_def, hs, dite_true, Array.count_set, hnone, hsome,
      beq_self_eq_true, if_true, Bool.false_eq_true, if_false, List.length_append,
      List.length_singleton]
    omega
  · rfl

/-- A state that is taken from the queue does not come back. -/
theorem remaining_take (g : Graph) (d : DistanceSearch) (s : Nat) (rest : List Nat)
    (h : d.queue = s :: rest) : (d.take g s rest).remaining < d.remaining := by
  have hfoldl (states : List Nat) (distance : Nat) (d : DistanceSearch) :
      (states.foldl (see distance) d).remaining = d.remaining := by
    induction states generalizing d with
    | nil => rfl
    | cons t states ih => rw [List.foldl_cons, ih, remaining_see]
  rw [take, hfoldl, remaining, remaining, h]
  simp

/-- The search until the queue is empty. -/
def run (g : Graph) (d : DistanceSearch) : Array (Option Nat) :=
  match _h : d.queue with
  | [] => d.distances
  | s :: rest => run g (d.take g s rest)
termination_by d.remaining
decreasing_by exact d.remaining_take g s rest _h

end DistanceSearch

/-- The number of edges on a shortest path from a source to every state, where there is one. -/
def Graph.distances (g : Graph) (sources : StateSet) : List (Option Nat) :=
  (DistanceSearch.run g (.start g.size sources)).toList

end MarkovElimination
