import MarkovElimination.Fault

/-! # Sets of states

States are the natural numbers below the size of a state space. A **state set** belongs to one state
space and knows its size. Set operations are given by their members: `contains` is the view through
which every operation is described. The operations that a caller may apply to arguments of different
state spaces, to a state outside of the space, or to a size that is too large, have a checked
variant that returns a fault. -/

namespace MarkovElimination

/-- A set of states of one state space. -/
structure StateSet where
  /-- For every state, whether it is a member. -/
  members : Array Bool
deriving DecidableEq

namespace StateSet

/-- The number of states of the state space. -/
def size (s : StateSet) : Nat := s.members.size

/-- Whether a state is a member. States outside of the state space are not. -/
def contains (s : StateSet) (i : Nat) : Bool := s.members.getD i false

/-- The states of a space of `n` states that satisfy a predicate. -/
def ofPredicate (n : Nat) (p : Nat → Bool) : StateSet := ⟨Array.ofFn fun i : Fin n => p i⟩

/-- The set without members. -/
def empty (n : Nat) : StateSet := ofPredicate n fun _ => false

/-- The set of all states. -/
def full (n : Nat) : StateSet := ofPredicate n fun _ => true

/-- The listed states. -/
def ofList (n : Nat) (states : List Nat) : StateSet := ofPredicate n states.contains

/-- The set with one member. -/
def singleton (n i : Nat) : StateSet := ofPredicate n (· == i)

/-- The members in increasing order. -/
def toList (s : StateSet) : List Nat := (List.range s.size).filter s.contains

/-- The number of members. -/
def card (s : StateSet) : Nat := s.toList.length

/-- Whether there are no members. -/
def isEmpty (s : StateSet) : Bool := s.toList.isEmpty

/-- The smallest member. -/
def first? (s : StateSet) : Option Nat := s.toList.head?

/-- The states of either set. -/
def union (s t : StateSet) : StateSet := ofPredicate s.size fun i => s.contains i || t.contains i

/-- The states of both sets. -/
def inter (s t : StateSet) : StateSet := ofPredicate s.size fun i => s.contains i && t.contains i

/-- The states of the first set that are not in the second. -/
def minus (s t : StateSet) : StateSet := ofPredicate s.size fun i => s.contains i && !t.contains i

/-- The states that are not in the set. -/
def complement (s : StateSet) : StateSet := ofPredicate s.size fun i => !s.contains i

/-- The set with one more member. -/
def insert (s : StateSet) (i : Nat) : StateSet := ofPredicate s.size fun j => j == i || s.contains j

/-- The set without one state. -/
def erase (s : StateSet) (i : Nat) : StateSet := ofPredicate s.size fun j => j != i && s.contains j

/-- Whether every member of the first set is in the second. -/
def isSubset (s t : StateSet) : Bool := (s.minus t).isEmpty

/-- Whether the sets have no common member. -/
def isDisjoint (s t : StateSet) : Bool := (s.inter t).isEmpty

/-- The set in the state space of the members of `restriction`: its state `i` stands for the `i`-th
member of the restriction. -/
def compress (s restriction : StateSet) : StateSet :=
  ⟨(restriction.toList.map s.contains).toArray⟩

/-- The members in braces, each behind the letter `s`. -/
def render (s : StateSet) : String :=
  "\x7b" ++ ", ".intercalate (s.toList.map fun i => "s" ++ toString i) ++ "\x7d"

/-! ### The view of each operation -/

@[simp] theorem size_ofPredicate (n : Nat) (p : Nat → Bool) : (ofPredicate n p).size = n := by
  simp [ofPredicate, size]

@[simp] theorem contains_ofPredicate (n : Nat) (p : Nat → Bool) (i : Nat) :
    (ofPredicate n p).contains i = (decide (i < n) && p i) := by
  simp only [ofPredicate, contains, Array.getD_eq_getD_getElem?, Array.getElem?_ofFn]
  by_cases h : i < n <;> simp [h]

/-- Members are states of the space. -/
theorem lt_size_of_contains {s : StateSet} {i : Nat} (h : s.contains i = true) : i < s.size := by
  simp only [contains, Array.getD_eq_getD_getElem?] at h
  rcases Nat.lt_or_ge i s.members.size with hlt | hge
  · exact hlt
  · simp [Array.getElem?_eq_none hge] at h

@[simp] theorem mem_toList {s : StateSet} {i : Nat} : i ∈ s.toList ↔ s.contains i = true := by
  simp only [toList, List.mem_filter, List.mem_range, and_iff_right_iff_imp]
  exact lt_size_of_contains

@[simp] theorem size_union (s t : StateSet) : (s.union t).size = s.size := by simp [union]

@[simp] theorem size_minus (s t : StateSet) : (s.minus t).size = s.size := by simp [minus]

/-- The members of a union; what lies outside of the first state space is dropped. -/
theorem contains_union (s t : StateSet) (i : Nat) :
    (s.union t).contains i = (decide (i < s.size) && (s.contains i || t.contains i)) := by
  simp [union]

/-- The members of a difference. -/
theorem contains_minus (s t : StateSet) (i : Nat) :
    (s.minus t).contains i = (s.contains i && !t.contains i) := by
  simp only [minus, contains_ofPredicate]
  cases h : s.contains i
  · simp
  · simp [lt_size_of_contains h]

/-- A set that is not empty has a member. -/
theorem isEmpty_eq_false_iff {s : StateSet} : s.isEmpty = false ↔ ∃ i, s.contains i = true := by
  simp only [isEmpty, List.isEmpty_eq_false_iff_exists_mem, mem_toList]

/-- A set is no larger than its state space. -/
theorem card_le_size (s : StateSet) : s.card ≤ s.size := by
  have h := List.length_filter_le s.contains (List.range s.size)
  simpa [card, toList] using h

/-- A filter that keeps strictly more keeps more elements. -/
theorem length_filter_lt {α : Type} {p q : α → Bool} {l : List α}
    (hpq : ∀ a ∈ l, p a = true → q a = true) (hne : ∃ a ∈ l, p a = false ∧ q a = true) :
    (l.filter p).length < (l.filter q).length := by
  rw [← List.countP_eq_length_filter, ← List.countP_eq_length_filter]
  induction l with
  | nil => simp at hne
  | cons a l ih =>
    have hle : l.countP p ≤ l.countP q :=
      List.countP_mono_left fun b hb => hpq b (List.mem_cons_of_mem a hb)
    have ha := hpq a List.mem_cons_self
    rcases hne with ⟨b, hb, hpb, hqb⟩
    rcases List.mem_cons.1 hb with rfl | hb
    · simp only [List.countP_cons, hpb, hqb]
      simp
      omega
    · have := ih (fun c hc => hpq c (List.mem_cons_of_mem a hc)) ⟨b, hb, hpb, hqb⟩
      simp only [List.countP_cons]
      by_cases hpa : p a = true
      · simp [hpa, ha hpa]
        omega
      · simp [hpa]
        omega

/-- A proper subset of the same state space has fewer members. -/
theorem card_lt_card {s t : StateSet} (hsize : s.size = t.size)
    (hsub : ∀ i, s.contains i = true → t.contains i = true)
    (hne : ∃ i, s.contains i = false ∧ t.contains i = true) : s.card < t.card := by
  rw [card, card, toList, toList, hsize]
  obtain ⟨i, hs, ht⟩ := hne
  exact length_filter_lt (fun j _ => hsub j)
    ⟨i, List.mem_range.2 (lt_size_of_contains ht), hs, ht⟩

/-! ### Checked operations -/

/-- The number of states from which on no address space can hold one bit for each of them. -/
def sizeBound : Nat := Nat.pow 2 61

/-- The given operation at the size of a state space, provided that the space can be held at all. -/
def checkedSize {α : Type} (operation : Nat → α) (n : Nat) : Except Fault α :=
  if n < sizeBound then pure (operation n) else throw .tooManyStates

/-- The given set operation on two sets of one state space. -/
def checked {α : Type} (operation : StateSet → StateSet → α) (s t : StateSet) :
    Except Fault α :=
  if s.size = t.size then pure (operation s t) else throw .sizeMismatch

/-- The given operation at a state of the space. -/
def checkedAt {α : Type} (operation : StateSet → Nat → α) (s : StateSet) (i : Nat) :
    Except Fault α :=
  if i < s.size then pure (operation s i) else throw (.stateOutOfRange i s.size)

/-- The listed states, all of which have to be states of the space. -/
def ofList? (n : Nat) (states : List Nat) : Except Fault StateSet :=
  if sizeBound ≤ n then throw .tooManyStates
  else
    match states.find? fun i => n ≤ i with
    | some i => throw (.stateOutOfRange i n)
    | none => pure (ofList n states)

end StateSet

end MarkovElimination
