import Mathlib
import MarkovElimination.StateSet

/-! # Views of state sets

What `contains` says about each set operation, and what the increasing list of members says about
**positions**: in the state space of a restriction, state `k` stands for the `k`-th member. -/

namespace MarkovElimination.StateSet

/-! ### Members -/

@[simp] theorem size_empty (n : Nat) : (empty n).size = n := size_ofPredicate _ _

@[simp] theorem size_full (n : Nat) : (full n).size = n := size_ofPredicate _ _

@[simp] theorem size_singleton (n i : Nat) : (singleton n i).size = n := size_ofPredicate _ _

@[simp] theorem size_inter (s t : StateSet) : (s.inter t).size = s.size := size_ofPredicate _ _

@[simp] theorem size_complement (s : StateSet) : s.complement.size = s.size := size_ofPredicate _ _

@[simp] theorem contains_empty (n i : Nat) : (empty n).contains i = false := by
  simp [empty]

@[simp] theorem contains_full (n i : Nat) : (full n).contains i = decide (i < n) := by
  simp [full]

/-- The only member of a singleton. -/
theorem contains_singleton (n i j : Nat) :
    (singleton n i).contains j = (decide (j < n) && j == i) := by
  simp [singleton]

/-- States beyond the state space are no members. -/
theorem contains_of_size_le {s : StateSet} {i : Nat} (h : s.size ≤ i) : s.contains i = false := by
  by_contra hc
  have hlt : i < s.size := lt_size_of_contains (by simpa using hc)
  omega

/-- The members of an intersection. -/
theorem contains_inter (s t : StateSet) (i : Nat) :
    (s.inter t).contains i = (s.contains i && t.contains i) := by
  rw [inter, contains_ofPredicate]
  cases h : s.contains i
  · simp
  · simp [lt_size_of_contains h]

/-- The members of a complement. -/
theorem contains_complement (s : StateSet) (i : Nat) :
    s.complement.contains i = (decide (i < s.size) && !s.contains i) := by
  rw [complement, contains_ofPredicate]

/-- The members of a union of sets of one state space. -/
theorem contains_union_of_size {s t : StateSet} (h : s.size = t.size) (i : Nat) :
    (s.union t).contains i = (s.contains i || t.contains i) := by
  rw [contains_union]
  rcases Nat.lt_or_ge i s.size with hlt | hge
  · simp [hlt]
  · simp [contains_of_size_le hge, contains_of_size_le (h ▸ hge)]

/-- Two sets of one state space with the same members are equal. -/
theorem ext_contains {s t : StateSet} (hsize : s.size = t.size)
    (h : ∀ i, s.contains i = t.contains i) : s = t := by
  obtain ⟨s⟩ := s
  obtain ⟨t⟩ := t
  congr 1
  refine Array.ext hsize fun i hs ht => ?_
  have hi := h i
  rw [contains, contains, Array.getD_eq_getD_getElem?, Array.getD_eq_getD_getElem?] at hi
  simpa [hs, ht] using hi

/-- An empty set has no members. -/
theorem isEmpty_iff {s : StateSet} : s.isEmpty = true ↔ ∀ i, s.contains i = false := by
  rw [← not_iff_not, Bool.not_eq_true, isEmpty_eq_false_iff, not_forall]
  simp

/-! ### Positions -/

/-- Members are listed in increasing order. -/
theorem pairwise_toList (s : StateSet) : s.toList.Pairwise (· < ·) :=
  List.Pairwise.filter _ List.pairwise_lt_range

/-- Members are listed once. -/
theorem nodup_toList (s : StateSet) : s.toList.Nodup :=
  s.pairwise_toList.imp fun h => h.ne

/-- The position of a member leads back to it. -/
theorem getElem?_idxOf {s : StateSet} {i : Nat} (h : s.contains i = true) :
    s.toList[s.toList.idxOf i]? = some i := by
  have hmem : i ∈ s.toList := mem_toList.2 h
  have hlt := List.idxOf_lt_length_of_mem hmem
  rw [List.getElem?_eq_getElem hlt, List.getElem_idxOf hlt]

/-- The member at a position is at that position. -/
theorem idxOf_of_getElem? {s : StateSet} {k i : Nat} (h : s.toList[k]? = some i) :
    s.toList.idxOf i = k := by
  obtain ⟨hk, hi⟩ := List.getElem?_eq_some_iff.1 h
  rw [← hi]
  exact s.nodup_toList.idxOf_getElem k hk

/-- What stands at a position is a member. -/
theorem contains_of_getElem? {s : StateSet} {k i : Nat} (h : s.toList[k]? = some i) :
    s.contains i = true :=
  mem_toList.1 (List.mem_of_getElem? h)

@[simp] theorem size_compress (s restriction : StateSet) :
    (s.compress restriction).size = restriction.card := by
  simp [compress, size, card]

/-- The members of a compressed set are the positions of the members of the original one. -/
theorem contains_compress (s restriction : StateSet) (k : Nat) :
    (s.compress restriction).contains k = (restriction.toList[k]?).any s.contains := by
  rw [compress, contains, Array.getD_eq_getD_getElem?, List.getElem?_toArray, List.getElem?_map]
  cases restriction.toList[k]? <;> simp

/-- A subset is no larger. -/
theorem card_le_card {s t : StateSet} (hsize : s.size = t.size)
    (hsub : ∀ i, s.contains i = true → t.contains i = true) : s.card ≤ t.card := by
  rw [card, card, toList, toList, hsize, ← List.countP_eq_length_filter,
    ← List.countP_eq_length_filter]
  exact List.countP_mono_left fun i _ => hsub i

/-- A subset with as many members is the whole set. -/
theorem eq_of_card_le {s t : StateSet} (hsize : s.size = t.size)
    (hsub : ∀ i, s.contains i = true → t.contains i = true) (hcard : t.card ≤ s.card) :
    s = t := by
  refine ext_contains hsize fun i => ?_
  by_contra hne
  have hs : s.contains i = false := by
    by_contra h
    rw [Bool.not_eq_false] at h
    exact hne (by rw [h, hsub i h])
  have ht : t.contains i = true := by
    by_contra h
    rw [Bool.not_eq_true] at h
    exact hne (by rw [hs, h])
  have := card_lt_card hsize hsub ⟨i, hs, ht⟩
  omega

/-- A set with more than one member has a member. -/
theorem exists_contains_of_card_pos {s : StateSet} (h : 0 < s.card) :
    ∃ i, s.contains i = true := by
  obtain ⟨i, hi⟩ := List.exists_mem_of_length_pos h
  exact ⟨i, mem_toList.1 hi⟩

end MarkovElimination.StateSet
