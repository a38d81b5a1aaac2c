import MarkovElimination.Proofs.Elimination.Schedule
import MarkovElimination.Proofs.Graph.Distance

/-! # Rankings follow distances

Sorting by distance is stable, in both directions: states at equal distances keep the order of their
indices. So each state comes before another exactly if it is nearer, or farther away in the reversed
orders, or just as far and of a smaller index. A list of all states with this property **ranks**
them (`Ranks`): the positions of the states are a permutation, and the members of every set are
sorted. -/

namespace MarkovElimination

/-! ### Stable sorting -/

/-- In a list without repetitions the positions increase. -/
theorem pairwise_idxOf_of_nodup {l : List ℕ} (h : l.Nodup) :
    l.Pairwise fun a b => l.idxOf a < l.idxOf b := by
  refine List.pairwise_iff_getElem.2 fun i j hi hj hij => ?_
  rwa [h.idxOf_getElem, h.idxOf_getElem]

/-- Two states in the order of their indices. -/
theorem pair_sublist_range {a b n : ℕ} (hab : a < b) (hb : b < n) :
    List.Sublist [a, b] (List.range n) := by
  refine List.sublist_of_subperm_of_pairwise (r := (· < ·)) ?_ (by simpa using hab)
    List.pairwise_lt_range
  refine List.subperm_of_subset (by simpa using hab.ne) fun c hc => ?_
  rw [List.mem_range]
  rcases List.mem_cons.1 hc with rfl | hc
  · exact hab.trans hb
  · rwa [List.mem_singleton.1 hc]

/-- **Sorting is stable**: states that are not told apart keep the order of their indices. -/
theorem pairwise_mergeSort_range {le : ℕ → ℕ → Bool}
    (trans : ∀ a b c, le a b = true → le b c = true → le a c = true)
    (total : ∀ a b, (le a b || le b a) = true) (n : ℕ) :
    ((List.range n).mergeSort le).Pairwise fun a b => le a b = true ∧
    (le b a = true → a < b) := by
  have hperm : ((List.range n).mergeSort le).Perm (List.range n) := List.mergeSort_perm _ _
  have hsorted := List.pairwise_mergeSort trans total (List.range n)
  have hposition {a b : ℕ} (h : List.Sublist [a, b] ((List.range n).mergeSort le)) :=
    List.pairwise_iff_forall_sublist.1
      (pairwise_idxOf_of_nodup (hperm.nodup_iff.2 List.nodup_range)) h
  refine List.pairwise_iff_forall_sublist.2 fun {a b} hab =>
    ⟨List.pairwise_iff_forall_sublist.1 hsorted hab, fun hle => ?_⟩
  have hlt := hposition hab
  by_contra hge
  rcases (not_lt.1 hge).lt_or_eq with hba | rfl
  · -- The other way around the two stand in the unsorted list, and would have stayed so.
    have ha : a < n := List.mem_range.1 (hperm.mem_iff.1 (hab.subset List.mem_cons_self))
    have hkept := List.pair_sublist_mergeSort trans total hle (pair_sublist_range hba ha)
    exact lt_asymm hlt (hposition hkept)
  · exact lt_irrefl _ hlt

/-! ### Ranks -/

/-- **A list ranks the states by a relation**: the positions of the states are a permutation in
which a state comes before another exactly if the relation says so. Sorting a set means sorting its
members by position, and lists exactly the members in that order. -/
structure Ranks (ranking : List ℕ) (n : ℕ) (before : ℕ → ℕ → Prop) : Prop where
  perm_priority : ((List.range n).map (priority ranking)).Perm (List.range n)
  priority_lt_iff : ∀ a < n, ∀ b < n, priority ranking a < priority ranking b ↔ before a b
  sort_eq : ∀ set : StateSet, set.size = n → sortByRanking ranking set =
    set.toList.mergeSort fun a b => priority ranking a ≤ priority ranking b
  perm_sort : ∀ set : StateSet, set.size = n → (sortByRanking ranking set).Perm set.toList
  pairwise_sort : ∀ set : StateSet, (sortByRanking ranking set).Pairwise before

variable {ranking : List ℕ} {n : ℕ} {before : ℕ → ℕ → Prop}

/-- **The members of a set in the order of a ranking** are the members sorted by position. -/
theorem sortByRanking_eq_mergeSort (hperm : ranking.Perm (List.range n)) {set : StateSet}
    (hset : set.size = n) : sortByRanking ranking set =
      set.toList.mergeSort fun a b => priority ranking a ≤ priority ranking b := by
  have hposition : (sortByRanking ranking set).Pairwise fun a b =>
      priority ranking a ≤ priority ranking b :=
    ((pairwise_idxOf_of_nodup (hperm.nodup_iff.2 List.nodup_range)).filter _).imp le_of_lt
  have hsorted : (set.toList.mergeSort fun a b =>
      priority ranking a ≤ priority ranking b).Pairwise
      fun a b => priority ranking a ≤ priority ranking b := by
    have htrans (a b c : ℕ) : decide (priority ranking a ≤ priority ranking b) = true →
        decide (priority ranking b ≤ priority ranking c) = true →
        decide (priority ranking a ≤ priority ranking c) = true := by
      simp only [decide_eq_true_eq]
      exact le_trans
    have htotal (a b : ℕ) : (decide (priority ranking a ≤ priority ranking b) ||
        decide (priority ranking b ≤ priority ranking a)) = true := by
      simp only [Bool.or_eq_true, decide_eq_true_eq]
      exact le_total _ _
    exact (List.pairwise_mergeSort htrans htotal _).imp of_decide_eq_true
  -- No two states have the same position, so there is only one sorted list.
  refine List.Perm.eq_of_pairwise (fun a b ha _ hab hba => ?_) hposition hsorted
    ((perm_sortByRanking hperm hset).trans (List.mergeSort_perm _ _).symm)
  exact (List.idxOf_inj (List.mem_filter.1 ha).1).1 (le_antisymm hab hba)

/-- **A sorted list of all states ranks them.** -/
theorem ranks_of_pairwise (hperm : ranking.Perm (List.range n))
    (hpairwise : ranking.Pairwise before)
    (hasymm : ∀ a b, before a b → ¬before b a) : Ranks ranking n before := by
  have hnodup : ranking.Nodup := hperm.nodup_iff.2 List.nodup_range
  have hmem {a : ℕ} (ha : a < n) : a ∈ ranking := hperm.mem_iff.2 (List.mem_range.2 ha)
  have hbefore {a b : ℕ} (ha : a < n) (hb : b < n)
      (hlt : priority ranking a < priority ranking b) : before a b := by
    have := List.pairwise_iff_getElem.1 hpairwise _ _ (List.idxOf_lt_length_of_mem (hmem ha))
      (List.idxOf_lt_length_of_mem (hmem hb)) hlt
    rwa [List.getElem_idxOf, List.getElem_idxOf] at this
  refine ⟨?_, fun a ha b hb => ⟨hbefore ha hb, fun hab => ?_⟩,
    fun set hset => sortByRanking_eq_mergeSort hperm hset,
    fun set hset => perm_sortByRanking hperm hset, fun set => hpairwise.filter _⟩
  · refine (hperm.symm.map (priority ranking)).trans (.of_eq ?_)
    rw [← List.length_range (n := n), ← hperm.length_eq]
    refine List.ext_getElem (by simp) fun i hi _ => ?_
    rw [List.getElem_map, List.getElem_range, priority, hnodup.idxOf_getElem]
  · rcases lt_trichotomy (priority ranking a) (priority ranking b) with hlt | heq | hgt
    · exact hlt
    · have : a = b := (List.idxOf_inj (hmem ha)).1 heq
      subst this
      exact absurd hab (hasymm a a hab)
    · exact absurd (hbefore hb ha hgt) (hasymm a b hab)

/-- **Sorting by a key** ranks the states by key and index. -/
theorem ranks_mergeSort {β : Type*} [LinearOrder β] (key : ℕ → β) {le : ℕ → ℕ → Bool}
    (hle : ∀ a b, le a b = true ↔ key a ≤ key b) (n : ℕ) :
    Ranks ((List.range n).mergeSort le) n fun a b => toLex (key a, a) < toLex (key b, b) := by
  refine ranks_of_pairwise (List.mergeSort_perm _ _) ?_ fun a b hab => lt_asymm hab
  have htrans (a b c : ℕ) : le a b = true → le b c = true → le a c = true := by
    simp only [hle]
    exact le_trans
  have htotal (a b : ℕ) : (le a b || le b a) = true := by
    simp only [Bool.or_eq_true, hle]
    exact le_total _ _
  refine (pairwise_mergeSort_range htrans htotal n).imp fun {a b} hab =>
    Prod.Lex.toLex_lt_toLex.2 ?_
  simp only [hle] at hab
  exact hab.1.lt_or_eq.imp_right fun heq => ⟨heq, hab.2 heq.ge⟩

/-! ### Orders by distance -/

/-- Nearer states come first, and states at one distance by index. -/
def Nearer (distance : ℕ → ℕ∞) (a b : ℕ) : Prop :=
  toLex (distance a, a) < toLex (distance b, b)

/-- States farther away come first, and states at one distance by index. -/
def Farther (distance : ℕ → ℕ∞) (a b : ℕ) : Prop :=
  distance b < distance a ∨ distance a = distance b ∧ a < b

/-- Comparing measured distances compares distances. -/
theorem distanceLE_iff {d e : Option ℕ} :
    distanceLE d e = true ↔ Graph.toENat d ≤ Graph.toENat e := by
  cases d with
  | none => cases e <;> simp [distanceLE, Graph.toENat]
  | some d => cases e <;> simp [distanceLE, Graph.toENat]

namespace Graph

variable {g : Graph} {sources : StateSet}

/-- Sorting by increasing distance. -/
theorem ranks_sortByDistance_true (hg : g.reversed.size = g.size)
    (hsources : sources.size = g.size) :
    Ranks (sortByDistance (g.distances sources) true) g.size (Nearer (g.distanceFrom sources)) := by
  rw [sortByDistance, length_distances]
  refine ranks_mergeSort (g.distanceFrom sources) (fun a b => ?_) g.size
  rw [if_pos rfl, distanceLE_iff, toENat_distances hg hsources, toENat_distances hg hsources]

/-- Sorting by decreasing distance. -/
theorem ranks_sortByDistance_false (hg : g.reversed.size = g.size)
    (hsources : sources.size = g.size) :
    Ranks (sortByDistance (g.distances sources) false) g.size
      (Farther (g.distanceFrom sources)) := by
  -- Indices still increase, so this is not the opposite order but one by opposite distances.
  have hfarther : Farther (g.distanceFrom sources) = fun a b =>
      toLex (OrderDual.toDual (g.distanceFrom sources a), a) <
        toLex (OrderDual.toDual (g.distanceFrom sources b), b) := by
    funext a b
    simp [Farther, Prod.Lex.toLex_lt_toLex]
  rw [sortByDistance, length_distances, hfarther]
  refine ranks_mergeSort (fun a => OrderDual.toDual (g.distanceFrom sources a))
    (fun a b => ?_) g.size
  rw [if_neg Bool.false_ne_true, distanceLE_iff, toENat_distances hg hsources,
    toENat_distances hg hsources, OrderDual.toDual_le_toDual]

end Graph

/-- **Rankings order states by their true distance, and by index where it is the same.** For every
graph and all sets of initial states and targets, the ranking of a configuration is a permutation of
the states. In the forward orders it goes by the length of a shortest walk from an initial state, in
the backward orders by that of a shortest walk to a target; it is infinite where there is no walk. A
state comes before another exactly if it is nearer, or for the reversed orders farther away, or just
as far and of a smaller index. A set is sorted by listing exactly its members in that order. -/
theorem EliminationConfig.ranks_ranking (config : EliminationConfig) {g : Graph}
    (hg : g.reversed.size = g.size) {initial targets : StateSet} (hinitial : initial.size = g.size)
    (htargets : targets.size = g.size) :
    (config.order = .forward →
      Ranks (config.ranking g initial targets) g.size (Nearer (g.distanceFrom initial))) ∧
    (config.order = .forwardReversed →
      Ranks (config.ranking g initial targets) g.size (Farther (g.distanceFrom initial))) ∧
    (config.order = .backward →
      Ranks (config.ranking g initial targets) g.size (Nearer (g.distanceTo targets))) ∧
    (config.order = .backwardReversed →
      Ranks (config.ranking g initial targets) g.size (Farther (g.distanceTo targets))) := by
  have hback : targets.size = g.reversed.size := htargets.trans hg.symm
  rw [← g.distanceFrom_reversed, EliminationConfig.ranking]
  refine ⟨fun h => ?_, fun h => ?_, fun h => ?_, fun h => ?_⟩
  · rw [h]
    exact Graph.ranks_sortByDistance_true hg hinitial
  · rw [h]
    exact Graph.ranks_sortByDistance_false hg hinitial
  · rw [h, ← hg]
    exact Graph.ranks_sortByDistance_true hg.symm hback
  · rw [h, ← hg]
    exact Graph.ranks_sortByDistance_false hg.symm hback

/-- A way that forks, and a state that it does not lead to. -/
def forkedWay : Graph := .ofEdges 5 [(0, 1), (0, 2), (2, 3)]

/-- In both directions the two states behind the fork keep the order of their indices. -/
theorem EliminationConfig.ranks_ranking_forkedWay :
    forkedWay.reversed.size = forkedWay.size ∧
    Ranks [0, 1, 2, 3, 4] forkedWay.size (Nearer (forkedWay.distanceFrom (.singleton 5 0))) ∧
    Ranks [4, 3, 1, 2, 0] forkedWay.size (Farther (forkedWay.distanceFrom (.singleton 5 0))) ∧
    Ranks [3, 2, 0, 1, 4] forkedWay.size (Nearer (forkedWay.distanceTo (.singleton 5 3))) ∧
    Ranks [1, 4, 0, 2, 3] forkedWay.size (Farther (forkedWay.distanceTo (.singleton 5 3))) := by
  have hg : forkedWay.reversed.size = forkedWay.size := by decide
  have hinitial : (StateSet.singleton 5 0).size = forkedWay.size := by decide
  have htargets : (StateSet.singleton 5 3).size = forkedWay.size := by decide
  have h (order : EliminationOrder) := ranks_ranking { order := order } hg hinitial htargets
  have hforward : ({ order := .forward } : EliminationConfig).ranking forkedWay (.singleton 5 0)
    (.singleton 5 3) = [0, 1, 2, 3, 4] := by cbv
  have hforwardReversed : ({ order := .forwardReversed } : EliminationConfig).ranking forkedWay
    (.singleton 5 0) (.singleton 5 3) = [4, 3, 1, 2, 0] := by cbv
  have hbackward : ({ order := .backward } : EliminationConfig).ranking forkedWay (.singleton 5 0)
    (.singleton 5 3) = [3, 2, 0, 1, 4] := by cbv
  have hbackwardReversed : ({ order := .backwardReversed } : EliminationConfig).ranking forkedWay
    (.singleton 5 0) (.singleton 5 3) = [1, 4, 0, 2, 3] := by cbv
  refine ⟨hg, ?_, ?_, ?_, ?_⟩
  · exact hforward ▸ (h .forward).1 rfl
  · exact hforwardReversed ▸ (h .forwardReversed).2.1 rfl
  · exact hbackward ▸ (h .backward).2.2.1 rfl
  · exact hbackwardReversed ▸ (h .backwardReversed).2.2.2 rfl

end MarkovElimination
