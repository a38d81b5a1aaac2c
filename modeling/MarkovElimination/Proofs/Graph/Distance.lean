import MarkovElimination.Graph.Distance
import MarkovElimination.Proofs.Graph.Layers

/-! # Distances in a graph

The **distance** of a state from a set is the length of a shortest walk from a member of the set,
and infinite if there is none; the distance to a set is the same with the walk in the other
direction. The search with a queue measures it (`toENat_distances`): along the queue the distances
increase by at most one, so that a state is seen for the first time from one of its nearest
predecessors. The layers of a search without a queue tell the same
(`getD_distances_eq_findIdx?`). -/

namespace MarkovElimination

namespace Search

variable {s : Search} {initial : StateSet} {state : SearchState} {m n t : ℕ}

/-- A state is in one layer only. -/
theorem InLayer.unique (hm : s.InLayer initial m t) (hn : s.InLayer initial n t) : m = n :=
  IsLeast.unique hm hn

/-- The current frontier in front of frontiers that are the layers behind it: a state is first seen
in the current one, or as many places later as its layer is behind it. -/
theorem Layered.findIdx?_cons_iff (h : s.Layered initial state) {rest : List StateSet}
    (hrest : state.frontier.contains t = false → ∀ k,
      rest.findIdx? (·.contains t) = some k ↔ s.InLayer initial (state.iteration + 1 + k) t)
    (k : ℕ) : (state.frontier :: rest).findIdx? (·.contains t) = some k ↔
      s.InLayer initial (state.iteration + k) t := by
  rw [List.findIdx?_cons]
  cases hfrontier : state.frontier.contains t with
  | true =>
    have hlayer := (h.contains_frontier t).1 hfrontier
    simp only [if_true, Option.some.injEq]
    constructor
    · rintro rfl
      exact hlayer
    · intro hk
      have := hk.unique hlayer
      omega
  | false =>
    simp only [Bool.false_eq_true, if_false, Option.map_eq_some_iff]
    cases k with
    | zero =>
      rw [Nat.add_zero, ← h.contains_frontier, hfrontier]
      simp
    | succ k => simpa [add_assoc, add_comm 1 k] using hrest hfrontier k

/-- **The frontiers of a search are its layers**, one after the other from the current one on. -/
theorem Layered.findIdx?_frontiers (h : s.Layered initial state) (hlimit : s.limit = none)
    (hsize : s.within.size ≤ initial.size) (k : ℕ) :
    (state.frontier :: (s.run state).1.map (·.frontier)).findIdx? (·.contains t) = some k ↔
      s.InLayer initial (state.iteration + k) t := by
  induction state using Search.run.induct (s := s) generalizing k with
  | case1 state hreached => simp [limitReached, hlimit] at hreached
  | case2 state hreached hempty =>
    -- The last frontier is listed again, and there is no layer behind it.
    rw [Search.run, if_neg hreached, dif_pos hempty]
    refine h.findIdx?_cons_iff (fun hfrontier j => ?_) k
    rw [List.map_singleton, List.findIdx?_singleton, hfrontier]
    simp only [Bool.false_eq_true, if_false, reduceCtorEq, false_iff]
    intro hlayer
    have := h.le_iteration hsize hempty hlayer
    omega
  | case3 state hreached hempty next ih =>
    rw [Search.run, if_neg hreached, dif_neg hempty]
    exact h.findIdx?_cons_iff (fun _ => ih (h.advance hsize)) k

end Search

namespace Graph

variable {g : Graph} {n a b c : ℕ}

/-! ### Walks -/

/-- **A walk** along a number of edges. -/
inductive Walk (g : Graph) : ℕ → ℕ → ℕ → Prop
  | refl (i : ℕ) : Walk g 0 i i
  | tail {n a b c : ℕ} (h : Walk g n a b) (hedge : c ∈ g.next b) : Walk g (n + 1) a c

/-- A walk behind an edge. -/
theorem Walk.head (hedge : b ∈ g.next a) (h : g.Walk n b c) : g.Walk (n + 1) a c := by
  induction h with
  | refl i => exact .tail (.refl a) hedge
  | tail _ hlast ih => exact (ih hedge).tail hlast

/-- A walk from its end to its start. -/
theorem Walk.reverse (h : g.Walk n a b) : g.reversed.Walk n b a := by
  induction h with
  | refl i => exact .refl i
  | tail _ hedge ih => exact ih.head ((g.agree _ _).1 hedge)

/-- Walks in the reversed graph are the walks in the other direction. -/
theorem walk_reversed : g.reversed.Walk n a b ↔ g.Walk n b a :=
  ⟨Walk.reverse, Walk.reverse⟩

/-! ### Distances -/

/-- **The distance of a state from a set**: the length of a shortest walk from a member. -/
noncomputable def distanceFrom (g : Graph) (sources : StateSet) (t : ℕ) : ℕ∞ :=
  ⨅ n ∈ {n : ℕ | ∃ i, sources.contains i = true ∧ g.Walk n i t}, (n : ℕ∞)

/-- **The distance of a state to a set**: the length of a shortest walk to a member. -/
noncomputable def distanceTo (g : Graph) (targets : StateSet) (t : ℕ) : ℕ∞ :=
  ⨅ n ∈ {n : ℕ | ∃ i, targets.contains i = true ∧ g.Walk n t i}, (n : ℕ∞)

/-- The distance from a set in the reversed graph is the distance to the set. -/
theorem distanceFrom_reversed (g : Graph) (targets : StateSet) :
    g.reversed.distanceFrom targets = g.distanceTo targets := by
  funext t
  simp only [distanceFrom, distanceTo, walk_reversed]

/-- The least member of a set of numbers. -/
theorem iInf_eq_of_isLeast {lengths : Set ℕ} {k : ℕ} (h : IsLeast lengths k) :
    ⨅ n ∈ lengths, (n : ℕ∞) = k :=
  le_antisymm (iInf₂_le k h.1) (le_iInf₂ fun _ hn => Nat.cast_le.2 (h.2 hn))

/-! ### Measuring distances -/

/-- Edges lead to states of the graph. -/
theorem lt_size_of_mem_next (hg : g.reversed.size = g.size) (h : b ∈ g.next a) : b < g.size := by
  by_contra hge
  have hnone : g.reversed.next b = [] := by
    rw [next, Array.getD_eq_getD_getElem?, Array.getElem?_eq_none, Option.getD_none]
    exact hg.trans_le (not_lt.1 hge)
  have hmem : a ∈ g.reversed.next b := (g.agree a b).1 h
  rw [hnone] at hmem
  cases hmem

/-- Walks stay in the graph. -/
theorem Walk.lt_size (h : g.Walk n a b) (hg : g.reversed.size = g.size) (ha : a < g.size) :
    b < g.size := by
  cases h with
  | refl => exact ha
  | tail _ hedge => exact lt_size_of_mem_next hg hedge

/-- What a search through the whole graph reaches in some number of steps is at the end of a walk of
that length. -/
theorem reachedIn_everywhere (hg : g.reversed.size = g.size) {sources : StateSet} :
    (Search.everywhere g).ReachedIn sources n b ↔
      ∃ i, sources.contains i = true ∧ g.Walk n i b := by
  constructor
  · intro h
    induction h with
    | start hi => exact ⟨_, hi, .refl _⟩
    | step _ hedge _ _ ih =>
      obtain ⟨i, hi, hwalk⟩ := ih
      exact ⟨i, hi, hwalk.tail hedge⟩
  · rintro ⟨i, hi, hwalk⟩
    induction hwalk with
    | refl i => exact .start hi
    | tail _ hedge ih =>
      refine .step (ih hi) hedge ?_ (StateSet.contains_empty _ _)
      rw [Search.everywhere, StateSet.contains_full, decide_eq_true_eq]
      exact lt_size_of_mem_next hg hedge

/-- A measured distance, infinite if it is missing. -/
def toENat (distance : Option ℕ) : ℕ∞ := distance.elim ⊤ fun k => k

/-- A measured distance is no other if it is as large. -/
theorem toENat_injective : Function.Injective toENat := by
  rintro (_ | d) (_ | e) h
  · rfl
  · exact absurd h.symm (ENat.natCast_ne_top e)
  · exact absurd h (ENat.natCast_ne_top d)
  · exact congrArg some (Nat.cast_injective h)

end Graph

namespace DistanceSearch

variable {g : Graph} {sources : StateSet} {d d' d'' : DistanceSearch} {s t k e : ℕ}
  {states more rest : List ℕ}

/-! ### Looking at successors -/

/-- A state that has been seen before changes nothing. -/
theorem see_of_seen (h : d.distance s = some e) : see k d s = d := by
  rw [see, if_neg]
  intro hnone
  simp [distance, hnone] at h

/-- A state that is seen for the first time. -/
theorem see_of_new (hs : s < d.distances.size) (h : d.distance s = none) :
    see k d s = ⟨d.distances.setIfInBounds s (some k), d.queue ++ [s]⟩ := by
  rw [distance, Array.getD_eq_getD_getElem?, Array.getElem?_eq_getElem hs, Option.getD_some] at h
  rw [see, Array.getElem?_eq_getElem hs, if_pos (congrArg some h)]

theorem size_see (k : ℕ) (d : DistanceSearch) (s : ℕ) :
    (see k d s).distances.size = d.distances.size := by
  rw [see]
  split
  · exact Array.size_setIfInBounds
  · rfl

/-- No entries are added. -/
theorem size_run (g : Graph) (d : DistanceSearch) : (run g d).size = d.distances.size := by
  fun_induction DistanceSearch.run g d with
  | case1 => rfl
  | case2 d s rest _ ih =>
    rw [ih, DistanceSearch.take]
    exact List.foldlRecOn (g.next s) (see _) (b := { d with queue := rest })
      (motive := fun d' => d'.distances.size = d.distances.size) rfl
      fun d' hsize t _ => (size_see _ d' t).trans hsize

/-- **States are seen** one after the other: those that are new get the distance and join the queue,
all others keep theirs. -/
structure Sees (states : List ℕ) (k : ℕ) (d d' : DistanceSearch) : Prop where
  size : d'.distances.size = d.distances.size
  kept : ∀ t e, d.distance t = some e → d'.distance t = some e
  new : ∀ t e, d'.distance t = some e → d.distance t = some e ∨ e = k ∧ t ∈ states ∧
    t ∈ d'.queue
  seen : ∀ s ∈ states, ∃ e, d'.distance s = some e
  queue : ∃ joined, d'.queue = d.queue ++ joined ∧ ∀ t ∈ joined, d'.distance t = some k

theorem sees_nil (k : ℕ) (d : DistanceSearch) : Sees [] k d d :=
  ⟨rfl, fun _ _ h => h, fun _ _ h => .inl h, fun _ h => (nomatch h), [], (List.append_nil _).symm,
    fun _ h => (nomatch h)⟩

theorem sees_singleton (k : ℕ) (d : DistanceSearch) (hs : s < d.distances.size) :
    Sees [s] k d (see k d s) := by
  cases hnone : d.distance s with
  | some e =>
    rw [see_of_seen hnone]
    refine ⟨rfl, fun _ _ h => h, fun _ _ h => .inl h, fun t ht => ?_, [],
      (List.append_nil _).symm, fun _ h => (nomatch h)⟩
    obtain rfl := List.mem_singleton.1 ht
    exact ⟨e, hnone⟩
  | none =>
    rw [see_of_new hs hnone]
    set d' : DistanceSearch := ⟨d.distances.setIfInBounds s (some k), d.queue ++ [s]⟩
    have hself : d'.distance s = some k := by simp [d', distance, hs]
    have hother {t : ℕ} (hts : t ≠ s) : d'.distance t = d.distance t := by
      simp [d', distance, Ne.symm hts]
    refine ⟨Array.size_setIfInBounds, ?kept, ?new, ?seen, [s], rfl, ?joined⟩
    case kept =>
      intro t e ht
      rwa [hother]
      rintro rfl
      rw [hnone] at ht
      cases ht
    case new =>
      intro t e ht
      by_cases hts : t = s
      · rw [hts, hself] at ht
        rw [hts]
        exact .inr ⟨(Option.some.inj ht).symm, List.mem_singleton_self s, List.mem_append_right _
          (List.mem_singleton_self s)⟩
      · rw [hother hts] at ht
        exact .inl ht
    case seen =>
      intro t ht
      rw [List.mem_singleton.1 ht]
      exact ⟨k, hself⟩
    case joined =>
      intro t ht
      rwa [List.mem_singleton.1 ht]

theorem Sees.append (h : Sees states k d d') (h' : Sees more k d' d'') :
    Sees (states ++ more) k d d'' := by
  obtain ⟨joined, hjoined, hdistance⟩ := h.queue
  obtain ⟨joined', hjoined', hdistance'⟩ := h'.queue
  refine ⟨h'.size.trans h.size, fun t e ht => h'.kept t e (h.kept t e ht), ?new, ?seen,
    joined ++ joined', by rw [hjoined', hjoined, List.append_assoc], ?joined⟩
  case new =>
    intro t e ht
    rcases h'.new t e ht with ht | ⟨rfl, hmem, hqueue⟩
    · refine (h.new t e ht).imp_right fun ⟨hk, hmem, hqueue⟩ =>
        ⟨hk, List.mem_append_left _ hmem, ?_⟩
      rw [hjoined']
      exact List.mem_append_left _ hqueue
    · exact .inr ⟨rfl, List.mem_append_right _ hmem, hqueue⟩
  case seen =>
    intro s hs
    rcases List.mem_append.1 hs with hs | hs
    · obtain ⟨e, he⟩ := h.seen s hs
      exact ⟨e, h'.kept s e he⟩
    · exact h'.seen s hs
  case joined =>
    intro t ht
    rcases List.mem_append.1 ht with ht | ht
    · exact h'.kept t k (hdistance t ht)
    · exact hdistance' t ht

/-- **All states of a list are seen.** -/
theorem sees_foldl (k : ℕ) (d : DistanceSearch) (h : ∀ s ∈ states, s < d.distances.size) :
    Sees states k d (states.foldl (see k) d) := by
  induction states generalizing d with
  | nil => exact sees_nil k d
  | cons s states ih =>
    rw [List.forall_mem_cons] at h
    have hs := sees_singleton k d h.1
    exact hs.append (ih _ fun t ht => hs.size.symm ▸ h.2 t ht)

/-! ### The loop -/

/-- **What holds while the queue is worked off.** The distances are lengths of walks from a source.
They increase along the queue, and no distance exceeds that of the next state by more than one. The
successors of a state that has left the queue are at most one farther away. -/
structure Correct (g : Graph) (sources : StateSet) (d : DistanceSearch) : Prop where
  size : d.distances.size = g.size
  walk : ∀ t e, d.distance t = some e → ∃ i, sources.contains i = true ∧ g.Walk e i t
  source : ∀ i, sources.contains i = true → d.distance i = some 0
  queued : ∀ s ∈ d.queue, ∃ e, d.distance s = some e
  sorted : d.queue.Pairwise fun s t =>
    ∀ e f, d.distance s = some e → d.distance t = some f → e ≤ f
  span : ∀ s ∈ d.queue.head?, ∀ e, d.distance s = some e →
    ∀ t f, d.distance t = some f → f ≤ e + 1
  closed : ∀ s e, d.distance s = some e → s ∉ d.queue → ∀ t ∈ g.next s,
    ∃ f ≤ e + 1, d.distance t = some f

/-- The states that a search starts with have distance zero and wait in the queue. -/
theorem start_spec (size : ℕ) (sources : StateSet) :
    (start size sources).distances.size = size ∧
      (start size sources).queue = sources.toList ∧ ∀ t, (start size sources).distance t =
        if t < size ∧ sources.contains t = true then some 0 else none := by
  have hfoldl (states : List ℕ) (d : DistanceSearch) :
      let d' := states.foldl (fun d s =>
        ⟨d.distances.setIfInBounds s (some 0), d.queue ++ [s]⟩) d
      d'.distances.size = d.distances.size ∧ d'.queue = d.queue ++ states ∧
        ∀ t, d'.distance t =
          if t < d.distances.size ∧ t ∈ states then some 0 else d.distance t := by
    induction states generalizing d with
    | nil => simp
    | cons s states ih =>
      obtain ⟨hsize, hqueue, hdistance⟩ :=
        ih ⟨d.distances.setIfInBounds s (some 0), d.queue ++ [s]⟩
      refine ⟨hsize.trans Array.size_setIfInBounds, hqueue.trans (by simp), fun t => ?_⟩
      rw [List.foldl_cons, hdistance, Array.size_setIfInBounds]
      by_cases hts : t = s
      · subst hts
        by_cases ht : t < d.distances.size <;> simp [distance, ht]
      · simp [distance, hts, Ne.symm hts]
  obtain ⟨hsize, hqueue, hdistance⟩ := hfoldl sources.toList ⟨Array.replicate size none, []⟩
  rw [Array.size_replicate] at hsize hdistance
  have hnone (t : ℕ) : distance ⟨Array.replicate size none, []⟩ t = none := by
    by_cases ht : t < size <;> simp [distance, ht]
  refine ⟨hsize, hqueue, fun t => (hdistance t).trans ?_⟩
  rw [hnone]
  simp only [StateSet.mem_toList]

/-- **The start of a search.** -/
theorem correct_start (hsources : sources.size = g.size) :
    (start g.size sources).Correct g sources := by
  obtain ⟨hsize, hqueue, hdistance⟩ := start_spec g.size sources
  have hsource {i : ℕ} (hi : sources.contains i = true) :
      (start g.size sources).distance i = some 0 := by
    rw [hdistance, if_pos ⟨hsources ▸ StateSet.lt_size_of_contains hi, hi⟩]
  have hzero {t e : ℕ} (ht : (start g.size sources).distance t = some e) :
      sources.contains t = true ∧ e = 0 := by
    rw [hdistance] at ht
    split at ht
    case isTrue h => exact ⟨h.2, (Option.some.inj ht).symm⟩
    case isFalse => cases ht
  refine ⟨hsize, ?walk, fun i hi => hsource hi, ?queued, ?sorted, ?span, ?closed⟩
  case walk =>
    intro t e ht
    obtain ⟨hmem, rfl⟩ := hzero ht
    exact ⟨t, hmem, .refl t⟩
  case queued =>
    intro s hs
    rw [hqueue, StateSet.mem_toList] at hs
    exact ⟨0, hsource hs⟩
  case sorted =>
    refine List.pairwise_of_forall fun s t e f he _ => ?_
    exact (hzero he).2 ▸ Nat.zero_le f
  case span =>
    intro s _ e _ t f hf
    exact (hzero hf).2 ▸ Nat.zero_le _
  case closed =>
    -- No state has left the queue yet.
    intro s e he hs
    rw [hqueue, StateSet.mem_toList] at hs
    exact absurd (hzero he).1 hs

section Take

/-! What holds after a state with distance `e` has been taken from the queue. -/

variable (h : d.Correct g sources) (hqueue : d.queue = s :: rest) (he : d.distance s = some e)
  (hsees : Sees (g.next s) (e + 1) { d with queue := rest } d')

include h hqueue he hsees

/-- No distance is larger than the one that is new. -/
theorem Correct.le_of_sees (ht : d'.distance t = some k) : k ≤ e + 1 :=
  (hsees.new t k ht).elim (h.span s (by rw [hqueue]; rfl) e he t k) fun hnew => hnew.1.le

omit he in
/-- The states that stay in the queue keep their distances. -/
theorem Correct.distance_of_sees (ht : t ∈ rest) (hk : d'.distance t = some k) :
    d.distance t = some k := by
  obtain ⟨f, hf⟩ := h.queued t (hqueue ▸ List.mem_cons_of_mem _ ht)
  rw [hf, ← hsees.kept t f hf, hk]

/-- No state in the queue is nearer than the one that has left it. -/
theorem Correct.ge_of_sees (ht : t ∈ d'.queue) (hk : d'.distance t = some k) : e ≤ k := by
  obtain ⟨joined, hjoined, hdistance⟩ := hsees.queue
  rw [hjoined] at ht
  rcases List.mem_append.1 ht with ht | ht
  · have hsorted := h.sorted
    rw [hqueue, List.pairwise_cons] at hsorted
    exact hsorted.1 t ht e k he (h.distance_of_sees hqueue hsees ht hk)
  · rw [hdistance t ht] at hk
    exact (Nat.le_succ e).trans_eq (Option.some.inj hk)

/-- The distances still increase along the queue. -/
theorem Correct.sorted_of_sees : d'.queue.Pairwise fun t u =>
    ∀ f f', d'.distance t = some f → d'.distance u = some f' → f ≤ f' := by
  obtain ⟨joined, hjoined, hdistance⟩ := hsees.queue
  have hnew {t f : ℕ} (ht : t ∈ joined) (hf : d'.distance t = some f) : f = e + 1 := by
    rw [hdistance t ht] at hf
    exact (Option.some.inj hf).symm
  have hsorted := h.sorted
  rw [hqueue, List.pairwise_cons] at hsorted
  rw [hjoined, List.pairwise_append]
  refine ⟨?kept, ?joined, ?between⟩
  case kept =>
    refine hsorted.2.imp_of_mem fun {t u} ht hu hle f f' hf hf' => ?_
    exact hle f f' (h.distance_of_sees hqueue hsees ht hf) (h.distance_of_sees hqueue hsees hu hf')
  case joined =>
    refine List.pairwise_of_forall_mem_list fun t ht u hu f f' hf hf' => ?_
    exact (hnew ht hf).trans_le (hnew hu hf').ge
  case between =>
    intro t _ u hu f f' hf hf'
    exact (h.le_of_sees hqueue he hsees hf).trans (hnew hu hf').ge

/-- The successors of a state outside the queue are at most one farther away. -/
theorem Correct.closed_of_sees {u : ℕ} (hu : u ∉ d'.queue) (hk : d'.distance u = some k)
    (ht : t ∈ g.next u) : ∃ f ≤ k + 1, d'.distance t = some f := by
  obtain ⟨joined, hjoined, -⟩ := hsees.queue
  rcases hsees.new u k hk with (hbefore : d.distance u = some k) | ⟨-, -, hmem⟩
  · by_cases hus : u = s
    · -- The successors of the state that has left the queue have just been looked at.
      obtain rfl : e = k := by
        rw [hus, he] at hbefore
        exact Option.some.inj hbefore
      obtain ⟨f, hf⟩ := hsees.seen t (hus ▸ ht)
      exact ⟨f, h.le_of_sees hqueue he hsees hf, hf⟩
    · have hleft : u ∉ d.queue := by
        rw [hqueue, List.mem_cons, not_or]
        exact ⟨hus, fun hmem => hu (by rw [hjoined]; exact List.mem_append_left _ hmem)⟩
      obtain ⟨f, hf, hdistance⟩ := h.closed u k hbefore hleft t ht
      exact ⟨f, hf, hsees.kept t f hdistance⟩
  · exact absurd hmem hu

end Take

/-- **A state is taken from the queue.** -/
theorem Correct.take (h : d.Correct g sources) (hg : g.reversed.size = g.size)
    (hqueue : d.queue = s :: rest) : (d.take g s rest).Correct g sources := by
  obtain ⟨e, he⟩ := h.queued s (hqueue ▸ List.mem_cons_self)
  have hsees : Sees (g.next s) (e + 1) { d with queue := rest } (d.take g s rest) := by
    rw [DistanceSearch.take, he]
    exact sees_foldl _ _ fun t ht => h.size ▸ Graph.lt_size_of_mem_next hg ht
  generalize d.take g s rest = d' at hsees ⊢
  refine ⟨hsees.size.trans h.size, ?walk, fun i hi => hsees.kept i 0 (h.source i hi), ?queued,
    h.sorted_of_sees hqueue he hsees, ?span,
    fun u f hf hu t => h.closed_of_sees hqueue he hsees hu hf⟩
  case walk =>
    intro t f hf
    rcases hsees.new t f hf with hf | ⟨rfl, hmem, -⟩
    · exact h.walk t f hf
    · obtain ⟨i, hi, hwalk⟩ := h.walk s e he
      exact ⟨i, hi, hwalk.tail hmem⟩
  case queued =>
    intro t ht
    obtain ⟨joined, hjoined, hdistance⟩ := hsees.queue
    rw [hjoined] at ht
    rcases List.mem_append.1 ht with ht | ht
    · obtain ⟨f, hf⟩ := h.queued t (hqueue ▸ List.mem_cons_of_mem _ ht)
      exact ⟨f, hsees.kept t f hf⟩
    · exact ⟨e + 1, hdistance t ht⟩
  case span =>
    intro u hu f hf t f' hf'
    have hef := h.ge_of_sees hqueue he hsees (List.mem_of_mem_head? hu) hf
    exact (h.le_of_sees hqueue he hsees hf').trans (Nat.add_le_add_right hef 1)

/-- **The queue is worked off.** -/
theorem Correct.run (h : d.Correct g sources) (hg : g.reversed.size = g.size) :
    ∃ d' : DistanceSearch, d'.queue = [] ∧ d'.Correct g sources ∧ run g d = d'.distances := by
  fun_induction DistanceSearch.run g d with
  | case1 d hempty => exact ⟨d, hempty, h, rfl⟩
  | case2 d s rest hqueue ih => exact ih (h.take hg hqueue)

/-- **When the queue is empty**, the distances are right. -/
theorem Correct.toENat_distance (h : d.Correct g sources) (hempty : d.queue = []) (t : ℕ) :
    Graph.toENat (d.distance t) = g.distanceFrom sources t := by
  have hle {n i t : ℕ} (hi : sources.contains i = true) (hwalk : g.Walk n i t) :
      ∃ e ≤ n, d.distance t = some e := by
    induction hwalk with
    | refl i => exact ⟨0, le_rfl, h.source i hi⟩
    | tail _ hedge ih =>
      obtain ⟨e, he, hdistance⟩ := ih hi
      obtain ⟨f, hf, hdistance'⟩ := h.closed _ e hdistance (by rw [hempty]; simp) _ hedge
      exact ⟨f, hf.trans (Nat.add_le_add_right he 1), hdistance'⟩
  cases hdistance : d.distance t with
  | some e =>
    refine (Graph.iInf_eq_of_isLeast ⟨h.walk t e hdistance, fun n hn => ?_⟩).symm
    obtain ⟨i, hi, hwalk⟩ := hn
    obtain ⟨f, hf, hdistance'⟩ := hle hi hwalk
    rw [hdistance] at hdistance'
    exact (Option.some.inj hdistance').trans_le hf
  | none =>
    have hnone : {n : ℕ | ∃ i, sources.contains i = true ∧ g.Walk n i t} = ∅ := by
      refine Set.eq_empty_iff_forall_notMem.2 fun n hn => ?_
      obtain ⟨i, hi, hwalk⟩ := hn
      obtain ⟨f, -, hdistance'⟩ := hle hi hwalk
      rw [hdistance] at hdistance'
      cases hdistance'
    rw [Graph.distanceFrom, hnone]
    simp [Graph.toENat]

end DistanceSearch

namespace Graph

variable {g : Graph}

/-- Every state of the graph has an entry. -/
@[simp] theorem length_distances (g : Graph) (sources : StateSet) :
    (g.distances sources).length = g.size := by
  rw [distances, Array.length_toList, DistanceSearch.size_run,
    (DistanceSearch.start_spec g.size sources).1]

/-- **Distances are measured right**: the search finds the length of a shortest walk from a source
to every state, and nothing where there is no walk. -/
theorem toENat_distances (hg : g.reversed.size = g.size) {sources : StateSet}
    (hsources : sources.size = g.size) (t : ℕ) :
    toENat ((g.distances sources).getD t none) = g.distanceFrom sources t := by
  obtain ⟨d, hempty, hcorrect, hrun⟩ := (DistanceSearch.correct_start hsources).run hg
  rw [← hcorrect.toENat_distance hempty, distances, hrun, DistanceSearch.distance]
  simp

/-- **The frontiers of a search through the whole graph** tell the same distances: a state is seen
first in the frontier with the number of its distance. -/
theorem getD_distances_eq_findIdx? (hg : g.reversed.size = g.size) {sources : StateSet}
    (hsources : sources.size = g.size) (t : ℕ) : (g.distances sources).getD t none =
      (sources :: ((Search.everywhere g).run (Search.start sources)).1.map (·.frontier)).findIdx?
        (·.contains t) := by
  apply toENat_injective
  have hsize : (Search.everywhere g).within.size ≤ sources.size := by
    rw [Search.everywhere, StateSet.size_full, hsources]
  have hlayers : ∀ k, (sources ::
      ((Search.everywhere g).run (Search.start sources)).1.map (·.frontier)).findIdx?
        (·.contains t) = some k ↔ (Search.everywhere g).InLayer sources (0 + k) t :=
    (Search.layered_start (Search.everywhere g) sources).findIdx?_frontiers rfl hsize
  have hreached : {n | (Search.everywhere g).ReachedIn sources n t} =
      {n | ∃ i, sources.contains i = true ∧ g.Walk n i t} :=
    Set.ext fun n => reachedIn_everywhere hg
  rw [toENat_distances hg hsources, distanceFrom, ← hreached]
  generalize (sources :: ((Search.everywhere g).run (Search.start sources)).1.map
    (·.frontier)).findIdx? (·.contains t) = found at hlayers ⊢
  cases found with
  | some k =>
    have hlayer := (hlayers k).1 rfl
    rw [Nat.zero_add] at hlayer
    exact iInf_eq_of_isLeast hlayer
  | none =>
    -- If a walk led to the state, there would be a shortest one and thus a layer of the state.
    have hnone : {n | (Search.everywhere g).ReachedIn sources n t} = ∅ := by
      by_contra hne
      obtain ⟨k, hk⟩ := BddBelow.exists_isLeast_of_nonempty
        (OrderBot.bddBelow _) (Set.nonempty_iff_ne_empty.2 hne)
      have hfound := (hlayers k).2 (by rwa [Nat.zero_add])
      cases hfound
    rw [hnone]
    simp [toENat]

end Graph

end MarkovElimination
