import MarkovElimination.Proofs.Graph.Decomposition

/-! # Components are strongly connected

In the subgraph **induced** by a set of states, two states are *linked* if each is reached from the
other, and a **component** is a class of linked states. A part of the set that is *saturated*, that
is, closed under links, has the same components as the set has within it
(`Saturated.isComponent_iff`). Trimming leaves a saturated part with all components of two or more
states, and so does each of the two searches from a pivot; hence no component is cut, and the
components that are listed are exactly those with at least two states (`mem_components`), whatever
is trimmed. -/

namespace MarkovElimination

/-- A set with at least two members has one that differs from a given state. -/
theorem StateSet.exists_ne_of_one_lt_card {s : StateSet} (h : 1 < s.card) (i : Nat) :
    ∃ j, s.contains j = true ∧ j ≠ i := by
  by_contra hall
  have hsub : s.toList ⊆ [i] := by
    intro j hj
    by_contra hne
    exact hall ⟨j, mem_toList.1 hj, by simpa using hne⟩
  have hle : s.card ≤ 1 := (s.nodup_toList.subperm hsub).length_le
  omega

namespace Graph

/-! ### The induced subgraph -/

section Induced

variable {g : Graph} {set part c : StateSet} {i j k : Nat}

/-- An edge between two states of a set. -/
def Edge (g : Graph) (set : StateSet) (i j : Nat) : Prop :=
  set.contains i = true ∧ set.contains j = true ∧ j ∈ g.next i

/-- A path between states of a set. -/
def Path (g : Graph) (set : StateSet) : Nat → Nat → Prop := Relation.ReflTransGen (g.Edge set)

/-- Each of two states is reached from the other. -/
def Linked (g : Graph) (set : StateSet) (i j : Nat) : Prop := g.Path set i j ∧ g.Path set j i

/-- **A strongly connected component** of the subgraph induced by a set: all states that are linked
with one of its states. -/
structure IsComponent (g : Graph) (set c : StateSet) : Prop where
  size : c.size = set.size
  sub : ∀ i, c.contains i = true → set.contains i = true
  nonempty : ∃ i, c.contains i = true
  linked : ∀ i, c.contains i = true → ∀ j, c.contains j = true ↔ g.Linked set i j

/-- Links can be read in both directions. -/
theorem Linked.symm (h : g.Linked set i j) : g.Linked set j i := ⟨h.2, h.1⟩

/-- Links can be joined. -/
theorem Linked.trans (hij : g.Linked set i j) (hjk : g.Linked set j k) : g.Linked set i k :=
  ⟨hij.1.trans hjk.1, hjk.2.trans hij.2⟩

/-- A path that starts in the set stays in it. -/
theorem Path.contains (h : g.Path set i j) (hi : set.contains i = true) :
    set.contains j = true := by
  induction h with
  | refl => exact hi
  | tail _ hedge _ => exact hedge.2.1

/-- Paths of a part are paths of the set. -/
theorem Path.mono (hsub : ∀ i, part.contains i = true → set.contains i = true)
    (h : g.Path part i j) : g.Path set i j :=
  Relation.ReflTransGen.mono
    (fun _ _ hedge => ⟨hsub _ hedge.1, hsub _ hedge.2.1, hedge.2.2⟩) _ _ h

/-- An edge of the reversed graph is an edge read backward. -/
theorem edge_reversed (g : Graph) (set : StateSet) :
    g.reversed.Edge set = Function.swap (g.Edge set) := by
  funext a b
  have hagree : b ∈ g.reversed.next a ↔ a ∈ g.next b := (g.agree b a).symm
  simp only [Edge, Function.swap, hagree, eq_iff_iff]
  exact and_left_comm

/-- A path of the reversed graph is a path read backward. -/
theorem path_reversed : g.reversed.Path set i j ↔ g.Path set j i := by
  rw [Path, Path, edge_reversed, Relation.reflTransGen_swap]

/-- Reversing all edges keeps the links. -/
theorem linked_reversed : g.reversed.Linked set i j ↔ g.Linked set i j := by
  rw [Linked, Linked, path_reversed, path_reversed]
  exact and_comm

/-- **A saturated part** of a set: no state of the part is linked with a state outside of it. -/
structure Saturated (g : Graph) (set part : StateSet) : Prop where
  size : part.size = set.size
  sub : ∀ i, part.contains i = true → set.contains i = true
  closed : ∀ i j, part.contains i = true → g.Linked set i j → part.contains j = true

/-- A path between linked states stays in a saturated part. -/
theorem Saturated.path (h : g.Saturated set part) (hi : part.contains i = true)
    (hij : g.Path set i j) (hji : g.Path set j i) : g.Path part i j := by
  induction hij with
  | refl => exact .refl
  | @tail a b hia hab ih =>
    -- The path goes on to a state that leads back, so its last state is linked with the first.
    have hai : g.Path set a i := .head hab hji
    have ha : part.contains a = true := h.closed i a hi ⟨hia, hai⟩
    have hb : part.contains b = true := h.closed i b hi ⟨.tail hia hab, hji⟩
    exact .tail (ih hai) ⟨ha, hb, hab.2.2⟩

/-- The links of a saturated part are those of the set. -/
theorem Saturated.linked_iff (h : g.Saturated set part) (hi : part.contains i = true) :
    g.Linked part i j ↔ g.Linked set i j := by
  constructor
  · intro hij
    exact ⟨hij.1.mono h.sub, hij.2.mono h.sub⟩
  · intro hij
    have hj := h.closed i j hi hij
    exact ⟨h.path hi hij.1 hij.2, h.path hj hij.2 hij.1⟩

/-- **The components of a saturated part** are the components of the set within it. -/
theorem Saturated.isComponent_iff (h : g.Saturated set part) :
    g.IsComponent part c ↔ g.IsComponent set c ∧ ∀ i, c.contains i = true →
    part.contains i = true := by
  constructor
  · intro hc
    refine ⟨⟨hc.size.trans h.size, fun i hi => h.sub i (hc.sub i hi), hc.nonempty, ?_⟩,
      hc.sub⟩
    intro i hi j
    rw [hc.linked i hi j, h.linked_iff (hc.sub i hi)]
  · rintro ⟨hc, hsub⟩
    refine ⟨hc.size.trans h.size.symm, hsub, hc.nonempty, ?_⟩
    intro i hi j
    rw [hc.linked i hi j, h.linked_iff (hsub i hi)]

/-- Two states of a component are linked. -/
theorem IsComponent.linked_of_contains (h : g.IsComponent set c) (hi : c.contains i = true)
    (hj : c.contains j = true) : g.Linked set i j :=
  (h.linked i hi j).1 hj

/-- A component that has a state of a saturated part lies within the part. -/
theorem IsComponent.sub_of_saturated (hc : g.IsComponent set c) (h : g.Saturated set part)
    (hi : c.contains i = true) (hpart : part.contains i = true) :
    ∀ j, c.contains j = true → part.contains j = true :=
  fun j hj => h.closed i j hpart (hc.linked_of_contains hi hj)

/-- Two components with a common state are equal. -/
theorem IsComponent.eq_of_contains {d : StateSet} (hc : g.IsComponent set c)
    (hd : g.IsComponent set d) (hci : c.contains i = true) (hdi : d.contains i = true) : c = d := by
  refine StateSet.ext_contains (hc.size.trans hd.size.symm) fun j => Bool.eq_iff_iff.2 ?_
  rw [hc.linked i hci j, hd.linked i hdi j]

end Induced

/-! ### Trimming -/

section Trimming

variable {g : Graph} {set : StateSet} {i j : Nat}

/-- A state that is linked with another state. -/
def OnCycle (g : Graph) (set : StateSet) (i : Nat) : Prop :=
  set.contains i = true ∧ ∃ j, j ≠ i ∧ g.Linked set i j

/-- A state that is linked with another state has a successor that it is linked with. -/
theorem OnCycle.exists_next (h : g.OnCycle set i) :
    ∃ k, k ∈ g.next i ∧ (k = i ∨ g.OnCycle set k) := by
  obtain ⟨-, j, hji, hlink⟩ := h
  rcases Relation.ReflTransGen.cases_head hlink.1 with rfl | ⟨k, hik, hkj⟩
  · exact absurd rfl hji
  · refine ⟨k, hik.2.2, ?_⟩
    by_cases hki : k = i
    · exact .inl hki
    · have hback : g.Path set k i := Relation.ReflTransGen.trans hkj hlink.2
      exact .inr ⟨hik.2.1, i, Ne.symm hki, hback, .single hik⟩

/-- Reversing all edges keeps the states that are linked with another one. -/
theorem onCycle_reversed : g.reversed.OnCycle set i ↔ g.OnCycle set i := by
  simp only [OnCycle, linked_reversed]

/-- While no state that is linked with another one has been removed, none of them is a sink. -/
theorem not_newSinks_of_onCycle {state : SearchState}
    (hkeep : ∀ k, g.OnCycle set k → state.set.contains k = true) (h : g.OnCycle set i) :
    (Trim.newSinks g state).contains i = false := by
  obtain ⟨k, hk, hcase⟩ := h.exists_next
  have hset : state.set.contains k = true := by
    rcases hcase with rfl | hk
    · exact hkeep _ h
    · exact hkeep k hk
  have hany : (g.next i).any state.set.contains = true := List.any_eq_true.2 ⟨k, hk, hset⟩
  simp [Trim.newSinks, hany]

/-- **No round of trimming removes a state that is linked with another one.** -/
theorem not_removable_of_onCycle (trim : Trim) {state : SearchState}
    (hkeep : ∀ k, g.OnCycle set k → state.set.contains k = true) (h : g.OnCycle set i) :
    (trim.removable g state).contains i = false := by
  have hsink := not_newSinks_of_onCycle hkeep h
  have hsource : (Trim.newSinks g.reversed state).contains i = false :=
    not_newSinks_of_onCycle (fun k hk => hkeep k (onCycle_reversed.1 hk)) (onCycle_reversed.2 h)
  cases trim with
  | both => simp [Trim.removable, StateSet.contains_union, hsink, hsource]
  | sources => exact hsource
  | sinks => exact hsink
  | none => exact StateSet.contains_empty _ _

/-- Nor do all rounds together. -/
theorem contains_apply_of_onCycle (trim : Trim) (h : g.OnCycle set i) :
    (trim.apply g set).contains i = true := by
  have hrun (state : SearchState) (hkeep : ∀ k, g.OnCycle set k → state.set.contains k = true) :
      (trim.run g state).2.contains i = true := by
    induction state using Trim.run.induct g trim with
    | case1 state hempty =>
      rw [Trim.run, dif_pos hempty]
      exact hkeep i h
    | case2 state hempty removed next ih =>
      rw [Trim.run, dif_neg hempty]
      refine ih fun k hk => ?_
      simp [next, removed, StateSet.contains_minus, hkeep k hk,
        not_removable_of_onCycle trim hkeep hk]
  exact hrun (Search.start set) fun k hk => hk.1

/-- What trimming leaves is saturated. -/
theorem saturated_apply (g : Graph) (trim : Trim) (set : StateSet) :
    g.Saturated set (trim.apply g set) := by
  obtain ⟨hsize, hsub⟩ := Trim.apply_spec g trim set
  refine ⟨hsize, hsub, fun i j hi hij => ?_⟩
  by_cases hne : j = i
  · rw [hne]
    exact hi
  · exact contains_apply_of_onCycle trim ⟨hij.1.contains (hsub i hi), i, Ne.symm hne, hij.symm⟩

/-- Trimming keeps the components with at least two states. -/
theorem IsComponent.sub_apply {c : StateSet} (hc : g.IsComponent set c) (hcard : 1 < c.card)
    (trim : Trim) (hi : c.contains i = true) : (trim.apply g set).contains i = true := by
  obtain ⟨j, hj, hne⟩ := StateSet.exists_ne_of_one_lt_card hcard i
  exact contains_apply_of_onCycle trim ⟨hc.sub i hi, j, hne, hc.linked_of_contains hi hj⟩

end Trimming

/-! ### Search from a pivot -/

section Pivot

variable {g : Graph} {states : StateSet} {pivot : Nat}

/-- A search among some states from one of them follows the paths between them. -/
theorem contains_closure_among (hpivot : states.contains pivot = true) {i : Nat} :
    ((Search.among g states).closure (.singleton states.size pivot)).contains i = true ↔
      g.Path states pivot i := by
  have hsize : states.size ≤ (StateSet.singleton states.size pivot).size := by
    rw [StateSet.size_singleton]
  rw [Search.contains_closure (s := Search.among g states) rfl hsize]
  constructor
  · rintro ⟨k, hk, hpath⟩
    simp only [StateSet.contains_singleton, Bool.and_eq_true, beq_iff_eq] at hk
    rw [hk.2] at hpath
    induction hpath with
    | refl => exact .refl
    | tail _ hpass ih => exact .tail ih ⟨ih.contains hpivot, hpass.2.1, hpass.1⟩
  · intro hpath
    refine ⟨pivot, ?_, ?_⟩
    · simp [StateSet.contains_singleton, StateSet.lt_size_of_contains hpivot]
    · refine Relation.ReflTransGen.mono (fun a b hedge => ?_) _ _ hpath
      exact ⟨hedge.2.2, hedge.2.1, StateSet.contains_empty _ _⟩

variable {fwd bwd part c : StateSet} {i j : Nat}

/-- **A split** of some states at a pivot: the states that the pivot leads to, and those that lead
to the pivot. -/
structure IsSplit (g : Graph) (states : StateSet) (pivot : Nat) (fwd bwd : StateSet) : Prop where
  pivot_mem : states.contains pivot = true
  size_forward : fwd.size = states.size
  size_backward : bwd.size = states.size
  contains_forward : ∀ i, fwd.contains i = true ↔ g.Path states pivot i
  contains_backward : ∀ i, bwd.contains i = true ↔ g.Path states i pivot

/-- Forward and backward search split the states. -/
theorem isSplit_closure (hpivot : states.contains pivot = true) :
    g.IsSplit states pivot ((Search.among g states).closure (.singleton states.size pivot))
      ((Search.among g.reversed states).closure (.singleton states.size pivot)) where
  pivot_mem := hpivot
  size_forward := (closure_among_spec g hpivot).1
  size_backward := (closure_among_spec g.reversed hpivot).1
  contains_forward _ := contains_closure_among hpivot
  contains_backward _ := (contains_closure_among hpivot).trans path_reversed

namespace IsSplit

/-- Linked states are on the same sides of a split. -/
theorem contains_eq (h : g.IsSplit states pivot fwd bwd) (hij : g.Linked states i j) :
    fwd.contains i = fwd.contains j ∧ bwd.contains i = bwd.contains j := by
  constructor
  · rw [Bool.eq_iff_iff, h.contains_forward, h.contains_forward]
    exact ⟨fun hi => hi.trans hij.1, fun hj => hj.trans hij.2⟩
  · rw [Bool.eq_iff_iff, h.contains_backward, h.contains_backward]
    exact ⟨fun hi => hij.2.trans hi, fun hj => hij.1.trans hj⟩

/-- Only states are on a side of a split. -/
theorem contains_states (h : g.IsSplit states pivot fwd bwd)
    (hi : fwd.contains i = true ∨ bwd.contains i = true) : states.contains i = true := by
  rcases hi with hi | hi
  · exact ((h.contains_forward i).1 hi).contains h.pivot_mem
  · exact (path_reversed.2 ((h.contains_backward i).1 hi)).contains h.pivot_mem

/-- The pivot is on both sides. -/
theorem contains_pivot (h : g.IsSplit states pivot fwd bwd) :
    fwd.contains pivot = true ∧ bwd.contains pivot = true :=
  ⟨(h.contains_forward pivot).2 .refl, (h.contains_backward pivot).2 .refl⟩

/-- A part that is told by the sides of its states is saturated. -/
theorem saturated (h : g.IsSplit states pivot fwd bwd) (side : Bool → Bool → Bool)
    (hsize : part.size = states.size) (hpart : ∀ i, part.contains i =
      (states.contains i && side (fwd.contains i) (bwd.contains i))) :
    g.Saturated states part where
  size := hsize
  sub i hi := by
    rw [hpart, Bool.and_eq_true] at hi
    exact hi.1
  closed i j hi hij := by
    obtain ⟨hf, hb⟩ := h.contains_eq hij
    rw [hpart, Bool.and_eq_true] at hi ⊢
    exact ⟨hij.1.contains hi.1, by rw [← hf, ← hb, hi.2]⟩

/-- The states on neither side are saturated. -/
theorem saturated_rest (h : g.IsSplit states pivot fwd bwd) :
    g.Saturated states ((states.minus bwd).minus fwd) := by
  refine h.saturated (fun f b => !b && !f) (by simp) fun i => ?_
  rw [StateSet.contains_minus, StateSet.contains_minus, Bool.and_assoc]

/-- The states that only the pivot leads to are saturated. -/
theorem saturated_after (h : g.IsSplit states pivot fwd bwd) :
    g.Saturated states (fwd.minus bwd) := by
  refine h.saturated (fun f b => f && !b) (by simp [h.size_forward]) fun i => ?_
  rw [StateSet.contains_minus]
  cases hf : fwd.contains i with
  | false => simp
  | true => simp [h.contains_states (.inl hf)]

/-- The states that only lead to the pivot are saturated. -/
theorem saturated_before (h : g.IsSplit states pivot fwd bwd) :
    g.Saturated states (bwd.minus fwd) := by
  refine h.saturated (fun f b => b && !f) (by simp [h.size_backward]) fun i => ?_
  rw [StateSet.contains_minus]
  cases hb : bwd.contains i with
  | false => simp
  | true => simp [h.contains_states (.inr hb)]

/-- **The states on both sides are the component of the pivot.** -/
theorem isComponent_inter (h : g.IsSplit states pivot fwd bwd) :
    g.IsComponent states (fwd.inter bwd) := by
  have hmem (i : Nat) : (fwd.inter bwd).contains i = true ↔ g.Linked states pivot i := by
    rw [StateSet.contains_inter, Bool.and_eq_true, h.contains_forward, h.contains_backward]
    exact Iff.rfl
  refine ⟨by simp [h.size_forward], fun i hi => ?_,
    ⟨pivot, (hmem pivot).2 ⟨.refl, .refl⟩⟩, ?_⟩
  · exact ((hmem i).1 hi).1.contains h.pivot_mem
  · intro i hi j
    rw [hmem] at hi ⊢
    exact ⟨fun hj => hi.symm.trans hj, fun hj => hi.trans hj⟩

/-- **No component crosses between the four parts of a split.** -/
theorem isComponent_iff (h : g.IsSplit states pivot fwd bwd) :
    g.IsComponent states c ↔ c = fwd.inter bwd ∨
      g.IsComponent ((states.minus bwd).minus fwd) c ∨ g.IsComponent (fwd.minus bwd) c ∨
        g.IsComponent (bwd.minus fwd) c := by
  constructor
  · intro hc
    -- One state of the component tells the part that all of them are in.
    obtain ⟨i, hi⟩ := hc.nonempty
    have hpart {part : StateSet} (hsat : g.Saturated states part) (hmem : part.contains i = true) :
        g.IsComponent part c :=
      hsat.isComponent_iff.2 ⟨hc, hc.sub_of_saturated hsat hi hmem⟩
    cases hf : fwd.contains i with
    | true =>
      cases hb : bwd.contains i with
      | true =>
        have hboth : (fwd.inter bwd).contains i = true := by simp [StateSet.contains_inter, hf, hb]
        exact .inl (hc.eq_of_contains h.isComponent_inter hi hboth)
      | false =>
        have hafter := hpart h.saturated_after (by simp [StateSet.contains_minus, hf, hb])
        exact .inr (.inr (.inl hafter))
    | false =>
      cases hb : bwd.contains i with
      | true =>
        exact .inr (.inr (.inr
          (hpart h.saturated_before (by simp [StateSet.contains_minus, hf, hb]))))
      | false =>
        exact .inr (.inl (hpart h.saturated_rest
          (by simp [StateSet.contains_minus, hf, hb, hc.sub i hi])))
  · rintro (rfl | hc | hc | hc)
    · exact h.isComponent_inter
    · exact (h.saturated_rest.isComponent_iff.1 hc).1
    · exact (h.saturated_after.isComponent_iff.1 hc).1
    · exact (h.saturated_before.isComponent_iff.1 hc).1

/-- The parts that are decomposed on their own are smaller, since they lack the pivot. -/
theorem card_lt (h : g.IsSplit states pivot fwd bwd) :
    ((states.minus bwd).minus fwd).card < states.card ∧ (fwd.minus bwd).card < states.card ∧
      (bwd.minus fwd).card < states.card := by
  have hlt {part : StateSet} (hsat : g.Saturated states part)
      (hpivot : part.contains pivot = false) : part.card < states.card :=
    StateSet.card_lt_card hsat.size hsat.sub ⟨pivot, hpivot, h.pivot_mem⟩
  obtain ⟨hf, hb⟩ := h.contains_pivot
  refine ⟨hlt h.saturated_rest ?_, hlt h.saturated_after ?_, hlt h.saturated_before ?_⟩
  · simp [StateSet.contains_minus, hf]
  · simp [StateSet.contains_minus, hb]
  · simp [StateSet.contains_minus, hf]

end IsSplit

end Pivot

/-! ### The list of components -/

section Components

variable {g : Graph} {trim : Trim} {set c : StateSet}

/-- Nothing is listed if trimming leaves nothing. -/
theorem components_of_first_none (h : (trim.apply g set).first? = none) :
    g.components trim set = [] := by
  rw [components]
  simp [h]

/-- **One round of the decomposition**: the component of the pivot, if it has at least two states,
and the components of the other three parts. -/
theorem components_of_first_some {pivot : Nat} (h : (trim.apply g set).first? = some pivot) :
    ∃ fwd bwd, fwd = (Search.among g (trim.apply g set)).closure (.singleton set.size pivot) ∧
      bwd = (Search.among g.reversed (trim.apply g set)).closure (.singleton set.size pivot) ∧
      g.IsSplit (trim.apply g set) pivot fwd bwd ∧
      g.components trim set = (if 1 < (fwd.inter bwd).card then [fwd.inter bwd] else []) ++
        g.components trim (((trim.apply g set).minus bwd).minus fwd) ++
        g.components trim (fwd.minus bwd) ++ g.components trim (bwd.minus fwd) := by
  have hpivot : (trim.apply g set).contains pivot = true :=
    StateSet.mem_toList.1 (List.mem_of_mem_head? h)
  have hsat := saturated_apply g trim set
  have hsplit := isSplit_closure (g := g) hpivot
  rw [hsat.size] at hsplit
  refine ⟨_, _, rfl, rfl, hsplit, ?_⟩
  -- The parts are smaller than the set, so every one of them is decomposed.
  have hle : (trim.apply g set).card ≤ set.card := StateSet.card_le_card hsat.size hsat.sub
  obtain ⟨hrest, hafter, hbefore⟩ := hsplit.card_lt
  rw [components]
  simp only [h]
  rw [if_pos (hrest.trans_le hle), if_pos (hafter.trans_le hle), if_pos (hbefore.trans_le hle)]

/-- **The listed components** are those with at least two states, whatever is trimmed. -/
theorem mem_components :
    c ∈ g.components trim set ↔ g.IsComponent set c ∧ 1 < c.card := by
  induction hn : set.card using Nat.strong_induction_on generalizing set with
  | _ n ih =>
    have hsat := saturated_apply g trim set
    -- Trimming keeps the components in question.
    have htrim : g.IsComponent set c ∧ 1 < c.card ↔
        g.IsComponent (trim.apply g set) c ∧ 1 < c.card := by
      rw [hsat.isComponent_iff]
      constructor
      · rintro ⟨hc, hcard⟩
        exact ⟨⟨hc, fun i hi => hc.sub_apply hcard trim hi⟩, hcard⟩
      · rintro ⟨⟨hc, -⟩, hcard⟩
        exact ⟨hc, hcard⟩
    rw [htrim]
    cases hfirst : (trim.apply g set).first? with
    | none =>
      rw [components_of_first_none hfirst]
      simp only [List.not_mem_nil, false_iff, not_and]
      intro hc
      obtain ⟨i, hi⟩ := hc.nonempty
      have hmem := StateSet.mem_toList.2 (hc.sub i hi)
      rw [List.head?_eq_none_iff.1 hfirst] at hmem
      exact absurd hmem List.not_mem_nil
    | some pivot =>
      obtain ⟨fwd, bwd, -, -, hsplit, hcomponents⟩ := components_of_first_some hfirst
      have hle : (trim.apply g set).card ≤ set.card := StateSet.card_le_card hsat.size hsat.sub
      obtain ⟨hrest, hafter, hbefore⟩ := hsplit.card_lt
      have hpivot : c ∈ (if 1 < (fwd.inter bwd).card then [fwd.inter bwd] else []) ↔
          c = fwd.inter bwd ∧ 1 < c.card := by
        split
        · rename_i hcard
          rw [List.mem_singleton]
          exact ⟨fun h => ⟨h, h ▸ hcard⟩, fun h => h.1⟩
        · rename_i hcard
          simp only [List.not_mem_nil, false_iff, not_and]
          exact fun h => h ▸ hcard
      rw [hcomponents, hsplit.isComponent_iff, List.mem_append, List.mem_append, List.mem_append,
        hpivot, ih _ (by omega) rfl, ih _ (by omega) rfl, ih _ (by omega) rfl, or_and_right,
        or_and_right, or_and_right, or_assoc, or_assoc]

/-- Every component with at least two states is listed once. -/
theorem nodup_components (g : Graph) (trim : Trim) (set : StateSet) :
    (g.components trim set).Nodup :=
  (isBlocks_components g trim set).nodup

/-- **The blocks of a decomposition** are the components that any way of trimming finds. -/
theorem perm_blocks (g : Graph) (trim : Trim) (set : StateSet) :
    (g.decompose set).blocks.Perm (g.components trim set) := by
  have hsort : (g.decompose set).blocks.Perm (g.components .both set) := List.mergeSort_perm _ _
  refine hsort.trans ((List.perm_ext_iff_of_nodup (nodup_components g .both set)
    (nodup_components g trim set)).2 fun c => ?_)
  rw [mem_components, mem_components]

/-- **Blocks are listed by their smallest states.** -/
theorem pairwise_first_blocks (g : Graph) (set : StateSet) :
    (g.decompose set).blocks.Pairwise fun a b =>
      ∃ i j, a.first? = some i ∧ b.first? = some j ∧ i < j := by
  have hblocks := isBlocks_decompose g set
  have hsorted : (g.decompose set).blocks.Pairwise fun a b =>
      decide (a.first?.getD 0 ≤ b.first?.getD 0) = true := by
    apply List.pairwise_mergeSort
    · intro a b c hab hbc
      simp only [decide_eq_true_eq] at hab hbc ⊢
      exact hab.trans hbc
    · intro a b
      simp only [Bool.or_eq_true, decide_eq_true_eq]
      exact Nat.le_total _ _
  have hfirst {b : StateSet} (hb : b ∈ (g.decompose set).blocks) :
      ∃ i, b.first? = some i ∧ b.contains i = true := by
    cases h : b.first? with
    | none =>
      have hcard := hblocks.card b hb
      rw [StateSet.card, List.head?_eq_none_iff.1 h] at hcard
      exact absurd hcard (by simp)
    | some i => exact ⟨i, rfl, StateSet.mem_toList.1 (List.mem_of_mem_head? h)⟩
  refine (hsorted.and hblocks.disjoint).imp_of_mem fun {a b} ha hb hab => ?_
  obtain ⟨i, hai, hi⟩ := hfirst ha
  obtain ⟨j, hbj, hj⟩ := hfirst hb
  refine ⟨i, j, hai, hbj, lt_of_le_of_ne ?_ ?_⟩
  · simpa [hai, hbj] using hab.1
  · -- Disjoint blocks have different smallest states.
    rintro rfl
    rw [hab.2 i hi] at hj
    exact absurd hj (by simp)

end Components

end Graph

end MarkovElimination
