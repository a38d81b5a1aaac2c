import MarkovElimination.Graph.ComponentSearch
import MarkovElimination.Proofs.Graph.StrongComponents

/-! # The search for components ends and is exact

A search for components **emits** a list if it comes to an end after finitely many steps and the
list holds the components that the steps give out. The iterations of one phase end with the set that
the whole search or trimming computes; so a set on the stack adds the components of the recursive
decomposition, in their order (`emits_cons`). With the reading of these components, a search emits
exactly the strongly connected components with at least two states. -/

namespace MarkovElimination

namespace Graph

/-! ### Iterations -/

/-- Repeated iterations come to an end with a result. -/
inductive Ends {σ ρ : Type} (iterate : σ → σ ⊕ ρ) : σ → ρ → Prop
  /-- The iteration has the result. -/
  | done {s : σ} {r : ρ} (h : iterate s = .inr r) : Ends iterate s r
  /-- The iteration goes on. -/
  | next {s t : σ} {r : ρ} (h : iterate s = .inl t) (ht : Ends iterate t r) : Ends iterate s r

/-- Trimming ends with what it leaves of a set. -/
theorem ends_trim (g : Graph) (trim : Trim) (set : StateSet) :
    Ends (trim.iterate g) (Search.start set) (trim.apply g set) := by
  have hrun (state : SearchState) : Ends (trim.iterate g) state (trim.run g state).2 := by
    induction state using Trim.run.induct g trim with
    | case1 state hempty =>
      rw [Trim.run, dif_pos hempty]
      exact .done (by simp [Trim.iterate, hempty])
    | case2 state hempty removed next ih =>
      rw [Trim.run, dif_neg hempty]
      exact .next (by simp [Trim.iterate, hempty, next, removed]) ih
  exact hrun _

/-- A search without a limit ends with the states that it finds. -/
theorem ends_search {s : Search} (hlimit : s.limit = none) (initial : StateSet) :
    Ends s.iterate (Search.start initial) (s.closure initial) := by
  have hrun (state : SearchState) :
      ∃ found, (s.run state).2 = some found ∧ Ends s.iterate state found := by
    induction state using Search.run.induct (s := s) with
    | case1 state hreached => simp [Search.limitReached, hlimit] at hreached
    | case2 state hreached hempty =>
      refine ⟨state.set, ?_, .done (by simp [Search.iterate, hempty])⟩
      rw [Search.run, if_neg hreached, dif_pos hempty]
    | case3 state hreached hempty next ih =>
      obtain ⟨found, hfound, hends⟩ := ih
      refine ⟨found, ?_, .next (by simp [Search.iterate, hempty, next]) hends⟩
      rw [Search.run, if_neg hreached, dif_neg hempty]
      exact hfound
  obtain ⟨found, hfound, hends⟩ := hrun (Search.start initial)
  rw [Search.closure, hfound]
  exact hends

/-! ### Steps -/

namespace ComponentSearch

/-- **The components that a search gives out** until it ends. -/
inductive Emits (g : Graph) (trim : Trim) : ComponentSearch → List StateSet → Prop
  /-- Nothing is left to do. -/
  | finished {s : ComponentSearch} (h : s.step g trim = none) : Emits g trim s []
  /-- A step is made, which may give out a component. -/
  | step {s t : ComponentSearch} {c : Option StateSet} {l : List StateSet}
      (h : s.step g trim = some (c, t)) (ht : Emits g trim t l) : Emits g trim s (c.toList ++ l)

variable {g : Graph} {trim : Trim} {s : ComponentSearch} {pending l : List StateSet}

/-- A search does not emit two lists. -/
theorem Emits.unique {l' : List StateSet} (h : Emits g trim s l) (h' : Emits g trim s l') :
    l' = l := by
  induction h generalizing l' with
  | finished hs =>
    cases h' with
    | finished => rfl
    | step hs' _ => exact absurd (hs.symm.trans hs') (by simp)
  | step hs _ ih =>
    cases h' with
    | finished hs' => exact absurd (hs'.symm.trans hs) (by simp)
    | step hs' ht' =>
      obtain ⟨rfl, rfl⟩ := Prod.mk.inj (Option.some.inj (hs.symm.trans hs'))
      rw [ih ht']

/-- A step that gives out nothing. -/
theorem Emits.quiet {t : ComponentSearch} (h : s.step g trim = some (none, t))
    (ht : Emits g trim t l) : Emits g trim s l :=
  .step h ht

/-- The trimming phase. -/
theorem emits_trimming {state : SearchState} {trimmed : StateSet}
    (h : Ends (trim.iterate g) state trimmed)
    (hl : Emits g trim ⟨afterTrimming trimmed, pending⟩ l) :
    Emits g trim ⟨.trimming state, pending⟩ l := by
  induction h with
  | done h => exact .quiet (by simp [ComponentSearch.step, h]) hl
  | next h _ ih => exact .quiet (by simp [ComponentSearch.step, h]) (ih hl)

/-- The backward phase. -/
theorem emits_backward {trimmed pivot backward : StateSet} {state : SearchState}
    (h : Ends (Search.among g.reversed trimmed).iterate state backward)
    (hl : Emits g trim ⟨.forward trimmed backward (Search.start pivot), pending⟩ l) :
    Emits g trim ⟨.backward trimmed pivot state, pending⟩ l := by
  induction h with
  | done h => exact .quiet (by simp [ComponentSearch.step, h]) hl
  | next h _ ih => exact .quiet (by simp [ComponentSearch.step, h]) (ih hl)

/-- The forward phase, which ends with the component of the pivot. -/
theorem emits_forward {trimmed backward forward : StateSet} {state : SearchState}
    (h : Ends (Search.among g trimmed).iterate state forward)
    (hl : Emits g trim ⟨.idle, afterSearch trimmed forward backward pending⟩ l) :
    Emits g trim ⟨.forward trimmed backward state, pending⟩
      ((nontrivial (forward.inter backward)).toList ++ l) := by
  induction h with
  | done h => exact .step (by simp [ComponentSearch.step, h]) hl
  | next h _ ih => exact .quiet (by simp [ComponentSearch.step, h]) (ih hl)

/-- An empty set has no components. -/
theorem components_of_isEmpty {set : StateSet} (h : set.isEmpty = true) :
    g.components trim set = [] := by
  have hsub := (Trim.apply_spec g trim set).2
  apply components_of_first_none
  rw [StateSet.first?, List.head?_eq_none_iff, List.eq_nil_iff_forall_not_mem]
  intro i hi
  have hset := hsub i (StateSet.mem_toList.1 hi)
  rw [StateSet.isEmpty_iff.1 h i] at hset
  exact absurd hset (by simp)

/-- **A set on the stack** adds its components to what the search emits. -/
theorem emits_cons (set : StateSet) (h : Emits g trim ⟨.idle, pending⟩ l) :
    Emits g trim ⟨.idle, set :: pending⟩ (g.components trim set ++ l) := by
  induction hn : set.card using Nat.strong_induction_on generalizing set pending l with
  | _ n ih =>
    have hle : (trim.apply g set).card ≤ set.card :=
      StateSet.card_le_card (saturated_apply g trim set).size (saturated_apply g trim set).sub
    -- Empty parts are not put on the stack, and have no components.
    have hpush (part : StateSet) {pending l : List StateSet}
        (hlt : part.card < (trim.apply g set).card) (h : Emits g trim ⟨.idle, pending⟩ l) :
        Emits g trim ⟨.idle, push part pending⟩ (g.components trim part ++ l) := by
      unfold push
      split
      · rename_i hempty
        rw [components_of_isEmpty hempty]
        exact h
      · exact ih part.card (by omega) part h rfl
    refine .quiet rfl (emits_trimming (ends_trim g trim set) ?_)
    unfold afterTrimming
    cases hfirst : (trim.apply g set).first? with
    | none =>
      rw [components_of_first_none hfirst]
      exact h
    | some i =>
      obtain ⟨fwd, bwd, hfwd, hbwd, hsplit, hcomponents⟩ := components_of_first_some hfirst
      rw [← (saturated_apply g trim set).size] at hfwd hbwd
      obtain ⟨hrest, hafter, hbefore⟩ := hsplit.card_lt
      have hback := ends_search (s := Search.among g.reversed (trim.apply g set)) rfl
        (.singleton (trim.apply g set).size i)
      have hforth := ends_search (s := Search.among g (trim.apply g set)) rfl
        (.singleton (trim.apply g set).size i)
      rw [← hbwd] at hback
      rw [← hfwd] at hforth
      have hall := emits_backward hback (emits_forward hforth
        (hpush _ hrest (hpush _ hafter (hpush _ hbefore h))))
      have hpivot : (if 1 < (fwd.inter bwd).card then [fwd.inter bwd] else []) =
          (nontrivial (fwd.inter bwd)).toList := by
        unfold nontrivial
        split <;> rfl
      rw [hcomponents, hpivot]
      simpa only [List.append_assoc] using hall

/-- **The search for components** of a set ends, and emits the components of the recursive
decomposition. -/
theorem emits_start (g : Graph) (trim : Trim) (set : StateSet) :
    Emits g trim (start set) (g.components trim set) := by
  have hdone : Emits g trim ⟨.idle, []⟩ [] := .finished rfl
  have h := emits_cons set hdone
  rwa [List.append_nil] at h

end ComponentSearch

/-- **Decomposition into strongly connected components is exact.** Whatever is trimmed, the search
for the components of a set ends; it emits exactly the components with at least two states of the
subgraph induced by the set, each of them once. A decomposition holds the same components ordered by
their smallest states, and its trivial states are the states of the set in none of them. -/
theorem componentSearch_exact (g : Graph) (trim : Trim) (set : StateSet) :
    ∃ found, (∀ l, ComponentSearch.Emits g trim (.start set) l ↔ l = found) ∧
    found.Nodup ∧
      (∀ c, c ∈ found ↔ g.IsComponent set c ∧ 1 < c.card) ∧
      (g.decompose set).blocks.Perm found ∧
      ((g.decompose set).blocks.Pairwise fun a b =>
        ∃ i j, a.first? = some i ∧ b.first? = some j ∧ i < j) ∧
      (g.decompose set).trivial.size = set.size ∧
      ∀ i, (g.decompose set).trivial.contains i = true ↔ set.contains i = true ∧
        ¬∃ c, g.IsComponent set c ∧ 1 < c.card ∧ c.contains i = true := by
  have hemits := ComponentSearch.emits_start g trim set
  refine ⟨g.components trim set, fun l => ⟨hemits.unique, ?_⟩, nodup_components g trim set,
    fun c => mem_components, perm_blocks g trim set, pairwise_first_blocks g set,
    size_trivial g set, fun i => ?_⟩
  · rintro rfl
    exact hemits
  · have hmem (c : StateSet) :
        c ∈ (g.decompose set).blocks ↔ g.IsComponent set c ∧ 1 < c.card :=
      (perm_blocks g trim set).mem_iff.trans mem_components
    rw [contains_trivial]
    simp only [hmem, not_exists, not_and, Bool.not_eq_true, and_imp]

end Graph

end MarkovElimination
