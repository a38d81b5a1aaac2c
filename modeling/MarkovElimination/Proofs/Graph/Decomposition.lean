import MarkovElimination.Graph.Components
import MarkovElimination.Proofs.Graph.Search

/-! # Parts of a decomposition

The blocks of a decomposition are **pairwise disjoint** subsets of the decomposed set, each with at
least two members, and the trivial states are the rest of the set. For the strategies of elimination
this is all that matters: every state is in exactly one part, and a block is either the whole set or
a smaller one (`card_lt_of_blocks_ne`). -/

namespace MarkovElimination

/-- Trimming only removes states. -/
theorem Trim.apply_spec (g : Graph) (trim : Trim) (set : StateSet) :
    (trim.apply g set).size = set.size ∧
      ∀ i, (trim.apply g set).contains i = true → set.contains i = true := by
  have hrun (state : SearchState) : (trim.run g state).2.size = state.set.size ∧
      ∀ i, (trim.run g state).2.contains i = true → state.set.contains i = true := by
    induction state using Trim.run.induct g trim with
    | case1 state hempty =>
      rw [Trim.run, dif_pos hempty]
      exact ⟨rfl, fun i hi => hi⟩
    | case2 state hempty removed next ih =>
      rw [Trim.run, dif_neg hempty]
      refine ⟨ih.1.trans (StateSet.size_minus _ _), fun i hi => ?_⟩
      have hmem := ih.2 i hi
      simp only [next, StateSet.contains_minus, Bool.and_eq_true] at hmem
      exact hmem.1
  exact hrun (Search.start set)

/-- Two sets without a common member. -/
def StateSet.Disjoint (s t : StateSet) : Prop :=
  ∀ i, s.contains i = true → t.contains i = false

/-- Disjointness does not depend on the order of the sets. -/
theorem StateSet.Disjoint.symm {s t : StateSet} (h : s.Disjoint t) : t.Disjoint s := by
  intro i hi
  by_contra hs
  rw [h i (by simpa using hs)] at hi
  exact absurd hi (by simp)

instance : Std.Symm StateSet.Disjoint := ⟨fun _ _ h => h.symm⟩

namespace Graph

/-- **Blocks** of the states with a property: disjoint sets of such states with at least two members
each. -/
structure IsBlocks (n : Nat) (p : Nat → Prop) (blocks : List StateSet) : Prop where
  size : ∀ b ∈ blocks, b.size = n
  sub : ∀ b ∈ blocks, ∀ i, b.contains i = true → p i
  card : ∀ b ∈ blocks, 1 < b.card
  disjoint : blocks.Pairwise StateSet.Disjoint

variable {n : Nat} {p q : Nat → Prop} {as bs : List StateSet}

/-- There may be no blocks. -/
theorem isBlocks_nil (n : Nat) (p : Nat → Prop) : IsBlocks n p [] :=
  ⟨by simp, by simp, by simp, .nil⟩

/-- Blocks are also blocks of a larger set of states. -/
theorem IsBlocks.mono (h : IsBlocks n p as) (hpq : ∀ i, p i → q i) : IsBlocks n q as :=
  ⟨h.size, fun b hb i hi => hpq i (h.sub b hb i hi), h.card, h.disjoint⟩

/-- The blocks of two disjoint sets of states together. -/
theorem IsBlocks.append (ha : IsBlocks n p as) (hb : IsBlocks n q bs) (hpq : ∀ i, p i → ¬q i) :
    IsBlocks n (fun i => p i ∨ q i) (as ++ bs) where
  size b hmem := (List.mem_append.1 hmem).elim (ha.size b) (hb.size b)
  sub b hmem i hi := (List.mem_append.1 hmem).imp (fun h => ha.sub b h i hi) fun h =>
    hb.sub b h i hi
  card b hmem := (List.mem_append.1 hmem).elim (ha.card b) (hb.card b)
  disjoint := by
    refine List.pairwise_append.2 ⟨ha.disjoint, hb.disjoint, fun a hma b hmb i hi => ?_⟩
    by_contra hbi
    exact hpq i (ha.sub a hma i hi) (hb.sub b hmb i (by simpa using hbi))

/-- One set with at least two members is a block of its members. -/
theorem isBlocks_singleton {b : StateSet} (hsize : b.size = n) (hcard : 1 < b.card) :
    IsBlocks n (fun i => b.contains i = true) [b] where
  size c hc := by rw [List.mem_singleton.1 hc, hsize]
  sub c hc i hi := by rwa [List.mem_singleton.1 hc] at hi
  card c hc := by rwa [List.mem_singleton.1 hc]
  disjoint := List.pairwise_singleton _ _

/-- No block is listed twice. -/
theorem IsBlocks.nodup (h : IsBlocks n p as) : as.Nodup := by
  refine h.disjoint.imp_of_mem fun {s t} hs ht hst heq => ?_
  subst heq
  obtain ⟨i, hi⟩ := StateSet.exists_contains_of_card_pos (zero_lt_one.trans (h.card s hs))
  rw [hst i hi] at hi
  exact absurd hi (by simp)

/-- Blocks that are only taken under a condition. -/
theorem IsBlocks.ite {c : Prop} [Decidable c] (h : c → IsBlocks n p as) :
    IsBlocks n p (if c then as else []) := by
  split
  · rename_i hc
    exact h hc
  · exact isBlocks_nil n p

/-- A search among some states that starts at one of them stays among them. -/
theorem closure_among_spec (g : Graph) {states : StateSet} {pivot : Nat}
    (hpivot : states.contains pivot = true) :
    ((Search.among g states).closure (.singleton states.size pivot)).size = states.size ∧
      ∀ i, ((Search.among g states).closure (.singleton states.size pivot)).contains i = true →
        states.contains i = true := by
  have hsize : states.size ≤ (StateSet.singleton states.size pivot).size := by
    rw [StateSet.size_singleton]
  refine ⟨(Search.size_closure (s := Search.among g states) rfl hsize).trans
    (StateSet.size_singleton _ _), fun i hi => ?_⟩
  obtain ⟨j, hj, hpath⟩ := (Search.contains_closure (s := Search.among g states) rfl hsize).1 hi
  -- A found state is the first one, or the search went to it.
  rcases hpath.cases_tail with rfl | ⟨k, -, hki⟩
  · have hij : i = pivot := by
      simp only [StateSet.contains_singleton, Bool.and_eq_true, beq_iff_eq] at hj
      exact hj.2
    rw [hij]
    exact hpivot
  · exact hki.2.1

/-- **The four parts** that a forward and a backward search tell apart: what both find, what neither
finds, and what only one of them finds. Blocks of the parts are blocks of all states. -/
theorem IsBlocks.append_parts {found rest after before : List StateSet} {trimmed fwd bwd : StateSet}
    (hfound : IsBlocks n (fun i => (fwd.inter bwd).contains i = true) found)
    (hrest : IsBlocks n (fun i => ((trimmed.minus bwd).minus fwd).contains i = true) rest)
    (hafter : IsBlocks n (fun i => (fwd.minus bwd).contains i = true) after)
    (hbefore : IsBlocks n (fun i => (bwd.minus fwd).contains i = true) before)
    (htrimmed : ∀ i, trimmed.contains i = true → p i)
    (hfwd : ∀ i, fwd.contains i = true → p i) (hbwd : ∀ i, bwd.contains i = true → p i) :
    IsBlocks n p (found ++ rest ++ after ++ before) := by
  refine (((hfound.append hrest ?_).append hafter ?_).append hbefore ?_).mono ?_
  -- No two parts agree on which of the two searches finds a state.
  all_goals
    intro i
    simp only [StateSet.contains_inter, StateSet.contains_minus, Bool.and_eq_true,
      Bool.not_eq_true']
  · rintro ⟨hf, hb⟩ ⟨-, hf'⟩
    simp [hf] at hf'
  · rintro (⟨hf, hb⟩ | ⟨⟨-, hb⟩, hf⟩) ⟨hf', hb'⟩
    · simp [hb] at hb'
    · simp [hf] at hf'
  · rintro ((⟨hf, hb⟩ | ⟨⟨-, hb⟩, hf⟩) | ⟨hf, hb⟩) ⟨hb', hf'⟩
    · simp [hf] at hf'
    · simp [hb] at hb'
    · simp [hf] at hf'
  · rintro (((⟨hf, -⟩ | ⟨⟨ht, -⟩, -⟩) | ⟨hf, -⟩) | ⟨hb, -⟩)
    · exact hfwd i hf
    · exact htrimmed i ht
    · exact hfwd i hf
    · exact hbwd i hb

/-- **Components are blocks** of the set in which they are found. -/
theorem isBlocks_components (g : Graph) (trim : Trim) (set : StateSet) :
    IsBlocks set.size (fun i => set.contains i = true) (g.components trim set) := by
  -- The recursive calls are on smaller sets, whatever their order.
  induction hn : set.card using Nat.strong_induction_on generalizing set with
  | _ n ih =>
    rw [components]
    obtain ⟨htsize, htsub⟩ := Trim.apply_spec g trim set
    generalize trim.apply g set = trimmed at htsize htsub
    cases hpivot : trimmed.first? with
    | none => exact isBlocks_nil _ _
    | some pivot =>
      have hpmem : trimmed.contains pivot = true :=
        StateSet.mem_toList.1 (List.mem_of_mem_head? hpivot)
      -- Both searches stay among the trimmed states.
      obtain ⟨hbsize, hbsub⟩ := closure_among_spec g.reversed hpmem
      obtain ⟨hfsize, hfsub⟩ := closure_among_spec g hpmem
      rw [htsize] at hbsize hbsub hfsize hfsub
      simp only
      generalize (Search.among g.reversed trimmed).closure (.singleton set.size pivot) = bwd
        at hbsize hbsub ⊢
      generalize (Search.among g trimmed).closure (.singleton set.size pivot) = fwd
        at hfsize hfsub ⊢
      have hpart (part : StateSet) (hpart : part.size = set.size) : part.card < set.card →
          IsBlocks set.size (fun i => part.contains i = true) (g.components trim part) := by
        intro hlt
        rw [← hpart]
        exact ih part.card (hn ▸ hlt) part rfl
      have hself : 1 < (fwd.inter bwd).card → IsBlocks set.size
          (fun i => (fwd.inter bwd).contains i = true) [fwd.inter bwd] :=
        isBlocks_singleton ((StateSet.size_inter fwd bwd).trans hfsize)
      have hrest := hpart ((trimmed.minus bwd).minus fwd) (by simp [htsize])
      have hafter := hpart (fwd.minus bwd) (by simp [hfsize])
      have hbefore := hpart (bwd.minus fwd) (by simp [hbsize])
      exact IsBlocks.append_parts (.ite hself) (.ite hrest) (.ite hafter) (.ite hbefore) htsub
        (fun i hi => htsub i (hfsub i hi)) fun i hi => htsub i (hbsub i hi)

/-- The blocks of a decomposition are blocks of the decomposed set. -/
theorem isBlocks_decompose (g : Graph) (set : StateSet) :
    IsBlocks set.size (fun i => set.contains i = true) (g.decompose set).blocks := by
  have h := isBlocks_components g .both set
  have hperm : ((g.decompose set).blocks).Perm (g.components .both set) := List.mergeSort_perm _ _
  refine ⟨fun b hb => h.size b (hperm.mem_iff.1 hb), fun b hb => h.sub b (hperm.mem_iff.1 hb),
    fun b hb => h.card b (hperm.mem_iff.1 hb), ?_⟩
  exact (hperm.pairwise_iff fun hst => hst.symm).2 h.disjoint

/-- The trivial states are those of the set that are in no block. -/
theorem contains_trivial (g : Graph) (set : StateSet) (i : Nat) :
    (g.decompose set).trivial.contains i = true ↔
      set.contains i = true ∧ ∀ b ∈ (g.decompose set).blocks, b.contains i = false := by
  show ((g.decompose set).blocks.foldl StateSet.minus set).contains i = true ↔ _
  generalize (g.decompose set).blocks = blocks
  induction blocks generalizing set with
  | nil => simp
  | cons b blocks ih => simp [ih, StateSet.contains_minus, and_assoc]

/-- The trivial states are in the state space of the set. -/
theorem size_trivial (g : Graph) (set : StateSet) : (g.decompose set).trivial.size = set.size := by
  show ((g.decompose set).blocks.foldl StateSet.minus set).size = _
  generalize (g.decompose set).blocks = blocks
  induction blocks generalizing set with
  | nil => rfl
  | cons b blocks ih => rw [List.foldl_cons, ih, StateSet.size_minus]

/-- **A block is smaller than the set** unless it is the only block and the whole set. -/
theorem card_lt_of_blocks_ne (g : Graph) {set whole : StateSet} (hsize : set.size = whole.size)
    (hsub : ∀ i, set.contains i = true → whole.contains i = true)
    (hne : (g.decompose set).blocks ≠ [whole]) {b : StateSet}
    (hb : b ∈ (g.decompose set).blocks) : b.card < whole.card := by
  have h := isBlocks_decompose g set
  by_contra hge
  have hbsize : b.size = whole.size := (h.size b hb).trans hsize
  have hbwhole : b = whole :=
    StateSet.eq_of_card_le hbsize (fun i hi => hsub i (h.sub b hb i hi)) (not_lt.1 hge)
  subst hbwhole
  -- Any other block would be disjoint from the whole set and still a part of it.
  have hall : ∀ c ∈ (g.decompose set).blocks, c = b := by
    intro c hc
    by_contra hcb
    obtain ⟨i, hi⟩ := StateSet.exists_contains_of_card_pos (zero_lt_one.trans (h.card c hc))
    have hbi := hsub i (h.sub c hc i hi)
    have hcb' := h.disjoint.forall hc hb hcb i hi
    rw [hbi] at hcb'
    exact absurd hcb' (by simp)
  have hnodup : (g.decompose set).blocks.Nodup := h.nodup
  refine hne ?_
  match hblocks : (g.decompose set).blocks, hb, hall, hnodup with
  | [c], _, hall, _ => rw [hall c (by simp)]
  | c :: d :: rest, _, hall, hnodup =>
    have hcd : c = d := (hall c (by simp)).trans (hall d (by simp)).symm
    rw [hcd] at hnodup
    simp at hnodup

/-- The blocks of what is left of a component without its entry states are smaller than the
component: the measure of the recursion over nested components. -/
theorem card_lt_of_blocks_minus_ne (g : Graph) {component entry : StateSet}
    (hne : (g.decompose (component.minus entry)).blocks ≠ [component]) {b : StateSet}
    (hb : b ∈ (g.decompose (component.minus entry)).blocks) : b.card < component.card := by
  refine g.card_lt_of_blocks_ne (StateSet.size_minus _ _) (fun i hi => ?_) hne hb
  rw [StateSet.contains_minus, Bool.and_eq_true_iff] at hi
  exact hi.1

end Graph

end MarkovElimination
