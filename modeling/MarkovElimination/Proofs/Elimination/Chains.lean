import Mathlib
import MarkovElimination.Checking.Conditional
import MarkovElimination.Proofs.Elimination.Consistency
import MarkovElimination.Proofs.Outcome

/-! # Chains between two sets

A chain leads from a state of one set to a state of another. Collapsing bypasses the states in
between, so that every chain behind a successor of the initial state has length one. What this does
to the transitions does not depend on their weights: bypassing a state is a `Shortcut`, which
removes the state from the rows of all states of its kind and adds no state that is not ahead of
them already. So every round that changes something leaves fewer states ahead, and the rounds end
(`Bypassable.runs_collapseBehind`). When they do, every successor of a collapsed state is in the
other set or has no proper successor (`Collapsed`).

The loops are the same for every invariant that bypassing keeps, so the invariant is a parameter
(`Bypassable`). -/

namespace MarkovElimination.Problem

variable {α : Type}

/-- A state whose chains are collapsed: its successors stop chains, or have no proper successor. -/
def Collapsed (stop : StateSet) (p : Problem α) (s : Nat) : Prop :=
  ∀ c ∈ (p.row s).columns, stop.contains c = true ∨ ∀ d ∈ (p.row c).columns, d = c

/-- The chains behind a state that is in one of two sets only are collapsed up to the other set. -/
structure Ready (event condition : StateSet) (p : Problem α) (s : Nat) : Prop where
  of_event : event.contains s = true → condition.contains s = false → Collapsed condition p s
  of_condition : event.contains s = false → condition.contains s = true → Collapsed event p s

/-- **The transitions after state `c` is bypassed**: the state is of the given kind and does not
stop a chain, it has a proper successor, and the states of its kind lead past it. -/
structure Shortcut (stop kind : StateSet) (c : Nat) (p p' : Problem α) : Prop where
  free : stop.contains c = false
  member : kind.contains c = true
  leaves : ∃ d ∈ (p.row c).columns, d ≠ c
  columns_self : ∀ d, d ∈ (p'.row c).columns ↔ d ∈ (p.row c).columns ∧ d ≠ c
  columns : ∀ i, i ≠ c → kind.contains i = true → ∀ d, d ∈ (p'.row i).columns ↔
    d ≠ c ∧ (d ∈ (p.row i).columns ∨ c ∈ (p.row i).columns ∧ d ∈ (p.row c).columns)
  row_kept : ∀ i, i ≠ c → kind.contains i = false → p'.row i = p.row i

/-- The two ways in which chains lead: from the event to the condition, and back. -/
def Sides (event condition stop kind : StateSet) : Prop :=
  stop = condition ∧ kind = event ∨ stop = event ∧ kind = condition

/-- Any number of bypassed states. -/
def Shortcuts (stop kind : StateSet) : Problem α → Problem α → Prop :=
  Relation.ReflTransGen fun p p' => ∃ c, Shortcut stop kind c p p'

variable {stop kind halt event condition : StateSet} {p p' : Problem α} {c s : Nat}

/-! ### Two sets -/

namespace Sides

/-- A state of the two sets that does not stop a chain is of the kind of the chain. -/
theorem mem_kind (h : Sides event condition stop kind)
    (hc : event.contains c = true ∨ condition.contains c = true)
    (hstop : stop.contains c = false) : kind.contains c = true := by
  rcases h with ⟨rfl, rfl⟩ | ⟨rfl, rfl⟩
  · exact hc.resolve_right (by simp [hstop])
  · exact hc.resolve_left (by simp [hstop])

/-- States of a kind are states of the two sets. -/
theorem mem_sets (h : Sides event condition stop kind) (hkind : kind.contains c = true) :
    event.contains c = true ∨ condition.contains c = true := by
  rcases h with ⟨-, rfl⟩ | ⟨-, rfl⟩
  · exact .inl hkind
  · exact .inr hkind

/-- A kind is a set over as many states as the two sets. -/
theorem size_eq {n : Nat} (h : Sides event condition stop kind) (hevent : event.size = n)
    (hcondition : condition.size = n) : kind.size = n := by
  rcases h with ⟨-, rfl⟩ | ⟨-, rfl⟩
  · exact hevent
  · exact hcondition

end Sides

/-! ### One shortcut -/

namespace Shortcut

/-- A successor after the shortcut is a successor before it, or one of the bypassed state. -/
theorem mem_columns_of_mem (h : Shortcut stop kind c p p') {i d : Nat}
    (hd : d ∈ (p'.row i).columns) : d ∈ (p.row i).columns ∨
      kind.contains i = true ∧ c ∈ (p.row i).columns ∧ d ∈ (p.row c).columns := by
  by_cases hic : i = c
  · subst hic
    exact .inl ((h.columns_self d).1 hd).1
  · cases hkind : kind.contains i with
    | true => exact ((h.columns i hic hkind d).1 hd).2.imp_right fun hd => ⟨rfl, hd⟩
    | false => exact .inl (h.row_kept i hic hkind ▸ hd)

/-- The states of the kind no longer lead to the bypassed state. -/
theorem ne_of_mem (h : Shortcut stop kind c p p') {i d : Nat} (hi : kind.contains i = true)
    (hd : d ∈ (p'.row i).columns) : d ≠ c := by
  by_cases hic : i = c
  · subst hic
    exact ((h.columns_self d).1 hd).2
  · exact ((h.columns i hic hi d).1 hd).1

/-- The other successors of a state of the kind stay. -/
theorem mem_columns (h : Shortcut stop kind c p p') {i d : Nat} (hi : kind.contains i = true)
    (hd : d ∈ (p.row i).columns) (hdc : d ≠ c) : d ∈ (p'.row i).columns := by
  by_cases hic : i = c
  · subst hic
    exact (h.columns_self d).2 ⟨hd, hdc⟩
  · exact (h.columns i hic hi d).2 ⟨hdc, .inl hd⟩

/-- The row of a state of another kind stays as it is. -/
theorem row_eq (h : Shortcut stop kind c p p') (hs : kind.contains s = false) :
    p'.row s = p.row s := by
  refine h.row_kept s ?_ hs
  rintro rfl
  rw [h.member] at hs
  cases hs

/-- A state without a proper successor does not get one. -/
theorem dead (h : Shortcut stop kind c p p') {d : Nat}
    (hdead : ∀ e ∈ (p.row d).columns, e = d) : ∀ e ∈ (p'.row d).columns, e = d := by
  intro e he
  rcases h.mem_columns_of_mem he with hold | ⟨-, hcd, hold⟩
  · exact hdead e hold
  · rw [hdead c hcd] at hold
    exact hdead e hold

/-- Chains of one kind stay collapsed when states of the kind are bypassed. -/
theorem collapsed (h : Shortcut stop kind c p p') (hs : Collapsed stop p s) :
    Collapsed stop p' s := by
  intro e he
  rcases h.mem_columns_of_mem he with he | ⟨-, hc, -⟩
  · exact (hs e he).imp_right h.dead
  · -- A successor of a collapsed state is not bypassed.
    obtain ⟨d, hd, hdc⟩ := h.leaves
    rcases hs c hc with hstop | hdead
    · rw [h.free] at hstop
      cases hstop
    · exact absurd (hdead d hd) hdc

/-- Chains of one kind stay collapsed when states of the other kind are bypassed. -/
theorem collapsed_other (h : Shortcut stop kind c p p') (hkind : kind.contains s = false)
    (hs : Collapsed halt p s) : Collapsed halt p' s := by
  intro e he
  rw [h.row_eq hkind] at he
  exact (hs e he).imp_right h.dead

end Shortcut

/-! ### Many shortcuts -/

/-- The row of a state of another kind stays as it is. -/
theorem Shortcuts.row_eq (h : Shortcuts stop kind p p') (hs : kind.contains s = false) :
    p'.row s = p.row s := by
  induction h with
  | refl => rfl
  | tail _ h ih =>
    obtain ⟨c, h⟩ := h
    rw [h.row_eq hs, ih]

/-- The two sets play the same part. -/
theorem Ready.symm (h : Ready event condition p s) : Ready condition event p s :=
  ⟨fun hc he => h.of_condition he hc, fun hc he => h.of_event he hc⟩

/-- What is collapsed stays collapsed. -/
theorem Ready.of_shortcuts (h : Ready event condition p s)
    (hcuts : Shortcuts condition event p p') : Ready event condition p' s := by
  induction hcuts with
  | refl => exact h
  | tail _ hcut ih =>
    obtain ⟨c, hcut⟩ := hcut
    exact ⟨fun he hc => hcut.collapsed (ih.of_event he hc),
      fun he hc => hcut.collapsed_other he (ih.of_condition he hc)⟩

/-! ### The states ahead -/

/-- The states that are ahead of the states of a kind are among those of `T`. -/
def Ahead (kind : StateSet) (T : Finset Nat) (p : Problem α) : Prop :=
  ∀ i, kind.contains i = true → ∀ c ∈ (p.row i).columns, c ∈ T

/-- In a consistent problem all states together are enough. -/
theorem Consistent.ahead (hp : p.Consistent) (kind : StateSet) :
    Ahead kind (Finset.range p.size) p :=
  fun i _ c hc => Finset.mem_range.2 (hp.column_lt i c hc)

/-- **A state that is bypassed is never ahead again.** -/
theorem Shortcut.ahead (h : Shortcut stop kind c p p') {T : Finset Nat} (hT : Ahead kind T p) :
    Ahead kind (T.erase c) p' := by
  intro i hi d hd
  refine Finset.mem_erase.2 ⟨h.ne_of_mem hi hd, ?_⟩
  rcases h.mem_columns_of_mem hd with hd | ⟨-, -, hd⟩
  · exact hT i hi d hd
  · exact hT c h.member d hd

variable [Weight α]

/-- **An elimination for the predecessors of a kind is a shortcut**, if the state is of that kind,
does not stop a chain and has a proper successor. -/
theorem Shortcut.of_eliminate (hp : p.Consistent)
    (h : p.eliminate c false (some kind) = .ok p') (hfree : stop.contains c = false)
    (hmember : kind.contains c = true) (hleaves : ∃ d ∈ (p.row c).columns, d ≠ c) :
    Shortcut stop kind c p p' := by
  obtain ⟨r, hr, rfl⟩ := eliminate_eq_ok h
  have hplan := isPlan_of_redirection hr
  refine ⟨hfree, hmember, hleaves, fun d => ?_, fun i hic hi d => ?_, fun i hic hi => ?_⟩
  · simp [hplan.mem_columns_redirect hp]
  · exact hplan.mem_columns_redirect_of_allows hp hic (allows_some.2 hi)
  · exact hplan.row_redirect_of_not_allows hic (by simp [hi])

/-! ### The loops -/

/-- **An invariant under which chains can be collapsed**, with the faults that bypassing can meet: a
successor that does not stop a chain and has a proper successor is of the kind of the chain, and
bypassing such a state keeps the invariant. -/
structure Bypassable (E : Interruption → Prop) (stop kind : StateSet) (J : Problem α → Prop) :
    Prop where
  consistent : ∀ p, J p → p.Consistent
  member : ∀ p, J p → ∀ i, ∀ c ∈ (p.row i).columns, stop.contains c = false →
    (∃ d ∈ (p.row c).columns, d ≠ c) → kind.contains c = true
  runs : ∀ p c, J p → stop.contains c = false → kind.contains c = true →
    (∃ d ∈ (p.row c).columns, d ≠ c) → Runs E (fun p' => J p' ∧ Shortcut stop kind c p p')
      (p.eliminateMonitored c false (some kind))

namespace Bypassable

variable {E : Interruption → Prop} {J : Problem α → Prop} {T : Finset Nat}

/-- What holds within a round over the successors of `s`, of which those in `rest` are left. With
every state that is bypassed one state less is ahead. -/
structure Round (J : Problem α → Prop) (stop kind : StateSet) (T : Finset Nat) (p : Problem α)
    (s : Nat) (rest : List Nat) (q : Problem α) (changed : Bool) : Prop where
  invariant : J q
  shortcuts : Shortcuts stop kind p q
  rest_mem : ∀ c ∈ rest, c ∈ (q.row s).columns
  rest_nodup : rest.Nodup
  ahead : ∃ T', Ahead kind T' q ∧ T'.card + changed.toNat ≤ T.card
  same : changed = false → q = p ∧ ∀ c ∈ (p.row s).columns, c ∉ rest →
    stop.contains c = true ∨ ∀ d ∈ (p.row c).columns, d = c

/-- A round moves on to the next successor. -/
theorem runs_step (h : Bypassable E stop kind J) (hs : kind.contains s = true) {rest : List Nat}
    {q : Problem α} {changed : Bool} (hround : Round J stop kind T p s (c :: rest) q changed) :
    Runs E (fun result => Round J stop kind T p s rest result.1 result.2)
      (if !stop.contains c && (q.row c).hasOtherColumn c then do
        pure (← q.eliminateMonitored c false (some kind), true)
      else pure (q, changed) : Monitored (Problem α × Bool)) := by
  obtain ⟨hmem, hrest_mem⟩ := List.forall_mem_cons.1 hround.rest_mem
  obtain ⟨hnotin, hnodup⟩ := List.nodup_cons.1 hround.rest_nodup
  obtain ⟨T', hahead, hcard⟩ := hround.ahead
  by_cases hcond : (!stop.contains c && (q.row c).hasOtherColumn c) = true
  · -- The successor is bypassed.
    rw [if_pos hcond]
    rw [Bool.and_eq_true, Bool.not_eq_true', Row.hasOtherColumn_iff] at hcond
    have hkind := h.member q hround.invariant s c hmem hcond.1 hcond.2
    refine (h.runs q c hround.invariant hcond.1 hkind hcond.2).bind fun q' hq' => .pure ?_
    obtain ⟨hJ, hcut⟩ := hq'
    exact {
      invariant := hJ
      shortcuts := hround.shortcuts.tail ⟨c, hcut⟩
      rest_mem := fun d hd =>
        hcut.mem_columns hs (hrest_mem d hd) fun hdc => hnotin (hdc ▸ hd)
      rest_nodup := hnodup
      ahead := by
        have hpos := Finset.card_erase_add_one (hahead s hs c hmem)
        exact ⟨T'.erase c, hcut.ahead hahead, by rw [Bool.toNat_true]; omega⟩
      same := fun hfalse => by cases hfalse }
  · -- The successor stops the chain, or ends it.
    rw [if_neg hcond]
    refine .pure ⟨hround.invariant, hround.shortcuts, hrest_mem, hnodup, ⟨T', hahead, hcard⟩,
      fun hfalse => ?_⟩
    obtain ⟨rfl, hdone⟩ := hround.same hfalse
    refine ⟨rfl, fun d hd hdrest => ?_⟩
    by_cases hdc : d = c
    · subst hdc
      rw [Bool.and_eq_true, not_and_or, Bool.not_eq_true', Row.hasOtherColumn_iff] at hcond
      rcases hcond with hstop | hdead
      · exact .inl (by simpa using hstop)
      · push Not at hdead
        exact .inr hdead
    · exact hdone d hd fun hmem => (List.mem_cons.1 hmem).elim hdc hdrest

/-- **One round**: a state is bypassed and fewer states are ahead, or the chains behind `s` are
collapsed. -/
theorem runs_bypass (h : Bypassable E stop kind J) (hJ : J p) (hs : kind.contains s = true)
    (hT : Ahead kind T p) :
    Runs E (fun result => Round J stop kind T p s [] result.1 result.2)
      (p.bypass stop kind (p.row s).columns) := by
  let R (rest : List Nat) (result : Problem α × Bool) : Prop :=
    Round J stop kind T p s rest result.1 result.2
  refine Runs.foldlM (J := R) (fun c rest result hround => h.runs_step hs hround) ?_
  exact ⟨hJ, .refl, fun c hc => hc, ((h.consistent p hJ).sorted s).nodup, ⟨T, hT, le_rfl⟩,
    fun _ => ⟨rfl, fun c hc hnot => absurd hc hnot⟩⟩

/-- **The rounds end**, since with each but the last one fewer states are ahead. -/
theorem runs_collapseBehind (h : Bypassable E stop kind J) (hJ : J p)
    (hs : kind.contains s = true) (hT : Ahead kind T p) {rounds : Nat} (hrounds : T.card < rounds) :
    Runs E (fun q => J q ∧ Shortcuts stop kind p q ∧ Collapsed stop q s)
      (collapseBehind stop kind s rounds p) := by
  induction rounds generalizing p T with
  | zero => omega
  | succ rounds ih =>
    unfold collapseBehind
    refine Monitored.runs_checkpoint.bind fun _ _ => ?_
    cases hother : (p.row s).hasOtherColumn s with
    | true =>
      refine (h.runs_bypass hJ hs hT).bind ?_
      rintro ⟨q, changed⟩ hround
      cases changed with
      | true =>
        obtain ⟨T', hahead, hcard⟩ := hround.ahead
        rw [Bool.toNat_true] at hcard
        refine (ih hround.invariant hahead (by omega)).mono ?_
        rintro q' ⟨hJ', hshortcuts, hcollapsed⟩
        exact ⟨hJ', hround.shortcuts.trans hshortcuts, hcollapsed⟩
      | false =>
        obtain ⟨heq, hdone⟩ := hround.same rfl
        simp only at heq
        subst heq
        exact .pure ⟨hJ, .refl, fun c hc => hdone c hc (by simp)⟩
    | false =>
      -- Without a proper successor there is nothing to collapse.
      have hdead : ∀ c ∈ (p.row s).columns, c = s := by
        by_contra hne
        push Not at hne
        rw [← Row.hasOtherColumn_iff, hother] at hne
        cases hne
      refine .pure ⟨hJ, .refl, fun c hc => .inr ?_⟩
      rw [hdead c hc]
      exact hdead

/-- A state without a proper successor has no chains to collapse. -/
theorem runs_collapseBehind_of_dead (hdead : ∀ c ∈ (p.row s).columns, c = s) (rounds : Nat) :
    Runs E (fun q => q = p) (collapseBehind stop kind s (rounds + 1) p) := by
  unfold collapseBehind
  refine Monitored.runs_checkpoint.bind fun _ _ => ?_
  have hother : (p.row s).hasOtherColumn s = false := by
    rw [← Bool.not_eq_true, Row.hasOtherColumn_iff]
    push Not
    exact hdead
  rw [hother]
  exact .pure rfl

/-- **Collapsing the chains behind one successor.** -/
theorem runs_collapseSuccessor (hevent : Bypassable E condition event J)
    (hcondition : Bypassable E event condition J) (hJ : J p) {i : Nat}
    (hs : s ∈ (p.row i).columns) :
    Runs E (fun q => J q ∧ Ready event condition q s ∧
        (Shortcuts condition event p q ∨ Shortcuts event condition p q))
      (p.collapseSuccessor event condition s) := by
  have hp := hevent.consistent p hJ
  have hcard : (Finset.range p.size).card < p.size + 1 := by simp
  unfold collapseSuccessor
  cases he : event.contains s with
  | true =>
    cases hc : condition.contains s with
    | true =>
      -- A state of both sets has no chains to collapse.
      exact .pure ⟨hJ, ⟨by simp [hc], by simp [he]⟩, .inl .refl⟩
    | false =>
      refine (hevent.runs_collapseBehind hJ he (hp.ahead event) hcard).mono ?_
      rintro q ⟨hJ', hcuts, hcollapsed⟩
      exact ⟨hJ', ⟨fun _ _ => hcollapsed, by simp [he]⟩, .inl hcuts⟩
  | false =>
    cases hc : condition.contains s with
    | true =>
      refine (hcondition.runs_collapseBehind hJ hc (hp.ahead condition) hcard).mono ?_
      rintro q ⟨hJ', hcuts, hcollapsed⟩
      exact ⟨hJ', ⟨by simp [he], fun _ _ => hcollapsed⟩, .inr hcuts⟩
    | false =>
      -- A state of neither set has no proper successor.
      have hdead : ∀ d ∈ (p.row s).columns, d = s := by
        by_contra hne
        push Not at hne
        have hmem := hcondition.member p hJ i s hs he hne
        rw [hc] at hmem
        cases hmem
      refine (runs_collapseBehind_of_dead hdead p.size).mono ?_
      rintro q rfl
      exact ⟨hJ, ⟨by simp [he], by simp [hc]⟩, .inl .refl⟩

/-- **Collapsing all chains** behind the successors of a state of neither set. -/
theorem runs_collapseChains (hevent : Bypassable E condition event J)
    (hcondition : Bypassable E event condition J) (hJ : J p) (he : event.contains s = false)
    (hc : condition.contains s = false) :
    Runs E (fun q => J q ∧ q.row s = p.row s ∧
      ∀ d ∈ (p.row s).columns, Ready event condition q d)
      (p.collapseChains event condition s) := by
  let K (done : List Nat) (q : Problem α) : Prop :=
    J q ∧ q.row s = p.row s ∧ ∀ d ∈ done, Ready event condition q d
  refine Runs.foldlM_done (J := K) (fun done d rest q hsplit hq => ?_) ⟨hJ, rfl, by simp⟩
  obtain ⟨hJ', hrow, hready⟩ := hq
  have hd : d ∈ (q.row s).columns := by
    rw [hrow, hsplit]
    simp
  refine (runs_collapseSuccessor hevent hcondition hJ' hd).mono ?_
  rintro q' ⟨hJ'', hready', hcuts⟩
  refine ⟨hJ'', ?_, fun e hmem => ?_⟩
  · rw [← hrow]
    exact hcuts.elim (·.row_eq he) (·.row_eq hc)
  · -- What was collapsed before stays so while the next chains are collapsed.
    rcases List.mem_append.1 hmem with hmem | hmem
    · exact hcuts.elim (hready e hmem).of_shortcuts
        fun hcuts => ((hready e hmem).symm.of_shortcuts hcuts).symm
    · rw [List.mem_singleton.1 hmem]
      exact hready'

end Bypassable

end MarkovElimination.Problem
