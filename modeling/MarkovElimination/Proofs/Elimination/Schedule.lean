import MarkovElimination.Proofs.Elimination.Strategy

/-! # Schedules of eliminations

Both methods come down to a list of eliminations: a problem **follows** an order if eliminating the
listed states one after the other gives it (`Problem.Follows`). A **schedule** of the hybrid method
consists of the states that are eliminated now and of those that are left for the end. It lists
every state once and keeps the entry states of a treated component behind its other states
(`HybridPlan.Schedule`). Schedules are put together in the way the hybrid method puts together its
work: one after the other, and with the entry states of a component at the end. -/

namespace MarkovElimination

namespace Problem

variable {α : Type} [Weight α]

/-- Eliminates the listed states one after the other. -/
def eliminateEach (p : Problem α) (states : List Nat) : Except Fault (Problem α) :=
  states.foldlM (fun p s => p.eliminate s true none) p

omit [Weight α] in
/-- The problem with another note about the nesting of components. -/
def atDepth (p : Problem α) (depth : Nat) : Problem α := { p with depth := depth }

/-- Eliminations do not look at the nesting of components. -/
theorem eliminate_atDepth (p : Problem α) (depth s : Nat) (drop : Bool)
    (constraint : Option StateSet) : (p.atDepth depth).eliminate s drop constraint =
      (p.eliminate s drop constraint).map fun q => q.atDepth depth := by
  have hplan : (p.atDepth depth).redirection s drop constraint = p.redirection s drop constraint :=
    rfl
  have hfault (r : Redirection α) : (p.atDepth depth).redirectFault? r = p.redirectFault? r := rfl
  have hnext (r : Redirection α) : (p.atDepth depth).redirect r = (p.redirect r).atDepth depth :=
    rfl
  have hsorted (r : Redirection α) :
      ((p.redirect r).atDepth depth).writtenSorted r = (p.redirect r).writtenSorted r := rfl
  rw [eliminate, eliminate, hplan]
  cases p.redirection s drop constraint with
  | error f => rfl
  | ok r =>
    simp only [bind, Except.bind, hfault, hnext, hsorted]
    cases p.redirectFault? r with
    | some f => rfl
    | none =>
      simp only
      split <;> rfl

/-- **Following an order**: eliminating the listed states one after the other leads from one problem
to the other, up to the note about the nesting of components. -/
def Follows (p : Problem α) (order : List Nat) (q : Problem α) : Prop :=
  (p.atDepth 0).eliminateEach order = .ok (q.atDepth 0)

/-- Nothing is eliminated. -/
theorem Follows.nil (p : Problem α) : p.Follows [] p := rfl

/-- One elimination. -/
theorem Follows.single {p q : Problem α} {s : Nat} (h : p.eliminate s true none = .ok q) :
    p.Follows [s] q := by
  rw [Follows, eliminateEach, List.foldlM_cons, eliminate_atDepth, h]
  rfl

/-- One order after the other. -/
theorem Follows.trans {p q r : Problem α} {order next : List Nat} (h : p.Follows order q)
    (h' : q.Follows next r) : p.Follows (order ++ next) r := by
  rw [Follows, eliminateEach, List.foldlM_append]
  rw [Follows, eliminateEach] at h
  rw [h]
  exact h'

/-- An elimination is noted. -/
theorem history_eliminate {p q : Problem α} {s : Nat} {drop : Bool} {constraint : Option StateSet}
    (h : p.eliminate s drop constraint = .ok q) : q.history = s :: p.history := by
  obtain ⟨r, hr, rfl⟩ := eliminate_eq_ok h
  show r.state :: p.history = _
  rw [(isPlan_of_redirection hr).state_eq]

/-- The eliminated states are noted, the latest first. -/
theorem history_eliminateEach {p q : Problem α} {order : List Nat}
    (h : p.eliminateEach order = .ok q) : q.history = order.reverse ++ p.history := by
  induction order generalizing p with
  | nil =>
    cases h
    rfl
  | cons s order ih =>
    rw [eliminateEach, List.foldlM_cons] at h
    cases hs : p.eliminate s true none with
    | error f =>
      rw [hs] at h
      cases h
    | ok p' =>
      rw [hs] at h
      rw [ih h, List.reverse_cons, List.append_assoc, history_eliminate hs]
      rfl

/-- The eliminated states are noted, the latest first. -/
theorem Follows.history {p q : Problem α} {order : List Nat} (h : p.Follows order q) :
    q.history = order.reverse ++ p.history :=
  history_eliminateEach (p := p.atDepth 0) (q := q.atDepth 0) h

end Problem

/-! ### Lists of the states of a set -/

/-- A sorted set lists its members. -/
theorem perm_sortByRanking {ranking : List Nat} {n : Nat} (h : ranking.Perm (List.range n))
    {set : StateSet} (hset : set.size = n) : (sortByRanking ranking set).Perm set.toList := by
  rw [sortByRanking, StateSet.toList, hset]
  exact h.filter _

/-- A set consists of a subset and the rest. -/
theorem StateSet.perm_minus_append {s t : StateSet}
    (h : ∀ i, t.contains i = true → s.contains i = true) :
    ((s.minus t).toList ++ t.toList).Perm s.toList := by
  refine (List.perm_ext_iff_of_nodup ?_ s.nodup_toList).2 fun i => ?_
  · refine List.nodup_append'.2 ⟨nodup_toList _, nodup_toList _, fun i hi ht => ?_⟩
    rw [mem_toList, contains_minus, mem_toList.1 ht] at hi
    simp at hi
  · rw [List.mem_append, mem_toList, mem_toList, mem_toList, contains_minus]
    constructor
    · rintro (hi | hi)
      · exact (Bool.and_eq_true_iff.1 hi).1
      · exact h i hi
    · intro hi
      cases ht : t.contains i with
      | true => exact .inr rfl
      | false => exact .inl (by rw [hi]; rfl)

/-- **A decomposition lists every state of the set once**, first the trivial ones and then block by
block. -/
theorem Graph.perm_decompose (g : Graph) (set : StateSet) :
    ((g.decompose set).trivial.toList ++ (g.decompose set).blocks.flatMap StateSet.toList).Perm
      set.toList := by
  have hblocks := g.isBlocks_decompose set
  have hmem (i : Nat) : i ∈ (g.decompose set).blocks.flatMap StateSet.toList ↔
      ∃ b ∈ (g.decompose set).blocks, b.contains i = true := by
    simp
  refine (List.perm_ext_iff_of_nodup ?_ set.nodup_toList).2 fun i => ?_
  · refine List.nodup_append'.2 ⟨StateSet.nodup_toList _, ?_, fun i hi hb => ?_⟩
    · refine List.nodup_flatMap.2 ⟨fun b _ => b.nodup_toList, ?_⟩
      refine hblocks.disjoint.imp fun hbc i hi hj => ?_
      have := hbc i (StateSet.mem_toList.1 hi)
      rw [StateSet.mem_toList.1 hj] at this
      simp at this
    · obtain ⟨b, hb, hi'⟩ := (hmem i).1 hb
      rw [StateSet.mem_toList, g.contains_trivial set i] at hi
      rw [hi.2 b hb] at hi'
      simp at hi'
  · rw [List.mem_append, StateSet.mem_toList, hmem, g.contains_trivial set i, StateSet.mem_toList]
    constructor
    · rintro (hi | ⟨b, hb, hi⟩)
      · exact hi.1
      · exact hblocks.sub b hb i hi
    · intro hi
      by_cases hb : ∃ b ∈ (g.decompose set).blocks, b.contains i = true
      · exact .inr hb
      · refine .inl ⟨hi, fun b hmem => ?_⟩
        by_contra hbi
        exact hb ⟨b, hmem, by simpa using hbi⟩

/-! ### Schedules -/

/-- A component whose treatment starts. -/
structure Treatment where
  component : StateSet
  entry : StateSet

namespace HybridPlan

variable {plan : HybridPlan}

/-- What may be eliminated of two lists one after the other. -/
@[simp] theorem unprotected_append (states next : List Nat) :
    plan.unprotected (states ++ next) = plan.unprotected states ++ plan.unprotected next :=
  List.filter_append ..

/-- Without protected states everything may be eliminated. -/
theorem unprotected_eq_self {states : List Nat}
    (h : ∀ i ∈ states, plan.protectedStates.contains i = false) :
    plan.unprotected states = states :=
  List.filter_eq_self.2 fun i hi => by simp [h i hi]

/-- The listed states that may be eliminated. -/
theorem mem_unprotected {states : List Nat} {i : Nat} : i ∈ plan.unprotected states ↔
    i ∈ states ∧ plan.protectedStates.contains i = false := by
  simp [unprotected]

/-- In an order of eliminations, the **entry states of a treated component come last**: every other
state of the component stands before every entry state that may be eliminated. -/
def EntryLast (plan : HybridPlan) (order : List Nat) (t : Treatment) : Prop :=
  ∀ i j, t.component.contains i = true → t.entry.contains i = false →
    t.entry.contains j = true → plan.protectedStates.contains j = false →
    List.Sublist [i, j] order

/-- **A schedule of the listed states**: some are eliminated now, some are left for the end. All of
them are listed once, and the entry states of treated components come last. -/
structure Schedule (plan : HybridPlan) (states now later : List Nat) (treated : List Treatment) :
    Prop where
  perm : (now ++ plan.unprotected later).Perm states
  entryLast : ∀ t ∈ treated, plan.EntryLast (now ++ plan.unprotected later) t

namespace Schedule

/-- States that are eliminated now. -/
theorem ofList {order states : List Nat} (h : order.Perm states) :
    plan.Schedule states order [] [] :=
  ⟨by simpa [unprotected] using h, by simp⟩

/-- States that are left for the end. -/
theorem ofQueue (states : List Nat) :
    plan.Schedule (plan.unprotected states) [] states [] :=
  ⟨.refl _, by simp⟩

/-- Other lists of the same states. -/
theorem congr {states states' now later : List Nat} {treated : List Treatment}
    (h : plan.Schedule states now later treated) (hperm : states.Perm states') :
    plan.Schedule states' now later treated :=
  ⟨h.perm.trans hperm, h.entryLast⟩

/-- One schedule after the other: what the second one eliminates comes before what the first one
leaves for the end. -/
theorem append {states states' now now' later later' : List Nat} {treated treated' : List Treatment}
    (h : plan.Schedule states now later treated) (h' : plan.Schedule states' now' later' treated') :
    plan.Schedule (states ++ states') (now ++ now') (later ++ later') (treated ++ treated') := by
  have hfirst : List.Sublist (now ++ plan.unprotected later)
      ((now ++ now') ++ plan.unprotected (later ++ later')) := by
    rw [unprotected_append]
    exact (List.sublist_append_left now now').append (List.sublist_append_left _ _)
  have hsecond : List.Sublist (now' ++ plan.unprotected later')
      ((now ++ now') ++ plan.unprotected (later ++ later')) := by
    rw [unprotected_append]
    exact (List.sublist_append_right now now').append (List.sublist_append_right _ _)
  constructor
  · refine .trans ?_ (h.perm.append h'.perm)
    rw [unprotected_append, List.append_assoc, List.append_assoc]
    refine .append_left now ?_
    rw [← List.append_assoc, ← List.append_assoc]
    exact .append_right _ List.perm_append_comm
  · intro t ht i j hi hie hj hprotected
    rcases List.mem_append.1 ht with ht | ht
    · exact (h.entryLast t ht i j hi hie hj hprotected).trans hfirst
    · exact (h'.entryLast t ht i j hi hie hj hprotected).trans hsecond

/-- **The entry states of a component behind its other states.** They are eliminated after them, if
none of those is left for the end, or left for the end themselves. -/
theorem finish {component entry : StateSet} {now later : List Nat} {treated : List Treatment}
    (h : plan.Schedule (component.minus entry).toList now later treated)
    (hentry : ∀ i, entry.contains i = true → component.contains i = true)
    (hinner : ∀ i, component.contains i = true → entry.contains i = false →
      plan.protectedStates.contains i = false)
    {now' later' : List Nat} (hnext : now' = plan.unprotected entry.toList ∧ later' = [] ∧
      later = [] ∨
      now' = [] ∧ later' = entry.toList) :
    plan.Schedule (plan.unprotected component.toList) (now ++ now') (later ++ later')
      (⟨component, entry⟩ :: treated) := by
  have hstates : ((component.minus entry).toList ++ plan.unprotected entry.toList).Perm
      (plan.unprotected component.toList) := by
    have hself : plan.unprotected (component.minus entry).toList =
        (component.minus entry).toList := by
      refine unprotected_eq_self fun i hi => ?_
      rw [StateSet.mem_toList, StateSet.contains_minus, Bool.and_eq_true_iff] at hi
      exact hinner i hi.1 (by simpa using hi.2)
    have hperm := (StateSet.perm_minus_append hentry).filter
      fun i => !plan.protectedStates.contains i
    rw [List.filter_append] at hperm
    rwa [← hself]
  have hlast : plan.Schedule (plan.unprotected entry.toList) now' later' [] := by
    rcases hnext with ⟨rfl, rfl, -⟩ | ⟨rfl, rfl⟩
    · exact .ofList (.refl _)
    · exact .ofQueue _
  -- Either way the order is that of the inner states, followed by the entry states.
  have horder : (now ++ now') ++ plan.unprotected (later ++ later') =
      (now ++ plan.unprotected later) ++ plan.unprotected entry.toList := by
    rcases hnext with ⟨rfl, rfl, rfl⟩ | ⟨rfl, rfl⟩
    · simp [unprotected]
    · simp
  have happend := (h.append hlast).congr hstates
  rw [List.append_nil] at happend
  refine ⟨happend.perm, List.forall_mem_cons.2 ⟨?_, happend.entryLast⟩⟩
  intro i j hi hie hj hprotected
  rw [horder]
  have hi' : i ∈ now ++ plan.unprotected later := by
    rw [h.perm.mem_iff, StateSet.mem_toList, StateSet.contains_minus, hi, hie]
    rfl
  have hj' : j ∈ plan.unprotected entry.toList :=
    mem_unprotected.2 ⟨StateSet.mem_toList.2 hj, hprotected⟩
  exact (List.singleton_sublist.2 hi').append (List.singleton_sublist.2 hj')

end Schedule

end HybridPlan

end MarkovElimination
