import MarkovElimination.Elimination.WorkStack
import MarkovElimination.Proofs.Elimination.Schedule

/-! # The hybrid method eliminates every state once

The stack of work and the recursion on components do the same: from an item on top of the stack, the
steps lead to the stack below it and to the result of the recursion (`runs_treat_steps`). So the
steps come to an end. On the way every state that is not protected is eliminated exactly once, and
for each treated component the entry states come last (`run_eliminates_each_once`). A step can only
fail because a single elimination does. -/

namespace MarkovElimination

namespace HybridPlan

variable {α : Type} [Weight α]

omit [Weight α] in
/-- The component whose treatment starts with the next step, if one does. -/
def treatment (s : WorkState α) : List Treatment :=
  match s.stack with
  | .treat component entry _ _ :: _ => [⟨component, entry⟩]
  | _ => []

/-- **Steps one after the other**, with the components whose treatment starts on the way. -/
inductive Steps (plan : HybridPlan) : WorkState α → List Treatment → WorkState α →
    Prop where
  | refl (s : WorkState α) : Steps plan s [] s
  | head {s s' t : WorkState α} {treated : List Treatment} : plan.step s = .ok (.inr s') →
      Steps plan s' treated t → Steps plan s (treatment s ++ treated) t

/-- A step that eliminates a state fails, after some other steps. -/
def Fails (plan : HybridPlan) (s : WorkState α) (f : Fault) : Prop :=
  ∃ treated t i states rest, plan.Steps s treated t ∧
    t.stack = .eliminate (i :: states) :: rest ∧
    t.problem.eliminate i true none = .error f

variable {plan : HybridPlan} {s t u : WorkState α}

/-- One step. -/
theorem Steps.single (h : plan.step s = .ok (.inr t)) : plan.Steps s (treatment s) t := by
  simpa using Steps.head h (.refl t)

/-- Some steps after others. -/
theorem Steps.trans {treated next : List Treatment} (h : plan.Steps s treated t)
    (h' : plan.Steps t next u) : plan.Steps s (treated ++ next) u := by
  induction h with
  | refl s => exact h'
  | head hstep _ ih =>
    rw [List.append_assoc]
    exact .head hstep (ih h')

/-- A failure after some steps. -/
theorem Fails.of_steps {treated : List Treatment} {f : Fault} (h : plan.Steps s treated t)
    (hf : plan.Fails t f) : plan.Fails s f := by
  obtain ⟨next, u, i, states, rest, hsteps, hstack, herror⟩ := hf
  exact ⟨_, u, i, states, rest, h.trans hsteps, hstack, herror⟩

/-- A run that starts after some steps fails where the whole run fails. -/
theorem runs_of_steps {k : Option Nat} {β : Type} {Q : β → Prop} {x : Monitored β}
    {treated : List Treatment} (h : plan.Steps s treated t)
    (hx : Runs (Interruption.Allowed k (plan.Fails t)) Q x k) :
    Runs (Interruption.Allowed k (plan.Fails s)) Q x k := by
  refine hx.weaken fun e he => ?_
  cases e with
  | cancelled => exact he
  | fault f => exact Fails.of_steps h he

/-! ### The items of work -/

variable {k : Option Nat} {p : Problem α} {queue : List Nat} {rest : List Work} {flushed : Bool}

/-- **Listed states** are eliminated in as many steps, and then their item is gone. -/
theorem runs_eliminateList_steps (states : List Nat) :
    Runs (Interruption.Allowed k (plan.Fails
      ⟨⟨p, queue⟩, .eliminate states :: rest, flushed⟩))
      (fun q => plan.Steps ⟨⟨p, queue⟩, .eliminate states :: rest, flushed⟩ []
        ⟨⟨q, queue⟩, rest, flushed⟩ ∧ p.Follows states q) (p.eliminateList states) k := by
  induction states generalizing p with
  | nil => exact .pure ⟨.single rfl, .nil p⟩
  | cons i states ih =>
    have hone : Runs (Interruption.Allowed k
        (plan.Fails ⟨⟨p, queue⟩, .eliminate (i :: states) :: rest, flushed⟩))
        (fun q => p.eliminate i true none = .ok q)
        (do Monitored.checkpoint; p.eliminateMonitored i true none) k := by
      refine (Monitored.runs_checkpoint_of id).bind fun _ _ => ?_
      refine .bind (Monitored.runs_ofFault_of ?_) fun q hq => Monitored.runs_tick.bind fun _ _ =>
        .pure hq
      cases h : p.eliminate i true none with
      | ok q => exact rfl
      | error f => exact ⟨[], _, i, states, rest, .refl _, rfl, h⟩
    rw [Problem.eliminateList, List.foldlM_cons]
    refine hone.bind fun q hq => ?_
    have hstep : plan.Steps ⟨⟨p, queue⟩, .eliminate (i :: states) :: rest, flushed⟩ []
        ⟨⟨q, queue⟩, .eliminate states :: rest, flushed⟩ := by
      refine .single ?_
      rw [step]
      simp only [hq]
      rfl
    refine (runs_of_steps hstep ih).mono fun q' hq' => ⟨hstep.trans hq'.1, ?_⟩
    exact (Problem.Follows.single hq).trans hq'.2

/-! ### Components -/

/-- **Work on the listed states is carried out**: the steps lead to the rest of the stack, and the
eliminations on the way follow a schedule of the states. -/
structure CarriedOut (plan : HybridPlan) (s : WorkState α) (states : List Nat) (rest : List Work)
    (now later : List Nat) (treated : List Treatment) (h : HybridState α) : Prop where
  steps : plan.Steps s treated ⟨h, rest, s.flushed⟩
  queue_eq : h.queue = s.queue ++ later
  follows : s.problem.Follows now h.problem
  schedule : plan.Schedule states now later treated

/-- One piece of work after another. -/
theorem CarriedOut.trans {states states' now now' later later' : List Nat} {mid : List Work}
    {treated treated' : List Treatment} {h h' : HybridState α}
    (hfirst : plan.CarriedOut s states mid now later treated h)
    (hsecond : plan.CarriedOut ⟨h, mid, s.flushed⟩ states' rest now' later' treated' h') :
    plan.CarriedOut s (states ++ states') rest (now ++ now') (later ++ later') (treated ++ treated')
      h' where
  steps := hfirst.steps.trans hsecond.steps
  queue_eq := by rw [hsecond.queue_eq, hfirst.queue_eq, List.append_assoc]
  follows := hfirst.follows.trans hsecond.follows
  schedule := hfirst.schedule.append hsecond.schedule

/-- Listed states that are all eliminated now. -/
theorem runs_eliminateList_carriedOut {order states : List Nat} (hperm : order.Perm states)
    (h : HybridState α) :
    Runs (Interruption.Allowed k (plan.Fails ⟨h, .eliminate order :: rest, flushed⟩))
      (fun h' => plan.CarriedOut ⟨h, .eliminate order :: rest, flushed⟩ states rest order
        [] [] h')
      (HybridPlan.eliminateList h order) k := by
  refine (runs_eliminateList_steps order).bind fun q hq => .pure ?_
  exact ⟨hq.1, (List.append_nil _).symm, hq.2, .ofList hperm⟩

/-- A component that can be treated: its entry states are states of it, none of the others is
protected, and if its entry states are eliminated then so are those of all inner components. -/
structure Treatable (plan : HybridPlan) (n : Nat) (component entry : StateSet)
    (eliminateEntry : Bool) : Prop where
  size_eq : component.size = n
  entry_sub : ∀ i, entry.contains i = true → component.contains i = true
  kept : ∀ i, component.contains i = true → entry.contains i = false →
    plan.protectedStates.contains i = false
  flag : eliminateEntry = true → plan.entryStatesLast = false

/-- The inner states of a component may be eliminated. -/
theorem Treatable.inner {n : Nat} {component entry : StateSet} {eliminateEntry : Bool}
    (ht : plan.Treatable n component entry eliminateEntry) {i : Nat}
    (hi : (component.minus entry).contains i = true) : plan.protectedStates.contains i = false := by
  rw [StateSet.contains_minus, Bool.and_eq_true_iff] at hi
  exact ht.kept i hi.1 (by simpa using hi.2)

/-- What treating a component comes to: the work on it is carried out, and unless entry states come
last, nothing but its own entry states is left for the end. -/
def TreatedBy (plan : HybridPlan) (s : WorkState α) (component entry : StateSet)
    (eliminateEntry : Bool) (rest : List Work) (h : HybridState α) : Prop :=
  ∃ now later treated,
    plan.CarriedOut s (plan.unprotected component.toList) rest now later treated h ∧
      (plan.entryStatesLast = false → later = if eliminateEntry then [] else entry.toList)

/-- The work on the inner states of a component is carried out, and unless entry states come last,
nothing is left for the end. -/
def InnerDone (plan : HybridPlan) (s : WorkState α) (inner : StateSet) (rest : List Work)
    (h : HybridState α) : Prop :=
  ∃ now later treated, plan.CarriedOut s inner.toList rest now later treated h ∧
    (plan.entryStatesLast = false → later = [])

/-- **The entry states of a component** follow its inner states. -/
theorem InnerDone.runs_finish {n level : Nat} {component entry : StateSet} {eliminateEntry : Bool}
    {h : HybridState α} (ht : plan.Treatable n component entry eliminateEntry)
    (hdone : plan.InnerDone ⟨⟨p.recordDepth level, queue⟩,
        plan.expand component entry level ++ .finish entry eliminateEntry :: rest, flushed⟩
      (component.minus entry) (.finish entry eliminateEntry :: rest) h) :
    Runs (Interruption.Allowed k (plan.Fails
        ⟨⟨p, queue⟩, .treat component entry eliminateEntry level :: rest, flushed⟩))
      (plan.TreatedBy ⟨⟨p, queue⟩, .treat component entry eliminateEntry level :: rest,
        flushed⟩ component entry eliminateEntry rest) (plan.finish entry eliminateEntry h) k := by
  obtain ⟨now, later, treated, hinner, hlater⟩ := hdone
  have hfirst : plan.Steps
      ⟨⟨p, queue⟩, .treat component entry eliminateEntry level :: rest, flushed⟩
      (⟨component, entry⟩ :: treated) ⟨h, .finish entry eliminateEntry :: rest, flushed⟩ :=
    .head rfl hinner.steps
  have hfollows : p.Follows now h.problem := hinner.follows
  rw [finish]
  cases eliminateEntry with
  | true =>
    -- The entry states are eliminated now; nothing is left for the end.
    have hnone : later = [] := hlater (ht.flag rfl)
    have hstep : plan.Steps ⟨h, .finish entry true :: rest, flushed⟩ []
        ⟨h, .eliminate (plan.unprotected entry.toList) :: rest, flushed⟩ := .single rfl
    refine (runs_of_steps (hfirst.trans hstep)
      (runs_eliminateList_carriedOut (.refl _) h)).mono fun h' hh' => ?_
    have hsteps := (hfirst.trans hstep).trans hh'.steps
    rw [List.append_nil, List.append_nil] at hsteps
    refine ⟨now ++ plan.unprotected entry.toList, later ++ [], ⟨component, entry⟩ :: treated,
      ⟨hsteps, ?_, hfollows.trans hh'.follows, ?_⟩, ?_⟩
    · rw [hh'.queue_eq, List.append_nil, hinner.queue_eq, List.append_nil]
    · exact hinner.schedule.finish ht.entry_sub ht.kept (.inl ⟨rfl, rfl, hnone⟩)
    · simp [hnone]
  | false =>
    -- The entry states are left for the end.
    have hsteps := hfirst.trans (.single (s := ⟨h, .finish entry false :: rest, flushed⟩)
      (t := ⟨⟨h.problem, h.queue ++ entry.toList⟩, rest, flushed⟩) rfl)
    rw [show treatment (⟨h, .finish entry false :: rest, flushed⟩ : WorkState α) = [] from rfl,
      List.append_nil] at hsteps
    refine .pure ⟨now ++ [], later ++ entry.toList, ⟨component, entry⟩ :: treated,
      ⟨hsteps, ?_, ?_, ?_⟩, fun hlast => ?_⟩
    · rw [hinner.queue_eq, List.append_assoc]
    · rw [List.append_nil]
      exact hfollows
    · exact hinner.schedule.finish ht.entry_sub ht.kept (.inr ⟨rfl, rfl⟩)
    · rw [hlater hlast]
      rfl

/-- **A block of a decomposition** is treated with the entry states that it has when its turn
comes. -/
theorem runs_block {n level : Nat} {component block : StateSet} {h : HybridState α}
    (hlt : block.card < component.card)
    (ih : ∀ entry (p : Problem α) queue rest,
      plan.Treatable n block entry (!plan.entryStatesLast) →
      Runs (Interruption.Allowed k (plan.Fails
          ⟨⟨p, queue⟩, .treat block entry (!plan.entryStatesLast) level :: rest, flushed⟩))
        (plan.TreatedBy ⟨⟨p, queue⟩, .treat block entry (!plan.entryStatesLast) level :: rest,
          flushed⟩ block entry (!plan.entryStatesLast) rest)
        (plan.treat block entry (!plan.entryStatesLast) level ⟨p, queue⟩) k)
    (hsize : block.size = n)
    (hkept : ∀ i, block.contains i = true → plan.protectedStates.contains i = false) :
    Runs (Interruption.Allowed k (plan.Fails ⟨h, .block block level :: rest, flushed⟩))
      (plan.InnerDone ⟨h, .block block level :: rest, flushed⟩ block rest)
      (if block.card < component.card then
        plan.treat block (h.problem.entryStates block) (!plan.entryStatesLast) level h
      else throw (.fault .stalled)) k := by
  rw [if_pos hlt]
  have hstep : plan.Steps ⟨h, .block block level :: rest, flushed⟩ []
      ⟨h, .treat block (h.problem.entryStates block) (!plan.entryStatesLast) level :: rest,
        flushed⟩ := .single rfl
  have ht : plan.Treatable n block (h.problem.entryStates block) (!plan.entryStatesLast) :=
    ⟨hsize, fun i hi => contains_entryStates hi, fun i hi _ => hkept i hi, by simp⟩
  refine (runs_of_steps hstep (ih _ h.problem h.queue rest ht)).mono ?_
  rintro h' ⟨now, later, treated, hdone, hlater⟩
  have hself : plan.unprotected block.toList = block.toList :=
    unprotected_eq_self fun i hi => hkept i (StateSet.mem_toList.1 hi)
  refine ⟨now, later, treated, ⟨hstep.trans hdone.steps, hdone.queue_eq, hdone.follows, ?_⟩,
    ?_⟩
  · exact hself ▸ hdone.schedule
  · intro hlast
    simpa [hlast] using hlater hlast

/-- **Blocks one after the other**: the work on them is carried out after what is done already. -/
theorem runs_blocks {level : Nat} {f : HybridState α → StateSet → Monitored (HybridState α)}
    {blocks : List StateSet} {states now later : List Nat} {treated : List Treatment}
    {h : HybridState α} (hblock : ∀ b ∈ blocks, ∀ h rest,
      Runs (Interruption.Allowed k (plan.Fails ⟨h, .block b level :: rest, s.flushed⟩))
        (plan.InnerDone ⟨h, .block b level :: rest, s.flushed⟩ b rest) (f h b) k)
    (hdone : plan.CarriedOut s states (blocks.map (.block · level) ++ rest) now later treated h)
    (hlater : plan.entryStatesLast = false → later = []) :
    Runs (Interruption.Allowed k (plan.Fails s))
      (fun h' => ∃ now later treated,
        plan.CarriedOut s (states ++ blocks.flatMap StateSet.toList) rest now later treated h' ∧
          (plan.entryStatesLast = false → later = [])) (blocks.foldlM f h) k := by
  induction blocks generalizing states now later treated h with
  | nil =>
    refine .pure ⟨now, later, treated, ?_, hlater⟩
    rwa [List.flatMap_nil, List.append_nil]
  | cons b blocks ih =>
    rw [List.foldlM_cons]
    refine (runs_of_steps hdone.steps (hblock b (by simp) h _)).bind ?_
    rintro h' ⟨now', later', treated', hb, hlater'⟩
    rw [List.flatMap_cons, ← List.append_assoc]
    refine ih (fun c hc => hblock c (List.mem_cons_of_mem _ hc)) (hdone.trans hb) fun hlast => ?_
    rw [hlater hlast, hlater' hlast, List.append_nil]

/-- **Treating a component**: the steps from its item on do what the recursion does. Inner
components are smaller, so the proof is by induction on the number of states. -/
theorem runs_treat_steps {n : Nat} (hranking : plan.ranking.Perm (List.range n))
    (component entry : StateSet) (eliminateEntry : Bool) (level : Nat) (p : Problem α)
    (queue : List Nat) (rest : List Work)
    (ht : plan.Treatable n component entry eliminateEntry) :
    Runs (Interruption.Allowed k (plan.Fails
        ⟨⟨p, queue⟩, .treat component entry eliminateEntry level :: rest, flushed⟩))
      (plan.TreatedBy ⟨⟨p, queue⟩, .treat component entry eliminateEntry level :: rest,
        flushed⟩ component entry eliminateEntry rest)
      (plan.treat component entry eliminateEntry level ⟨p, queue⟩) k := by
  induction hcard : component.card using Nat.strong_induction_on
    generalizing component entry eliminateEntry level p queue rest with
  | _ card ih =>
    have hsize : (component.minus entry).size = n := by rw [StateSet.size_minus, ht.size_eq]
    have hfirst : plan.Steps
        ⟨⟨p, queue⟩, .treat component entry eliminateEntry level :: rest, flushed⟩
        [⟨component, entry⟩] ⟨⟨p.recordDepth level, queue⟩,
          plan.expand component entry level ++ .finish entry eliminateEntry :: rest, flushed⟩ :=
      .single rfl
    -- A small component, and one that cannot be decomposed, is eliminated at once.
    have hall (hexpand : plan.expand component entry level =
        [.eliminate (sortByRanking plan.ranking (component.minus entry))]) :
        Runs (Interruption.Allowed k (plan.Fails
          ⟨⟨p, queue⟩, .treat component entry eliminateEntry level :: rest, flushed⟩))
        (plan.TreatedBy ⟨⟨p, queue⟩, .treat component entry eliminateEntry level :: rest,
          flushed⟩ component entry eliminateEntry rest)
        (HybridPlan.eliminateList ⟨p.recordDepth level, queue⟩
          (sortByRanking plan.ranking (component.minus entry)) >>=
          plan.finish entry eliminateEntry) k := by
      rw [hexpand] at hfirst
      refine (runs_of_steps hfirst (runs_eliminateList_carriedOut
        (perm_sortByRanking hranking hsize) _)).bind fun h hh => ?_
      refine InnerDone.runs_finish ht ?_
      rw [hexpand]
      exact ⟨_, _, _, hh, fun _ => rfl⟩
    rw [treat]
    simp only
    split
    · rename_i hlarge
      split
      · rename_i hwhole
        exact hall (by rw [expand]; simp only [if_pos hlarge, if_pos hwhole])
      · rename_i hblocks
        have hexpand : plan.expand component entry level =
            .eliminate (sortByRanking plan.ranking
              (plan.graph.decompose (component.minus entry)).trivial) ::
            (plan.graph.decompose (component.minus entry)).blocks.map (.block · (level + 1)) := by
          rw [expand]
          simp only [if_pos hlarge, if_neg hblocks]
        have hparts := Graph.isBlocks_decompose plan.graph (component.minus entry)
        have htrivial := perm_sortByRanking hranking
          ((Graph.size_trivial plan.graph (component.minus entry)).trans hsize)
        rw [hexpand] at hfirst
        refine (runs_of_steps hfirst (runs_eliminateList_carriedOut htrivial _)).bind fun h hh => ?_
        refine (runs_of_steps hfirst (runs_blocks (fun b hb h rest => ?_) hh fun _ => rfl)).bind ?_
        · have hlt : b.card < component.card :=
            Graph.card_lt_of_blocks_minus_ne plan.graph hblocks hb
          exact runs_block hlt
            (fun e q queue rest hb => ih b.card (hcard ▸ hlt) b e _ _ q queue rest hb rfl)
            ((hparts.size b hb).trans hsize) fun i hi => ht.inner (hparts.sub b hb i hi)
        · rintro h' ⟨now, later, treated, hdone, hlater⟩
          refine InnerDone.runs_finish ht ?_
          rw [hexpand]
          have hperm := Graph.perm_decompose plan.graph (component.minus entry)
          exact ⟨now, later, treated, ⟨hdone.steps, hdone.queue_eq, hdone.follows,
            hdone.schedule.congr hperm⟩, hlater⟩
    · rename_i hsmall
      exact hall (by rw [expand]; simp only [if_neg hsmall])

/-! ### The whole run -/

/-- **A complete run**: the steps end with a problem. They eliminate every state that is not
protected exactly once, and the entry states of treated components come last. -/
structure Completes (plan : HybridPlan) (p q : Problem α) (order : List Nat)
    (treated : List Treatment) : Prop where
  ends : ∃ s, plan.Steps (plan.start p) treated s ∧ plan.step s = .ok (.inl q)
  follows : p.Follows order q
  perm : order.Perm plan.protectedStates.complement.toList
  entryLast : ∀ t ∈ treated, plan.EntryLast order t

omit [Weight α] in
/-- The states that are not protected. -/
theorem perm_unprotected_full (plan : HybridPlan) {n : Nat} (h : plan.protectedStates.size = n) :
    (plan.unprotected (StateSet.full n).toList).Perm plan.protectedStates.complement.toList := by
  refine (List.perm_ext_iff_of_nodup ?_ (StateSet.nodup_toList _)).2 fun i => ?_
  · exact (StateSet.nodup_toList _).filter _
  · simp [mem_unprotected, StateSet.contains_complement, h]

omit [Weight α] in
/-- The whole state space can be treated, with the protected states as its entry states. -/
theorem treatable_full (plan : HybridPlan) {n : Nat} (hgraph : plan.graph.size = n)
    (hprotected : plan.protectedStates.size = n) :
    plan.Treatable n (.full plan.graph.size) plan.protectedStates false where
  size_eq := by rw [StateSet.size_full, hgraph]
  entry_sub i hi := by
    have := StateSet.lt_size_of_contains hi
    rw [StateSet.contains_full, decide_eq_true_eq]
    omega
  kept i _ hi := hi
  flag := by simp

/-- **The hybrid method completes** unless a single elimination fails, and what is left for the end
is scheduled then. -/
theorem runs_run_completes (hgraph : plan.graph.size = p.size)
    (hprotected : plan.protectedStates.size = p.size)
    (hranking : plan.ranking.Perm (List.range p.size)) :
    Runs (Interruption.Allowed k (plan.Fails (plan.start p)))
      (fun q => ∃ order treated, plan.Completes p q order treated) (plan.run p) k := by
  have ht := plan.treatable_full hgraph hprotected
  have hstates := plan.perm_unprotected_full (hprotected.trans hgraph.symm)
  rw [run]
  refine (runs_treat_steps hranking _ _ _ _ p [] [] ht).bind ?_
  rintro h ⟨now, later, treated, hdone, hlater⟩
  have hqueue : h.queue = later := hdone.queue_eq
  simp only
  split
  · -- The stack is empty, so the queue is scheduled.
    rename_i hlast
    have hflush : plan.Steps ⟨h, [], false⟩ []
        ⟨⟨h.problem, []⟩, [.eliminate (plan.unprotected h.queue)], true⟩ := by
      refine .single ?_
      rw [step]
      simp only [hlast]
      rfl
    have hqueued : Runs (Interruption.Allowed k (plan.Fails (plan.start p)))
        (fun h' : HybridState α => plan.Steps
          ⟨⟨h.problem, []⟩, [.eliminate (plan.unprotected h.queue)], true⟩ []
          ⟨⟨h'.problem, []⟩, [], true⟩ ∧
            h.problem.Follows (plan.unprotected h.queue) h'.problem)
        (HybridPlan.eliminateList h (plan.unprotected h.queue)) k :=
      runs_of_steps (hdone.steps.trans hflush)
        ((runs_eliminateList_steps (plan.unprotected h.queue)).bind fun q hq => .pure hq)
    refine hqueued.bind fun h' hh' => ?_
    refine (Monitored.runs_checkpoint_of id).bind fun _ _ => .pure ?_
    refine ⟨now ++ plan.unprotected later, treated,
      ⟨⟨⟨h'.problem, []⟩, [], true⟩, ?_, ?_⟩, ?_, ?_, ?_⟩
    · have hsteps := (hdone.steps.trans hflush).trans hh'.1
      rw [List.append_nil, List.append_nil] at hsteps
      exact hsteps
    · rw [step]
      simp [pure, Except.pure]
    · exact hdone.follows.trans (hqueue ▸ hh'.2)
    · exact hdone.schedule.perm.trans hstates
    · exact hdone.schedule.entryLast
  · -- Only protected states are left for the end, and they stay.
    rename_i hlast
    have hnone : plan.unprotected later = [] := by
      rw [hlater (by simpa using hlast)]
      refine List.filter_eq_nil_iff.2 fun i hi => ?_
      simpa using hi
    refine (Monitored.runs_checkpoint_of id).bind fun _ _ => .pure ?_
    refine ⟨now ++ plan.unprotected later, treated, ⟨_, hdone.steps, ?_⟩, ?_, ?_, ?_⟩
    · rw [step]
      simp [hlast, pure, Except.pure]
    · rw [hnone, List.append_nil]
      exact hdone.follows
    · exact hdone.schedule.perm.trans hstates
    · exact hdone.schedule.entryLast

/-- **The hybrid method eliminates every state exactly once.** For every problem, every graph with
the same number of states, every ranking and every set of protected states, an uncancelled run comes
to an end. It takes the steps of the stack of work, and returns the problem they end with: the
eliminated states are those that are not protected, each of them once, and for every treated
component the entry states come after all others. Otherwise a single elimination has failed, and the
run ends with its fault. -/
theorem run_eliminates_each_once (plan : HybridPlan) (p : Problem α)
    (hgraph : plan.graph.size = p.size) (hprotected : plan.protectedStates.size = p.size)
    (hranking : plan.ranking.Perm (List.range p.size)) {m : Monitor} (hm : m.cancelAt = none) :
    (∃ q order treated s, (outcome (plan.run p) m).1 = .ok q ∧
        plan.Steps (plan.start p) treated s ∧ plan.step s = .ok (.inl q) ∧
        q.history = order.reverse ++ p.history ∧
        order.Perm plan.protectedStates.complement.toList ∧
        ∀ t ∈ treated, plan.EntryLast order t) ∨
      ∃ f, (outcome (plan.run p) m).1 = .error (.fault f) ∧ plan.Fails (plan.start p) f := by
  have hrun := (runs_run_completes (k := none) hgraph hprotected hranking m hm).1
  cases h : (outcome (plan.run p) m).1 with
  | ok q =>
    rw [h] at hrun
    obtain ⟨order, treated, hcomplete⟩ := hrun
    obtain ⟨s, hsteps, hend⟩ := hcomplete.ends
    exact .inl ⟨q, order, treated, s, rfl, hsteps, hend, hcomplete.follows.history,
      hcomplete.perm, hcomplete.entryLast⟩
  | error e =>
    rw [h] at hrun
    cases e with
    | cancelled => exact absurd rfl hrun
    | fault f => exact .inr ⟨f, rfl, hrun⟩

/-- A way into a loop of three states, each of which can also leave it. -/
def loopMatrix : Matrix ℚ :=
  .ofRows 5 [[⟨1, 1⟩], [⟨2, 1 / 2⟩, ⟨4, 1 / 2⟩], [⟨3, 1⟩],
    [⟨1, 1 / 2⟩, ⟨4, 1 / 2⟩], []]

/-- The equations of the loop, with the value one behind it. -/
def loopProblem : Problem ℚ :=
  ⟨.probabilities, loopMatrix.dropZeros.rows, loopMatrix.transpose.connections.rows,
    #[0, 0, 0, 0, 1], [], 0⟩

/-- The loop is decomposed as far as possible, and its entry state is left for the end. -/
def loopPlan : HybridPlan :=
  ⟨.ofMatrix loopMatrix, [4, 3, 2, 1, 0], .singleton 5 0, 1, true⟩

/-- All states but the first one are eliminated once. -/
theorem run_loop : loopPlan.graph.size = loopProblem.size ∧
    ∃ q order treated s, (outcome (loopPlan.run loopProblem) {}).1 = .ok q ∧
      loopPlan.Steps (loopPlan.start loopProblem) treated s ∧ loopPlan.step s = .ok (.inl q) ∧
      q.history = order.reverse ∧ order.Perm [1, 2, 3, 4] ∧
      ∀ t ∈ treated, loopPlan.EntryLast order t := by
  have hok : (outcome (loopPlan.run loopProblem) {}).1.isOk = true := by
    cbv
  have hgraph : loopPlan.graph.size = loopProblem.size := by decide_cbv
  refine ⟨hgraph, ?_⟩
  rcases run_eliminates_each_once loopPlan loopProblem hgraph (by decide_cbv) (by decide_cbv)
    (m := {}) rfl with ⟨q, order, treated, s, hrun, hsteps, hend, hhistory, hperm,
      hlast⟩ | ⟨f, hf, -⟩
  · rw [show loopProblem.history = [] from rfl, List.append_nil] at hhistory
    exact ⟨q, order, treated, s, hrun, hsteps, hend, hhistory, hperm, hlast⟩
  · rw [hf] at hok
    cases hok

end HybridPlan

end MarkovElimination
