import MarkovElimination.Elimination.WorkStack
import MarkovElimination.Proofs.Elimination.Cancellation
import MarkovElimination.Proofs.Graph.Decomposition

/-! # The driver of the hybrid method

The stack of work is driven step by step, with a look at the trigger before every step: also before
those that only rearrange the stack, and before the one that finds nothing left to do. The recursion
on components only looks at the trigger before eliminations and at the end. Nobody can tell the
difference, since the trigger can only be set by an elimination: the driver comes to the outcome of
the recursion, with the same reports, whether it returns, fails or is cancelled
(`drives_start_iff`). -/

namespace MarkovElimination

namespace HybridPlan

variable {α : Type}

/-- The monitor after a step, in which the elimination of a state is counted. -/
def counted (s : WorkState α) (m : Monitor) : Monitor :=
  match s.stack with
  | .eliminate (_ :: _) :: _ => m.tick
  | _ => m

variable [Weight α]

/-- **Driving the stack of work** from a state on under a monitor: as long as the trigger is not
set, one step follows another until one of them ends or fails. -/
inductive Drives (plan : HybridPlan) :
    WorkState α → Monitor → Except Interruption (Problem α) × Monitor → Prop where
  | cancelled {s : WorkState α} {m : Monitor} (hset : m.isCancelled = true) :
    Drives plan s m (.error .cancelled, m)
  | failed {s : WorkState α} {m : Monitor} {f : Fault} (hunset : m.isCancelled = false)
    (hstep : plan.step s = .error f) : Drives plan s m (.error (.fault f), m)
  | ended {s : WorkState α} {m : Monitor} {q : Problem α} (hunset : m.isCancelled = false)
    (hstep : plan.step s = .ok (.inl q)) : Drives plan s m (.ok q, m)
  | next {s t : WorkState α} {m : Monitor} {out : Except Interruption (Problem α) × Monitor}
    (hunset : m.isCancelled = false) (hstep : plan.step s = .ok (.inr t))
    (hrest : Drives plan t (counted s m) out) : Drives plan s m out

variable {plan : HybridPlan} {s t : WorkState α} {m : Monitor}
  {out out' : Except Interruption (Problem α) × Monitor}

/-- A trigger that is set stops the driver. -/
theorem Drives.eq_of_isCancelled (h : plan.Drives s m out) (hset : m.isCancelled = true) :
    out = (.error .cancelled, m) := by
  cases h with
  | cancelled => rfl
  | failed hunset | ended hunset | next hunset => simp [hset] at hunset

/-- The driver comes to one outcome. -/
theorem Drives.unique (h : plan.Drives s m out) (h' : plan.Drives s m out') : out = out' := by
  induction h with
  | cancelled hset => exact (h'.eq_of_isCancelled hset).symm
  | failed hunset hstep =>
    cases h' with
    | cancelled hset => simp [hset] at hunset
    | failed _ hstep' => cases hstep.symm.trans hstep'; rfl
    | ended _ hstep' => cases hstep.symm.trans hstep'
    | next _ hstep' => cases hstep.symm.trans hstep'
  | ended hunset hstep =>
    cases h' with
    | cancelled hset => simp [hset] at hunset
    | failed _ hstep' => cases hstep.symm.trans hstep'
    | ended _ hstep' => cases hstep.symm.trans hstep'; rfl
    | next _ hstep' => cases hstep.symm.trans hstep'
  | next hunset hstep _ ih =>
    cases h' with
    | cancelled hset => simp [hset] at hunset
    | failed _ hstep' => cases hstep.symm.trans hstep'
    | ended _ hstep' => cases hstep.symm.trans hstep'
    | next _ hstep' hrest' => cases hstep.symm.trans hstep'; exact ih hrest'

/-- **A step without an elimination** makes no difference: a trigger that would stop the driver
before it stops the driver behind it. -/
theorem Drives.quiet (hstep : plan.step s = .ok (.inr t)) (hquiet : counted s m = m)
    (h : plan.Drives t m out) : plan.Drives s m out := by
  cases hset : m.isCancelled with
  | true =>
    rw [h.eq_of_isCancelled hset]
    exact .cancelled hset
  | false => exact .next hset hstep (hquiet.symm ▸ h)

/-! ### Work on top of the stack -/

/-- **A computation executes the work** on top of a stack: the driver comes to the outcome to which
it comes from the rest of the stack, after the computation, or to the error of the computation. -/
def Executes (plan : HybridPlan) (s : WorkState α) (rest : List Work)
    (x : Monitored (HybridState α)) : Prop :=
  ∀ m out, (match outcome x m with
    | (.ok h, m') => plan.Drives ⟨h, rest, s.flushed⟩ m' out
    | (.error e, m') => out = (.error e, m')) → plan.Drives s m out

namespace Executes

variable {rest mid : List Work} {x : Monitored (HybridState α)}
  {f : HybridState α → Monitored (HybridState α)} {flushed : Bool} {h : HybridState α}

/-- No work. -/
theorem pure : plan.Executes ⟨h, rest, flushed⟩ rest (Pure.pure h) := fun _ _ hrest => hrest

/-- One piece of work after another. -/
theorem bind (hx : plan.Executes s mid x)
    (hf : ∀ h, plan.Executes ⟨h, mid, s.flushed⟩ rest (f h)) :
    plan.Executes s rest (x >>= f) := by
  intro m out hout
  rw [outcome_bind] at hout
  refine hx m out ?_
  generalize outcome x m = after at hout ⊢
  obtain ⟨result, m'⟩ := after
  cases result with
  | ok h => exact hf h m' out hout
  | error e => exact hout

/-- Work behind a step without an elimination. -/
theorem quiet (hstep : plan.step s = .ok (.inr t)) (hquiet : ∀ m, counted s m = m)
    (hflushed : t.flushed = s.flushed) (hx : plan.Executes t rest x) : plan.Executes s rest x :=
  fun m out hout => .quiet hstep (hquiet m) (hx m out (hflushed ▸ hout))

/-- **Listed states** are eliminated one by one. -/
theorem eliminateList (states : List Nat) :
    plan.Executes ⟨h, .eliminate states :: rest, flushed⟩ rest (eliminateList h states) := by
  induction states generalizing h with
  | nil => exact .quiet (t := ⟨h, rest, flushed⟩) rfl (fun _ => rfl) rfl .pure
  | cons i states ih =>
    have hcons : HybridPlan.eliminateList h (i :: states) = (do
        Monitored.checkpoint
        let q ← Monitored.ofFault (h.problem.eliminate i true none)
        Monitored.tick
        HybridPlan.eliminateList ⟨q, h.queue⟩ states) := by
      simp only [HybridPlan.eliminateList, Problem.eliminateList, Problem.eliminateMonitored,
        List.foldlM_cons, bind_assoc, pure_bind]
    intro m out hout
    rw [hcons, outcome_bind, Monitored.outcome_checkpoint] at hout
    cases hset : m.isCancelled with
    | true =>
      simp only [hset, if_true] at hout
      rw [hout]
      exact .cancelled hset
    | false =>
      simp only [hset, Bool.false_eq_true, if_false] at hout
      rw [outcome_bind] at hout
      cases hp : h.problem.eliminate i true none with
      | error f =>
        rw [hp] at hout
        rw [show out = (.error (.fault f), m) from hout]
        refine .failed hset ?_
        simp only [step, hp]
        rfl
      | ok q =>
        rw [hp] at hout
        refine .next (t := ⟨⟨q, h.queue⟩, .eliminate states :: rest, flushed⟩) hset ?_
          (ih m.tick out hout)
        simp only [step, hp]
        rfl

/-- The entry states of a component are eliminated, or left for the end. -/
theorem finish (entry : StateSet) (eliminateEntry : Bool) :
    plan.Executes ⟨h, .finish entry eliminateEntry :: rest, flushed⟩ rest
      (plan.finish entry eliminateEntry h) := by
  cases eliminateEntry with
  | true =>
    exact .quiet (t := ⟨h, .eliminate (plan.unprotected entry.toList) :: rest, flushed⟩) rfl
      (fun _ => rfl) rfl (.eliminateList _)
  | false =>
    exact .quiet (t := ⟨⟨h.problem, h.queue ++ entry.toList⟩, rest, flushed⟩) rfl
      (fun _ => rfl) rfl .pure

/-- Blocks of a decomposition, one after the other. -/
theorem blocks {level : Nat} {g : HybridState α → StateSet → Monitored (HybridState α)}
    {blocks : List StateSet} (hblock : ∀ b ∈ blocks, ∀ h rest,
      plan.Executes ⟨h, .block b level :: rest, flushed⟩ rest (g h b)) :
    plan.Executes ⟨h, blocks.map (.block · level) ++ rest, flushed⟩ rest
    (blocks.foldlM g h) := by
  induction blocks generalizing h with
  | nil => exact .pure
  | cons b blocks ih =>
    rw [List.foldlM_cons]
    refine .bind (hblock b List.mem_cons_self h _) fun h' => ?_
    exact ih fun c hc => hblock c (List.mem_cons_of_mem _ hc)

/-- **Treating a component.** Its blocks are smaller, so the proof is by induction on the number of
states. -/
theorem treat (component entry : StateSet) (eliminateEntry : Bool) (level : Nat)
    (h : HybridState α) (rest : List Work) :
    plan.Executes ⟨h, .treat component entry eliminateEntry level :: rest, flushed⟩ rest
      (plan.treat component entry eliminateEntry level h) := by
  induction hcard : component.card using Nat.strong_induction_on
    generalizing component entry eliminateEntry level h rest with
  | _ card ih =>
    refine .quiet (t := ⟨⟨h.problem.recordDepth level, h.queue⟩,
      plan.expand component entry level ++ .finish entry eliminateEntry :: rest, flushed⟩) rfl
      (fun _ => rfl) rfl ?_
    rw [HybridPlan.treat, expand]
    simp only
    split
    · split
      · exact .bind (.eliminateList _) fun h' => .finish entry eliminateEntry
      · rename_i hblocks
        refine .bind (.eliminateList _) fun h' => .bind (.blocks fun b hb h rest => ?_) fun h' =>
          .finish entry eliminateEntry
        have hlt : b.card < component.card :=
          Graph.card_lt_of_blocks_minus_ne plan.graph hblocks hb
        rw [if_pos hlt]
        exact .quiet (t := ⟨h, .treat b (h.problem.entryStates b) (!plan.entryStatesLast)
          (level + 1) :: rest, flushed⟩) rfl (fun _ => rfl) rfl
          (ih b.card (hcard ▸ hlt) b _ _ _ h rest rfl)
    · exact .bind (.eliminateList _) fun h' => .finish entry eliminateEntry

end Executes

/-! ### The whole run -/

/-- Once nothing is left to do, the driver looks at the trigger once more. -/
theorem drives_end {h : HybridState α} {flushed : Bool}
    (hend : (plan.entryStatesLast && !flushed) = false) (m : Monitor) :
    plan.Drives ⟨h, [], flushed⟩ m
      (outcome (do Monitored.checkpoint; pure h.problem : Monitored (Problem α)) m) := by
  rw [outcome_bind, Monitored.outcome_checkpoint]
  cases hset : m.isCancelled with
  | true => exact .cancelled hset
  | false =>
    refine .ended hset ?_
    simp only [step, hend, Bool.false_eq_true, if_false]
    rfl

/-- **The driver comes to the outcome of the recursion.** -/
theorem drives_run (plan : HybridPlan) (p : Problem α) (m : Monitor) :
    plan.Drives (plan.start p) m (outcome (plan.run p) m) := by
  refine Executes.treat (.full plan.graph.size) plan.protectedStates false 0 ⟨p, []⟩ [] m _ ?_
  rw [run, outcome_bind]
  generalize outcome (plan.treat (.full plan.graph.size) plan.protectedStates false 0
    (⟨p, []⟩ : HybridState α)) m = after
  obtain ⟨result, m'⟩ := after
  cases result with
  | error e => rfl
  | ok h =>
    simp only
    cases hlast : plan.entryStatesLast with
    | false => exact drives_end (by rw [hlast]; rfl) m'
    | true =>
      -- What was left for the end is scheduled, and the queue is empty from then on.
      have hqueue : (do
          let state ← eliminateList h (plan.unprotected h.queue)
          Monitored.checkpoint
          pure state.problem : Monitored (Problem α)) = (do
          let state ← eliminateList ⟨h.problem, []⟩ (plan.unprotected h.queue)
          Monitored.checkpoint
          pure state.problem) := by
        simp only [eliminateList, bind_assoc, pure_bind]
      rw [if_pos rfl, hqueue, outcome_bind]
      refine .quiet
        (t := ⟨⟨h.problem, []⟩, [.eliminate (plan.unprotected h.queue)], true⟩) ?_ rfl
        (Executes.eliminateList _ m' _ ?_)
      · simp only [step, hlast]
        rfl
      · generalize outcome (eliminateList (⟨h.problem, []⟩ : HybridState α)
          (plan.unprotected h.queue)) m' = after
        obtain ⟨result, m''⟩ := after
        cases result with
        | error e => rfl
        | ok h' => exact drives_end (by simp) m''

/-- **What the driver comes to is the outcome of the recursion**, for every problem, every plan and
every monitor. -/
theorem drives_start_iff (plan : HybridPlan) (p : Problem α) (m : Monitor)
    (out : Except Interruption (Problem α) × Monitor) :
    plan.Drives (plan.start p) m out ↔ out = outcome (plan.run p) m := by
  constructor
  · exact fun h => h.unique (plan.drives_run p m)
  · rintro rfl
    exact plan.drives_run p m

end HybridPlan

end MarkovElimination
