import MarkovElimination.Elimination.Strategy
import MarkovElimination.Proofs.Graph.Decomposition
import MarkovElimination.Proofs.Outcome

/-! # Cancelled eliminations

A run whose trigger is set after `k` reports is compared with the run of the same computation whose
trigger is never set. They are equal as long as the trigger is not set; after that the next
checkpoint stops the run, and no further report is made. For this there must be at most one
elimination between two checkpoints. `Interruptible` keeps the account: an elimination needs room
for one more report, and a checkpoint makes it. Where a computation leaves room at its end, it has
noticed even a trigger that its last elimination set; this is so for both methods
(`interruptible_eliminateAllExcept`). -/

namespace MarkovElimination

/-! ### Monitors with a trigger -/

namespace Monitor

/-- The monitor with a trigger that is set as soon as `k` reports are made. -/
def cancelAfter (m : Monitor) (k : Nat) : Monitor := { m with cancelAt := some k }

/-- Reports are added behind the ones before. -/
theorem prefix_tick (m : Monitor) : m.reports <+: m.tick.reports :=
  List.prefix_append _ _

/-- An elimination makes one report at most. -/
theorem length_reports_tick_le (m : Monitor) :
    m.tick.reports.length ≤ m.reports.length + 1 := by
  show (m.reports ++ m.tracker.tick.2.toList).length ≤ _
  cases m.tracker.tick.2 <;> simp

end Monitor

section

variable {ε β γ : Type}

/-! ### Runs that are cut short -/

/-- **How a run with a trigger ends**, compared with the run without one. The trigger is set after
`k` reports, and `stop` is the error of a run that is stopped. A run that returns leaves `room` for
so many reports before the trigger is set. -/
inductive CutShort (stop : ε) (room k : Nat) :
    Except ε β × Monitor → Except ε β × Monitor → Prop where
  /-- Both runs return. -/
  | returned {b : β} {m : Monitor} (h : m.reports.length + room ≤ k) :
    CutShort stop room k (.ok b, m) (.ok b, m.cancelAfter k)
  /-- Both runs fail, before the trigger is set. -/
  | failed {e : ε} {m : Monitor} (h : m.reports.length < k) :
    CutShort stop room k (.error e, m) (.error e, m.cancelAfter k)
  /-- The run with the trigger is stopped after its first `k` reports. -/
  | stopped {result : Except ε β} {m m' : Monitor} (h : k ≤ m.reports.length)
    (hm : m'.reports = m.reports.take k) : CutShort stop room k (result, m) (.error stop, m')

/-- **A computation that can be interrupted**: where the monitor has room for `before` reports, a
run with a trigger is the run without one, cut short, and leaves room for `after` reports. -/
structure Interruptible (stop : ε) (before after : Nat) (x : ExceptT ε (StateM Monitor) β) :
    Prop where
  cuts : ∀ (m : Monitor) (k : Nat), m.cancelAt = none → m.reports.length + before ≤ k →
    CutShort stop after k (outcome x m) (outcome x (m.cancelAfter k))
  grows : ∀ m : Monitor, m.cancelAt = none →
    m.reports <+: (outcome x m).2.reports ∧ (outcome x m).2.cancelAt = none

namespace Interruptible

variable {stop : ε} {before middle after : Nat} {x : ExceptT ε (StateM Monitor) β}
  {f : β → ExceptT ε (StateM Monitor) γ}

/-- A computation that only returns. -/
theorem pure (b : β) : Interruptible stop before before (Pure.pure b) where
  cuts _ _ _ hle := .returned hle
  grows _ hm := ⟨List.prefix_refl _, hm⟩

/-- A computation that only fails. The trigger must not be set before, since nothing notices it. -/
theorem throw (e : ε) :
    Interruptible stop 1 after (MonadExcept.throw e : ExceptT ε (StateM Monitor) β) where
  cuts _ _ _ hle := .failed hle
  grows _ hm := ⟨List.prefix_refl _, hm⟩

/-- More room before, or less room after. -/
theorem mono {before' after' : Nat} (h : Interruptible stop before after x)
    (hbefore : before ≤ before') (hafter : after' ≤ after) :
    Interruptible stop before' after' x where
  cuts m k hm hle := by
    have hcut := h.cuts m k hm (by omega)
    generalize outcome x m = plain at hcut ⊢
    generalize outcome x (m.cancelAfter k) = cut at hcut ⊢
    cases hcut with
    | returned h => exact .returned (by omega)
    | failed h => exact .failed h
    | stopped h hm => exact .stopped h hm
  grows := h.grows

/-- **A computation followed by another**, which needs no more room than the first one leaves. -/
theorem bind (hx : Interruptible stop before middle x)
    (hf : ∀ b, Interruptible stop middle after (f b)) :
    Interruptible stop before after (x >>= f) where
  cuts m k hm hle := by
    have hcut := hx.cuts m k hm hle
    obtain ⟨-, hnone⟩ := hx.grows m hm
    rw [outcome_bind, outcome_bind]
    generalize outcome x m = plain at hcut hnone ⊢
    generalize outcome x (m.cancelAfter k) = cut at hcut ⊢
    cases hcut with
    | returned h => exact (hf _).cuts _ k hnone h
    | failed h => exact .failed h
    | @stopped result m' _ h hreports =>
      cases result with
      | error e => exact .stopped h hreports
      | ok b =>
        -- The run without a trigger goes on, which does not change its first reports.
        obtain ⟨more, hmore⟩ := ((hf b).grows m' hnone).1
        have htake : (outcome (f b) m').2.reports.take k = m'.reports.take k := by
          rw [← hmore, List.take_append_of_le_length h]
        refine .stopped ?_ (hreports.trans htake.symm)
        exact h.trans ((hf b).grows m' hnone).1.length_le
  grows m hm := by
    obtain ⟨hgrows, hnone⟩ := hx.grows m hm
    rw [outcome_bind]
    generalize outcome x m = plain at hgrows hnone ⊢
    obtain ⟨result, m'⟩ := plain
    cases result with
    | error e => exact ⟨hgrows, hnone⟩
    | ok b =>
      obtain ⟨hgrows', hnone'⟩ := (hf b).grows m' hnone
      exact ⟨hgrows.trans hgrows', hnone'⟩

/-- **A loop over a list** whose steps leave as much room as they need. -/
theorem foldlM {g : β → γ → ExceptT ε (StateM Monitor) β} {l : List γ}
    (hg : ∀ b, ∀ c ∈ l, Interruptible stop before before (g b c)) (b : β) :
    Interruptible stop before before (l.foldlM g b) := by
  induction l generalizing b with
  | nil => exact .pure b
  | cons c l ih =>
    rw [List.foldlM_cons]
    exact (hg b c List.mem_cons_self).bind fun b' =>
      ih (fun b d hd => hg b d (List.mem_cons_of_mem c hd)) b'

end Interruptible

/-! ### Runs that never stop -/

/-- **A computation that never stops**: its trigger makes no difference. -/
structure Heedless (x : ExceptT ε (StateM Monitor) β) : Prop where
  same : ∀ (m : Monitor) (k : Nat),
    outcome x (m.cancelAfter k) = ((outcome x m).1, (outcome x m).2.cancelAfter k)
  grows : ∀ m : Monitor, m.reports <+: (outcome x m).2.reports

namespace Heedless

variable {x : ExceptT ε (StateM Monitor) β} {f : β → ExceptT ε (StateM Monitor) γ}

/-- A computation that only returns. -/
theorem pure (b : β) : Heedless (Pure.pure b : ExceptT ε (StateM Monitor) β) :=
  ⟨fun _ _ => rfl, fun _ => List.prefix_refl _⟩

/-- A computation followed by another. -/
theorem bind (hx : Heedless x) (hf : ∀ b, Heedless (f b)) : Heedless (x >>= f) where
  same m k := by
    rw [outcome_bind, outcome_bind, hx.same m k]
    generalize outcome x m = plain
    obtain ⟨result, m'⟩ := plain
    cases result with
    | ok b => exact (hf b).same m' k
    | error e => rfl
  grows m := by
    have hgrows := hx.grows m
    rw [outcome_bind]
    generalize outcome x m = plain at hgrows ⊢
    obtain ⟨result, m'⟩ := plain
    cases result with
    | ok b => exact hgrows.trans ((hf b).grows m')
    | error e => exact hgrows

end Heedless

/-- What follows a computation and never stops adds its reports behind those of the computation. -/
theorem Heedless.prefix_bind {f : β → ExceptT ε (StateM Monitor) γ}
    (hf : ∀ b, Heedless (f b)) (x : ExceptT ε (StateM Monitor) β) (m : Monitor) :
    (outcome x m).2.reports <+: (outcome (x >>= f) m).2.reports := by
  rw [outcome_bind]
  generalize outcome x m = plain
  obtain ⟨result, m'⟩ := plain
  cases result with
  | ok b => exact (hf b).grows m'
  | error e => exact List.prefix_refl _

/-- **A computation that leaves room, followed by one that never stops.** If the trigger is not set
by the first one, then it makes no difference at all; otherwise the run is stopped before the second
one, after the reports up to the moment when the trigger is set. -/
theorem Interruptible.halts_bind {stop : ε} {before k : Nat} {x : ExceptT ε (StateM Monitor) β}
    {f : β → ExceptT ε (StateM Monitor) γ} (hx : Interruptible stop before 1 x)
    (hf : ∀ b, Heedless (f b)) {m : Monitor} (hm : m.cancelAt = none)
    (hle : m.reports.length + before ≤ k) :
    (outcome x m).2.reports.length < k ∧ outcome (x >>= f) (m.cancelAfter k) =
        ((outcome (x >>= f) m).1, (outcome (x >>= f) m).2.cancelAfter k) ∨
      k ≤ (outcome x m).2.reports.length ∧
      (outcome (x >>= f) (m.cancelAfter k)).1 = .error stop ∧
        (outcome (x >>= f) (m.cancelAfter k)).2.reports = (outcome x m).2.reports.take k := by
  have hcut := hx.cuts m k hm hle
  rw [outcome_bind, outcome_bind]
  generalize outcome x m = plain at hcut ⊢
  generalize outcome x (m.cancelAfter k) = cut at hcut ⊢
  cases hcut with
  | returned h => exact .inl ⟨h, (hf _).same _ k⟩
  | failed h => exact .inl ⟨h, rfl⟩
  | stopped h hreports => exact .inr ⟨h, rfl, hreports⟩

end

/-! ### Checkpoints and eliminations -/

namespace Monitored

variable {β : Type}

/-- A checkpoint only looks at the trigger. -/
theorem outcome_checkpoint (m : Monitor) :
    outcome checkpoint m = (if m.isCancelled = true then .error .cancelled else .ok (), m) := by
  show outcome (if m.isCancelled = true then throw .cancelled else pure () : Monitored Unit) m = _
  cases m.isCancelled <;> rfl

/-- **A checkpoint makes room** for a report, or stops the run. -/
theorem interruptible_checkpoint : Interruptible .cancelled 0 1 checkpoint where
  cuts m k hm hle := by
    have hplain : m.isCancelled = false := by simp [Monitor.isCancelled, hm]
    have hset : (m.cancelAfter k).isCancelled = decide (k ≤ m.reports.length) := rfl
    rw [outcome_checkpoint, outcome_checkpoint, hplain, hset]
    rw [Nat.add_zero] at hle
    rcases Nat.lt_or_eq_of_le hle with hlt | heq
    · rw [decide_eq_false (Nat.not_le.2 hlt)]
      exact .returned hlt
    · rw [decide_eq_true (Nat.le_of_eq heq.symm)]
      exact .stopped heq.ge (List.take_of_length_le heq.le).symm
  grows m hm := by
    rw [outcome_checkpoint, show m.isCancelled = false by simp [Monitor.isCancelled, hm]]
    exact ⟨List.prefix_refl _, hm⟩

/-- Expecting eliminations makes no report. -/
theorem interruptible_expect (total : Nat) : Interruptible .cancelled 1 1 (expect total) where
  cuts _ _ _ hle := .returned hle
  grows _ hm := ⟨List.prefix_refl _, hm⟩

/-- A step that can meet a fault makes no report. -/
theorem interruptible_ofFault (result : Except Fault β) :
    Interruptible .cancelled 1 1 (ofFault result) := by
  cases result with
  | ok b => exact .pure b
  | error f => exact .throw _

/-- **Counting an elimination** may take the room for one report. -/
theorem interruptible_tick : Interruptible .cancelled 1 0 tick where
  cuts m _ _ hle := .returned (m.length_reports_tick_le.trans hle)
  grows m hm := ⟨m.prefix_tick, hm⟩

/-- A step that can meet a fault never stops. -/
theorem heedless_ofFault (result : Except Fault β) : Heedless (ofFault result) where
  same _ _ := by cases result <;> rfl
  grows _ := by cases result <;> exact List.prefix_refl _

/-- Counting an elimination never stops. -/
theorem heedless_tick : Heedless tick where
  same _ _ := rfl
  grows m := m.prefix_tick

end Monitored

namespace Problem

variable {α : Type} [Weight α]

theorem interruptible_eliminateMonitored (p : Problem α) (s : Nat) (drop : Bool)
    (constraint : Option StateSet) :
    Interruptible .cancelled 1 0 (p.eliminateMonitored s drop constraint) :=
  (Monitored.interruptible_ofFault _).bind fun q =>
    Monitored.interruptible_tick.bind fun _ => .pure q

/-- There is a checkpoint before the elimination of each listed state. -/
theorem interruptible_eliminateList (p : Problem α) (states : List Nat) :
    Interruptible .cancelled 0 0 (p.eliminateList states) :=
  .foldlM (fun q s _ => Monitored.interruptible_checkpoint.bind fun _ =>
    q.interruptible_eliminateMonitored s true none) _

/-- **The flat method** ends with a checkpoint. -/
theorem interruptible_eliminateFlat (p : Problem α) (states : List Nat) :
    Interruptible .cancelled 0 1 (p.eliminateFlat states) :=
  (p.interruptible_eliminateList states).bind fun q =>
    Monitored.interruptible_checkpoint.bind fun _ => .pure q

/-- **The elimination of the last state** never stops. -/
theorem heedless_eliminateLast (p : Problem α) (s : Nat) : Heedless (p.eliminateLast s) := by
  have hvalue (q : Problem α) : Heedless (do
      let value ← Monitored.ofFault (Weight.checkedSimplify (q.value s))
      pure (value, q)) :=
    (Monitored.heedless_ofFault _).bind fun _ => .pure _
  have hone : Heedless (p.eliminateMonitored s true none) :=
    (Monitored.heedless_ofFault _).bind fun q => Monitored.heedless_tick.bind fun _ => .pure q
  rw [eliminateLast]
  cases p.mode with
  | rewards => exact (Monitored.heedless_ofFault _).bind hvalue
  | probabilities => exact hone.bind hvalue

end Problem

/-! ### Both methods -/

namespace HybridPlan

variable {α : Type} [Weight α] (plan : HybridPlan)

theorem interruptible_eliminateList (state : HybridState α) (states : List Nat) :
    Interruptible .cancelled 0 0 (eliminateList state states) :=
  (state.problem.interruptible_eliminateList states).bind fun _ => .pure _

theorem interruptible_finish (entry : StateSet) (eliminateEntry : Bool) (state : HybridState α) :
    Interruptible .cancelled 0 0 (plan.finish entry eliminateEntry state) := by
  rw [finish]
  split
  · exact interruptible_eliminateList state _
  · exact .pure _

/-- Components are treated with a checkpoint before every elimination. The proof goes along the
recursion to inner components, which are smaller. -/
theorem interruptible_treat (component entry : StateSet) (eliminateEntry : Bool) (level : Nat)
    (state : HybridState α) :
    Interruptible .cancelled 0 0 (plan.treat component entry eliminateEntry level state) := by
  induction hcard : component.card using Nat.strong_induction_on
    generalizing component entry eliminateEntry level state with
  | _ card ih =>
    have hlist (state : HybridState α) (states : List Nat) :=
      interruptible_eliminateList state states
    have hfinish (state : HybridState α) := plan.interruptible_finish entry eliminateEntry state
    rw [treat]
    simp only
    split
    · split
      · exact (hlist _ _).bind hfinish
      · rename_i hne
        refine (hlist _ _).bind fun state' =>
          Interruptible.bind (.foldlM (fun s block hblock => ?_) _) hfinish
        have hlt := Graph.card_lt_of_blocks_minus_ne plan.graph hne hblock
        rw [if_pos hlt]
        exact ih block.card (hcard ▸ hlt) block _ _ _ s rfl
    · exact (hlist _ _).bind hfinish

/-- **The hybrid method** ends with a checkpoint. -/
theorem interruptible_run (p : Problem α) : Interruptible .cancelled 0 1 (plan.run p) := by
  have hend (state : HybridState α) :
      Interruptible .cancelled 0 1 (do Monitored.checkpoint; pure state.problem) :=
    Monitored.interruptible_checkpoint.bind fun _ => .pure _
  rw [run]
  refine (plan.interruptible_treat _ _ _ _ _).bind fun state => ?_
  simp only
  split
  · exact (interruptible_eliminateList _ _).bind hend
  · exact hend _

end HybridPlan

/-- **Eliminating all states but the initial ones** can be interrupted, whatever the configuration,
and it notices even a trigger that its last elimination has set. -/
theorem Problem.interruptible_eliminateAllExcept {α : Type} [Weight α]
    (config : EliminationConfig) (g : Graph) (initial targets : StateSet) (p : Problem α) :
    Interruptible .cancelled 0 1 (p.eliminateAllExcept config g initial targets) := by
  refine Monitored.interruptible_checkpoint.bind fun _ => ?_
  refine (Monitored.interruptible_expect _).bind fun _ => ?_
  cases config.method with
  | state => exact (p.interruptible_eliminateFlat _).mono zero_le_one le_rfl
  | hybrid =>
    simp only
    split
    · exact .throw _
    · exact (HybridPlan.interruptible_run _ p).mono zero_le_one le_rfl

end MarkovElimination
