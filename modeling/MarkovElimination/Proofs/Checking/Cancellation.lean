import MarkovElimination.Checking.Property
import MarkovElimination.Proofs.Elimination.Cancellation
import MarkovElimination.Proofs.Model.Semantics

/-! # Cancelled checks

A check of an until or reward property first hands its problem over to elimination, which stops at
the last state (`Chain.checkToLast`), and then eliminates that state as well (`Stage.resolve`). The
first part can be interrupted at any time, the second part is not interrupted any more
(`check_cancelled`). -/

namespace MarkovElimination

/-- A check before its last elimination. -/
inductive Stage (α : Type) where
  /-- The result is known, and nothing is to be eliminated. -/
  | settled (result : CheckResult α)
  /-- All maybe states but the initial one are eliminated from the problem. -/
  | pending (initial : Nat) (maybe : StateSet) (problem : Problem α)

namespace Checked

variable {β : Type}

/-- A monitored computation as part of a check only changes its errors. -/
theorem outcome_ofMonitored (x : Monitored β) (m : Monitor) : outcome (ofMonitored x) m =
    ((outcome x m).1.mapError CheckError.ofInterruption, (outcome x m).2) := rfl

/-- A computation that can be interrupted, as part of a check. -/
theorem interruptible_ofMonitored {before after : Nat} {x : Monitored β}
    (hx : Interruptible .cancelled before after x) :
    Interruptible CheckError.cancelled before after (ofMonitored x) where
  cuts m k hm hle := by
    have hcut := hx.cuts m k hm hle
    rw [outcome_ofMonitored, outcome_ofMonitored]
    generalize outcome x m = plain at hcut ⊢
    generalize outcome x (m.cancelAfter k) = cut at hcut ⊢
    cases hcut with
    | returned h => exact .returned h
    | failed h => exact .failed h
    | stopped h hreports => exact .stopped h hreports
  grows := hx.grows

/-- A computation that never stops, as part of a check. -/
theorem heedless_ofMonitored {x : Monitored β} (hx : Heedless x) : Heedless (ofMonitored x) where
  same m k := by rw [outcome_ofMonitored, outcome_ofMonitored, hx.same m k]
  grows := hx.grows

/-- A step that can fail makes no report. -/
theorem interruptible_ofExcept (result : Except CheckError β) :
    Interruptible CheckError.cancelled 1 1 (ofExcept result) := by
  cases result with
  | ok b => exact .pure b
  | error e => exact .throw e

/-- A step that can meet a fault makes no report. -/
theorem interruptible_ofFault (result : Except Fault β) :
    Interruptible CheckError.cancelled 1 1 (ofFault result) :=
  interruptible_ofMonitored (Monitored.interruptible_ofFault result)

/-- A checkpoint leaves room for a report. -/
theorem interruptible_checkpoint : Interruptible CheckError.cancelled 1 1 checkpoint :=
  (interruptible_ofMonitored Monitored.interruptible_checkpoint).mono zero_le_one le_rfl

end Checked

variable {α : Type} [Weight α]

/-- The rest of a check: the last state is eliminated, and its value is the result. -/
def Stage.resolve : Stage α → Checked (CheckResult α)
  | .settled result => pure result
  | .pending initial maybe problem => do
    let (value, problem) ←
      Checked.ofMonitored (problem.eliminateLast (Chain.positionIn maybe initial))
    pure ⟨initial, .finite value, ⟨maybe.card, problem.eliminated, problem.depth⟩⟩

/-- The last elimination is not interrupted. -/
theorem Stage.heedless_resolve (stage : Stage α) : Heedless stage.resolve := by
  cases stage with
  | settled result => exact .pure _
  | pending initial maybe problem =>
    exact (Checked.heedless_ofMonitored (problem.heedless_eliminateLast _)).bind fun _ => .pure _

namespace Chain

/-- The restriction to the maybe states, up to the last elimination. -/
def eliminateToLast (c : Chain α) (config : EliminationConfig) (initial : Nat) (maybe : StateSet)
    (mode : ValueMode) (values : List α) (targets : StateSet) : Checked (Stage α) := do
  let matrix := c.transitions.submatrix maybe maybe
  let problem ← Checked.ofFault (Problem.ofMatrix mode matrix values)
  let problem ← Checked.ofMonitored
    (problem.eliminateAllExcept config (Graph.ofMatrix matrix) (c.initial.compress maybe) targets)
  pure (.pending initial maybe problem)

/-- The check of an until formula, up to the last elimination. -/
def checkUntilToLast (c : Chain α) (config : EliminationConfig) (invariant goal : StateSet) :
    Checked (Stage α) := do
  let initial ← Checked.ofExcept c.initialState
  Checked.checkpoint
  match ← Checked.ofFault (c.analyseUntil initial invariant goal) with
  | .settled holds => pure (.settled (.immediate initial (.finite (if holds then 1 else 0)) 0))
  | .undecided maybe oneStep =>
    c.eliminateToLast config initial maybe .probabilities oneStep (supportOf oneStep)

/-- The check of an expected reward, up to the last elimination. -/
def checkRewardToLast (c : Chain α) (config : EliminationConfig) (target : StateSet) :
    Checked (Stage α) := do
  if !c.hasRewards then throw .missingRewardModel
  let initial ← Checked.ofExcept c.initialState
  Checked.checkpoint
  let positive := c.graph.probPositive (.full c.size) target
  let infinite := (c.graph.probOne target positive).complement
  if infinite.contains initial then pure (.settled (.immediate initial .infinite 0))
  else if target.contains initial then pure (.settled (.immediate initial (.finite 0) 0))
  else
    let undecided := (target.union infinite).complement
    let maybe := (c.graph.reachable c.initial undecided target).inter undecided
    let intoTarget ← Checked.ofFault (c.transitions.checkedRowSums maybe target)
    let rewards ← Checked.ofFault (c.expectedRewards maybe)
    c.eliminateToLast config initial maybe .rewards rewards (supportOf intoTarget)

/-- **The check of an until or reward property, up to the last elimination.** -/
def checkToLast (c : Chain α) (config : EliminationConfig) (property : Property) :
    Checked (Stage α) := do
  let states (formula : StateFormula) := Checked.ofExcept (c.satisfying formula)
  match property with
  | .reward target => c.checkRewardToLast config (← states target)
  | .probability (.eventually target) =>
      c.checkUntilToLast config (.full c.size) (← states target)
  | .probability (.until invariant goal) =>
    let invariant ← states invariant
    c.checkUntilToLast config invariant (← states goal)
  | .probability (.conditional _ _) => throw (.unsupportedProperty property)

/-! ### Two parts of a check -/

theorem eliminateMaybe_eq_bind (c : Chain α) (config : EliminationConfig) (initial : Nat)
    (maybe : StateSet) (mode : ValueMode) (values : List α) (targets : StateSet) :
    c.eliminateMaybe config initial maybe mode values targets =
      c.eliminateToLast config initial maybe mode values targets >>= Stage.resolve := by
  simp only [eliminateMaybe, eliminateToLast, bind_assoc, pure_bind, Stage.resolve]

theorem checkUntil_eq_bind (c : Chain α) (config : EliminationConfig) (invariant goal : StateSet) :
    c.checkUntil config invariant goal =
      c.checkUntilToLast config invariant goal >>= Stage.resolve := by
  rw [checkUntil, checkUntilToLast]
  simp only [bind_assoc]
  refine bind_congr fun initial => bind_congr fun _ => bind_congr fun analysis => ?_
  cases analysis with
  | settled holds => exact (pure_bind _ _).symm
  | undecided maybe oneStep => exact c.eliminateMaybe_eq_bind _ _ _ _ _ _

theorem checkReward_eq_bind (c : Chain α) (config : EliminationConfig) (target : StateSet) :
    c.checkReward config target = c.checkRewardToLast config target >>= Stage.resolve := by
  rw [checkReward, checkRewardToLast]
  cases c.hasRewards with
  | false => rfl
  | true =>
    simp only [Bool.not_true, Bool.false_eq_true, if_false, bind_assoc]
    refine bind_congr fun initial => bind_congr fun _ => ?_
    split
    · exact (pure_bind _ _).symm
    · split
      · exact (pure_bind _ _).symm
      · simp only [bind_assoc]
        refine bind_congr fun _ => bind_congr fun rewards => ?_
        exact c.eliminateMaybe_eq_bind _ _ _ _ _ _

/-- **A check consists of two parts**, of which the second one eliminates the last state. -/
theorem check_eq_bind (c : Chain α) (config : EliminationConfig) {property : Property}
    (hproperty : ∀ event condition, property ≠ .probability (.conditional event condition)) :
    c.check config property = c.checkToLast config property >>= Stage.resolve := by
  match property, hproperty with
  | .reward target, _ => simp only [check, checkToLast, bind_assoc, c.checkReward_eq_bind]
  | .probability (.eventually target), _ =>
    simp only [check, checkToLast, bind_assoc, c.checkUntil_eq_bind]
  | .probability (.until invariant goal), _ =>
    simp only [check, checkToLast, bind_assoc, c.checkUntil_eq_bind]
  | .probability (.conditional event condition), h => exact absurd rfl (h event condition)

/-! ### The first part -/

theorem interruptible_eliminateToLast (c : Chain α) (config : EliminationConfig) (initial : Nat)
    (maybe : StateSet) (mode : ValueMode) (values : List α) (targets : StateSet) :
    Interruptible CheckError.cancelled 1 1
      (c.eliminateToLast config initial maybe mode values targets) := by
  refine (Checked.interruptible_ofFault _).bind fun problem => Interruptible.bind ?_ fun _ =>
    .pure _
  exact (Checked.interruptible_ofMonitored
    (problem.interruptible_eliminateAllExcept config _ _ targets)).mono zero_le_one le_rfl

theorem interruptible_checkUntilToLast (c : Chain α) (config : EliminationConfig)
    (invariant goal : StateSet) :
    Interruptible CheckError.cancelled 1 1 (c.checkUntilToLast config invariant goal) := by
  refine (Checked.interruptible_ofExcept _).bind fun initial => ?_
  refine Checked.interruptible_checkpoint.bind fun _ => ?_
  refine (Checked.interruptible_ofFault _).bind fun analysis => ?_
  cases analysis with
  | settled holds => exact .pure _
  | undecided maybe oneStep => exact c.interruptible_eliminateToLast _ _ _ _ _ _

theorem interruptible_checkRewardToLast (c : Chain α) (config : EliminationConfig)
    (target : StateSet) :
    Interruptible CheckError.cancelled 1 1 (c.checkRewardToLast config target) := by
  rw [checkRewardToLast]
  cases c.hasRewards with
  | false => exact .throw _
  | true =>
    refine (Checked.interruptible_ofExcept _).bind fun initial => ?_
    refine Checked.interruptible_checkpoint.bind fun _ => ?_
    simp only
    split
    · exact .pure _
    · split
      · exact .pure _
      · refine (Checked.interruptible_ofFault _).bind fun _ => ?_
        refine (Checked.interruptible_ofFault _).bind fun rewards => ?_
        exact c.interruptible_eliminateToLast _ _ _ _ _ _

/-- **The part of a check before its last elimination** can be interrupted at any time. -/
theorem interruptible_checkToLast (c : Chain α) (config : EliminationConfig)
    (property : Property) :
    Interruptible CheckError.cancelled 1 1 (c.checkToLast config property) := by
  have hstates (formula : StateFormula) := Checked.interruptible_ofExcept (c.satisfying formula)
  match property with
  | .reward target =>
    exact (hstates target).bind fun _ => c.interruptible_checkRewardToLast config _
  | .probability (.eventually target) =>
    exact (hstates target).bind fun _ => c.interruptible_checkUntilToLast config _ _
  | .probability (.until invariant goal) =>
    exact (hstates invariant).bind fun _ => (hstates goal).bind fun _ =>
      c.interruptible_checkUntilToLast config _ _
  | .probability (.conditional event condition) => exact .throw _

/-! ### The whole check -/

/-- **Cancellation never yields a partial answer.** The check of an until or reward property, whose
trigger is set by its `k`-th report, is compared with the check without a trigger; `before` are the
reports of the latter before the last elimination. If it makes fewer than `k` reports, or if the
last elimination makes the `k`-th, then both checks end in the same way. If the `k`-th report comes
before the last elimination, then the check is cancelled after exactly the first `k` reports. -/
theorem check_cancelled (c : Chain α) (config : EliminationConfig) {property : Property}
    (hproperty : ∀ event condition, property ≠ .probability (.conditional event condition))
    {k : Nat} (hk : 1 ≤ k) :
    let plain := outcome (c.check config property) {}
    let cut := outcome (c.check config property) { cancelAt := some k }
    let before := (outcome (c.checkToLast config property) {}).2.reports
    c.check config property = c.checkToLast config property >>= Stage.resolve ∧
      before <+: plain.2.reports ∧
      (plain.2.reports.length < k → cut.1 = plain.1 ∧ cut.2.reports = plain.2.reports) ∧
      (k ≤ before.length → cut.1 = .error .cancelled ∧
        cut.2.reports = plain.2.reports.take k) ∧
      (before.length < k → k ≤ plain.2.reports.length →
        cut.1 = plain.1 ∧ cut.2.reports = plain.2.reports) := by
  intro plain cut before
  have hbind := c.check_eq_bind config hproperty
  have hfirst : before <+: plain.2.reports := by
    show before <+: (outcome (c.check config property) {}).2.reports
    rw [hbind]
    exact Heedless.prefix_bind Stage.heedless_resolve _ _
  have hhalts : before.length < k ∧ cut = (plain.1, plain.2.cancelAfter k) ∨
      k ≤ before.length ∧ cut.1 = .error .cancelled ∧ cut.2.reports = before.take k := by
    have h := (c.interruptible_checkToLast config property).halts_bind Stage.heedless_resolve
      (m := {}) rfl (by simpa using hk)
    rwa [← hbind] at h
  have hsame (hlt : before.length < k) : cut.1 = plain.1 ∧ cut.2.reports = plain.2.reports := by
    rcases hhalts with ⟨-, heq⟩ | ⟨hle, -⟩
    · rw [heq]
      exact ⟨rfl, rfl⟩
    · omega
  refine ⟨hbind, hfirst, fun hfew => hsame (hfirst.length_le.trans_lt hfew), fun hle => ?_,
    fun hlt _ => hsame hlt⟩
  rcases hhalts with ⟨hlt, -⟩ | ⟨-, hstopped, hreports⟩
  · omega
  · obtain ⟨more, hmore⟩ := hfirst
    exact ⟨hstopped, by rw [hreports, ← hmore, List.take_append_of_le_length hle]⟩

/-- The lazy walk with a name for one of its ends. -/
def markedWalk : Chain ℚ := { walk with labelling := [("end", .singleton 4 2)] }

/-- The check whether the walk comes to its end makes one report before its last elimination and one
with it. A trigger set by the first report cancels it, one set by the second does not. -/
theorem check_cancelled_walk :
    let property := Property.probability (.eventually (.label "end"))
    let plain := outcome (markedWalk.check {} property) {}
    plain.2.reports = [⟨1, 1⟩, ⟨1, 1⟩] ∧
      (outcome (markedWalk.check {} property) { cancelAt := some 1 }).1 = .error .cancelled ∧
      (outcome (markedWalk.check {} property) { cancelAt := some 1 }).2.reports = [⟨1, 1⟩] ∧
      (outcome (markedWalk.check {} property) { cancelAt := some 2 }).1 = plain.1 := by
  intro property plain
  have hplain :
      (outcome (markedWalk.check {} property) {}).2.reports = [⟨1, 1⟩, ⟨1, 1⟩] := by
    cbv
  have hbefore : (outcome (markedWalk.checkToLast {} property) {}).2.reports = [⟨1, 1⟩] := by
    cbv
  have hproperty (event condition : PathFormula) :
      property ≠ .probability (.conditional event condition) := by simp [property]
  obtain ⟨-, -, -, hfirst, -⟩ := check_cancelled markedWalk {} hproperty (k := 1) le_rfl
  obtain ⟨-, -, -, -, hsecond⟩ := check_cancelled markedWalk {} hproperty (k := 2) one_le_two
  rw [hbefore, hplain] at hfirst hsecond
  exact ⟨hplain, (hfirst le_rfl).1, (hfirst le_rfl).2, (hsecond Nat.one_lt_two le_rfl).1⟩

end Chain

end MarkovElimination
