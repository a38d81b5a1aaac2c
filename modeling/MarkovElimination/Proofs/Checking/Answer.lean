import Mathlib
import MarkovElimination.Checking.Property
import MarkovElimination.Proofs.Checking.Conditional
import MarkovElimination.Proofs.Checking.Reward

/-! # Answers of checks

The **semantics** of a chain under an interpretation are its probabilities and rewards. An answer of
a check is an error, an infinite value or a number. Checks are exact under every interpretation, so
the semantics alone determines the answer: chains of different weights that have the same semantics
get the same answer (`Semantics.HasAnswer`). -/

namespace MarkovElimination.Chain

/-! ### Semantics -/

/-- What checks of a chain are about: probabilities and rewards over its states. -/
structure Semantics where
  size : Nat
  rewarded : Bool
  step : Fin size → Fin size → ℚ
  reward : Fin size → ℚ
  transitionReward : Fin size → Fin size → ℚ

/-- The semantics of a chain under values of its weights. -/
def semantics {α : Type} [Weight α] (value : α → ℚ) (c : Chain α) : Semantics :=
  ⟨c.size, c.hasRewards, c.kernel value, c.rewardOf value, c.transitionRewardOf value⟩

/-- Semantics are equal if their parts agree at all states. -/
theorem Semantics.ext_val {S T : Semantics} (hsize : S.size = T.size)
    (hrewarded : S.rewarded = T.rewarded)
    (hstep : ∀ i j, S.step i j = T.step (i.cast hsize) (j.cast hsize))
    (hreward : ∀ i, S.reward i = T.reward (i.cast hsize))
    (htransition : ∀ i j, S.transitionReward i j =
      T.transitionReward (i.cast hsize) (j.cast hsize)) : S = T := by
  obtain ⟨n, a, P, r, R⟩ := S
  obtain ⟨m, b, Q, q, T⟩ := T
  obtain rfl : n = m := hsize
  obtain rfl : a = b := hrewarded
  obtain rfl : P = Q := funext fun i => funext fun j => hstep i j
  obtain rfl : r = q := funext hreward
  obtain rfl : R = T := funext fun i => funext fun j => htransition i j
  rfl

/-! ### Satisfying states -/

/-- **Formulas are satisfied by states of the chain**, unless they mention an unknown label. -/
theorem WellFormed.satisfying_meets {α : Type} {c : Chain α} (h : c.WellFormed)
    (formula : StateFormula) :
    Meets (fun e => ∃ label, e = .unknownLabel label) (fun states => states.size = c.size)
      (c.satisfying formula) := by
  induction formula with
  | true => exact StateSet.size_full _
  | false => exact StateSet.size_empty _
  | label name =>
    unfold satisfying
    split
    case h_1 states hstates =>
      obtain ⟨_, _, hl, -⟩ := List.lookup_eq_some_iff.1 hstates
      exact h.labelling_size (name, states) (by rw [hl]; simp)
    case h_2 => exact ⟨name, rfl⟩
  | not inner ih =>
    refine ih.bind fun states hsize => ?_
    exact (StateSet.size_complement states).trans hsize
  | and left right ihl ihr =>
    refine ihl.bind fun states hsize => ihr.bind fun others _ => ?_
    exact (StateSet.size_inter states others).trans hsize
  | or left right ihl ihr =>
    refine ihl.bind fun states hsize => ihr.bind fun others _ => ?_
    exact (StateSet.size_union states others).trans hsize

/-! ### Answers -/

section Answers

variable {α : Type} [Weight α]

/-- **The check answers** `a` about the state `s`: it fails with the error of `a`, returns an
infinite value, or a weight with the value of `a`. It may also leave the range of weights. -/
def Answers (I : Interpretation α ℚ) (s : Nat) (a : Except CheckError (Option ℚ))
    (check : Checked (CheckResult α)) : Prop :=
  Runs (fun e => CheckError.IsFault I.RangeFault e ∨ a = .error e)
    (fun r => a = .ok none ∧ r.initial = s ∧ r.value = .infinite ∨
      ∃ q, a = .ok (some q) ∧ Settles I s q r) check

/-- A check that settles the value. -/
theorem Answers.of_settles {I : Interpretation α ℚ} {s : Nat} {q : ℚ}
    {check : Checked (CheckResult α)}
    (h : Runs (CheckError.IsFault I.RangeFault) (Settles I s q) check) :
    Answers I s (.ok (some q)) check :=
  (h.mono fun _ hr => .inr ⟨q, rfl, hr⟩).weaken fun _ he => .inl he

/-- What a check that stays in range ends with, for each answer. -/
def Answered (I : Interpretation α ℚ) (s : Nat) :
    Except CheckError (Option ℚ) → Except CheckError (CheckResult α) → Prop
  | .error e, result => result = .error e
  | .ok none, result => ∃ r, result = .ok r ∧ r.initial = s ∧ r.value = .infinite
  | .ok (some q), result => ∃ r, result = .ok r ∧ Settles I s q r

/-- **An uncancelled check that stays in range** ends with its answer. -/
theorem Answers.answered {I : Interpretation α ℚ} {s : Nat} {a : Except CheckError (Option ℚ)}
    {check : Checked (CheckResult α)} (h : Answers I s a check) {m : Monitor}
    (hm : m.cancelAt = none)
    (hrange : ∀ e, CheckError.IsFault I.RangeFault e → (outcome check m).1 ≠ .error e) :
    Answered I s a (outcome check m).1 := by
  have hmeets := (h m hm).1
  cases hout : (outcome check m).1 with
  | ok r =>
    rw [hout] at hmeets
    rcases hmeets with ⟨rfl, hr⟩ | ⟨q, rfl, hr⟩
    · exact ⟨r, rfl, hr⟩
    · exact ⟨r, rfl, hr⟩
  | error e =>
    rw [hout] at hmeets
    rcases hmeets with he | rfl
    · exact absurd hout (hrange e he)
    · rfl

/-- A chain with the semantics `S` under an interpretation, and with the initial state `s`. -/
structure Presents (I : Interpretation α ℚ) (S : Semantics) (s : Nat) (c : Chain α) : Prop where
  stochastic : c.Stochastic I
  rewardsDefined : c.RewardsDefined I
  initial_eq : c.initial.toList = [s]
  semantics_eq : c.semantics I.value = S

end Answers

/-- An answer that is not a fault, and that the check gives for all chains of the semantics. -/
def Semantics.HasAnswer (S : Semantics) (s : Nat)
    (check : ∀ {α : Type} [Weight α], Chain α → Checked (CheckResult α)) : Prop :=
  ∃ a : Except CheckError (Option ℚ), (∀ fault, a ≠ .error (.fault fault)) ∧
    ∀ {α : Type} [Weight α] {I : Interpretation α ℚ} {c : Chain α}, c.Presents I S s →
      Answers I s a (check c)

section Answers

variable {S : Semantics} {s : Nat}

/-- **The semantics determines the answer** to until formulas. -/
theorem Semantics.hasAnswer_checkUntil (hP : Kernel.Substochastic S.step) (hs : s < S.size)
    (config : EliminationConfig) {invariant goal : StateSet} (hinv : invariant.size = S.size)
    (hgoal : goal.size = S.size) :
    S.HasAnswer s fun c => c.checkUntil config invariant goal := by
  obtain ⟨x, hx⟩ := Kernel.exists_isUntilProbability hP (fun i => invariant.contains i = true)
    fun i => goal.contains i = true
  refine ⟨.ok (some (x ⟨s, hs⟩)), by simp, ?_⟩
  rintro α _ I c ⟨h, -, hinitial, rfl⟩
  have hstart : c.initial.toList = [↑(⟨s, hs⟩ : Fin c.size)] := hinitial
  exact .of_settles (h.runs_checkUntil config hstart hinv hgoal hx)

/-- The semantics determines the answer about rewards. -/
theorem Semantics.hasAnswer_checkReward (hP : Kernel.Substochastic S.step) (hs : s < S.size)
    (config : EliminationConfig) {target : StateSet} (htarget : target.size = S.size) :
    S.HasAnswer s fun c => c.checkReward config target := by
  by_cases hrewarded : S.rewarded = true
  · obtain ⟨x, hx⟩ := Kernel.exists_isUntilProbability hP (fun _ => True)
      fun i => target.contains i = true
    rcases (hx.le_one hP ⟨s, hs⟩).lt_or_eq with hlt | hone
    · -- the target is missed with positive probability
      refine ⟨.ok none, by simp, ?_⟩
      rintro α _ I c ⟨h, hr, hinitial, rfl⟩
      have hstart : c.initial.toList = [↑(⟨s, hs⟩ : Fin c.size)] := hinitial
      have hrun := h.runs_checkReward hr hrewarded config hstart htarget hx
      exact (hrun.mono fun r hres => .inl ⟨rfl, hres.1, hres.2.1 hlt⟩).weaken fun _ he =>
        .inl he
    · obtain ⟨E, hE, -⟩ := Kernel.exists_solvesReward hP hx hone S.reward S.transitionReward
      refine ⟨.ok (some (E ⟨s, hs⟩)), by simp, ?_⟩
      rintro α _ I c ⟨h, hr, hinitial, rfl⟩
      have hstart : c.initial.toList = [↑(⟨s, hs⟩ : Fin c.size)] := hinitial
      have hrun := h.runs_checkReward hr hrewarded config hstart htarget hx
      exact .of_settles (hrun.mono fun r hres => hres.2.2 hone E hE)
  · -- without rewards there is no answer
    refine ⟨.error .missingRewardModel, by simp, ?_⟩
    rintro α _ I c ⟨-, -, -, rfl⟩
    have hmissing : (!c.hasRewards) = true := by simpa [semantics] using hrewarded
    change Runs _ _ (c.checkReward config target)
    rw [checkReward, if_pos hmissing]
    exact (Runs.throw (Q := fun _ => False) (.inr rfl)).bind fun _ hfalse => hfalse.elim

/-- The semantics determines the answer about conditional probabilities. -/
theorem Semantics.hasAnswer_checkConditional (hP : Kernel.Substochastic S.step) (hs : s < S.size)
    (config : EliminationConfig) {event condition : StateSet} (hevent : event.size = S.size)
    (hcondition : condition.size = S.size) :
    S.HasAnswer s fun c => c.checkConditional config event condition := by
  obtain ⟨y, hy⟩ := Kernel.exists_isUntilProbability hP (fun _ => True)
    fun i => condition.contains i = true
  obtain ⟨j, hj⟩ := Kernel.exists_isJointProbability hP (fun i => event.contains i)
    fun i => condition.contains i
  by_cases h0 : y ⟨s, hs⟩ = 0
  · -- the condition is never visited
    refine ⟨.error .conditionHasZeroProbability, by simp, ?_⟩
    rintro α _ I c ⟨h, -, hinitial, rfl⟩
    have hstart : c.initial.toList = [↑(⟨s, hs⟩ : Fin c.size)] := hinitial
    have hrun := h.runs_checkConditional config hstart hevent hcondition hy hj
    refine (hrun.mono fun r hres => absurd h0 hres.1).weaken fun e he => he.imp_right ?_
    rintro ⟨rfl, -⟩
    rfl
  · refine ⟨.ok (some (j ⟨s, hs⟩ / y ⟨s, hs⟩)), by simp, ?_⟩
    rintro α _ I c ⟨h, -, hinitial, rfl⟩
    have hstart : c.initial.toList = [↑(⟨s, hs⟩ : Fin c.size)] := hinitial
    have hrun := h.runs_checkConditional config hstart hevent hcondition hy hj
    refine .of_settles ((hrun.mono fun r hres => hres.2).weaken fun e he => ?_)
    exact he.resolve_right fun hzero => h0 hzero.2

end Answers

end MarkovElimination.Chain
