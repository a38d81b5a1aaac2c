import MarkovElimination.Proofs.Kernel.Until

/-! # Expected rewards as solutions of equations

Rewards are collected until a target is reached. The **expected reward** solves a system of
equations on the states that are reached before the target: the reward of the state, plus the
expected reward of the transition and of what follows. If the target is reached with probability one
then these states are transient (`transient_reachedBefore`), so the system has exactly one solution
(`exists_solvesReward`, `SolvesReward.unique`), whatever the signs of the rewards. -/

namespace MarkovElimination.Kernel

variable {σ : Type} [Fintype σ] {P : σ → σ → ℚ} {target : σ → Prop} {s₀ : σ}

/-- A path that does not leave the target leads from `s₀` to `s`. -/
def ReachedBefore (P : σ → σ → ℚ) (target : σ → Prop) (s₀ s : σ) : Prop :=
  Relation.ReflTransGen (fun a b => ¬target a ∧ 0 < P a b) s₀ s

/-- **The equations of expected rewards**, with rewards `r` of states and `R` of transitions: zero
on the target, and on the states that are reached before it, what is collected there and later. -/
structure SolvesReward (P : σ → σ → ℚ) (target : σ → Prop) (s₀ : σ) (r : σ → ℚ)
    (R : σ → σ → ℚ) (E : σ → ℚ) : Prop where
  at_target : ∀ s, target s → E s = 0
  before : ∀ s, ReachedBefore P target s₀ s → ¬target s →
    E s = r s + ∑ t, P s t * (R s t + E t)

/-- The reward of a step, in equations of the usual form. -/
theorem sum_reward (r : σ → ℚ) (R : σ → σ → ℚ) (E : σ → ℚ) (s : σ) :
    r s + ∑ t, P s t * (R s t + E t) = (r s + ∑ t, P s t * R s t) + step P E s := by
  simp only [mul_add, Finset.sum_add_distrib, step, add_assoc]

variable {x : σ → ℚ}

/-- If the target is reached with probability one, then also from every state that is reached before
it. -/
theorem ReachedBefore.eq_one (hP : Substochastic P)
    (hx : IsUntilProbability P (fun _ => True) target x) (hone : x s₀ = 1) {s : σ}
    (hs : ReachedBefore P target s₀ s) : x s = 1 := by
  by_contra hne
  have hlt := hx.lt_one_of_path hP hs (lt_of_le_of_ne (hx.le_one hP s) hne)
  exact hlt.ne hone

/-- If the target is reached with probability one, then the states before it are transient. -/
theorem transient_reachedBefore (hP : Substochastic P)
    (hx : IsUntilProbability P (fun _ => True) target x) (hone : x s₀ = 1) :
    Transient P fun s => ReachedBefore P target s₀ s ∧ ¬target s where
  nonneg := hP.nonneg
  row_le s _ := hP.row_le s
  exits s hs := by
    have hpos : 0 < x s := by
      rw [hs.1.eq_one hP hx hone]
      exact zero_lt_one
    obtain ⟨t, ht, hpath⟩ := (hx.pos_iff hP).1 hpos
    exact ⟨t, fun h => h.2 ht, hpath.lift id fun _ _ hab => hab.2⟩

/-- **Existence.** There is a solution that vanishes at all other states. -/
theorem exists_solvesReward (hP : Substochastic P)
    (hx : IsUntilProbability P (fun _ => True) target x) (hone : x s₀ = 1) (r : σ → ℚ)
    (R : σ → σ → ℚ) : ∃ E, SolvesReward P target s₀ r R E ∧
      ∀ s, ¬(ReachedBefore P target s₀ s ∧ ¬target s) → E s = 0 := by
  obtain ⟨E, hin, hout⟩ := (transient_reachedBefore hP hx hone).exists_solution
    (fun s => r s + ∑ t, P s t * R s t) fun _ => 0
  -- The target is outside of the transient states, where the solution vanishes.
  refine ⟨E, ⟨fun s hs => hout s fun h => h.2 hs, fun s hs ht => ?_⟩, hout⟩
  rw [sum_reward]
  exact hin s ⟨hs, ht⟩

open Classical in
/-- **Uniqueness.** All solutions agree on the states that are reached. -/
theorem SolvesReward.unique (hP : Substochastic P)
    (hx : IsUntilProbability P (fun _ => True) target x) (hone : x s₀ = 1) {r : σ → ℚ}
    {R : σ → σ → ℚ} {E F : σ → ℚ} (hE : SolvesReward P target s₀ r R E)
    (hF : SolvesReward P target s₀ r R F) {s : σ} (hs : ReachedBefore P target s₀ s) :
    E s = F s := by
  by_cases hts : target s
  · rw [hE.at_target s hts, hF.at_target s hts]
  -- Successors are reached too, so solutions may be cut off elsewhere.
  have hcut (G : σ → ℚ) (hG : SolvesReward P target s₀ r R G) (a : σ)
      (ha : ReachedBefore P target s₀ a ∧ ¬target a) :
      (if ReachedBefore P target s₀ a ∧ ¬target a then G a else 0) =
        (r a + ∑ t, P a t * R a t) + step P
          (fun t => if ReachedBefore P target s₀ t ∧ ¬target t then G t else 0) a := by
    rw [if_pos ha, hG.before a ha.1 ha.2, sum_reward]
    congr 1
    refine step_congr fun t ht => ?_
    have hat := lt_of_le_of_ne (hP.nonneg a t) (Ne.symm ht)
    by_cases htt : target t
    · simp [htt, hG.at_target t htt]
    · have hreach : ReachedBefore P target s₀ t := ha.1.tail ⟨ha.2, hat⟩
      simp [htt, hreach]
  have h := (transient_reachedBefore hP hx hone).eq_of_solutions (fun a ha => by simp [ha])
    (hcut E hE) (hcut F hF) s
  simpa [hs, hts] using h

end MarkovElimination.Kernel
