import Mathlib

/-! # Comparison of solutions of linear systems

A **kernel** over a finite state space gives every ordered pair of states a rational number. This
file is about systems `x = b + P x` on a set `U` of states, with given values outside of it. If
entries are non-negative, rows sum to at most one and every state of `U` reaches a state outside,
then `U` is **transient**: what dominates its own step on `U` and is non-negative outside is
non-negative everywhere (`Transient.nonneg_of_step_le`). Hence such a system has exactly one
solution, and there is a positive vector that `P` strictly decreases (`Transient.exists_drain`). -/

namespace MarkovElimination.Kernel

variable {σ : Type} [Fintype σ] {P : σ → σ → ℚ}

/-- The expected value of `x` after one step from `s`. -/
def step (P : σ → σ → ℚ) (x : σ → ℚ) (s : σ) : ℚ := ∑ t, P s t * x t

/-- Some path of positive entries leads from `s` to `t`. -/
def Reaches (P : σ → σ → ℚ) (s t : σ) : Prop :=
  Relation.ReflTransGen (fun a b => 0 < P a b) s t

/-- The step of a difference. -/
theorem step_sub (x y : σ → ℚ) (s : σ) :
    step P (fun t => x t - y t) s = step P x s - step P y s := by
  simp only [step, mul_sub, Finset.sum_sub_distrib]

/-- The step of a sum. -/
theorem step_add (x y : σ → ℚ) (s : σ) :
    step P (fun t => x t + y t) s = step P x s + step P y s := by
  simp only [step, mul_add, Finset.sum_add_distrib]

/-- The step of a multiple. -/
theorem step_smul (c : ℚ) (x : σ → ℚ) (s : σ) :
    step P (fun t => c * x t) s = c * step P x s := by
  rw [step, step, Finset.mul_sum]
  exact Finset.sum_congr rfl fun t _ => by ring

/-- The step of a constant is the row sum times the constant. -/
theorem step_const (c : ℚ) (s : σ) : step P (fun _ => c) s = (∑ t, P s t) * c := by
  rw [step, Finset.sum_mul]

/-- A step only looks at the successors. -/
theorem step_congr {x y : σ → ℚ} {s : σ} (h : ∀ t, P s t ≠ 0 → x t = y t) :
    step P x s = step P y s := by
  refine Finset.sum_congr rfl fun t _ => ?_
  by_cases ht : P s t = 0
  · rw [ht, zero_mul, zero_mul]
  · rw [h t ht]

omit [Fintype σ] in
/-- A summand of a step keeps an inequality that holds at a successor. -/
theorem mul_le_mul_of_edge {x y : σ → ℚ} {s t : σ} (hP : 0 ≤ P s t)
    (h : 0 < P s t → x t ≤ y t) : P s t * x t ≤ P s t * y t := by
  rcases hP.eq_or_lt with h0 | h0
  · rw [← h0, zero_mul, zero_mul]
  · exact mul_le_mul_of_nonneg_left (h h0) h0.le

/-- A step keeps an inequality that holds at all successors. -/
theorem step_mono {x y : σ → ℚ} {s : σ} (hP : ∀ t, 0 ≤ P s t)
    (h : ∀ t, 0 < P s t → x t ≤ y t) : step P x s ≤ step P y s := by
  apply Finset.sum_le_sum
  intro t _
  exact mul_le_mul_of_edge (hP t) (h t)

/-- A step is strictly smaller if one successor is. -/
theorem step_lt_step {x y : σ → ℚ} {s t : σ} (hP : ∀ t, 0 ≤ P s t)
    (h : ∀ t, 0 < P s t → x t ≤ y t) (ht : 0 < P s t) (hlt : x t < y t) :
    step P x s < step P y s := by
  refine Finset.sum_lt_sum (fun u _ => ?_) ⟨t, Finset.mem_univ t, mul_lt_mul_of_pos_left hlt ht⟩
  exact mul_le_mul_of_edge (hP u) (h u)

/-- **A transient set**: rows are substochastic, and every state of the set reaches a state outside
of it. -/
structure Transient (P : σ → σ → ℚ) (U : σ → Prop) : Prop where
  nonneg : ∀ s t, 0 ≤ P s t
  row_le : ∀ s, U s → ∑ t, P s t ≤ 1
  exits : ∀ s, U s → ∃ t, ¬U t ∧ Reaches P s t

namespace Transient

variable {U : σ → Prop}

/-- At a state where a supersolution takes its negative minimum, all successors take it too. -/
theorem eq_of_isMin (hU : Transient P U) {z : σ → ℚ} {m : ℚ} (hm : m < 0)
    (hmin : ∀ t, m ≤ z t)
    (hz : ∀ s, U s → step P z s ≤ z s) {s : σ} (hs : U s) (hsm : z s = m) {t : σ}
    (ht : 0 < P s t) : z t = m := by
  by_contra hne
  have hlt : m < z t := lt_of_le_of_ne (hmin t) (Ne.symm hne)
  have h₁ : step P (fun _ => m) s < step P z s :=
    step_lt_step (hU.nonneg s) (fun u _ => hmin u) ht hlt
  -- A row sum of at most one only raises a negative constant.
  have h₂ : m ≤ step P (fun _ => m) s := by
    rw [step_const]
    nlinarith [hU.row_le s hs]
  linarith [hz s hs]

/-- **Minimum principle.** What dominates its own step on a transient set and is non-negative
outside is non-negative everywhere. -/
theorem nonneg_of_step_le (hU : Transient P U) {z : σ → ℚ} (hout : ∀ s, ¬U s → 0 ≤ z s)
    (hz : ∀ s, U s → step P z s ≤ z s) (s : σ) : 0 ≤ z s := by
  by_contra hneg
  obtain ⟨s₀, -, hs₀⟩ := Finset.exists_min_image Finset.univ z ⟨s, Finset.mem_univ s⟩
  have hmin : ∀ t, z s₀ ≤ z t := fun t => hs₀ t (Finset.mem_univ t)
  have hm : z s₀ < 0 := lt_of_le_of_lt (hmin s) (not_le.1 hneg)
  have hin : ∀ t, z t = z s₀ → U t := by
    intro t ht
    by_contra hnU
    linarith [hout t hnU]
  -- The minimum travels along every path, also to a state outside, where it cannot be.
  obtain ⟨t, hnt, hpath⟩ := hU.exits s₀ (hin s₀ rfl)
  have htravel : z t = z s₀ := by
    clear hnt
    induction hpath with
    | refl => rfl
    | tail _ hedge ih => exact hU.eq_of_isMin hm hmin hz (hin _ ih) ih hedge
  exact hnt (hin t htravel)

/-- Two solutions on a transient set that agree outside agree everywhere. -/
theorem eq_of_solutions (hU : Transient P U) {b x y : σ → ℚ}
    (hout : ∀ s, ¬U s → x s = y s)
    (hx : ∀ s, U s → x s = b s + step P x s) (hy : ∀ s, U s → y s = b s + step P y s)
    (s : σ) : x s = y s := by
  -- The constant terms cancel in a difference, which is therefore equal to its own step on `U`.
  have hxy := hU.nonneg_of_step_le (z := fun t => x t - y t)
    (fun t ht => by rw [hout t ht, sub_self])
    (fun t ht => by rw [step_sub]; linarith [hx t ht, hy t ht]) s
  have hyx := hU.nonneg_of_step_le (z := fun t => y t - x t)
    (fun t ht => by rw [hout t ht, sub_self])
    (fun t ht => by rw [step_sub]; linarith [hx t ht, hy t ht]) s
  linarith

open Classical in
/-- The left side `x - P x` of a system on `U`, with the plain value outside of `U`. -/
noncomputable def operator (P : σ → σ → ℚ) (U : σ → Prop) :
    (σ → ℚ) →ₗ[ℚ] (σ → ℚ) where
  toFun x s := if U s then x s - step P x s else x s
  map_add' x y := by
    funext s
    have h := step_add (P := P) x y s
    simp only [Pi.add_apply]
    split
    · rw [show step P (x + y) s = step P x s + step P y s from h]
      ring
    · rfl
  map_smul' c x := by
    funext s
    have h := step_smul (P := P) c x s
    simp only [Pi.smul_apply, smul_eq_mul, RingHom.id_apply]
    split
    · rw [show step P (c • x) s = c * step P x s from h]
      ring
    · rfl

/-- **Solvability.** On a transient set the system `x = b + P x` with values `c` outside has a
solution. -/
theorem exists_solution (hU : Transient P U) (b c : σ → ℚ) :
    ∃ x : σ → ℚ, (∀ s, U s → x s = b s + step P x s) ∧ ∀ s, ¬U s → x s = c s := by
  classical
  -- Solutions are unique and the space has finite dimension, so there is one for each right side.
  have hinj : Function.Injective (operator P U) := by
    rw [injective_iff_map_eq_zero]
    intro x hx
    have happ (s : σ) : (if U s then x s - step P x s else x s) = 0 := congrFun hx s
    funext s
    refine hU.eq_of_solutions (b := fun _ => 0) (y := fun _ => 0) ?_ ?_ ?_ s
    · intro t ht
      simpa [ht] using happ t
    · intro t ht
      have := happ t
      rw [if_pos ht] at this
      linarith
    · intro t _
      simp [step]
  obtain ⟨x, hx⟩ := LinearMap.surjective_of_injective hinj fun s => if U s then b s else c s
  have happ (s : σ) : (if U s then x s - step P x s else x s) = if U s then b s else c s :=
    congrFun hx s
  refine ⟨x, fun s hs => ?_, fun s hs => ?_⟩
  · have := happ s
    rw [if_pos hs, if_pos hs] at this
    linarith
  · have := happ s
    rwa [if_neg hs, if_neg hs] at this

/-- **A draining vector**: positive on a transient set, zero outside, and strictly decreased by
every step from the set. -/
theorem exists_drain (hU : Transient P U) :
    ∃ y : σ → ℚ, (∀ s, U s → 0 < y s) ∧ (∀ s, ¬U s → y s = 0) ∧ ∀ s, U s →
    step P y s < y s := by
  -- The expected number of steps before the set is left.
  obtain ⟨y, hy, hout⟩ := hU.exists_solution (fun _ => 1) fun _ => 0
  have hnonneg : ∀ s, 0 ≤ y s :=
    hU.nonneg_of_step_le (fun s hs => (hout s hs).ge) fun s hs => by linarith [hy s hs]
  refine ⟨y, fun s hs => ?_, hout, fun s hs => by linarith [hy s hs]⟩
  have hstep : 0 ≤ step P y s :=
    Finset.sum_nonneg fun t _ => mul_nonneg (hU.nonneg s t) (hnonneg t)
  linarith [hy s hs]

end Transient

end MarkovElimination.Kernel
