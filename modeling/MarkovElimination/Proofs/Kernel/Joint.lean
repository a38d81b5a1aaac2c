import MarkovElimination.Proofs.Kernel.Until

/-! # Visiting two sets in either order

The probability that both of two sets are visited, in either order, is a reachability probability in
the chain extended by two **flags** that remember which of the sets have been seen
(`IsJointProbability`). From a state of one set it is the probability to reach the other set
(`eq_right`, `eq_left`), and elsewhere it is the expected value after one step (`eq_step`). It is at
most each of the two probabilities, and equal to one of them if the other is one
(`eq_left_of_eq_one`). -/

namespace MarkovElimination.Kernel

variable {σ : Type} [Fintype σ] {P : σ → σ → ℚ} {φ ψ : σ → Bool}

omit [Fintype σ] in
/-- **The chain extended by two flags**: after a step to `t`, each flag also tells whether `t` is in
its set. -/
def flagged (P : σ → σ → ℚ) (φ ψ : σ → Bool) (u v : σ × Bool × Bool) : ℚ :=
  if v.2 = (u.2.1 || φ v.1, u.2.2 || ψ v.1) then P u.1 v.1 else 0

/-- The sum of the steps of the extended chain is a sum over the states alone. -/
theorem sum_flagged (u : σ × Bool × Bool) (y : σ × Bool × Bool → ℚ) :
    ∑ v, flagged P φ ψ u v * y v =
      ∑ t, P u.1 t * y (t, u.2.1 || φ t, u.2.2 || ψ t) := by
  rw [Fintype.sum_prod_type]
  refine Finset.sum_congr rfl fun t _ => ?_
  -- Only one setting of the flags has a positive entry.
  rw [Finset.sum_eq_single (u.2.1 || φ t, u.2.2 || ψ t)]
  · simp [flagged]
  · intro flags _ hne
    simp [flagged, hne]
  · intro hnot
    exact absurd (Finset.mem_univ _) hnot

/-- A step of the extended chain. -/
theorem step_flagged (y : σ × Bool × Bool → ℚ) (s : σ) (a b : Bool) :
    step (flagged P φ ψ) y (s, a, b) = step P (fun t => y (t, a || φ t, b || ψ t)) s :=
  sum_flagged (s, a, b) y

/-- The extended chain is substochastic. -/
theorem Substochastic.flagged (hP : Substochastic P) (φ ψ : σ → Bool) :
    Substochastic (flagged P φ ψ) where
  nonneg u v := by
    unfold Kernel.flagged
    split
    · exact hP.nonneg u.1 v.1
    · exact le_rfl
  row_le u := by
    have h := sum_flagged (P := P) (φ := φ) (ψ := ψ) u fun _ => 1
    simp only [mul_one] at h
    rw [h]
    exact hP.row_le u.1

/-- **The probability to visit both sets**, in either order: both flags are set eventually, where
the flags of the first state say which sets contain it. -/
def IsJointProbability (P : σ → σ → ℚ) (φ ψ : σ → Bool) (j : σ → ℚ) : Prop :=
  ∃ z, IsUntilProbability (flagged P φ ψ) (fun _ => True) (fun u => u.2 = (true, true)) z ∧
    ∀ s, j s = z (s, φ s, ψ s)

/-- There is a joint probability. -/
theorem exists_isJointProbability (hP : Substochastic P) (φ ψ : σ → Bool) :
    ∃ j, IsJointProbability P φ ψ j := by
  obtain ⟨z, hz⟩ := exists_isUntilProbability (hP.flagged φ ψ) (fun _ => True)
    fun u => u.2 = (true, true)
  exact ⟨fun s => z (s, φ s, ψ s), z, hz, fun _ => rfl⟩

/-- A step from a state whose successors are all in `R` is a sum over `R`. -/
theorem step_subtype {R : σ → Prop} [DecidablePred R] {s : σ} (hR : ∀ t, P s t ≠ 0 → R t)
    (z : σ → ℚ) : step P z s = ∑ t : {t // R t}, P s t * z t := by
  have hfilter : step P z s = ∑ t ∈ Finset.univ.filter R, P s t * z t := by
    refine (Finset.sum_subset (Finset.filter_subset _ _) fun t _ ht => ?_).symm
    have h0 : P s t = 0 := by
      by_contra hne
      exact ht (Finset.mem_filter.2 ⟨Finset.mem_univ t, hR t hne⟩)
    rw [h0, zero_mul]
  rw [hfilter]
  exact Finset.sum_subtype _ (fun t => by simp) _

/-- Reachability probabilities of two kernels agree on a set of states where the kernels and the
goals agree, and which is only left from the goal. -/
theorem IsUntilProbability.eq_on {Q : σ → σ → ℚ} (hP : Substochastic P)
    (hQ : Substochastic Q)
    {inv goal goal' : σ → Prop} {x y : σ → ℚ} (hx : IsUntilProbability P inv goal x)
    (hy : IsUntilProbability Q inv goal' y) {R : σ → Prop}
    (hgoal : ∀ s, R s → (goal s ↔ goal' s))
    (hagree : ∀ s, R s → ¬goal s → ∀ t, Q s t = P s t)
    (hclosed : ∀ s t, R s → ¬goal s → P s t ≠ 0 → R t) {s : σ} (hs : R s) :
    x s = y s := by
  classical
  -- Both are the probability of the kernel that is cut down to `R`.
  let ι : {s // R s} → σ := Subtype.val
  have hstep (s : {s // R s}) (hg : ¬goal (ι s)) (z : σ → ℚ) :
      step P z (ι s) = step (fun a b => P (ι a) (ι b)) (fun t => z (ι t)) s :=
    step_subtype (hclosed s · s.2 hg) z
  have hxR := hx.comp_embedding hP (fun a b => hP.nonneg (ι a) (ι b)) Subtype.val_injective
    fun s hg _ z => hstep s hg z
  have hyR := hy.comp_embedding hQ (fun a b => hP.nonneg (ι a) (ι b)) Subtype.val_injective
    fun s hg _ z => by
      have hg' : ¬goal (ι s) := fun h => hg ((hgoal s s.2).1 h)
      rw [← hstep s hg' z]
      exact Finset.sum_congr rfl fun t _ => by rw [hagree s s.2 hg' t]
  have hsame : (fun s : {s // R s} => goal (ι s)) = fun s => goal' (ι s) := by
    funext s
    exact propext (hgoal s s.2)
  rw [hsame] at hxR
  exact congrFun (hxR.unique hyR) ⟨s, hs⟩

namespace IsJointProbability

variable {j x y : σ → ℚ}

/-- **From a state of the first set** it remains to reach the second one. -/
theorem eq_right (hP : Substochastic P) (hj : IsJointProbability P φ ψ j)
    (hy : IsUntilProbability P (fun _ => True) (fun s => ψ s = true) y) {s : σ}
    (hs : φ s = true) : j s = y s := by
  obtain ⟨z, hz, hjz⟩ := hj
  -- With the first flag set, the extended chain is the chain with the second flag.
  have hemb := hz.comp_embedding (hP.flagged φ ψ) hP.nonneg (ι := fun s => (s, true, ψ s))
    (fun a b hab => congrArg Prod.fst hab) (fun s hg _ w => by
      have hψ : ψ s = false := by simpa using hg
      simp [step_flagged, hψ])
  have hgoal : (fun s => ((s, true, ψ s) : σ × Bool × Bool).2 = (true, true)) =
      fun s => ψ s = true := by
    funext s
    simp
  rw [hgoal] at hemb
  rw [hjz, hs]
  exact congrFun (hemb.unique hy) s

/-- The two sets have the same role. -/
theorem symm (hP : Substochastic P) (hj : IsJointProbability P φ ψ j) :
    IsJointProbability P ψ φ j := by
  obtain ⟨z, hz, hjz⟩ := hj
  -- An exchange of the flags embeds one extended chain in the other.
  have hemb := hz.comp_embedding (Q := flagged P ψ φ) (hP.flagged φ ψ) (hP.flagged ψ φ).nonneg
    (ι := fun u => (u.1, u.2.2, u.2.1)) ?_ ?_
  · refine ⟨fun u => z (u.1, u.2.2, u.2.1), ?_, hjz⟩
    have hgoal : (fun u : σ × Bool × Bool => (u.2.2, u.2.1) = (true, true)) =
        fun u => u.2 = (true, true) := by
      funext u
      simp [Prod.ext_iff, and_comm]
    rwa [hgoal] at hemb
  · rintro ⟨s, a, b⟩ ⟨t, c, d⟩ h
    simp only [Prod.mk.injEq] at h
    simp [h.1, h.2.1, h.2.2]
  · rintro ⟨s, a, b⟩ - - y
    rw [step_flagged, step_flagged]

/-- **From a state of the second set** it remains to reach the first one. -/
theorem eq_left (hP : Substochastic P) (hj : IsJointProbability P φ ψ j)
    (hx : IsUntilProbability P (fun _ => True) (fun s => φ s = true) x) {s : σ}
    (hs : ψ s = true) : j s = x s :=
  (hj.symm hP).eq_right hP hx hs

/-- **Outside of both sets** a joint probability is the expected value after one step. -/
theorem eq_step (hj : IsJointProbability P φ ψ j) {s : σ} (hφ : φ s = false)
    (hψ : ψ s = false) : j s = step P j s := by
  obtain ⟨z, hz, hjz⟩ := hj
  rw [hjz, hz.solves.inside _ (by simp [hφ]) trivial, step_flagged, hφ, hψ]
  simp only [Bool.false_or, ← hjz]

/-- A joint probability is not negative. -/
theorem nonneg (hj : IsJointProbability P φ ψ j) (s : σ) : 0 ≤ j s := by
  obtain ⟨z, hz, hjz⟩ := hj
  rw [hjz]
  exact hz.nonneg _

/-- The joint probability is at most the probability to reach the first set. -/
theorem le_left (hP : Substochastic P) (hj : IsJointProbability P φ ψ j)
    (hx : IsUntilProbability P (fun _ => True) (fun s => φ s = true) x) (s : σ) :
    j s ≤ x s := by
  obtain ⟨z, hz, hjz⟩ := hj
  -- One with the first flag set, and otherwise the probability to reach the first set.
  let w (u : σ × Bool × Bool) : ℚ := if u.2.1 then 1 else x u.1
  have hw (u : σ × Bool × Bool) : w u ≤ 1 := by
    unfold w
    split
    · exact le_rfl
    · exact hx.le_one hP u.1
  have hsuper := hz.le_of_super (hP.flagged φ ψ) (y := w) ?_ ?_ ?_ (s, φ s, ψ s)
  · rw [hjz]
    refine hsuper.trans ?_
    unfold w
    split
    · rename_i hs
      rw [hx.solves.at_goal s hs]
    · exact le_rfl
  · intro u
    unfold w
    split
    · exact zero_le_one
    · exact hx.nonneg u.1
  · intro u hu
    simp [w, hu]
  · rintro ⟨t, a, b⟩ - -
    cases a with
    | true => exact (hP.flagged φ ψ).step_le_one hw _
    | false =>
      by_cases ht : φ t = true
      · have hone : w (t, false, b) = 1 := hx.solves.at_goal t ht
        rw [hone]
        exact (hP.flagged φ ψ).step_le_one hw _
      · have hval : w (t, false, b) = x t := rfl
        rw [hval, hx.solves.inside t ht trivial, step_flagged]
        refine step_mono (hP.nonneg t) fun v _ => ?_
        unfold w
        by_cases hv : φ v = true
        · simp [hv, hx.solves.at_goal v hv]
        · simp [hv]

/-- The joint probability is at most the probability to reach the second set. -/
theorem le_right (hP : Substochastic P) (hj : IsJointProbability P φ ψ j)
    (hy : IsUntilProbability P (fun _ => True) (fun s => ψ s = true) y) (s : σ) : j s ≤ y s :=
  (hj.symm hP).le_left hP hy s

/-- **If the second set is reached with probability one**, the joint probability is that of the
first set. -/
theorem eq_left_of_eq_one (hP : Stochastic P) (hj : IsJointProbability P φ ψ j)
    (hx : IsUntilProbability P (fun _ => True) (fun s => φ s = true) x)
    (hy : IsUntilProbability P (fun _ => True) (fun s => ψ s = true) y) {s : σ} (hs : y s = 1) :
    j s = x s := by
  have hsub := hP.substochastic
  refine le_antisymm (hj.le_left hsub hx s) ?_
  -- What is missing from the second set bounds what is missing from the joint probability.
  have hbound := hx.le_of_super hsub (y := fun t => min (x t) (j t + 1 - y t)) ?_ ?_ ?_ s
  · have := hbound.trans (min_le_right _ _)
    linarith
  · intro t
    refine le_min (hx.nonneg t) ?_
    linarith [hj.nonneg t, hy.le_one hsub t]
  · intro t ht
    rw [hx.solves.at_goal t ht, hj.eq_right hsub hy ht]
    exact le_min le_rfl (by linarith)
  · intro t ht _
    have hstep_x : step P (fun u => min (x u) (j u + 1 - y u)) t ≤ x t := by
      rw [hx.solves.inside t ht trivial]
      exact step_mono (hP.nonneg t) fun u _ => min_le_left _ _
    refine le_min hstep_x ?_
    by_cases htψ : ψ t = true
    · -- In the second set the bound is the probability of the first set.
      rw [hj.eq_left hsub hx htψ, hy.solves.at_goal t htψ]
      linarith
    · have hone : step P (fun _ => (1 : ℚ)) t = 1 := by rw [step_const, hP.row_eq, mul_one]
      rw [hj.eq_step (by simpa using ht) (by simpa using htψ), hy.solves.inside t htψ trivial]
      calc step P (fun u => min (x u) (j u + 1 - y u)) t
          ≤ step P (fun u => j u + 1 - y u) t :=
            step_mono (hP.nonneg t) fun u _ => min_le_right _ _
        _ = step P j t + 1 - step P y t := by
            rw [step_sub (fun u => j u + 1) y, step_add j fun _ => 1, hone]

/-- A joint probability that vanishes on both sets vanishes everywhere. -/
theorem eq_zero (hP : Substochastic P) (hj : IsJointProbability P φ ψ j)
    (hzero : ∀ t, φ t = true ∨ ψ t = true → j t = 0) (s : σ) : j s = 0 := by
  obtain ⟨z, hz, hjz⟩ := hj
  refine le_antisymm ?_ (by rw [hjz]; exact hz.nonneg _)
  by_cases hs : φ s = true ∨ ψ s = true
  · exact (hzero s hs).le
  -- Zero as long as no flag is set and no set is visited.
  let w (u : σ × Bool × Bool) : ℚ :=
    if u.2 = (false, false) ∧ ¬(φ u.1 = true ∨ ψ u.1 = true) then 0 else z u
  have hwz (u : σ × Bool × Bool) : w u ≤ z u := by
    unfold w
    split
    · exact hz.nonneg u
    · exact le_rfl
  have hsuper := hz.le_of_super (hP.flagged φ ψ) (y := w) ?_ ?_ ?_ (s, φ s, ψ s)
  · rw [hjz]
    refine hsuper.trans (le_of_eq ?_)
    rw [not_or, Bool.not_eq_true, Bool.not_eq_true] at hs
    simp [w, hs.1, hs.2]
  · intro u
    unfold w
    split
    · exact le_rfl
    · exact hz.nonneg u
  · intro u hu
    have hval : w u = z u := if_neg (by simp [hu])
    rw [hval, hz.solves.at_goal u hu]
  · rintro ⟨t, a, b⟩ hg -
    by_cases ht : (a, b) = (false, false) ∧ ¬(φ t = true ∨ ψ t = true)
    · have hval : w (t, a, b) = 0 := if_pos ht
      obtain ⟨rfl, rfl⟩ := Prod.mk.inj ht.1
      rw [hval, step_flagged]
      refine le_of_eq (Finset.sum_eq_zero fun v _ => mul_eq_zero_of_right _ ?_)
      simp only [Bool.false_or]
      by_cases hv : φ v = true ∨ ψ v = true
      · have hval : w (v, φ v, ψ v) = z (v, φ v, ψ v) := if_neg fun h => h.2 hv
        rw [hval, ← hjz, hzero v hv]
      · rw [not_or, Bool.not_eq_true, Bool.not_eq_true] at hv
        simp [w, hv.1, hv.2]
    · have hval : w (t, a, b) = z (t, a, b) := if_neg ht
      rw [hval, hz.solves.inside _ hg trivial]
      exact step_mono ((hP.flagged φ ψ).nonneg _) fun v _ => hwz v

/-- Joint probabilities only depend on the states of the second set that are visited first: two such
sets may be exchanged on a set of states that is left from the second set only. -/
theorem eq_on (hP : Substochastic P) {ψ' : σ → Bool} (hj : IsJointProbability P φ ψ j)
    {k : σ → ℚ} (hk : IsJointProbability P φ ψ' k) {R : σ → Prop}
    (hagree : ∀ s, R s → ψ' s = ψ s)
    (hclosed : ∀ s t, R s → ψ s = false → P s t ≠ 0 → R t) {s : σ}
    (hs : R s) : j s = k s := by
  obtain ⟨z, hz, hjz⟩ := hj
  obtain ⟨w, hw, hkw⟩ := hk
  rw [hjz, hkw, hagree s hs]
  -- The extended chains agree as long as the second set is not seen, and afterwards.
  refine hz.eq_on (hP.flagged φ ψ) (hP.flagged φ ψ') hw
    (R := fun u => u.2.2 = true ∨ R u.1 ∧ ψ u.1 = false) (fun _ _ => Iff.rfl) ?_ ?_ ?_
  · rintro ⟨t, a, b⟩ hu - ⟨v, c, d⟩
    unfold flagged
    rcases hu with hb | ⟨ht, htψ⟩
    · simp only at hb
      simp [hb]
    · by_cases hP0 : P t v = 0
      · simp [hP0]
      · rw [hagree v (hclosed t v ht htψ hP0)]
  · rintro ⟨t, a, b⟩ ⟨v, c, d⟩ hu - hne
    unfold flagged at hne
    split at hne
    · rename_i hflags
      simp only [Prod.mk.injEq] at hflags
      rcases hu with hb | ⟨ht, htψ⟩
      · simp only at hb
        exact .inl (by simp [hflags.2, hb])
      · have hv := hclosed t v ht htψ hne
        by_cases hvψ : ψ v = true
        · exact .inl (by simp [hflags.2, hvψ])
        · exact .inr ⟨hv, by simpa using hvψ⟩
    · exact absurd rfl hne
  · by_cases hsψ : ψ s = true
    · exact .inl hsψ
    · exact .inr ⟨hs, by simpa using hsψ⟩

end IsJointProbability

end MarkovElimination.Kernel
