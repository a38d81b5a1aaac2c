import MarkovElimination.Elimination.Strategy
import MarkovElimination.Proofs.Elimination.Consistency
import MarkovElimination.Proofs.Weight.Interpretation

/-! # What an elimination does to the equations

A problem stands for the equations `x(s) = v(s) + Σ M(s, t) * x(t)`. Once the self-loop `L` of a
state is resolved, its row gives a vector `x` the **exit value** `(Σ M(s, t) * x(t) - L * x(s)) /
(1 - L)`. Eliminating `s` adds `M(i, s) * (exit - x(s))` to the row of every predecessor `i` that is
redirected, and keeps all other rows (`eliminate_meets`). Everything that later proofs use of an
elimination is in the structure `Eliminated`. The state that is left at the end gets its exit value
(`runs_eliminateLast`). -/

namespace MarkovElimination

namespace Weight.Unbounded

variable {α : Type} [Weight α]

theorem sumFits (h : Unbounded α) (a b : α) : Weight.sumFits a b = true := by
  rw [Weight.sumFits, h.addFits, h.simplifyFits]
  rfl

theorem productFits (h : Unbounded α) (a b : α) : Weight.productFits a b = true := by
  rw [Weight.productFits, h.mulFits, h.simplifyFits]
  rfl

theorem scaleFits (h : Unbounded α) (f : α) (row : Row α) : row.scaleFits f = true := by
  rw [Row.scaleFits, List.all_eq_true]
  intro e _
  exact h.productFits _ _

theorem addScaledFits (h : Unbounded α) (m : α) (row other : Row α) :
    Row.addScaledFits m row other = true := by
  rw [Row.addScaledFits, List.all_eq_true]
  intro e _
  rw [h.productFits, Bool.true_and]
  cases row.get? e.column with
  | none => rfl
  | some a => exact h.sumFits _ _

theorem updateFits (h : Unbounded α) (r : Redirection α) (mode : ValueMode) (m : α)
    (row : Row α) (a : α) : r.updateFits mode m row a = true := by
  have hflow : r.flowFits mode m = true := by
    unfold Redirection.flowFits
    split
    · rw [h.mulFits, h.productFits]
      rfl
    · exact h.productFits _ _
  rw [Redirection.updateFits, h.addScaledFits, hflow, h.sumFits]
  rfl

theorem rescaleFits (h : Unbounded α) (p : Problem α) (s : Nat) (f : α) :
    p.rescaleFits s f = true := by
  rw [Problem.rescaleFits, h.scaleFits, Bool.true_and]
  cases p.mode with
  | probabilities => exact h.productFits _ _
  | rewards => rfl

/-- Without a range, values can be added to a total. -/
theorem totalFits (h : Unbounded α) (total : α) (row : Row α) : row.totalFits total = true := by
  induction row generalizing total with
  | nil => rfl
  | cons e row ih => simp [Row.totalFits, h.addFits, ih]

/-- Without a range, values can be added up. -/
theorem rowSumFits (h : Unbounded α) (row : Row α) : row.sumFits = true := by
  simp [Row.sumFits, h.totalFits, h.simplifyFits]

end Weight.Unbounded

namespace Problem

variable {α K : Type} [Weight α] [Field K] (I : Interpretation α K)

/-- All entries and all values have values under the interpretation. -/
structure Valid (p : Problem α) : Prop where
  rows : ∀ s, I.ValidRow (p.row s)
  values : ∀ s, I.Valid (p.value s)

/-- Rational numbers have values. -/
theorem valid_rat (p : Problem ℚ) : p.Valid .rat := ⟨fun _ _ _ => trivial, fun _ => trivial⟩

/-- The self-loop of a state, zero if there is none. -/
def loop (p : Problem α) (s : Nat) : K := I.coefficient (p.row s) s

variable {I} in
/-- Without an entry there is no self-loop. -/
theorem loop_of_get?_eq_none {p : Problem α} {s : Nat} (h : (p.row s).get? s = none) :
    p.loop I s = 0 :=
  I.coefficient_of_not_mem (Row.get?_eq_none_iff.1 h)

/-- What the row of a state gives a vector once the self-loop is resolved. -/
def exit (p : Problem α) (s : Nat) (x : Nat → K) : K :=
  (I.dot (p.row s) x - p.loop I s * x s) / (1 - p.loop I s)

/-- The value of a state once the self-loop is resolved. -/
def exitValue (p : Problem α) (s : Nat) : K := I.value (p.value s) / (1 - p.loop I s)

/-- A plan together with the values of what it holds. -/
structure Planned (p : Problem α) (s : Nat) (drop : Bool) (constraint : Option StateSet)
    (r : Redirection α) : Prop extends p.IsPlan s drop constraint r where
  /-- What leaves the state is its row without the self-loop, scaled by the factor. -/
  outgoing_eq : (p.loop I s = 0 ∧ r.factor = none ∧ r.outgoing = (p.row s).erase s) ∨
    ∃ f, I.Valid f ∧ I.value f = (1 - p.loop I s)⁻¹ ∧ r.factor = some f ∧
      r.outgoing = ((p.row s).erase s).scale f
  valid_value : I.Valid r.value
  value_eq : I.value r.value =
    match p.mode with
    | .probabilities => p.exitValue I s
    | .rewards => I.value (p.value s)

variable {I}

omit [Weight α] in
/-- A constraint **covers** the predecessors of a state: it is a set over enough states to tell
which of them are members. -/
def Covers (p : Problem α) (s : Nat) (constraint : Option StateSet) : Prop :=
  ∀ set ∈ constraint, ∀ i ∈ p.predecessors s, i ≠ s → i < set.size

omit [Weight α] in
/-- Without a constraint there is nothing to cover. -/
theorem covers_none (p : Problem α) (s : Nat) : p.Covers s none := by
  intro set hset
  cases hset

omit [Weight α] in
/-- A set over the states of a consistent problem covers the predecessors of all states. -/
theorem Consistent.covers {p : Problem α} (hp : p.Consistent) {s : Nat}
    {constraint : Option StateSet} (h : ∀ set ∈ constraint, set.size = p.size) :
    p.Covers s constraint := by
  intro set hset i hi _
  rw [h set hset]
  exact lt_size_of_mem_columns ((hp.agree i s).1 hi)

omit [Weight α] in
/-- A set that covers the predecessors passes the check of its range. -/
theorem Covers.find?_eq_none {p : Problem α} {s : Nat} {set : StateSet}
    (h : p.Covers s (some set)) :
    ((p.predecessors s).filter (· != s)).find? (set.size ≤ ·) = none := by
  rw [List.find?_eq_none]
  intro i hi
  obtain ⟨hmem, hne⟩ := List.mem_filter.1 hi
  simpa using h set rfl i hmem (by simpa using hne)

/-- **The factor of the self-loop** of a state is known unless it leaves the range. -/
theorem rescaling_meets {p : Problem α} (hv : p.Valid I) {s : Nat} (hloop : p.loop I s ≠ 1) :
    Meets I.RangeFault (fun factor => (p.loop I s = 0 ∧ factor = none) ∨
      ∃ f, I.Valid f ∧ I.value f = (1 - p.loop I s)⁻¹ ∧
      factor = some f) (p.rescaling s) := by
  rw [rescaling]
  cases hget : (p.row s).get? s with
  | none => exact .inl ⟨loop_of_get?_eq_none hget, rfl⟩
  | some a =>
    have ha : p.loop I s = I.value a := I.coefficient_of_get? hget
    refine (I.loopFactor_meets ((hv.rows s).get? I hget) (by rwa [← ha])).bind fun f hf => ?_
    refine (I.requireRange_meets fun h => h.rescaleFits p s f).bind fun _ _ => ?_
    exact .inr ⟨f, hf.1, by rw [hf.2, ha], rfl⟩

/-- **A plan that is found** has the values of a plan, if the self-loop of its state is not one. -/
theorem planned_of_redirection {p : Problem α} (hv : p.Valid I) {s : Nat}
    (hloop : p.loop I s ≠ 1) {drop : Bool} {constraint : Option StateSet} {r : Redirection α}
    (hr : p.redirection s drop constraint = .ok r) : p.Planned I s drop constraint r := by
  have hplan := isPlan_of_redirection hr
  obtain ⟨-, factor, hresc, -, hfactor, hout, hvalue, -⟩ := redirection_eq_ok hr
  have hmeets := rescaling_meets hv hloop
  rw [hresc] at hmeets
  -- The plan is computed from the factor, so it is enough to look at the two kinds of factors.
  rcases hmeets with ⟨h0, rfl⟩ | ⟨f, hf, hfval, rfl⟩
  · refine ⟨hplan, .inl ⟨h0, hfactor, hout⟩, ?_, ?_⟩
    · rw [hvalue]
      cases p.mode <;> exact hv.values s
    · rw [hvalue]
      cases hmode : p.mode with
      | probabilities => simp [exitValue, h0]
      | rewards => rfl
  · refine ⟨hplan, .inr ⟨f, hf, hfval, hfactor, hout⟩, ?_, ?_⟩
    · rw [hvalue]
      cases p.mode with
      | probabilities => exact (I.simplify_mul (hv.values s) hf).1
      | rewards => exact hv.values s
    · rw [hvalue]
      cases hmode : p.mode with
      | probabilities =>
        show I.value (Weight.simplify (p.value s * f)) = _
        rw [(I.simplify_mul (hv.values s) hf).2, hfval]
        exact (div_eq_mul_inv _ _).symm
      | rewards => rfl

omit [Field K] in
/-- **No check of a plan but that of the factor can fail**, if the state is a state of the problem
and the constraint covers its predecessors. -/
theorem rescaling_eq_error {p : Problem α} {s : Nat} (hs : s < p.size) {drop : Bool}
    {constraint : Option StateSet} (hcovers : p.Covers s constraint) {f : Fault}
    (hr : p.redirection s drop constraint = .error f) : p.rescaling s = .error f := by
  unfold redirection at hr
  rw [if_neg (not_le.2 hs)] at hr
  simp only [bind, Except.bind, pure, Except.pure] at hr
  split at hr
  · rename_i f' hf
    rw [hf]
    simpa using hr
  · exfalso
    cases constraint with
    | none => simp at hr
    | some set => simp [hcovers.find?_eq_none] at hr

/-- **A plan exists** for every state whose self-loop is not one. -/
theorem redirection_meets {p : Problem α} (hv : p.Valid I) {s : Nat} (hs : s < p.size)
    (hloop : p.loop I s ≠ 1) (drop : Bool) {constraint : Option StateSet}
    (hcovers : p.Covers s constraint) :
    Meets I.RangeFault (p.Planned I s drop constraint) (p.redirection s drop constraint) := by
  cases hr : p.redirection s drop constraint with
  | ok r => exact planned_of_redirection hv hloop hr
  | error f =>
    have hmeets := rescaling_meets hv hloop
    rw [rescaling_eq_error hs hcovers hr] at hmeets
    exact hmeets

namespace Planned

variable {p : Problem α} {s : Nat} {drop : Bool} {constraint : Option StateSet}
    {r : Redirection α}

/-- What leaves the state has values. -/
theorem valid_outgoing (h : p.Planned I s drop constraint r) (hv : p.Valid I) :
    I.ValidRow r.outgoing := by
  have herase : I.ValidRow ((p.row s).erase s) := fun e he => hv.rows s e (Row.mem_of_mem_erase he)
  rcases h.outgoing_eq with ⟨-, -, hout⟩ | ⟨f, hf, -, -, hout⟩
  · rw [hout]
    exact herase
  · rw [hout]
    exact herase.scale I hf

/-- What leaves the state gives a vector its exit value. -/
theorem dot_outgoing (h : p.Planned I s drop constraint r) (hp : p.Consistent) (hv : p.Valid I)
    (x : Nat → K) : I.dot r.outgoing x = p.exit I s x := by
  have herase : I.ValidRow ((p.row s).erase s) := fun e he => hv.rows s e (Row.mem_of_mem_erase he)
  have hdot : I.dot ((p.row s).erase s) x = I.dot (p.row s) x - p.loop I s * x s :=
    I.dot_erase (hp.sorted s) s x
  rcases h.outgoing_eq with ⟨h0, -, hout⟩ | ⟨f, hf, hfval, -, hout⟩
  · rw [hout, hdot, exit, h0, sub_zero, div_one]
  · rw [hout, I.dot_scale herase hf, hdot, hfval, exit]
    ring

/-- A redirected predecessor receives its entry times the exit value of the state. -/
theorem flow_eq (h : p.Planned I s drop constraint r) {m : α} (hm : I.Valid m) :
    I.Valid (r.flow p.mode m) ∧ I.value (r.flow p.mode m) = I.value m * p.exitValue I s := by
  have hvalue := h.value_eq
  unfold Redirection.flow
  cases hmode : p.mode with
  | probabilities =>
    rw [hmode] at hvalue
    obtain ⟨hvalid, hmul⟩ := I.simplify_mul hm h.valid_value
    exact ⟨hvalid, by rw [hmul, hvalue]⟩
  | rewards =>
    -- Rewards keep the value of the state, so the factor enters with the flow.
    rw [hmode] at hvalue
    rcases h.outgoing_eq with ⟨h0, hfactor, -⟩ | ⟨f, hf, hfval, hfactor, -⟩
    · rw [hfactor]
      obtain ⟨hvalid, hmul⟩ := I.simplify_mul hm h.valid_value
      refine ⟨hvalid, ?_⟩
      show I.value (Weight.simplify (m * r.value)) = _
      rw [hmul, hvalue, exitValue, h0, sub_zero, div_one]
    · rw [hfactor]
      obtain ⟨hvalid, hmul⟩ := I.simplify_mul (I.valid_mul hm hf) h.valid_value
      refine ⟨hvalid, ?_⟩
      show I.value (Weight.simplify (m * f * r.value)) = _
      rw [hmul, I.value_mul hm hf, hvalue, hfval, exitValue]
      ring

end Planned

variable (I) in
/-- **What an elimination does**, as far as later proofs are concerned. -/
structure Eliminated (p : Problem α) (s : Nat) (drop : Bool) (constraint : Option StateSet)
    (p' : Problem α) : Prop where
  size_eq : p'.size = p.size
  mode_eq : p'.mode = p.mode
  consistent : p'.Consistent
  valid : p'.Valid I
  columns_self : ∀ c, c ∈ (p'.row s).columns ↔ drop = false ∧
    c ∈ (p.row s).columns ∧ c ≠ s
  columns : ∀ i, i ≠ s → Allows constraint i → ∀ c, c ∈ (p'.row i).columns ↔
    c ≠ s ∧ (c ∈ (p.row i).columns ∨ s ∈ (p.row i).columns ∧ c ∈ (p.row s).columns)
  row_kept : ∀ i, i ≠ s → ¬Allows constraint i → p'.row i = p.row i
  value_kept : ∀ i, i ≠ s → ¬Allows constraint i → p'.value i = p.value i
  dot_self : drop = false → ∀ x, I.dot (p'.row s) x = p.exit I s x
  dot : ∀ i, i ≠ s → Allows constraint i → ∀ x, I.dot (p'.row i) x =
    I.dot (p.row i) x + I.coefficient (p.row i) s * (p.exit I s x - x s)
  value : ∀ i, i ≠ s → Allows constraint i →
    I.value (p'.value i) = I.value (p.value i) + I.coefficient (p.row i) s * p.exitValue I s
  value_self : I.value (p'.value s) =
    match p.mode with
    | .probabilities => p.exitValue I s
    | .rewards => I.value (p.value s)

/-- A row that is dropped has no columns. -/
theorem Eliminated.columns_dropped {p p' : Problem α} {s : Nat} {constraint : Option StateSet}
    (he : p.Eliminated I s true constraint p') : (p'.row s).columns = [] := by
  rw [List.eq_nil_iff_forall_not_mem]
  intro c hc
  exact absurd ((he.columns_self c).1 hc).1 (by simp)

/-- A value outside of the problem is zero. -/
theorem value_of_size_le {p : Problem α} (hp : p.Consistent) {i : Nat} (hi : p.size ≤ i) :
    p.value i = 0 := by
  have hsize : p.values.size ≤ i := by
    have := hp.values_size
    omega
  rw [Problem.value, Array.getD_eq_getD_getElem?, Array.getElem?_eq_none hsize, Option.getD_none]

/-- The values after a plan is carried out. -/
theorem value_redirect {p : Problem α} (hp : p.Consistent) (r : Redirection α) {i : Nat}
    (hi : i < p.size) :
    (p.redirect r).value i = r.newValue p.mode i (p.row i) (p.value i) := by
  have hi' : i < p.values.size := by rwa [hp.values_size]
  simp [redirect, value, hi']

namespace IsPlan

variable {p : Problem α} {s : Nat} {drop : Bool} {constraint : Option StateSet}
    {r : Redirection α}

/-- The eliminated state gets the value of the plan. -/
theorem value_redirect_self (h : p.IsPlan s drop constraint r) (hp : p.Consistent) :
    (p.redirect r).value s = r.value := by
  rw [value_redirect hp r h.state_lt, Redirection.newValue, if_pos h.state_eq.symm]

/-- The value of a redirected predecessor receives the flow. -/
theorem value_redirect_of_mem (h : p.IsPlan s drop constraint r) (hp : p.Consistent) {i : Nat}
    {m : α} (hi : i ∈ r.redirected) (hm : (p.row i).get? s = some m) :
    (p.redirect r).value i = Weight.simplify (p.value i + r.flow p.mode m) := by
  obtain ⟨⟨hpred, hne⟩, -⟩ := (h.mem_redirected i).1 hi
  rw [value_redirect hp r (lt_size_of_mem_columns ((hp.agree i s).1 hpred)), Redirection.newValue,
    if_neg (by rw [h.state_eq]; exact hne), if_pos (by simpa using hi), h.state_eq, hm]

/-- The value of a state that is not redirected stays. -/
theorem value_redirect_of_not_mem (h : p.IsPlan s drop constraint r) (hp : p.Consistent) {i : Nat}
    (hne : i ≠ s) (hi : i ∉ r.redirected) : (p.redirect r).value i = p.value i := by
  rcases Nat.lt_or_ge i p.size with hlt | hge
  · rw [value_redirect hp r hlt, Redirection.newValue, if_neg (by rw [h.state_eq]; exact hne),
      if_neg (by simpa using hi)]
  · rw [value_of_size_le hp hge, value_of_size_le (hp.redirect h) (by rwa [size_redirect])]

end IsPlan

/-- Where a predecessor is redirected its row changes, where it is not its row stays. -/
theorem Planned.redirected_cases {p : Problem α} {s : Nat} {drop : Bool}
    {constraint : Option StateSet} {r : Redirection α} (h : p.Planned I s drop constraint r)
    (hp : p.Consistent) {i : Nat} (his : i ≠ s) :
    (∃ m, i ∈ r.redirected ∧ (p.row i).get? s = some m) ∨
      (i ∉ r.redirected ∧ (Allows constraint i → s ∉ (p.row i).columns)) := by
  by_cases hi : i ∈ r.redirected
  · obtain ⟨m, hm⟩ := h.exists_multiplier hp hi
    exact .inl ⟨m, hi, hm⟩
  · refine .inr ⟨hi, fun hallow hcol => hi ?_⟩
    exact (h.mem_redirected i).2 ⟨⟨(hp.agree i s).2 hcol, his⟩, hallow⟩

/-- Where a predecessor is redirected its value receives the flow, where it is not its value
stays. -/
theorem Planned.value_cases {p : Problem α} {s : Nat} {drop : Bool}
    {constraint : Option StateSet} {r : Redirection α} (h : p.Planned I s drop constraint r)
    (hp : p.Consistent) (hv : p.Valid I) {i : Nat} (his : i ≠ s) :
    (i ∉ r.redirected ∧ (p.redirect r).value i = p.value i) ∨
      ∃ m, I.Valid m ∧ (p.row i).get? s = some m ∧ i ∈ r.redirected ∧
        (p.redirect r).value i = Weight.simplify (p.value i + r.flow p.mode m) := by
  rcases h.redirected_cases hp his with ⟨m, hmem, hm⟩ | ⟨hmem, -⟩
  · exact .inr ⟨m, (hv.rows i).get? I hm, hm, hmem, h.value_redirect_of_mem hp hmem hm⟩
  · exact .inl ⟨hmem, h.value_redirect_of_not_mem hp his hmem⟩

/-- Rows and values still have values after a plan is carried out. -/
theorem Planned.valid_redirect {p : Problem α} {s : Nat} {drop : Bool}
    {constraint : Option StateSet} {r : Redirection α} (h : p.Planned I s drop constraint r)
    (hp : p.Consistent) (hv : p.Valid I) : (p.redirect r).Valid I where
  rows i := by
    have hout := h.valid_outgoing hv
    by_cases his : i = s
    · rw [his, h.row_redirect_self]
      cases drop with
      | true => exact fun e he => absurd he (by simp)
      | false => exact hout
    · rcases h.redirected_cases hp his with ⟨m, hmem, hm⟩ | ⟨hmem, -⟩
      · rw [h.row_redirect_of_mem hmem hm]
        exact I.validRow_addScaled ((hv.rows i).get? I hm)
          (fun e he => hv.rows i e (Row.mem_of_mem_erase he)) hout
      · rw [h.row_redirect_of_not_mem his hmem]
        exact hv.rows i
  values i := by
    by_cases his : i = s
    · rw [his, h.value_redirect_self hp]
      exact h.valid_value
    · rcases h.value_cases hp hv his with ⟨-, heq⟩ | ⟨m, hm, -, -, heq⟩
      · rw [heq]
        exact hv.values i
      · rw [heq]
        exact (I.simplify_add (hv.values i) (h.flow_eq hm).1).1

/-- A plan that is carried out does what an elimination does. -/
theorem Planned.eliminated {p : Problem α} {s : Nat} {drop : Bool} {constraint : Option StateSet}
    {r : Redirection α} (h : p.Planned I s drop constraint r) (hp : p.Consistent)
    (hv : p.Valid I) : p.Eliminated I s drop constraint (p.redirect r) where
  size_eq := IsPlan.size_redirect p r
  mode_eq := rfl
  consistent := hp.redirect h.toIsPlan
  valid := h.valid_redirect hp hv
  columns_self c := by rw [h.mem_columns_redirect hp, if_pos rfl]
  columns i his hallow c := h.mem_columns_redirect_of_allows hp his hallow
  row_kept i his hallow := h.row_redirect_of_not_allows his hallow
  value_kept i his hallow := by
    rcases h.value_cases hp hv his with ⟨-, heq⟩ | ⟨m, -, -, hmem, -⟩
    · exact heq
    · exact absurd ((h.mem_redirected i).1 hmem).2 hallow
  dot_self hdrop x := by
    rw [h.row_redirect_self, hdrop]
    exact h.dot_outgoing hp hv x
  dot i his hallow x := by
    -- The entry for the state is replaced by that multiple of what leaves the state.
    rcases h.redirected_cases hp his with ⟨m, hmem, hm⟩ | ⟨hmem, hcol⟩
    · have herase : I.ValidRow ((p.row i).erase s) :=
        fun e he => hv.rows i e (Row.mem_of_mem_erase he)
      rw [h.row_redirect_of_mem hmem hm,
        I.dot_addScaled ((hv.rows i).get? I hm) herase (h.valid_outgoing hv),
        I.dot_erase (hp.sorted i), h.dot_outgoing hp hv, I.coefficient_of_get? hm]
      ring
    · rw [h.row_redirect_of_not_mem his hmem, I.coefficient_of_not_mem (hcol hallow)]
      ring
  value i his hallow := by
    rcases h.value_cases hp hv his with ⟨hmem, heq⟩ | ⟨m, hmvalid, hm, -, heq⟩
    · have hcol : s ∉ (p.row i).columns := fun hcol =>
        hmem ((h.mem_redirected i).2 ⟨⟨(hp.agree i s).2 hcol, his⟩, hallow⟩)
      rw [heq, I.coefficient_of_not_mem hcol]
      ring
    · have hflow := h.flow_eq hmvalid
      rw [heq, (I.simplify_add (hv.values i) hflow.1).2, hflow.2, I.coefficient_of_get? hm]
  value_self := by
    rw [h.value_redirect_self hp]
    exact h.value_eq

omit [Field K] in
/-- **A plan that is found is carried out**, unless the range is left. -/
theorem Consistent.eliminate_meets_of_redirection {p : Problem α} (hp : p.Consistent) {s : Nat}
    {drop : Bool} {constraint : Option StateSet} {E : Fault → Prop} {Q : Redirection α → Prop}
    (hQ : ∀ r, Q r → p.IsPlan s drop constraint r)
    (hrange : ¬E .degreeOverflow → Weight.Unbounded α)
    (h : Meets E Q (p.redirection s drop constraint)) :
    Meets E (fun p' => ∃ r, Q r ∧ p' = p.redirect r) (p.eliminate s drop constraint) := by
  refine h.bind fun r hr => ?_
  cases hfault : p.redirectFault? r with
  | none =>
    simp only [hp.writtenSorted_redirect (hQ r hr), if_true]
    exact ⟨r, hr, rfl⟩
  | some f =>
    obtain ⟨rfl, i, m, hfits⟩ := hp.redirectFault?_eq (hQ r hr) hfault
    by_contra hE
    rw [(hrange hE).updateFits] at hfits
    exact absurd hfits (by simp)

/-- **Elimination succeeds** for every state whose self-loop is not one, unless the range is left;
and it does what its plan says. -/
theorem eliminate_meets_plan {p : Problem α} (hp : p.Consistent) (hv : p.Valid I) {s : Nat}
    (hs : s < p.size) (hloop : p.loop I s ≠ 1) (drop : Bool) {constraint : Option StateSet}
    (hcovers : p.Covers s constraint) :
    Meets I.RangeFault (fun p' => ∃ r, p.Planned I s drop constraint r ∧ p' = p.redirect r)
      (p.eliminate s drop constraint) :=
  hp.eliminate_meets_of_redirection (fun _ hr => hr.toIsPlan)
    (fun hrange => I.unbounded fun hover => hrange ⟨hover, rfl⟩)
    (redirection_meets hv hs hloop drop hcovers)

/-- **Elimination succeeds** for every state whose self-loop is not one, unless the range is
left. -/
theorem eliminate_meets {p : Problem α} (hp : p.Consistent) (hv : p.Valid I) {s : Nat}
    (hs : s < p.size) (hloop : p.loop I s ≠ 1) (drop : Bool) {constraint : Option StateSet}
    (hcovers : p.Covers s constraint) :
    Meets I.RangeFault (p.Eliminated I s drop constraint) (p.eliminate s drop constraint) := by
  refine (eliminate_meets_plan hp hv hs hloop drop hcovers).mono ?_
  rintro p' ⟨r, hr, rfl⟩
  exact hr.eliminated hp hv

/-- Rational numbers have no range to leave. -/
theorem exists_eliminate_rat {p : Problem ℚ} (hp : p.Consistent) {s : Nat} (hs : s < p.size)
    (hloop : p.loop .rat s ≠ 1) (drop : Bool) {constraint : Option StateSet}
    (hcovers : p.Covers s constraint) :
    ∃ p', p.eliminate s drop constraint = .ok p' ∧ p.Eliminated .rat s drop constraint p' :=
  (eliminate_meets hp p.valid_rat hs hloop drop hcovers).exists_ok fun _ hf => hf.1

/-- A vector that solves the equation of a state has its exit value there, up to the value of the
state. -/
theorem exit_add_exitValue {p : Problem α} {s : Nat} (hloop : p.loop I s ≠ 1) {x : Nat → K}
    (hx : x s = I.value (p.value s) + I.dot (p.row s) x) :
    p.exit I s x + p.exitValue I s = x s := by
  have hne : 1 - p.loop I s ≠ 0 := sub_ne_zero.2 (Ne.symm hloop)
  rw [exit, exitValue, ← add_div, div_eq_iff hne]
  linear_combination -hx

/-- A vector that agrees with what the row of a state gives it has that value on exit. -/
theorem exit_eq {p : Problem α} {s : Nat} (hloop : p.loop I s ≠ 1) {x : Nat → K}
    (hx : x s = I.dot (p.row s) x) : p.exit I s x = x s := by
  have hne : 1 - p.loop I s ≠ 0 := sub_ne_zero.2 (Ne.symm hloop)
  rw [exit, div_eq_iff hne]
  linear_combination -hx

/-! ### The last state -/

/-- A monitored step of an elimination. -/
theorem runs_eliminateMonitored {E : Interruption → Prop} {k : Option Nat} {p : Problem α}
    {s : Nat} {drop : Bool} {constraint : Option StateSet} {Q : Problem α → Prop}
    (h : Meets (fun f => E (.fault f)) Q (p.eliminate s drop constraint)) :
    Runs E Q (p.eliminateMonitored s drop constraint) k := by
  refine (Monitored.runs_ofFault_of h).bind fun p' hp' => ?_
  exact Monitored.runs_tick.bind fun _ _ => .pure hp'

/-- Resolving the last state of a problem of rewards gives it its exit value. -/
theorem resolveLast_meets {p : Problem α} (hp : p.Consistent) (hv : p.Valid I) {s : Nat}
    (hs : s < p.size) (hloop : p.loop I s ≠ 1) (hlast : ∀ c ∈ (p.row s).columns, c = s) :
    Meets I.RangeFault (fun p' => I.Valid (p'.value s) ∧ I.value (p'.value s) = p.exitValue I s)
      (p.resolveLast s) := by
  have hother : ¬(p.row s).hasOtherColumn s = true := by
    rw [Row.hasOtherColumn_iff]
    rintro ⟨c, hc, hcs⟩
    exact hcs (hlast c hc)
  have hvalues : s < p.values.size := by
    rw [hp.values_size]
    exact hs
  have hset (a : α) (p' : Problem α) (hp' : p'.values = p.values.setIfInBounds s a) :
      p'.value s = a := by
    rw [value, hp', Array.getD_eq_getD_getElem?, Array.getElem?_setIfInBounds]
    simp [hvalues]
  have hfinish (a : α) (ha : I.Valid a ∧ I.value a = p.exitValue I s) :
      Meets I.RangeFault (fun p' => I.Valid (p'.value s) ∧ I.value (p'.value s) = p.exitValue I s)
        (pure { p with
          forward := p.forward.setIfInBounds s []
          incoming := p.incoming.setIfInBounds s []
          values := p.values.setIfInBounds s a }) := by
    show I.Valid (Problem.value _ s) ∧ _
    rw [hset a _ rfl]
    exact ha
  -- The new value is the old one times the factor of the self-loop, if there is one.
  rw [Problem.resolveLast, if_neg (not_le.2 hs), if_neg hother]
  cases hget : (p.row s).get? s with
  | none =>
    refine hfinish _ ⟨hv.values s, ?_⟩
    rw [exitValue, loop_of_get?_eq_none hget, sub_zero, div_one]
  | some a =>
    have ha : p.loop I s = I.value a := I.coefficient_of_get? hget
    have hvalid := (hv.rows s).get? I hget
    refine (I.loopFactor_meets hvalid (by rwa [← ha])).bind fun f hf => ?_
    refine (I.requireRange_meets fun hu => hu.productFits (p.value s) f).bind fun _ _ => ?_
    obtain ⟨hprod, hmul⟩ := I.simplify_mul (hv.values s) hf.1
    refine hfinish _ ⟨hprod, ?_⟩
    rw [hmul, hf.2, ← ha, exitValue, div_eq_mul_inv]

/-- **The last state** gives its exit value in canonical form, in both kinds of problems. -/
theorem runs_eliminateLast {E : Interruption → Prop} {k : Option Nat} {p : Problem α}
    (hE : ∀ f, I.RangeFault f → E (.fault f)) (hp : p.Consistent) (hv : p.Valid I) {s : Nat}
    (hs : s < p.size) (hloop : p.loop I s ≠ 1) (hlast : ∀ c ∈ (p.row s).columns, c = s) :
    Runs E (fun result => ∃ a, I.Valid a ∧ I.value a = p.exitValue I s ∧
      result.1 = Weight.simplify a) (p.eliminateLast s) k := by
  have hfinish (p' : Problem α)
      (hp' : I.Valid (p'.value s) ∧ I.value (p'.value s) = p.exitValue I s) :
      Runs E (fun result : α × Problem α => ∃ a, I.Valid a ∧ I.value a = p.exitValue I s ∧
        result.1 = Weight.simplify a) (do
          let value ← Monitored.ofFault (Weight.checkedSimplify (p'.value s))
          pure (value, p')) k := by
    refine (Monitored.runs_ofFault_of (Q := (· = Weight.simplify (p'.value s))) ?_).bind ?_
    · exact ((I.requireRange_meets fun h => h.simplifyFits (p'.value s)).weaken hE).bind
        fun _ _ => rfl
    · rintro a rfl
      exact .pure ⟨_, hp'.1, hp'.2, rfl⟩
  rw [Problem.eliminateLast]
  cases hmode : p.mode with
  | rewards =>
    exact (Monitored.runs_ofFault_of ((resolveLast_meets hp hv hs hloop hlast).weaken hE)).bind
      hfinish
  | probabilities =>
    -- One more elimination leaves the exit value at the state itself.
    have helim : Meets I.RangeFault (p.Eliminated I s true none) (p.eliminate s true none) :=
      eliminate_meets hp hv hs hloop true (covers_none p s)
    refine (runs_eliminateMonitored (helim.weaken hE)).bind fun p' hp' =>
      hfinish p' ⟨hp'.valid.values s, ?_⟩
    rw [hp'.value_self, hmode]

end Problem

end MarkovElimination
