import MarkovElimination.Proofs.Elimination.WorkStack
import MarkovElimination.Proofs.Model.Semantics
import MarkovElimination.Proofs.RationalFunction.Homomorphism

/-! # The order of eliminations does not matter

Whatever is eliminated, the equations that are left have **the same solutions**: a solution stays
one, and a solution of what is left extends to the eliminated states (`Eliminated.sameSolutions`).
This needs nothing of the weights but that the self-loop of an eliminated state is not one, which an
exact interpretation can tell from the success of the elimination. So all orders lead to the value
that every solution has at the last state, and as exact weights have canonical forms, to the same
weight (`value_independent_of_order`). -/

namespace MarkovElimination

namespace Interpretation

variable {α K : Type} [Weight α] [Field K] {I : Interpretation α K}

/-- Changing a vector in one place changes dot products by the entry there. -/
theorem dot_update {row : Row α} (h : row.Sorted) (x : Nat → K) (c : Nat) (y : K) :
    I.dot row (Function.update x c y) = I.dot row x + I.coefficient row c * (y - x c) := by
  have hothers : I.dot (row.erase c) (Function.update x c y) = I.dot (row.erase c) x := by
    refine I.dot_congr fun d hd => ?_
    exact Function.update_of_ne (Row.mem_columns_erase.1 hd).2 y x
  rw [I.dot_erase h, I.dot_erase h, Function.update_self] at hothers
  linear_combination hothers

/-- A row without other columns is its entry. -/
theorem dot_of_columns_eq {row : Row α} (h : row.Sorted) {c : Nat}
    (hc : ∀ d ∈ row.columns, d = c)
    (x : Nat → K) : I.dot row x = I.coefficient row c * x c := by
  have hzero : I.dot (row.erase c) x = 0 := by
    refine I.dot_eq_zero fun d hd => ?_
    obtain ⟨hmem, hne⟩ := Row.mem_columns_erase.1 hd
    exact absurd (hc d hmem) hne
  rw [I.dot_erase h] at hzero
  linear_combination hzero

/-- The factor of a self-loop is only computed if the self-loop is not one. -/
theorem Exact.loopFactor_meets (hI : I.Exact) {s : Nat} {loop : α} (hloop : I.Valid loop) :
    Meets (fun _ => True) (fun _ => I.value loop ≠ 1) (loopFactor s loop) := by
  rw [loopFactor]
  by_cases h : Weight.isOne loop = true
  · rw [if_pos h]
    trivial
  · rw [if_neg h]
    have hne : I.value loop ≠ 1 := fun hone => h (hI.isOne_of_value hloop hone)
    exact .of_forall fun _ => hne

end Interpretation

namespace Problem

variable {α K : Type} [Weight α] [Field K] {I : Interpretation α K} {p q : Problem α} {s : Nat}

/-! ### Success tells the self-loop -/

/-- What is rescaled has a self-loop other than one. -/
theorem rescaling_exact (hI : I.Exact) (hv : p.Valid I) :
    Meets (fun _ => True) (fun _ => p.loop I s ≠ 1) (p.rescaling s) := by
  rw [rescaling]
  cases hget : (p.row s).get? s with
  | none =>
    show p.loop I s ≠ 1
    rw [loop_of_get?_eq_none hget]
    exact zero_ne_one
  | some a =>
    refine (hI.loopFactor_meets ((hv.rows s).get? I hget)).bind fun f hf => ?_
    rw [loop, I.coefficient_of_get? hget]
    exact .of_forall fun _ => hf

/-- **An elimination that succeeds** does what an elimination does. -/
theorem eliminate_exact (hI : I.Exact) (hp : p.Consistent) (hv : p.Valid I) {drop : Bool}
    {constraint : Option StateSet} (h : p.eliminate s drop constraint = .ok q) :
    s < p.size ∧ p.loop I s ≠ 1 ∧ p.Eliminated I s drop constraint q := by
  obtain ⟨r, hr, rfl⟩ := eliminate_eq_ok h
  obtain ⟨hs, factor, hrescale, -⟩ := redirection_eq_ok hr
  have hloop := rescaling_exact (s := s) hI hv
  rw [hrescale] at hloop
  exact ⟨hs, hloop, (planned_of_redirection hv hloop hr).eliminated hp hv⟩

/-- Resolving the last state only succeeds for a state whose self-loop is not one. -/
theorem resolveLast_exact (hI : I.Exact) (hv : p.Valid I) :
    Meets (fun _ => True) (fun _ => s < p.size ∧ p.loop I s ≠ 1) (p.resolveLast s) := by
  rw [resolveLast]
  by_cases hs : p.size ≤ s
  · rw [if_pos hs]
    trivial
  rw [if_neg hs]
  rw [not_le] at hs
  by_cases hother : (p.row s).hasOtherColumn s = true
  · rw [if_pos hother]
    trivial
  rw [if_neg hother]
  cases hget : (p.row s).get? s with
  | none =>
    refine .of_forall fun _ => ⟨hs, ?_⟩
    rw [loop_of_get?_eq_none hget]
    exact zero_ne_one
  | some a =>
    rw [loop, I.coefficient_of_get? hget]
    refine (hI.loopFactor_meets ((hv.rows s).get? I hget)).bind fun f hf => ?_
    exact .of_forall fun _ => ⟨hs, hf⟩

/-! ### Solutions -/

variable (I) in
/-- **A solution** satisfies the equations of all states that are not eliminated. -/
def Solves (p : Problem α) (x : Nat → K) : Prop :=
  ∀ i, i < p.size → i ∉ p.history → x i = I.value (p.value i) + I.dot (p.row i) x

variable (I) in
/-- **The invariant of eliminations**: no equation mentions a state that is eliminated. -/
structure Pending (p : Problem α) : Prop where
  consistent : p.Consistent
  valid : p.Valid I
  gone : ∀ i, ∀ c ∈ (p.row i).columns, c ∉ p.history

variable (I) in
/-- **The same solutions**: a solution of the first problem is one of the second, and a solution of
the second one extends to the states that are eliminated there. -/
structure SameSolutions (p q : Problem α) : Prop where
  size_eq : q.size = p.size
  history_sub : ∀ i ∈ p.history, i ∈ q.history
  sound : ∀ x, p.Solves I x → q.Solves I x
  complete : ∀ x, q.Solves I x → ∃ y, (∀ i, i ∉ q.history → y i = x i) ∧ p.Solves I y

theorem SameSolutions.refl (p : Problem α) : p.SameSolutions I p :=
  ⟨rfl, fun _ h => h, fun _ h => h, fun x h => ⟨x, fun _ _ => rfl, h⟩⟩

theorem SameSolutions.trans {r : Problem α} (h : p.SameSolutions I q) (h' : q.SameSolutions I r) :
    p.SameSolutions I r where
  size_eq := h'.size_eq.trans h.size_eq
  history_sub i hi := h'.history_sub i (h.history_sub i hi)
  sound x hx := h'.sound x (h.sound x hx)
  complete x hx := by
    obtain ⟨y, hy, hsolves⟩ := h'.complete x hx
    obtain ⟨z, hz, hsolves⟩ := h.complete y hsolves
    refine ⟨z, fun i hi => ?_, hsolves⟩
    rw [hz i fun hmem => hi (h'.history_sub i hmem), hy i hi]

/-- What an elimination does keeps the invariant. -/
theorem Eliminated.pending (he : p.Eliminated I s true none q) (h : p.Pending I)
    (hhistory : q.history = s :: p.history) : q.Pending I where
  consistent := he.consistent
  valid := he.valid
  gone i c hc := by
    rw [hhistory, List.mem_cons, not_or]
    by_cases his : i = s
    · rw [his, he.columns_dropped] at hc
      cases hc
    · obtain ⟨hcs, hc | ⟨-, hc⟩⟩ := (he.columns i his (allows_none i) c).1 hc
      · exact ⟨hcs, h.gone i c hc⟩
      · exact ⟨hcs, h.gone s c hc⟩

/-- **One elimination keeps the solutions.** The equation of the state is inserted into the others,
and it gives the state its value once the others are known. -/
theorem Eliminated.sameSolutions (he : p.Eliminated I s true none q) (hp : p.Consistent)
    (hs : s < p.size) (hloop : p.loop I s ≠ 1) (hnew : s ∉ p.history)
    (hhistory : q.history = s :: p.history) : p.SameSolutions I q where
  size_eq := he.size_eq
  history_sub i hi := by
    rw [hhistory]
    exact List.mem_cons_of_mem s hi
  sound x hx i hi hleft := by
    rw [hhistory, List.mem_cons, not_or] at hleft
    have hexit := exit_add_exitValue hloop (hx s hs hnew)
    rw [he.size_eq] at hi
    rw [he.value i hleft.1 (allows_none i), he.dot i hleft.1 (allows_none i)]
    linear_combination hx i hi hleft.2 - I.coefficient (p.row i) s * hexit
  complete x hx := by
    have hne : 1 - p.loop I s ≠ 0 := sub_ne_zero.2 (Ne.symm hloop)
    set y := p.exit I s x + p.exitValue I s with hy
    refine ⟨Function.update x s y, fun i hi => ?_, fun i hi hleft => ?_⟩
    · rw [hhistory, List.mem_cons, not_or] at hi
      exact Function.update_of_ne hi.1 y x
    · rw [Interpretation.dot_update (hp.sorted i)]
      by_cases his : i = s
      · -- the value at the state is what its own equation asks for
        rw [his, Function.update_self]
        have hmul : y * (1 - p.loop I s) =
            I.value (p.value s) + (I.dot (p.row s) x - p.loop I s * x s) := by
          rw [hy, exit, exitValue, add_mul, div_mul_cancel₀ _ hne, div_mul_cancel₀ _ hne,
            add_comm]
        rw [← loop]
        linear_combination hmul
      · rw [Function.update_of_ne his]
        have hxi := hx i (by rwa [he.size_eq]) (by rw [hhistory]; simp [his, hleft])
        rw [he.value i his (allows_none i), he.dot i his (allows_none i)] at hxi
        rw [hxi, hy]
        ring

/-- **Eliminations one after the other keep the solutions.** -/
theorem sameSolutions_eliminateEach (hI : I.Exact) {order : List Nat} (h : p.Pending I)
    (hnodup : order.Nodup) (hnew : ∀ s ∈ order, s ∉ p.history)
    (hrun : p.eliminateEach order = .ok q) : q.Pending I ∧ p.SameSolutions I q := by
  induction order generalizing p with
  | nil =>
    cases hrun
    exact ⟨h, .refl _⟩
  | cons s order ih =>
    rw [eliminateEach, List.foldlM_cons] at hrun
    cases hfirst : p.eliminate s true none with
    | error f =>
      rw [hfirst] at hrun
      cases hrun
    | ok p' =>
      rw [hfirst] at hrun
      obtain ⟨hs, hloop, he⟩ := eliminate_exact hI h.consistent h.valid hfirst
      have hhistory := history_eliminate hfirst
      rw [List.forall_mem_cons] at hnew
      rw [List.nodup_cons] at hnodup
      obtain ⟨hpending, hsame⟩ := ih (he.pending h hhistory) hnodup.2
        (fun t ht => by
          rw [hhistory, List.mem_cons, not_or]
          exact ⟨fun hts => hnodup.1 (hts ▸ ht), hnew.2 t ht⟩) hrun
      exact ⟨hpending, (he.sameSolutions h.consistent hs hloop hnew.1 hhistory).trans hsame⟩

/-- The note about the nesting of components does not matter. -/
theorem Pending.atDepth (h : p.Pending I) (depth : Nat) : (p.atDepth depth).Pending I :=
  ⟨⟨h.consistent.incoming_size, h.consistent.values_size, h.consistent.sorted,
    h.consistent.column_lt, h.consistent.incoming_sorted, h.consistent.agree⟩,
    ⟨h.valid.rows, h.valid.values⟩, h.gone⟩

/-- A problem that is reached by eliminations has the same solutions. -/
theorem Follows.sameSolutions (hI : I.Exact) {order : List Nat} (h : p.Pending I)
    (hnodup : order.Nodup) (hnew : ∀ s ∈ order, s ∉ p.history) (hrun : p.Follows order q) :
    q.Pending I ∧ p.SameSolutions I q := by
  obtain ⟨hpending, hsame⟩ := sameSolutions_eliminateEach hI (h.atDepth 0) hnodup hnew hrun
  exact ⟨hpending.atDepth q.depth, hsame.size_eq, hsame.history_sub, hsame.sound,
    hsame.complete⟩

/-! ### The last state -/

variable (I) in
/-- **The weight is the value of a state**: it is the canonical form of a weight whose value all
solutions have at the state, and there is a solution. -/
def Determines (p : Problem α) (i : Nat) (result : α) : Prop :=
  ∃ a, I.Valid a ∧ result = Weight.simplify a ∧ (∀ x, p.Solves I x → x i = I.value a) ∧
    ∃ x, p.Solves I x

/-- **The value of a state is unique.** -/
theorem Determines.unique (hI : I.Exact) {i : Nat} {a b : α} (ha : p.Determines I i a)
    (hb : p.Determines I i b) : a = b := by
  obtain ⟨a', ha', rfl, hall, x, hx⟩ := ha
  obtain ⟨b', hb', rfl, hall', -⟩ := hb
  refine hI.simplify_eq ha' hb' ?_
  rw [← hall x hx, ← hall' x hx]

/-- The value of a state does not depend on what is eliminated before. -/
theorem Determines.of_sameSolutions {i : Nat} {a : α} (h : q.Determines I i a)
    (hsame : p.SameSolutions I q) : p.Determines I i a := by
  obtain ⟨a', ha', rfl, hall, x, hx⟩ := h
  obtain ⟨y, -, hy⟩ := hsame.complete x hx
  exact ⟨a', ha', rfl, fun z hz => hall z (hsame.sound z hz), y, hy⟩

/-- The last state has no other columns, so its exit value solves its equation. -/
theorem Pending.solves_last (h : p.Pending I) {i : Nat} (hi : i < p.size) (hleft : i ∉ p.history)
    (hlast : ∀ j, j < p.size → j ∉ p.history → j = i) (hloop : p.loop I i ≠ 1) :
    (∀ x, p.Solves I x → x i = p.exitValue I i) ∧ ∃ x, p.Solves I x := by
  have hne : 1 - p.loop I i ≠ 0 := sub_ne_zero.2 (Ne.symm hloop)
  have hcolumns (c : Nat) (hc : c ∈ (p.row i).columns) : c = i :=
    hlast c (h.consistent.column_lt i c hc) (h.gone i c hc)
  have hdot (x : Nat → K) : I.dot (p.row i) x = p.loop I i * x i :=
    Interpretation.dot_of_columns_eq (h.consistent.sorted i) hcolumns x
  refine ⟨fun x hx => ?_, fun _ => p.exitValue I i, fun j hj hjleft => ?_⟩
  · have hxi := hx i hi hleft
    rw [hdot] at hxi
    rw [exitValue, eq_div_iff hne]
    linear_combination hxi
  · rw [hlast j hj hjleft, hdot, exitValue]
    field_simp
    ring

/-- A last state that can be eliminated is a state whose self-loop is not one. -/
theorem runs_eliminateLast_exact (hI : I.Exact) (h : p.Pending I) {i : Nat} {k : Option Nat} :
    Runs (fun _ => True) (fun _ => i < p.size ∧ p.loop I i ≠ 1) (p.eliminateLast i) k := by
  have hfinish (q : Problem α) (hq : i < p.size ∧ p.loop I i ≠ 1) :
      Runs (fun _ => True) (fun _ : α × Problem α => i < p.size ∧ p.loop I i ≠ 1) (do
        let value ← Monitored.ofFault (Weight.checkedSimplify (q.value i))
        pure (value, q)) k :=
    .bind (Monitored.runs_ofFault_of (Q := fun _ => True) (.of_forall fun _ => trivial))
      fun _ _ => .pure hq
  rw [eliminateLast]
  cases p.mode with
  | rewards => exact (Monitored.runs_ofFault_of (resolveLast_exact hI h.valid)).bind hfinish
  | probabilities =>
    refine .bind (runs_eliminateMonitored ?_) hfinish
    cases hrun : p.eliminate i true none with
    | error f => trivial
    | ok q =>
      obtain ⟨hi, hloop, -⟩ := eliminate_exact hI h.consistent h.valid hrun
      exact ⟨hi, hloop⟩

/-- **The last state** gives its value. -/
theorem Pending.runs_eliminateLast (hI : I.Exact) (h : p.Pending I) {i : Nat} {k : Option Nat}
    (hleft : i ∉ p.history) (hlast : ∀ j, j < p.size → j ∉ p.history → j = i) :
    Runs (fun _ => True) (fun result => p.Determines I i result.1) (p.eliminateLast i) k := by
  intro m hm
  obtain ⟨hmeets, htrigger⟩ := runs_eliminateLast_exact (i := i) hI h m hm
  refine ⟨?_, htrigger⟩
  cases hrun : (outcome (p.eliminateLast i) m).1 with
  | error e => trivial
  | ok result =>
    rw [hrun] at hmeets
    obtain ⟨hi, hloop⟩ := hmeets
    have hvalue := (Problem.runs_eliminateLast (E := fun _ => True) (fun _ _ => trivial)
      h.consistent h.valid hi hloop
      (fun c hc => hlast c (h.consistent.column_lt i c hc) (h.gone i c hc)) m hm).1
    rw [hrun] at hvalue
    obtain ⟨a, ha, haval, heq⟩ := hvalue
    obtain ⟨hall, hexists⟩ := h.solves_last hi hleft hlast hloop
    exact ⟨a, ha, heq, fun x hx => (hall x hx).trans haval.symm, hexists⟩

/-! ### Runs -/

omit [Field K] in
/-- Listed states are eliminated in their order. -/
theorem runs_eliminateList_follows (p : Problem α) (states : List Nat) {k : Option Nat} :
    Runs (fun _ => True) (p.Follows states) (p.eliminateList states) k := by
  refine Runs.foldlM_done (J := fun done q => p.Follows done q) (fun done s rest q _ hq => ?_)
    (.nil p)
  refine (Monitored.runs_checkpoint_of fun _ => trivial).bind fun _ _ => ?_
  refine runs_eliminateMonitored ?_
  cases hrun : q.eliminate s true none with
  | error f => trivial
  | ok q' => exact hq.trans (.single hrun)

omit [Field K] in
/-- **Both methods eliminate all states but the initial ones**, in some order. -/
theorem runs_eliminateAllExcept_follows (p : Problem α) (config : EliminationConfig) {g : Graph}
    (hg : g.size = p.size) (hreversed : g.reversed.size = g.size) {initial : StateSet}
    (hinitial : initial.size = p.size) (targets : StateSet) {k : Option Nat} :
    Runs (fun _ => True) (fun q => ∃ order, p.Follows order q ∧ order.Nodup ∧
      ∀ i, i ∈ order ↔ i < p.size ∧ initial.contains i = false)
      (p.eliminateAllExcept config g initial targets) k := by
  have hranking := config.perm_ranking hreversed initial targets
  refine (Monitored.runs_checkpoint_of fun _ => trivial).bind fun _ _ => ?_
  refine (Monitored.runs_expect _).bind fun _ _ => ?_
  cases config.method with
  | state =>
    refine (p.runs_eliminateList_follows _).bind fun q hq => ?_
    refine (Monitored.runs_checkpoint_of fun _ => trivial).bind fun _ _ => .pure ⟨_, hq, ?_, ?_⟩
    · exact (hranking.nodup_iff.2 List.nodup_range).filter _
    · intro i
      rw [mem_sortByRanking hranking (by simp), StateSet.contains_minus, StateSet.contains_full, hg]
      simp
  | hybrid =>
    simp only [hg, ne_eq, not_true_eq_false, if_false]
    rw [hg] at hranking
    let plan : HybridPlan := ⟨g, config.ranking g initial targets, initial, config.maximalSccSize,
      config.entryStatesLast⟩
    have hcompletes : Runs (Interruption.Allowed k (plan.Fails (plan.start p)))
        (fun q => ∃ order treated, plan.Completes p q order treated) (plan.run p) k :=
      HybridPlan.runs_run_completes hg hinitial hranking
    refine (hcompletes.weaken fun _ _ => trivial).mono ?_
    rintro q ⟨order, treated, hcomplete⟩
    have hperm : order.Perm initial.complement.toList := hcomplete.perm
    refine ⟨order, hcomplete.follows, hperm.nodup_iff.2 (StateSet.nodup_toList _), fun i => ?_⟩
    rw [hperm.mem_iff, StateSet.mem_toList, StateSet.contains_complement, hinitial]
    simp

/-- The value of a state: all other states are eliminated first, and then the state itself. -/
def valueOf (p : Problem α) (config : EliminationConfig) (g : Graph) (targets : StateSet)
    (i : Nat) : Monitored α := do
  let q ← p.eliminateAllExcept config g (.singleton p.size i) targets
  let result ← q.eliminateLast i
  pure result.1

/-- **Every method and every order** leads to the value that all solutions have. -/
theorem Pending.runs_valueOf (hI : I.Exact) (h : p.Pending I) (hnew : p.history = [])
    (config : EliminationConfig) {g : Graph} (hg : g.size = p.size)
    (hreversed : g.reversed.size = g.size) (targets : StateSet) (i : Nat) {k : Option Nat} :
    Runs (fun _ => True) (p.Determines I i) (p.valueOf config g targets i) k := by
  refine (p.runs_eliminateAllExcept_follows config hg hreversed (StateSet.size_singleton p.size i)
    targets).bind ?_
  rintro q ⟨order, hrun, hnodup, hmem⟩
  obtain ⟨hpending, hsame⟩ := hrun.sameSolutions hI h hnodup (by simp [hnew])
  have hhistory (j : Nat) : j ∈ q.history ↔ j < p.size ∧ j ≠ i := by
    rw [hrun.history, hnew, List.append_nil, List.mem_reverse, hmem, StateSet.contains_singleton]
    simp
    omega
  refine (hpending.runs_eliminateLast hI ?_ ?_).bind fun result hresult =>
    .pure (hresult.of_sameSolutions hsame)
  · simp [hhistory]
  · intro j hj hjleft
    rw [hsame.size_eq] at hj
    rw [hhistory] at hjleft
    by_contra hji
    exact hjleft ⟨hj, hji⟩

omit [Field K] in
/-- **The order does not matter** for the value of a state: whatever the methods, the orders and
their seeds, and whatever graphs and targets the orders are measured by, two runs that finish return
the same weight, and a comparison finds it the same. -/
def OrderIndependent (p : Problem α) (i : Nat) : Prop :=
  ∀ (config config' : EliminationConfig) (g g' : Graph) (targets targets' : StateSet)
    (m m' : Monitor) (a a' : α),
    g.size = p.size → g.reversed.size = g.size → g'.size = p.size →
      g'.reversed.size = g'.size →
    (outcome (p.valueOf config g targets i) m).1 = .ok a →
    (outcome (p.valueOf config' g' targets' i) m').1 = .ok a' →
    a = a' ∧ Weight.checkedSame a a' = .ok true

/-- Exact weights have values that do not depend on the order. -/
theorem Pending.orderIndependent (hI : I.Exact) (h : p.Pending I) (hnew : p.history = [])
    (i : Nat) : p.OrderIndependent i := by
  intro config config' g g' targets targets' m m' a a' hg hreversed hg' hreversed' hrun hrun'
  have hvalue := (h.runs_valueOf hI hnew config hg hreversed targets i m rfl).1
  have hvalue' := (h.runs_valueOf hI hnew config' hg' hreversed' targets' i m' rfl).1
  rw [hrun] at hvalue
  rw [hrun'] at hvalue'
  obtain rfl : a = a' := hvalue.unique hI hvalue'
  exact ⟨rfl, hI.checkedSame_self a⟩

/-- No state of the problem of a matrix is eliminated yet. -/
theorem pending_ofMatrix {mode : ValueMode} {m : Matrix α} {values : List α} (hm : m.WellFormed)
    (hrows : ∀ s, I.ValidRow (m.row s)) (hvalues : ∀ a ∈ values, I.Valid a)
    (h : ofMatrix mode m values = .ok p) : p.Pending I ∧ p.history = [] := by
  have hconsistent := consistent_ofMatrix hm h
  have hrow := row_ofMatrix h
  obtain ⟨-, -, rfl⟩ := ofMatrix_eq_ok h
  refine ⟨⟨hconsistent, ⟨fun s e he => ?_, fun s => ?_⟩, by simp⟩, rfl⟩
  · rw [hrow] at he
    exact hrows s e (List.mem_of_mem_filter he)
  · rw [value, Array.getD_eq_getD_getElem?]
    cases hs : values.toArray[s]? with
    | none => exact I.valid_zero
    | some a => exact hvalues a (by simpa using Array.mem_of_getElem? hs)

/-- **The value of a state is independent of the order of eliminations**, for rational numbers and
for rational functions, with arbitrary entries and in both kinds of problems. -/
theorem value_independent_of_order :
    (∀ (mode : ValueMode) (m : Matrix ℚ) (values : List ℚ) (p : Problem ℚ), m.WellFormed →
      ofMatrix mode m values = .ok p → ∀ i, p.OrderIndependent i) ∧
    (∀ (mode : ValueMode) (m : Matrix RationalFunction) (values : List RationalFunction)
      (p : Problem RationalFunction), m.WellFormed →
      (∀ s, ∀ e ∈ m.row s, e.value.WellFormed) →
      (∀ a ∈ values, a.WellFormed) → ofMatrix mode m values = .ok p →
      ∀ i, p.OrderIndependent i) := by
  constructor
  · intro mode m values p hm hp i
    obtain ⟨hpending, hnew⟩ := pending_ofMatrix (I := .rat) hm (fun _ _ _ => trivial)
      (fun _ _ => trivial) hp
    exact hpending.orderIndependent Interpretation.exact_rat hnew i
  · intro mode m values p hm hrows hvalues hp i
    obtain ⟨hpending, hnew⟩ := pending_ofMatrix (I := .field) hm
      (fun s e he => (hrows s e he).valid_field) (fun a ha => (hvalues a ha).valid_field) hp
    exact hpending.orderIndependent Interpretation.exact_field hnew i

/-- Three states that pass on what they have with a parameter, a negative number and a number above
one as weights. -/
def ringMatrix : Matrix RationalFunction :=
  .ofRows 3 [[⟨1, .ofParameter "x"⟩], [⟨0, .const (-1)⟩, ⟨2, .const 2⟩],
    [⟨1, .const 2⟩]]

/-- The equations of the three states. -/
def ringProblem : Problem RationalFunction :=
  ⟨.probabilities, ringMatrix.dropZeros.rows, ringMatrix.transpose.connections.rows,
    #[0, 1, 1], [], 0⟩

/-- The states are eliminated one by one in the one run, and component by component in the other. -/
theorem value_ring : ofMatrix .probabilities ringMatrix [0, 1, 1] = .ok ringProblem ∧
    ∃ a, (outcome (ringProblem.valueOf {} (.ofMatrix ringMatrix) (.full 3) 0) {}).1 = .ok a ∧
      (outcome (ringProblem.valueOf ⟨.hybrid, .forward, 1, true, 0, .scattered⟩
        (.ofMatrix ringMatrix) (.full 3) 0) {}).1 = .ok a := by
  have hp : ofMatrix .probabilities ringMatrix [0, 1, 1] = .ok ringProblem := rfl
  obtain ⟨a, hrun⟩ := exists_eq_ok_of_isOk
    (x := (outcome (ringProblem.valueOf {} (.ofMatrix ringMatrix) (.full 3) 0) {}).1) (by cbv)
  obtain ⟨b, hrun'⟩ := exists_eq_ok_of_isOk
    (x := (outcome (ringProblem.valueOf ⟨.hybrid, .forward, 1, true, 0, .scattered⟩
      (.ofMatrix ringMatrix) (.full 3) 0) {}).1) (by cbv)
  have hrows : ∀ s, ∀ e ∈ ringMatrix.row s, e.value.WellFormed := by
    intro s e he
    have hs : s < 3 := Matrix.lt_rowCount_of_mem_columns (List.mem_map_of_mem he)
    interval_cases s <;> revert e <;> decide
  have hg : (Graph.ofMatrix ringMatrix).size = ringProblem.size := by
    rw [Graph.size_ofMatrix, size_ofMatrix hp]
  have hreversed : (Graph.ofMatrix ringMatrix).reversed.size =
      (Graph.ofMatrix ringMatrix).size := by
    rw [Graph.size_reversed_ofMatrix, Graph.size_ofMatrix]
  obtain ⟨rfl, -⟩ := value_independent_of_order.2 _ _ _ _ (by decide) hrows
    (by decide) hp 0 _ _ _ _
    _ _ _ _ a b hg hreversed hg hreversed hrun hrun'
  exact ⟨hp, a, hrun, hrun'⟩

end Problem

end MarkovElimination
