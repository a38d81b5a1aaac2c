import MarkovElimination.Elimination.Strategy
import MarkovElimination.Proofs.Elimination.Equations

/-! # Runs of full eliminations

A problem with **positive** entries keeps them under elimination. If a positive vector `y` is
strictly decreased by all rows, then every self-loop is below one, and elimination keeps `y`
decreasing; so no elimination can fail. At the same time every solution `x` of the equations stays a
solution of the equations that remain. Both are parts of the invariant `Progress`, which one full
elimination keeps (`Progress.eliminate`), hence also the elimination of any list of states
(`Progress.eliminateList`). When only one state is left, its equation gives the solution
(`Progress.eliminateLast`). -/

namespace MarkovElimination.Problem

variable {α : Type} [Weight α] {I : Interpretation α ℚ}

/-! ### Positive entries -/

variable (I) in
/-- A consistent problem with positive entries, whose values are defined. -/
structure Proper (p : Problem α) : Prop where
  consistent : p.Consistent
  positive : ∀ s, I.PositiveRow (p.row s)
  values : ∀ s, I.Valid (p.value s)

/-- All entries and values of a proper problem are defined. -/
theorem Proper.valid {p : Problem α} (hp : p.Proper I) : p.Valid I :=
  ⟨fun s => (hp.positive s).valid, hp.values⟩

/-- The dot product of a row without its self-loop. -/
theorem Proper.dot_split {p : Problem α} (hp : p.Proper I) (s : Nat) (y : Nat → ℚ) :
    I.dot (p.row s) y = I.dot ((p.row s).erase s) y + p.loop I s * y s := by
  rw [I.dot_erase (hp.consistent.sorted s), loop]
  ring

/-- The entries of a row without its self-loop are positive. -/
theorem Proper.positive_erase {p : Problem α} (hp : p.Proper I) (s c : Nat) :
    I.PositiveRow ((p.row s).erase c) :=
  fun e he => hp.positive s e (Row.mem_of_mem_erase he)

/-- A vector that is positive at a state and decreased by its row shows that the self-loop is below
one. -/
theorem Proper.loop_lt_one {p : Problem α} (hp : p.Proper I) {s : Nat} {y : Nat → ℚ}
    (hy : ∀ i, 0 ≤ y i) (hs : 0 < y s) (hdrain : I.dot (p.row s) y < y s) : p.loop I s < 1 := by
  have hrest : 0 ≤ I.dot ((p.row s).erase s) y :=
    (hp.positive_erase s s).dot_nonneg fun c _ => hy c
  rw [hp.dot_split] at hdrain
  -- A self-loop of at least one would already return all of `y s`.
  by_contra hge
  nlinarith [not_lt.1 hge]

/-- A row that sums to at most one and has an entry in another column has a self-loop below one. -/
theorem Proper.loop_lt_one_of_sum_le {p : Problem α} (hp : p.Proper I) {s : Nat}
    (hsum : I.dot (p.row s) (fun _ => 1) ≤ 1) {c : Nat} (hc : c ∈ (p.row s).columns)
    (hcs : c ≠ s) : p.loop I s < 1 := by
  have hrest : 0 < I.dot ((p.row s).erase s) fun _ => 1 :=
    (hp.positive_erase s s).dot_pos (fun _ _ => zero_le_one) (Row.mem_columns_erase.2 ⟨hc, hcs⟩)
      zero_lt_one
  rw [hp.dot_split] at hsum
  linarith

/-- What leaves the state of a plan is positive. -/
theorem Planned.positive_outgoing {p : Problem α} (hp : p.Proper I) {s : Nat} {drop : Bool}
    {constraint : Option StateSet} {r : Redirection α} (h : p.Planned I s drop constraint r)
    (hloop : p.loop I s < 1) : I.PositiveRow r.outgoing := by
  rcases h.outgoing_eq with ⟨-, -, hout⟩ | ⟨f, hf, hfval, -, hout⟩
  · rw [hout]
    exact hp.positive_erase s s
  · rw [hout]
    refine (hp.positive_erase s s).scale ⟨hf, ?_⟩
    rw [hfval, inv_pos]
    linarith

/-- Carrying out a plan keeps a problem proper. -/
theorem Planned.proper {p : Problem α} (hp : p.Proper I) {s : Nat} {drop : Bool}
    {constraint : Option StateSet} {r : Redirection α} (h : p.Planned I s drop constraint r)
    (hloop : p.loop I s < 1) : (p.redirect r).Proper I where
  consistent := hp.consistent.redirect h.toIsPlan
  positive i := by
    have hout := h.positive_outgoing hp hloop
    by_cases his : i = s
    · rw [his, h.row_redirect_self]
      cases drop with
      | true => exact fun e he => absurd he (by simp)
      | false => exact hout
    · rcases h.redirected_cases hp.consistent his with ⟨m, hmem, hm⟩ | ⟨hmem, -⟩
      · obtain ⟨e, he, -, rfl⟩ := Row.exists_entry_of_get? hm
        rw [h.row_redirect_of_mem hmem hm]
        exact (hp.positive_erase i s).addScaled (hp.positive i e he) hout
      · rw [h.row_redirect_of_not_mem his hmem]
        exact hp.positive i
  values := (h.eliminated hp.consistent hp.valid).valid.values

/-- **Eliminations keep problems proper**, and succeed where the self-loop is below one. -/
theorem Proper.eliminate {p : Problem α} (hp : p.Proper I) {s : Nat} (hs : s < p.size)
    (hloop : p.loop I s < 1) (drop : Bool) {constraint : Option StateSet}
    (hconstraint : ∀ set ∈ constraint, set.size = p.size) :
    Meets I.RangeFault (fun p' => p'.Proper I ∧ p.Eliminated I s drop constraint p')
      (p.eliminate s drop constraint) := by
  refine (eliminate_meets_plan hp.consistent hp.valid hs hloop.ne drop
    (hp.consistent.covers hconstraint)).mono ?_
  rintro p' ⟨r, hr, rfl⟩
  exact ⟨hr.proper hp hloop, hr.eliminated hp.consistent hp.valid⟩

/-- A vector that the row of a state strictly decreases is decreased on exit. -/
theorem exit_lt {p : Problem α} {s : Nat} (hloop : p.loop I s < 1) {y : Nat → ℚ}
    (hdrain : I.dot (p.row s) y < y s) : p.exit I s y < y s := by
  rw [exit, div_lt_iff₀ (by linarith)]
  linarith

/-! ### The invariant of full eliminations -/

variable (I) in
/-- **The invariant of full eliminations.** The states of `E` are eliminated: no row has an entry
for them. The positive vector `y` is decreased by all rows, and `x` solves the equations of all
other states. -/
structure Progress (x y : Nat → ℚ) (E : Nat → Prop) (p : Problem α) : Prop where
  proper : p.Proper I
  pos : ∀ i, 0 < y i
  drains : ∀ i, I.dot (p.row i) y < y i
  solves : ∀ i, i < p.size → ¬E i → x i = I.value (p.value i) + I.dot (p.row i) x
  gone : ∀ i, ∀ c ∈ (p.row i).columns, ¬E c

variable {x y : Nat → ℚ} {E : Nat → Prop}

/-- Under the invariant every self-loop is below one. -/
theorem Progress.loop_lt_one {p : Problem α} (h : p.Progress I x y E) (s : Nat) :
    p.loop I s < 1 :=
  h.proper.loop_lt_one (fun i => (h.pos i).le) (h.pos s) (h.drains s)

/-- What a full elimination does keeps the invariant. -/
theorem Progress.of_eliminated {p p' : Problem α} {s : Nat} (h : p.Progress I x y E)
    (hs : s < p.size) (hproper : p'.Proper I) (he : p.Eliminated I s true none p') :
    p'.Progress I x y fun i => E i ∨ i = s := by
  have hloop := h.loop_lt_one s
  have hcoeff (i : Nat) : 0 ≤ I.coefficient (p.row i) s :=
    (h.proper.positive i).coefficient_nonneg s
  refine ⟨hproper, h.pos, fun i => ?_, fun i hi hE => ?_, fun i c hc => ?_⟩
  · by_cases his : i = s
    · rw [his, I.dot_eq_zero (by simp [he.columns_dropped])]
      exact h.pos s
    · -- The row gets the exit value of the state in place of its value, which is smaller.
      rw [he.dot i his (allows_none i)]
      have hexit := exit_lt hloop (h.drains s)
      nlinarith [h.drains i, hcoeff i]
  · rw [not_or] at hE
    rw [he.size_eq] at hi
    rw [he.dot i hE.2 (allows_none i), he.value i hE.2 (allows_none i)]
    by_cases hcol : s ∈ (p.row i).columns
    · -- The eliminated state has its equation, which is substituted.
      have hsolve := exit_add_exitValue hloop.ne (h.solves s hs (h.gone i s hcol))
      linear_combination h.solves i hi hE.1 - I.coefficient (p.row i) s * hsolve
    · rw [I.coefficient_of_not_mem hcol]
      linarith [h.solves i hi hE.1]
  · by_cases his : i = s
    · rw [his, he.columns_dropped] at hc
      simp at hc
    · rw [he.columns i his (allows_none i)] at hc
      rw [not_or]
      exact ⟨hc.2.elim (h.gone i c) fun hc => h.gone s c hc.2, hc.1⟩

/-- **One full elimination** succeeds and keeps the invariant. -/
theorem Progress.eliminate {p : Problem α} {s : Nat} (h : p.Progress I x y E) (hs : s < p.size) :
    Meets I.RangeFault
      (fun p' => p'.Progress I x y (fun i => E i ∨ i = s) ∧ p'.size = p.size ∧
        p'.mode = p.mode)
      (p.eliminate s true none) :=
  (h.proper.eliminate hs (h.loop_lt_one s) true (by simp)).mono fun _ hp' =>
    ⟨h.of_eliminated hs hp'.1 hp'.2, hp'.2.size_eq, hp'.2.mode_eq⟩

/-- The invariant only depends on which states are eliminated. -/
theorem Progress.congr {p : Problem α} {E' : Nat → Prop} (h : p.Progress I x y E)
    (hE : ∀ i, E i ↔ E' i) : p.Progress I x y E' := by
  have heq : E = E' := funext fun i => propext (hE i)
  exact heq ▸ h

/-- **Eliminating a list of states** succeeds and keeps the invariant. -/
theorem Progress.eliminateList {p : Problem α} (h : p.Progress I x y E) {states : List Nat}
    (hstates : ∀ s ∈ states, s < p.size) :
    Runs (Interruption.IsFault I.RangeFault)
      (fun p' => p'.Progress I x y (fun i => E i ∨ i ∈ states) ∧ p'.size = p.size ∧
        p'.mode = p.mode) (p.eliminateList states) := by
  let J (done : List Nat) (q : Problem α) : Prop :=
    q.Progress I x y (fun i => E i ∨ i ∈ done) ∧ q.size = p.size ∧ q.mode = p.mode
  refine Runs.foldlM_done (J := J) (fun done s rest q hsplit hJ => ?_)
    ⟨h.congr (by simp), rfl, rfl⟩
  obtain ⟨hq, hsize, hmode⟩ := hJ
  refine Monitored.runs_checkpoint.bind fun _ _ => ?_
  have hs : s < q.size := by
    rw [hsize]
    exact hstates s (by rw [hsplit]; simp)
  refine (runs_eliminateMonitored (hq.eliminate hs)).mono fun q' hq' => ?_
  refine ⟨hq'.1.congr fun i => ?_, hq'.2.1.trans hsize, hq'.2.2.trans hmode⟩
  simp [or_assoc]

/-! ### The last state -/

/-- When all other states are eliminated, the last one has no entry but its self-loop. -/
theorem Progress.columns_last {p : Problem α} {s : Nat} (h : p.Progress I x y E)
    (hE : ∀ i, i < p.size → i ≠ s → E i) {c : Nat} (hc : c ∈ (p.row s).columns) :
    c = s := by
  by_contra hcs
  exact h.gone s c hc (hE c (h.proper.consistent.column_lt s c hc) hcs)

/-- The equation of the last state is solved by its exit value. -/
theorem Progress.exitValue_last {p : Problem α} {s : Nat} (h : p.Progress I x y E)
    (hs : s < p.size) (hEs : ¬E s) (hE : ∀ i, i < p.size → i ≠ s → E i) :
    p.exitValue I s = x s := by
  have hsolve := exit_add_exitValue (h.loop_lt_one s).ne (h.solves s hs hEs)
  have hdot : I.dot ((p.row s).erase s) x = 0 := by
    refine I.dot_eq_zero fun c hc => ?_
    obtain ⟨hmem, hne⟩ := Row.mem_columns_erase.1 hc
    exact absurd (h.columns_last hE hmem) hne
  have hexit : p.exit I s x = 0 := by
    rw [exit, h.proper.dot_split, hdot]
    ring
  rw [← hsolve, hexit, zero_add]

/-- **The last state** gives the solution of its equation, in both kinds of problems. -/
theorem Progress.eliminateLast {p : Problem α} {s : Nat} (h : p.Progress I x y E)
    (hs : s < p.size) (hEs : ¬E s) (hE : ∀ i, i < p.size → i ≠ s → E i) :
    Runs (Interruption.IsFault I.RangeFault)
      (fun result => I.Valid result.1 ∧ I.value result.1 = x s) (p.eliminateLast s) := by
  refine (runs_eliminateLast (fun f hf => hf) h.proper.consistent h.proper.valid hs
    (h.loop_lt_one s).ne fun c hc => h.columns_last hE hc).mono ?_
  rintro result ⟨a, ha, hvalue, heq⟩
  rw [heq, I.value_simplify ha, hvalue]
  exact ⟨I.valid_simplify ha, h.exitValue_last hs hEs hE⟩

end MarkovElimination.Problem
