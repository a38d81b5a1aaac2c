import Mathlib
import MarkovElimination.Checking.Subsystem
import MarkovElimination.Proofs.Checking.Instantiation
import MarkovElimination.Proofs.Elimination.Constant

/-! # Parametric subsystems keep the query

The subsystem of an until formula is computed once and then instantiated for many valuations. At
every valuation at which the chain is stochastic it **keeps the query** (`subsystem_preserves`): the
query is settled, or the equations of the remaining states, evaluated at the valuation, have one
solution, whose component at the initial state is the probability of the instance. No row of a
remaining state leaves the remaining states, so an instance never reports an open selection
(`Matrix.instantiate_meets`). -/

namespace MarkovElimination

/-! ### Closed selections -/

/-- A loop over a list that collects results. -/
theorem Meets.mapM {ε β γ : Type} {E : ε → Prop} {Q : γ → Prop} {f : β → Except ε γ}
    {l : List β}
    (h : ∀ b ∈ l, Meets E Q (f b)) : Meets E (fun cs => ∀ c ∈ cs, Q c) (l.mapM f) := by
  induction l with
  | nil => exact fun c hc => absurd hc List.not_mem_nil
  | cons b l ih =>
    obtain ⟨hb, hl⟩ := List.forall_mem_cons.1 h
    rw [List.mapM_cons]
    exact hb.bind fun c hc => (ih hl).bind fun cs hcs => List.forall_mem_cons.2 ⟨hc, hcs⟩

/-- A fault other than a selection that is left. -/
def Fault.IsClosed (f : Fault) : Prop := ∀ t, f ≠ .openSelection t

namespace Matrix

variable {v : Valuation} {kept : List Nat}

theorem evaluateFloat_meets (v : Valuation) (r : RationalFunction) :
    Meets Fault.IsClosed (fun _ => True) (evaluateFloat v r) := by
  unfold evaluateFloat
  split
  · exact trivial
  · exact fun _ h => by cases h

/-- The entries of a row that stays among the kept states. -/
theorem instantiateRow_meets {row : Row RationalFunction} (h : ∀ c ∈ row.columns, c ∈ kept)
    (missing : Float) :
    Meets Fault.IsClosed (fun _ => True) (instantiateRow kept v missing row) := by
  induction row generalizing missing with
  | nil => exact trivial
  | cons e row ih =>
    obtain ⟨he, hrow⟩ := List.forall_mem_cons.1 h
    unfold instantiateRow
    cases hidx : kept.idxOf? e.column with
    | none => exact absurd he (List.idxOf?_eq_none_iff.1 hidx)
    | some column =>
      exact (evaluateFloat_meets v e.value).bind fun value _ =>
        (ih hrow (missing - value)).bind fun _ _ => trivial

theorem instantiateOneStep_meets (v : Valuation) (target : Nat) (missing : Float)
    (value : Option RationalFunction) :
    Meets Fault.IsClosed (fun _ => True) (instantiateOneStep v target missing value) := by
  unfold instantiateOneStep
  split
  · exact trivial
  · split
    · exact trivial
    · exact (evaluateFloat_meets v _).bind fun _ _ => trivial

theorem sinkEntry_meets (sink : Nat) (missing : Float) :
    Meets Fault.IsClosed (fun _ => True) (sinkEntry sink missing) := by
  unfold sinkEntry
  split
  · exact trivial
  · exact fun _ h => by cases h

/-- The entries of a kept state. -/
theorem instantiateState_meets {m : Matrix RationalFunction} {options : InstanceOptions}
    {index state : Nat} (h : ∀ c ∈ (m.row state).columns, c ∈ kept) :
    Meets Fault.IsClosed (fun _ => True) (m.instantiateState kept v options index state) := by
  refine (instantiateRow_meets h 1).bind fun _ _ => ?_
  refine (instantiateOneStep_meets v _ _ _).bind fun _ _ => ?_
  cases options.sink with
  | true => exact (sinkEntry_meets _ _).bind fun _ _ => trivial
  | false => exact trivial

/-- **A selection that no row leaves** is never reported to be left. -/
theorem instantiate_meets {m : Matrix RationalFunction} {filter : StateSet}
    (h : ∀ i, filter.contains i = true → ∀ c ∈ (m.row i).columns, filter.contains c = true)
    (options : InstanceOptions) :
    Meets Fault.IsClosed (fun _ => True) (m.instantiate v filter options) := by
  have hrows : Meets Fault.IsClosed (fun _ => True) (filter.toList.zipIdx.mapM fun pair =>
      m.instantiateState filter.toList v options pair.2 pair.1) := by
    refine (Meets.mapM (Q := fun _ => True) fun pair hpair => ?_).mono fun _ _ => trivial
    have hmem : filter.contains pair.1 = true :=
      StateSet.mem_toList.1 (List.fst_mem_of_mem_zipIdx hpair)
    exact instantiateState_meets fun c hc => StateSet.mem_toList.2 (h _ hmem c hc)
  unfold instantiate
  dsimp only
  by_cases hsize : filter.size ≠ m.rowCount
  · rw [if_pos hsize]
    exact fun _ hopen => by cases hopen
  rw [if_neg hsize]
  cases options.oneStep with
  | none => exact hrows.bind fun _ _ => trivial
  | some values =>
    by_cases hvalues : values.size ≠ m.rowCount
    · simp only [if_pos hvalues]
      exact fun _ hopen => by cases hopen
    · simp only [if_neg hvalues]
      exact hrows.bind fun _ _ => trivial

end Matrix

/-! ### What remains of a query -/

namespace Problem

variable {v : Valuation} {p q : Problem RationalFunction}

/-- A vector satisfies the equations of the remaining states, with all weights evaluated. -/
def SolvesAt (p : Problem RationalFunction) (v : Valuation) (remaining : StateSet)
    (z : Nat → ℚ) : Prop :=
  ∀ i, remaining.contains i = true → z i = (p.value i).instantiate v +
    ((p.row i).map fun e => e.value.instantiate v * z e.column).sum

/-- **What remains of a query** at a valuation: the start remains, no row leaves the remaining
states, all their entries and values are defined, and the only solution of their equations has the
component `answer` at the start. -/
structure KeepsQuery (p : Problem RationalFunction) (v : Valuation) (remaining : StateSet)
    (start : Nat) (answer : ℚ) : Prop where
  start_mem : remaining.contains start = true
  closed : ∀ i, remaining.contains i = true →
    ∀ c ∈ (p.row i).columns, remaining.contains c = true
  defined : ∀ i, remaining.contains i = true → ((p.value i).evaluate v).isSome = true ∧
    ∀ e ∈ p.row i, (e.value.evaluate v).isSome = true
  solution : ∃ z, p.SolvesAt v remaining z ∧ z start = answer ∧
    ∀ w, p.SolvesAt v remaining w → ∀ i, remaining.contains i = true → w i = z i

/-- The evaluated equations are those of the interpretation. -/
theorem solvesAt_iff (hp : p.Valid (.ofValuation v)) {remaining : StateSet}
    (hsize : remaining.size = p.size) {z : Nat → ℚ} : p.SolvesAt v remaining z ↔
      p.SolvesOutside (.ofValuation v) (fun i => i < p.size ∧
        remaining.contains i = false) z := by
  have hequation (i : Nat) : (p.value i).instantiate v +
      ((p.row i).map fun e => e.value.instantiate v * z e.column).sum =
        (Interpretation.ofValuation v).value (p.value i) +
          (Interpretation.ofValuation v).dot (p.row i) z := by
    have hvalue := RationalFunction.HasValue.instantiate_eq (hp.values i)
    have hrow : ((p.row i).map fun e => e.value.instantiate v * z e.column) =
        (p.row i).map fun e => (Interpretation.ofValuation v).value e.value * z e.column := by
      refine List.map_congr_left fun e he => ?_
      rw [RationalFunction.HasValue.instantiate_eq (hp.rows i e he)]
      rfl
    rw [hvalue, hrow]
    rfl
  constructor
  · intro h i hi hE
    have hmem : remaining.contains i = true := by
      by_contra hnot
      exact hE ⟨hi, by simpa using hnot⟩
    rw [h i hmem, hequation]
  · intro h i hmem
    have hi : i < p.size := hsize ▸ StateSet.lt_size_of_contains hmem
    rw [h i hi fun hE => by simp [hmem] at hE, hequation]

/-- **A partial elimination keeps the query.** -/
theorem Reducing.keepsQuery {x y : Nat → ℚ} {done : List Nat} {remaining : StateSet}
    (h : p.Reducing (.ofValuation v) x y done (remaining, q)) {start : Nat}
    (hstart : start < p.size)
    (hnot : start ∉ done) : q.KeepsQuery v remaining start (x start) := by
  have hsize : remaining.size = q.size := h.remaining_size.trans h.size_eq.symm
  have hprogress : q.Progress (.ofValuation v) x y
      fun i => i < q.size ∧ remaining.contains i = false := by
    rw [h.size_eq]
    exact h.progress
  have hvalid := hprogress.proper.valid
  refine ⟨h.unvisited start hstart hnot, fun i hi c hc => ?_, fun i hi =>
    ⟨?_, fun e he => ?_⟩, x, ?_, rfl, fun w hw i hi => ?_⟩
  · have hlt := hprogress.proper.consistent.column_lt i c hc
    by_contra hgone
    exact hprogress.gone i c hc ⟨hlt, by simpa using hgone⟩
  · rw [RationalFunction.HasValue.evaluate (hvalid.values i)]
    rfl
  · rw [RationalFunction.HasValue.evaluate (hvalid.rows i e he)]
    rfl
  · exact (solvesAt_iff hvalid hsize).2 hprogress.solves
  · have hlt : i < q.size := hsize ▸ StateSet.lt_size_of_contains hi
    exact hprogress.eq_of_solutions ((solvesAt_iff hvalid hsize).1 hw) hprogress.solves hlt
      fun hE => by simp [hi] at hE

end Problem

/-! ### Subsystems of a chain -/

/-- A result together with the computation that gives it. -/
theorem Meets.and_eq {ε β : Type} {E : ε → Prop} {Q : β → Prop} {x : Except ε β}
    (h : Meets E Q x) : Meets E (fun b => Q b ∧ x = .ok b) x := by
  cases x with
  | ok b => exact ⟨h, rfl⟩
  | error e => exact h

/-- What a subsystem tells about the query whose probability is `answer` at a valuation: it is
settled, or the remaining states keep it, and an instance never reports that they are left. -/
def Subsystem.Tells (s : Subsystem) (v : Valuation) (answer : ℚ) : Prop :=
  match s.reduction with
  | .settled holds => answer = if holds then 1 else 0
  | .reduced problem remaining start => problem.KeepsQuery v remaining start answer ∧
    ∀ w t, Matrix.instantiate ⟨problem.forward, problem.size⟩ w remaining
      { sink := true, oneStep := some problem.values } ≠ .error (.openSelection t)

/-- The states of a subsystem are the maybe states that graph analysis finds, if it does not settle
the query. -/
def Subsystem.Counts (s : Subsystem) (analysis : Except Fault (UntilAnalysis RationalFunction)) :
    Prop :=
  match s.reduction with
  | .settled holds => analysis = .ok (.settled holds)
  | .reduced _ _ start => ∃ maybe oneStep, analysis = .ok (.undecided maybe oneStep) ∧
    start = Chain.positionIn maybe s.initial ∧ s.stateCount + s.eliminatedStates = maybe.card

namespace Chain

section Maybe

variable {α : Type} [Weight α] {I : Interpretation α ℚ} {c : Chain α}

/-- **The problem of the maybe states** is solved by their probabilities. -/
theorem HasMaybe.ofMatrix_meets (h : c.Stochastic I) {s₀ : Fin c.size} {invariant goal : StateSet}
    {x : Fin c.size → ℚ}
    (hx : Kernel.IsUntilProbability (c.kernel I.value) (fun s => invariant.contains s = true)
      (fun s => goal.contains s = true) x) {maybe : StateSet} {oneStep : List α}
    (hM : c.HasMaybe I s₀ x maybe oneStep) :
    ∃ z y : Nat → ℚ, z (positionIn maybe s₀) = x s₀ ∧
      Meets I.RangeFault
        (fun p => p.Progress I z y (fun _ => False) ∧ p.size = maybe.card ∧ p.eliminated = 0)
        (Problem.ofMatrix .probabilities (c.transitions.submatrix maybe maybe) oneStep) := by
  have hP := h.kernel_stochastic.substochastic
  obtain ⟨y, hypos, hyout, hy⟩ := (hM.undecided.transient hP hx).exists_drain
  have hpos : maybe.toList[positionIn maybe s₀]? = some ↑s₀ :=
    StateSet.getElem?_idxOf hM.initial
  refine ⟨maybe.atPosition 0 (c.extend fun s => if maybe.contains s then x s else 0),
    maybe.atPosition 1 (c.extend y), ?_, ?_⟩
  · rw [atPosition_extend hpos, if_pos hM.initial]
  · refine (h.ofMatrix_meets maybe .probabilities hM.length hM.valid).and_eq.mono ?_
    rintro p ⟨hp, hok⟩
    refine ⟨hp.progress h hM.value hM.size (fun s hs => ?_) (fun s hs =>
      if_neg hs) hypos hyout hy, hp.size_eq, ?_⟩
    · rw [if_pos hs]
      exact hM.undecided.solves hP hx hs
    · obtain ⟨-, -, rfl⟩ := Problem.ofMatrix_eq_ok hok
      rfl

end Maybe

variable {v : Valuation} {c : Chain RationalFunction} {invariant goal : StateSet}

/-- **Subsystems keep the query**, at every valuation at which the chain is stochastic. -/
theorem Stochastic.runs_subsystem (h : c.Stochastic (.ofValuation v)) {s₀ : Fin c.size}
    (hinitial : c.initial.toList = [↑s₀]) (hinv : invariant.size = c.size)
    (hgoal : goal.size = c.size) {x : Fin c.size → ℚ}
    (hx : Kernel.IsUntilProbability (c.kernel (Interpretation.ofValuation v).value)
      (fun s => invariant.contains s = true) (fun s => goal.contains s = true) x) :
    Runs (CheckError.IsFault (Interpretation.ofValuation v).RangeFault)
      (fun sub => sub.initial = (s₀ : Nat) ∧ sub.Tells v (x s₀) ∧
        sub.Counts (c.analyseUntil s₀ invariant goal)) (c.subsystem invariant goal) := by
  refine (runs_initialState hinitial).bind ?_
  rintro _ rfl
  refine Checked.runs_checkpoint.bind fun _ _ => ?_
  refine (Checked.runs_ofFault (h.analyseUntil_meets hinitial hinv hgoal hx).and_eq).bind ?_
  rintro (holds | ⟨maybe, oneStep⟩) ⟨hanalysis, hok⟩
  · exact .pure ⟨rfl, hanalysis, hok⟩
  · have hM : c.HasMaybe (.ofValuation v) s₀ x maybe oneStep := hanalysis
    obtain ⟨z, y, hz, hmeets⟩ := hM.ofMatrix_meets h hx
    refine (Checked.runs_ofFault hmeets).bind ?_
    rintro p ⟨hprogress, hsize, hnone⟩
    have hlt : positionIn maybe s₀ < p.size := by
      rw [hsize]
      exact List.idxOf_lt_length_of_mem (StateSet.mem_toList.2 hM.initial)
    have hprotected : (c.initial.compress maybe).size = p.size := by
      rw [StateSet.size_compress, hsize]
    refine (Checked.runs_ofMonitored (hprogress.runs_eliminateConstant hprotected)).bind ?_
    rintro ⟨remaining, q⟩ hreduced
    -- The initial state is protected, so it is not visited.
    have hnot : positionIn maybe s₀ ∉ (c.initial.compress maybe).complement.toList := by
      have hinit := (contains_compress_initial hinitial hM.initial (positionIn maybe s₀)).2 rfl
      rw [StateSet.mem_toList, StateSet.contains_complement, hinit]
      simp
    have hkeeps := hreduced.keepsQuery hlt hnot
    rw [hz] at hkeeps
    refine .pure ⟨rfl, ⟨hkeeps, fun w t hopen => ?_⟩, maybe, oneStep, hok, rfl, ?_⟩
    · have hclosed := Matrix.instantiate_meets (v := w) (m := ⟨q.forward, q.size⟩)
        hkeeps.closed { sink := true, oneStep := some q.values }
      rw [hopen] at hclosed
      exact hclosed t rfl
    · have hcount := hreduced.count
      rw [hsize, hnone, add_zero] at hcount
      exact hcount

/-! ### At a valuation -/

/-- **A chain of rational functions that is stochastic at a valuation**: all transitions evaluate to
positive numbers, and those of every state sum to exactly one. Rewards need not be defined. -/
structure IsStochasticAt (v : Valuation) (c : Chain RationalFunction) : Prop where
  wellFormed : c.WellFormed
  positive : ∀ s, ∀ e ∈ c.transitions.row s, e.value.WellFormed ∧
    (e.value.evaluate v).isSome = true ∧ 0 < e.value.instantiate v
  sum_eq : ∀ s, s < c.size →
    ((c.transitions.row s).map fun e => e.value.instantiate v).sum = 1

/-- A Markov chain at a valuation is stochastic there. -/
theorem IsMarkovAt.isStochasticAt (h : c.IsMarkovAt v) : c.IsStochasticAt v :=
  ⟨h.wellFormed, h.positive, h.sum_eq⟩

/-- The chain without its rewards. -/
def withoutRewards (c : Chain RationalFunction) : Chain RationalFunction :=
  { c with stateRewards := none, transitionRewards := none }

namespace IsStochasticAt

/-- Without rewards the chain is a Markov chain at the valuation. -/
theorem isMarkovAt_withoutRewards (h : c.IsStochasticAt v) : c.withoutRewards.IsMarkovAt v where
  wellFormed :=
    { h.wellFormed with
      stateRewards_size := fun _ hr => absurd hr (by simp [withoutRewards])
      transitionRewards_size := fun _ hr => absurd hr (by simp [withoutRewards]) }
  positive := h.positive
  sum_eq := h.sum_eq
  stateRewards _ hr := absurd hr (by simp [withoutRewards])
  transitionRewards _ hr := absurd hr (by simp [withoutRewards])

/-- The chain is stochastic under the interpretation of the valuation. -/
theorem stochastic (h : c.IsStochasticAt v) : c.Stochastic (.ofValuation v) where
  toWellFormed := h.wellFormed
  positive := h.isMarkovAt_withoutRewards.stochastic.positive
  sum_eq := h.isMarkovAt_withoutRewards.stochastic.sum_eq

end IsStochasticAt

/-- **The subsystem preserves the query.** Let a chain of rational functions with one initial state
be stochastic at a valuation. The uncancelled computation of the subsystem of `invariant U goal`
that keeps exponents in range meets no fault. It settles the probability of the instance in the
initial state, or what remains keeps it; and the remaining and the eliminated states together are
the maybe states. -/
theorem subsystem_preserves (hc : c.IsStochasticAt v) {s₀ : Fin (c.instantiate v).size}
    (hinitial : c.initial.toList = [↑s₀]) (hinv : invariant.size = c.size)
    (hgoal : goal.size = c.size) {m : Monitor} (hm : m.cancelAt = none)
    (hrange : (outcome (c.subsystem invariant goal) m).1 ≠ .error (.fault .degreeOverflow)) :
    ∃ x, Kernel.IsUntilProbability (c.instantiate v).probability
        (fun s => invariant.contains s = true) (fun s => goal.contains s = true) x ∧
      ∃ sub, (outcome (c.subsystem invariant goal) m).1 = .ok sub ∧
      sub.initial = (s₀ : Nat) ∧
        sub.Tells v (x s₀) ∧ sub.Counts (c.analyseUntil s₀ invariant goal) := by
  have h := hc.stochastic
  -- The instance and the interpreted chain have the same probabilities, over equal state spaces.
  have hruns : ∀ S : Semantics, c.withoutRewards.semantics
      (Interpretation.ofValuation v).value = S →
      ∀ (s : Fin S.size) (x : Fin S.size → ℚ), c.initial.toList = [↑s] →
        Kernel.IsUntilProbability S.step (fun s => invariant.contains s = true)
          (fun s => goal.contains s = true) x →
        Runs (CheckError.IsFault (Interpretation.ofValuation v).RangeFault)
          (fun sub => sub.initial = (s : Nat) ∧ sub.Tells v (x s) ∧
            sub.Counts (c.analyseUntil s invariant goal)) (c.subsystem invariant goal) := by
    rintro _ rfl s x hs hx
    exact h.runs_subsystem hs hinv hgoal hx
  have hP := hc.isMarkovAt_withoutRewards.isMarkov_instantiate.stochastic.kernel_stochastic
  obtain ⟨x, hx⟩ := Kernel.exists_isUntilProbability hP.substochastic
    (fun s => invariant.contains s = true) fun s => goal.contains s = true
  have hrun := hruns _ hc.isMarkovAt_withoutRewards.semantics_instantiate.symm s₀ x hinitial hx
  refine ⟨x, hx, ?_⟩
  have hmeets := (hrun m hm).1
  cases hout : (outcome (c.subsystem invariant goal) m).1 with
  | ok sub =>
    rw [hout] at hmeets
    exact ⟨sub, rfl, hmeets⟩
  | error e =>
    rw [hout] at hmeets
    cases e with
    | fault f =>
      rw [hout, hmeets.2] at hrange
      exact absurd rfl hrange
    | _ => exact hmeets.elim

end Chain

/-! ### A chain with a high power -/

namespace RationalFunction

/-- The function `a * q ^ n + b`. -/
def surge (n : ℕ) (a b : ℚ) : RationalFunction :=
  .ofPolynomial ⟨[⟨⟨[⟨"q", n⟩]⟩, a⟩, ⟨.one, b⟩]⟩

/-- At `q = 1` the value is `a + b`, whatever the exponent. -/
theorem evaluate_surge (n : ℕ) (a b : ℚ) :
    (surge n a b).evaluate (.ofList [("q", 1)]) = some (a + b) := by
  have hone : Polynomial.evaluate (.ofList [("q", 1)]) 1 = some 1 := by decide_cbv
  have hq : Valuation.ofList [("q", 1)] "q" = some 1 := rfl
  have hsum : Polynomial.evaluate (.ofList [("q", 1)])
      ⟨[⟨⟨[⟨"q", n⟩]⟩, a⟩, ⟨.one, b⟩]⟩ = some (a + b) := by
    simp [Polynomial.evaluate, Polynomial.evaluateTerms, Polynomial.evaluateFactors, Monomial.one,
      hq]
  simp [surge, ofPolynomial, evaluate, hone, hsum]

/-- Two terms with a positive exponent are well formed. -/
theorem wellFormed_surge {n : ℕ} {a b : ℚ} (hn : 0 < n) (ha : a ≠ 0) (hb : b ≠ 0) :
    (surge n a b).WellFormed := by
  refine ⟨⟨?_, ?_⟩, Polynomial.wellFormed_one, show (1 : Polynomial) ≠ 0 by decide⟩
  · simp [surge, ofPolynomial]
    rfl
  · simp [surge, ofPolynomial, Monomial.WellFormed, Monomial.one, hn, ha, hb]

end RationalFunction

namespace Chain

/-- State `0` goes to the target `3` with probability `1 / (2 * q)`, or to state `1`, from which the
target and the sink `2` are equally likely. -/
def surge (n : ℕ) : Chain RationalFunction where
  transitions := .ofRows 4 [
    [⟨1, .surge n (1 / 8) (1 / 8)⟩, ⟨2, .surge n (-1 / 8) (3 / 8)⟩,
      ⟨3, ⟨.const (1 / 2), .ofParameter "q"⟩⟩],
    [⟨2, .const (1 / 2)⟩, ⟨3, .const (1 / 2)⟩], [⟨2, 1⟩], [⟨3, 1⟩]]
  initial := .singleton 4 0
  labelling := []
  stateRewards := none
  transitionRewards := none

/-- The chain is a Markov chain for `q = 1`. -/
theorem isMarkovAt_surge {n : ℕ} (hn : 0 < n) : (surge n).IsMarkovAt (.ofList [("q", 1)]) := by
  have hwellFormed : (surge n).WellFormed := by
    rw [wellFormed_iff]
    refine ⟨rfl, fun s hs => ?_, rfl, by simp [surge], by simp [surge], by simp [surge]⟩
    have hlt : s < 4 := hs
    interval_cases s <;>
      simp [surge, Matrix.ofRows, Matrix.row, Row.Sorted, Row.columns, Chain.size, Matrix.rowCount]
  rw [isMarkovAt_iff]
  refine ⟨hwellFormed, fun s hs => ?_, by simp [surge], by simp [surge]⟩
  have hlt : s < 4 := List.mem_range.1 hs
  interval_cases s
  · have hrow : (surge n).transitions.row 0 = [⟨1, .surge n (1 / 8) (1 / 8)⟩,
        ⟨2, .surge n (-1 / 8) (3 / 8)⟩, ⟨3, ⟨.const (1 / 2), .ofParameter "q"⟩⟩] := rfl
    have hwf₁ := RationalFunction.wellFormed_surge (a := 1 / 8) (b := 1 / 8) hn (by norm_num)
      (by norm_num)
    have hwf₂ := RationalFunction.wellFormed_surge (a := -1 / 8) (b := 3 / 8) hn (by norm_num)
      (by norm_num)
    have hwf₃ : RationalFunction.WellFormed ⟨.const (1 / 2), .ofParameter "q"⟩ := by
      decide_cbv
    have hlast : RationalFunction.evaluate (.ofList [("q", 1)])
        ⟨.const (1 / 2), .ofParameter "q"⟩ = some (1 / 2) := by
      decide_cbv
    rw [hrow]
    simp only [List.forall_mem_cons, RationalFunction.instantiate, RationalFunction.evaluate_surge,
      hlast, hwf₁, hwf₂, hwf₃, List.map_cons, List.sum_cons, List.map_nil, List.sum_nil,
      Option.getD_some, Option.isSome_some]
    norm_num
  · decide_cbv
  · decide_cbv
  · decide_cbv

theorem size_instantiate_surge_pos (n : ℕ) (v : Valuation) :
    0 < ((surge n).instantiate v).size := by
  rw [size_instantiate]
  exact Nat.succ_pos 3

/-- With the first power, state `1` is eliminated and the initial state remains. -/
theorem subsystem_surge_first :
    (outcome ((surge 1).subsystem (.full 4) (.singleton 4 3)) {}).1 ≠
        .error (.fault .degreeOverflow) ∧
      ∃ x, Kernel.IsUntilProbability ((surge 1).instantiate (.ofList [("q", 1)])).probability
          (fun s => (StateSet.full 4).contains s = true)
          (fun s => (StateSet.singleton 4 3).contains s = true) x ∧
        ∃ sub, (outcome ((surge 1).subsystem (.full 4) (.singleton 4 3)) {}).1 = .ok sub ∧
          sub.initial = 0 ∧ sub.Tells (.ofList [("q", 1)])
          (x ⟨0, size_instantiate_surge_pos 1 _⟩) ∧
          sub.Counts ((surge 1).analyseUntil 0 (.full 4) (.singleton 4 3)) := by
  have hok : (outcome ((surge 1).subsystem (.full 4) (.singleton 4 3)) {}).1.isOk = true := by
    cbv
  have hrange : (outcome ((surge 1).subsystem (.full 4) (.singleton 4 3)) {}).1 ≠
      .error (.fault .degreeOverflow) :=
    ne_error_of_isOk hok _
  have hinitial : (surge 1).initial.toList =
      [((⟨0, size_instantiate_surge_pos 1 (.ofList [("q", 1)])⟩ : Fin _) : ℕ)] := by
    decide
  exact ⟨hrange, subsystem_preserves (isMarkovAt_surge Nat.one_pos).isStochasticAt hinitial
    rfl rfl rfl hrange⟩

/-- With the greatest exponent that can be represented, the elimination of state `1` puts the power
over the denominator `q` and leaves the range. -/
theorem subsystem_surge_overflow :
    (surge 4294967295).IsStochasticAt (.ofList [("q", 1)]) ∧
      (∀ s ∈ List.range 4, ∀ e ∈ (surge 4294967295).transitions.row s,
        e.value.numerator.InRange ∧ e.value.denominator.InRange) ∧
      (surge 4294967295).initial.toList = [0] ∧
      (outcome ((surge 4294967295).subsystem (.full 4) (.singleton 4 3)) {}).1 =
        .error (.fault .degreeOverflow) := by
  refine ⟨(isMarkovAt_surge (by decide)).isStochasticAt, by decide_cbv, by decide, ?_⟩
  cbv

end Chain

end MarkovElimination
