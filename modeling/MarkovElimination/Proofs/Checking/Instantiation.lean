import MarkovElimination.Proofs.Checking.Answer
import MarkovElimination.Proofs.RationalFunction.Evaluation

/-! # Symbolic checks and their instances

A chain of rational functions is **instantiated** at a valuation by evaluating all its weights. If
the instance is a Markov chain, then both chains have the same semantics: the symbolic one under the
interpretation of the valuation, the instance as it stands. Checks are exact under every
interpretation, so **checking commutes with instantiation** (`check_agrees_instantiate`): the two
checks fail alike, and the value of the symbolic result is the exact result. -/

namespace MarkovElimination

/-- The value of a fraction under a valuation, zero if it has none. -/
def RationalFunction.instantiate (v : Valuation) (r : RationalFunction) : ℚ :=
  (r.evaluate v).getD 0

/-- What has a value is instantiated to it. -/
theorem RationalFunction.HasValue.instantiate_eq {v : Valuation} {r : RationalFunction}
    (h : HasValue v r) : r.instantiate v = valueAt v r := by
  rw [RationalFunction.instantiate, h.evaluate, Option.getD_some]

/-! ### Rows of an instance -/

section Rows

variable {v : Valuation}

/-- A row with all values evaluated. -/
def Row.instantiate (v : Valuation) (row : Row RationalFunction) : Row ℚ :=
  row.map fun e => ⟨e.column, e.value.instantiate v⟩

theorem Row.columns_instantiate (v : Valuation) (row : Row RationalFunction) :
    (row.instantiate v).columns = row.columns := by
  simp [Row.instantiate, Row.columns]

/-- The rows of an instance are the evaluated rows without zeros. -/
theorem Matrix.row_mapValues_instantiate (m : Matrix RationalFunction) (i : Nat) :
    (m.mapValues (RationalFunction.instantiate v)).row i =
      ((m.row i).instantiate v).dropZeros := by
  simp only [Matrix.mapValues, Matrix.row, Array.getD_eq_getD_getElem?, Array.getElem?_map]
  cases m.rows[i]? <;> rfl

/-- **The coefficients of an evaluated row** are the values of the coefficients. -/
theorem coefficient_instantiate {row : Row RationalFunction}
    (h : (Interpretation.ofValuation v).ValidRow row) (c : Nat) :
    Interpretation.rat.coefficient (row.instantiate v) c =
      (Interpretation.ofValuation v).coefficient row c := by
  induction row with
  | nil => rfl
  | cons e row ih =>
    obtain ⟨he, hrow⟩ := List.forall_mem_cons.1 h
    have hcons : Row.instantiate v (e :: row) =
        ⟨e.column, e.value.instantiate v⟩ :: Row.instantiate v row := rfl
    rw [hcons, Interpretation.coefficient_cons, Interpretation.coefficient_cons, ih hrow]
    refine if_congr Iff.rfl ?_ rfl
    exact RationalFunction.HasValue.instantiate_eq he

/-- Dropping zeros from a sorted row keeps its coefficients. -/
theorem coefficient_dropZeros {row : Row ℚ} (h : row.Sorted) (c : Nat) :
    Interpretation.rat.coefficient row.dropZeros c = Interpretation.rat.coefficient row c := by
  induction row with
  | nil => rfl
  | cons e row ih =>
    obtain ⟨hlt, hrow⟩ := Row.sorted_cons.1 h
    rw [Interpretation.coefficient_cons, ← ih hrow]
    by_cases hzero : e.value = 0
    · have hdrop : Row.dropZeros (e :: row) = Row.dropZeros row := by
        simp [Row.dropZeros, Weight.isZero, hzero]
      rw [hdrop]
      split
      case isTrue hc =>
        -- no other entry of a sorted row has the column
        rw [ih hrow, Interpretation.coefficient_of_not_mem, hzero]
        · rfl
        · intro hmem
          have := hlt c hmem
          omega
      case isFalse => rfl
    · have hkeep : Row.dropZeros (e :: row) = e :: Row.dropZeros row := by
        simp [Row.dropZeros, Weight.isZero, hzero]
      rw [hkeep, Interpretation.coefficient_cons]

end Rows

namespace Chain

/-! ### The instance of a chain -/

/-- **The chain with all weights evaluated.** -/
def instantiate (v : Valuation) (c : Chain RationalFunction) : Chain ℚ where
  transitions := c.transitions.mapValues (RationalFunction.instantiate v)
  initial := c.initial
  labelling := c.labelling
  stateRewards := c.stateRewards.map fun rewards => rewards.map (RationalFunction.instantiate v)
  transitionRewards :=
    c.transitionRewards.map fun rewards => rewards.mapValues (RationalFunction.instantiate v)

/-- **A chain of rational functions that is a Markov chain at a valuation**: all transitions
evaluate to positive numbers, those of every state sum to exactly one, and all rewards are
defined. -/
structure IsMarkovAt (v : Valuation) (c : Chain RationalFunction) : Prop where
  wellFormed : c.WellFormed
  positive : ∀ s, ∀ e ∈ c.transitions.row s, e.value.WellFormed ∧
    (e.value.evaluate v).isSome = true ∧ 0 < e.value.instantiate v
  sum_eq : ∀ s, s < c.size →
    ((c.transitions.row s).map fun e => e.value.instantiate v).sum = 1
  stateRewards : ∀ rewards ∈ c.stateRewards, ∀ a ∈ rewards.toList,
    a.WellFormed ∧ (a.evaluate v).isSome = true
  transitionRewards : ∀ rewards ∈ c.transitionRewards, ∀ s, (rewards.row s).Sorted ∧
    ∀ e ∈ rewards.row s, e.value.WellFormed ∧ (e.value.evaluate v).isSome = true

variable {v : Valuation} {c : Chain RationalFunction}

/-- Being a Markov chain at a valuation is a statement about the rows of the states only. -/
theorem isMarkovAt_iff : c.IsMarkovAt v ↔ c.WellFormed ∧
    (∀ s ∈ List.range c.size, (∀ e ∈ c.transitions.row s, e.value.WellFormed ∧
        (e.value.evaluate v).isSome = true ∧ 0 < e.value.instantiate v) ∧
      ((c.transitions.row s).map fun e => e.value.instantiate v).sum = 1) ∧
    (∀ rewards ∈ c.stateRewards, ∀ a ∈ rewards.toList,
      a.WellFormed ∧ (a.evaluate v).isSome = true) ∧
    ∀ rewards ∈ c.transitionRewards, ∀ s ∈ List.range rewards.rowCount,
    (rewards.row s).Sorted ∧
      ∀ e ∈ rewards.row s, e.value.WellFormed ∧ (e.value.evaluate v).isSome = true := by
  simp only [List.mem_range]
  constructor
  · intro h
    exact ⟨h.wellFormed, fun s hs => ⟨h.positive s, h.sum_eq s hs⟩, h.stateRewards,
      fun rewards hr s _ => h.transitionRewards rewards hr s⟩
  · rintro ⟨hwf, hrows, hstates, htransitions⟩
    refine ⟨hwf, fun s e he => ?_, fun s hs => (hrows s hs).2, hstates, fun rewards hr s => ?_⟩
    · have hs : s < c.size := Matrix.lt_rowCount_of_mem_columns (List.mem_map.2 ⟨e, he, rfl⟩)
      exact (hrows s hs).1 e he
    · rcases Nat.lt_or_ge s rewards.rowCount with hs | hs
      · exact htransitions rewards hr s hs
      · rw [Matrix.row_of_rowCount_le hs]
        exact ⟨List.Pairwise.nil, by simp⟩

@[simp] theorem size_instantiate (v : Valuation) (c : Chain RationalFunction) :
    (c.instantiate v).size = c.size := by
  simp [size, instantiate, Matrix.rowCount, Matrix.mapValues]

@[simp] theorem hasRewards_instantiate (v : Valuation) (c : Chain RationalFunction) :
    (c.instantiate v).hasRewards = c.hasRewards := by
  simp [hasRewards, instantiate]

namespace IsMarkovAt

/-- The transitions of a row have positive values. -/
theorem positiveRow (h : c.IsMarkovAt v) (s : Nat) :
    (Interpretation.ofValuation v).PositiveRow (c.transitions.row s) := by
  intro e he
  obtain ⟨hwf, hsome, hpos⟩ := h.positive s e he
  have hvalue := hwf.hasValue (Option.some_get hsome).symm
  refine ⟨hvalue, ?_⟩
  rw [hvalue.instantiate_eq] at hpos
  exact hpos

/-- **The chain is stochastic** under the interpretation of the valuation. -/
theorem stochastic (h : c.IsMarkovAt v) : c.Stochastic (.ofValuation v) where
  toWellFormed := h.wellFormed
  positive := h.positiveRow
  sum_eq s hs := by
    refine Eq.trans ?_ (h.sum_eq s hs)
    refine congrArg List.sum (List.map_congr_left fun e he => ?_)
    rw [mul_one]
    exact (RationalFunction.HasValue.instantiate_eq (h.positiveRow s e he).1).symm

/-- The rewards have values. -/
theorem rewardsDefined (h : c.IsMarkovAt v) : c.RewardsDefined (.ofValuation v) where
  states rewards hr a ha := by
    obtain ⟨hwf, hsome⟩ := h.stateRewards rewards hr a (Array.mem_toList_iff.2 ha)
    exact hwf.hasValue (Option.some_get hsome).symm
  transitions rewards hr s e he := by
    obtain ⟨hwf, hsome⟩ := (h.transitionRewards rewards hr s).2 e he
    exact hwf.hasValue (Option.some_get hsome).symm

/-- The rows of the instance are the evaluated rows. -/
theorem row_instantiate (h : c.IsMarkovAt v) (s : Nat) :
    (c.instantiate v).transitions.row s = (c.transitions.row s).instantiate v := by
  -- Transitions evaluate to positive numbers, so none of them is dropped.
  have hpos : Interpretation.rat.PositiveRow ((c.transitions.row s).instantiate v) := by
    intro e he
    obtain ⟨d, hd, rfl⟩ := List.mem_map.1 he
    exact ⟨trivial, (h.positive s d hd).2.2⟩
  rw [instantiate, Matrix.row_mapValues_instantiate, hpos.dropZeros_eq]

/-- **The instance is a Markov chain.** -/
theorem isMarkov_instantiate (h : c.IsMarkovAt v) : (c.instantiate v).IsMarkov where
  wellFormed := by
    refine ⟨?_, fun s => ?_, fun s t ht => ?_, ?_, fun label hl => ?_, fun rewards hr => ?_,
      fun rewards hr => ?_⟩
    · rw [size_instantiate]
      exact h.wellFormed.square
    · rw [h.row_instantiate, Row.sorted_iff, Row.columns_instantiate, ← Row.sorted_iff]
      exact h.wellFormed.sorted s
    · rw [h.row_instantiate, Row.columns_instantiate] at ht
      rw [size_instantiate]
      exact h.wellFormed.column_lt s t ht
    · rw [size_instantiate]
      exact h.wellFormed.initial_size
    · rw [size_instantiate]
      exact h.wellFormed.labelling_size label hl
    · obtain ⟨given, hgiven, rfl⟩ := Option.map_eq_some_iff.1 hr
      rw [size_instantiate, Array.size_map]
      exact h.wellFormed.stateRewards_size given hgiven
    · obtain ⟨given, hgiven, rfl⟩ := Option.map_eq_some_iff.1 hr
      rw [size_instantiate, Matrix.rowCount, Matrix.mapValues, Array.size_map]
      exact h.wellFormed.transitionRewards_size given hgiven
  positive s e he := by
    rw [h.row_instantiate] at he
    obtain ⟨d, hd, rfl⟩ := List.mem_map.1 he
    exact (h.positive s d hd).2.2
  sum_eq s hs := by
    rw [size_instantiate] at hs
    rw [h.row_instantiate, ← h.sum_eq s hs, Row.instantiate, List.map_map]
    rfl

end IsMarkovAt

/-! ### The semantics of an instance -/

/-- The rewards of the states of an instance. -/
theorem IsMarkovAt.stateReward_instantiate (h : c.IsMarkovAt v) (s : Nat) :
    (c.instantiate v).stateReward s =
      RationalFunction.valueAt v (c.stateReward s) := by
  rw [stateReward, stateReward, instantiate]
  cases hr : c.stateRewards with
  | none => exact RationalFunction.hasImage_zero.2.symm
  | some rewards =>
    simp only [Option.map_some, Option.getD_some, Array.getD_eq_getD_getElem?, Array.getElem?_map]
    cases hs : rewards[s]? with
    | none => exact RationalFunction.hasImage_zero.2.symm
    | some a =>
      have ha := h.rewardsDefined.states rewards hr a (Array.mem_of_getElem? hs)
      exact RationalFunction.HasValue.instantiate_eq ha

/-- **The instance has the semantics of the chain.** -/
theorem IsMarkovAt.semantics_instantiate (h : c.IsMarkovAt v) :
    (c.instantiate v).semantics Interpretation.rat.value =
      c.semantics (Interpretation.ofValuation v).value := by
  refine Semantics.ext_val (size_instantiate v c) (hasRewards_instantiate v c) (fun i j => ?_)
    (fun i => ?_) fun i j => ?_
  · change Interpretation.rat.coefficient ((c.instantiate v).transitions.row i) j = _
    rw [h.row_instantiate]
    exact coefficient_instantiate (h.positiveRow i).valid j
  · exact h.stateReward_instantiate i
  · change (((c.transitionRewards.map fun rewards =>
        rewards.mapValues (RationalFunction.instantiate v)).bind fun rewards =>
          rewards.get? i j).map Interpretation.rat.value).getD 0 =
      ((c.transitionRewards.bind fun rewards => rewards.get? i j).map
        (Interpretation.ofValuation v).value).getD 0
    cases hr : c.transitionRewards with
    | none => rfl
    | some rewards =>
      -- zeros may be dropped from the rewards, which does not change them
      have hsorted : ((rewards.row i).instantiate v).Sorted := by
        rw [Row.sorted_iff, Row.columns_instantiate, ← Row.sorted_iff]
        exact (h.transitionRewards rewards hr i).1
      change Interpretation.rat.coefficient
        ((rewards.mapValues (RationalFunction.instantiate v)).row i) j = _
      rw [Matrix.row_mapValues_instantiate, coefficient_dropZeros hsorted]
      exact coefficient_instantiate (h.rewardsDefined.transitions rewards hr i) j

/-- Formulas are about the labels only, so an instance satisfies them in the same states. -/
theorem satisfying_instantiate (v : Valuation) (c : Chain RationalFunction)
    (formula : StateFormula) : (c.instantiate v).satisfying formula = c.satisfying formula := by
  induction formula with
  | true => rw [satisfying, satisfying, size_instantiate]
  | false => rw [satisfying, satisfying, size_instantiate]
  | label name => rfl
  | not inner ih => rw [satisfying, satisfying, ih]
  | and left right ihl ihr => rw [satisfying, satisfying, ihl, ihr]
  | or left right ihl ihr => rw [satisfying, satisfying, ihl, ihr]

/-! ### The two checks -/

/-- Both checks have the same answer, which is not a fault. -/
def SameAnswer (v : Valuation) (s : Nat) (symbolic : Checked (CheckResult RationalFunction))
    (concrete : Checked (CheckResult ℚ)) : Prop :=
  ∃ a : Except CheckError (Option ℚ), (∀ fault, a ≠ .error (.fault fault)) ∧
    Answers (.ofValuation v) s a symbolic ∧ Answers .rat s a concrete

/-- A symbolic result and the exact one: the same error, or values that are both infinite, or the
symbolic value evaluates to the exact one. -/
def Agrees (v : Valuation) :
    Except CheckError (CheckResult RationalFunction) →
    Except CheckError (CheckResult ℚ) → Prop
  | .error e, .error e' => e = e'
  | .ok r, .ok r' => r.initial = r'.initial ∧
    match r.value, r'.value with
    | .infinite, .infinite => True
    | .finite f, .finite q => f.evaluate v = some q
    | _, _ => False
  | _, _ => False

namespace SameAnswer

variable {s : Nat}

/-- Checks of the satisfying states of a formula. -/
theorem bind {set : Except CheckError StateSet} {n : Nat}
    (hset : Meets (fun e => ∃ label, e = .unknownLabel label) (fun states => states.size = n) set)
    {f : StateSet → Checked (CheckResult RationalFunction)}
    {g : StateSet → Checked (CheckResult ℚ)}
    (h : ∀ states, states.size = n → SameAnswer v s (f states) (g states)) :
    SameAnswer v s (Checked.ofExcept set >>= f) (Checked.ofExcept set >>= g) := by
  cases set with
  | ok states => exact h states hset
  | error e =>
    obtain ⟨label, rfl⟩ := hset
    exact ⟨.error (.unknownLabel label), by simp, fun _ hm => ⟨.inr rfl, hm⟩,
      fun _ hm => ⟨.inr rfl, hm⟩⟩

/-- The same answer about chains of the same semantics. -/
theorem of_hasAnswer {S : Semantics} {d : Chain ℚ} (hc : c.Presents (.ofValuation v) S s)
    (hd : d.Presents .rat S s)
    {check : ∀ {α : Type} [Weight α], Chain α → Checked (CheckResult α)}
    (h : S.HasAnswer s check) : SameAnswer v s (check c) (check d) := by
  obtain ⟨a, hfault, ha⟩ := h
  exact ⟨a, hfault, ha hc, ha hd⟩

/-- **Checks with the same answer agree**, if the symbolic one stays in range. -/
theorem agrees {symbolic : Checked (CheckResult RationalFunction)}
    {concrete : Checked (CheckResult ℚ)} (h : SameAnswer v s symbolic concrete) {m m' : Monitor}
    (hm : m.cancelAt = none) (hm' : m'.cancelAt = none)
    (hrange : (outcome symbolic m).1 ≠ .error (.fault .degreeOverflow)) :
    (∀ fault, (outcome symbolic m).1 ≠ .error (.fault fault)) ∧
      Agrees v (outcome symbolic m).1 (outcome concrete m').1 := by
  obtain ⟨a, hfault, hsym, hexact⟩ := h
  have hin (e : CheckError) (he : CheckError.IsFault (Interpretation.ofValuation v).RangeFault e) :
      (outcome symbolic m).1 ≠ .error e := by
    cases e with
    | fault f =>
      obtain ⟨-, rfl⟩ := he
      exact hrange
    | _ => exact he.elim
  -- Each side ends with the answer, and the answers are the same.
  have hleft := hsym.answered hm hin
  have hright := hexact.answered hm' fun e he => absurd he (not_isFault_rat e)
  match a with
  | .error e =>
    rw [show (outcome symbolic m).1 = .error e from hleft,
      show (outcome concrete m').1 = .error e from hright]
    refine ⟨fun fault hf => ?_, rfl⟩
    obtain rfl := Except.error.inj hf
    exact hfault fault rfl
  | .ok none =>
    obtain ⟨r, hr, hinit, hvalue⟩ := hleft
    obtain ⟨r', hr', hinit', hvalue'⟩ := hright
    rw [hr, hr']
    refine ⟨by simp, hinit.trans hinit'.symm, ?_⟩
    rw [hvalue, hvalue']
    trivial
  | .ok (some q) =>
    obtain ⟨r, hr, hinit, f, hvalue, hf, hq⟩ := hleft
    obtain ⟨r', hr', hinit', x, hvalue', -, hx⟩ := hright
    rw [hr, hr']
    refine ⟨by simp, hinit.trans hinit'.symm, ?_⟩
    rw [hvalue, hvalue']
    change f.evaluate v = some x
    rw [RationalFunction.HasValue.evaluate hf, Option.some_inj]
    exact hq.trans hx.symm

end SameAnswer

namespace IsMarkovAt

variable {s : Nat}

/-- The chain presents its semantics at the valuation. -/
theorem presents (h : c.IsMarkovAt v) (hinitial : c.initial.toList = [s]) :
    c.Presents (.ofValuation v) (c.semantics (Interpretation.ofValuation v).value) s :=
  ⟨h.stochastic, h.rewardsDefined, hinitial, rfl⟩

/-- The instance presents the same semantics. -/
theorem presents_instantiate (h : c.IsMarkovAt v) (hinitial : c.initial.toList = [s]) :
    (c.instantiate v).Presents .rat (c.semantics (Interpretation.ofValuation v).value) s :=
  ⟨h.isMarkov_instantiate.stochastic, rewardsDefined_rat _, hinitial, h.semantics_instantiate⟩

/-- **The check of a property has the same answer** for the chain and its instance. -/
theorem sameAnswer_check (h : c.IsMarkovAt v) {s₀ : Fin c.size}
    (hinitial : c.initial.toList = [↑s₀]) (config : EliminationConfig) (property : Property) :
    SameAnswer v s₀ (c.check config property) ((c.instantiate v).check config property) := by
  have hP := h.stochastic.kernel_stochastic.substochastic
  have hsets := h.wellFormed.satisfying_meets
  have hsame {check : ∀ {α : Type} [Weight α], Chain α → Checked (CheckResult α)}
      (hcheck : (c.semantics (Interpretation.ofValuation v).value).HasAnswer s₀ check) :
      SameAnswer v s₀ (check c) (check (c.instantiate v)) :=
    .of_hasAnswer (h.presents hinitial) (h.presents_instantiate hinitial) hcheck
  have hs := s₀.isLt
  -- The sets of states are the same for both chains, so each kind of check has one answer.
  unfold check
  simp only [satisfying_instantiate, size_instantiate]
  split
  case h_1 target =>
    refine .bind (hsets target) fun states hsize => ?_
    exact hsame (Semantics.hasAnswer_checkReward hP hs config hsize)
  case h_2 target =>
    refine .bind (hsets target) fun states hsize => ?_
    exact hsame (Semantics.hasAnswer_checkUntil hP hs config (StateSet.size_full _) hsize)
  case h_3 invariant goal =>
    refine .bind (hsets invariant) fun states hsize => .bind (hsets goal) fun goals hgoals => ?_
    exact hsame (Semantics.hasAnswer_checkUntil hP hs config hsize hgoals)
  case h_4 event condition =>
    refine .bind (hsets event) fun states hsize => .bind (hsets condition) fun others hothers => ?_
    exact hsame (Semantics.hasAnswer_checkConditional hP hs config hsize hothers)
  case h_5 =>
    exact ⟨.error (.unsupportedProperty _), by simp, fun _ hm => ⟨.inr rfl, hm⟩,
      fun _ hm => ⟨.inr rfl, hm⟩⟩

end IsMarkovAt

/-- **Checking commutes with instantiation.** Let a chain of rational functions with one initial
state be a Markov chain at a valuation. An uncancelled check of any property, under any
configuration, that keeps exponents in range meets no fault. It fails with the same error or returns
an infinite value exactly if the check of the instance does, and otherwise returns a function that
evaluates to the value of the instance. -/
theorem check_agrees_instantiate (hc : c.IsMarkovAt v) {s₀ : Fin c.size}
    (hinitial : c.initial.toList = [↑s₀]) (config : EliminationConfig) (property : Property)
    {m m' : Monitor} (hm : m.cancelAt = none) (hm' : m'.cancelAt = none)
    (hrange : (outcome (c.check config property) m).1 ≠ .error (.fault .degreeOverflow)) :
    (∀ fault, (outcome (c.check config property) m).1 ≠ .error (.fault fault)) ∧
      Agrees v (outcome (c.check config property) m).1
        (outcome ((c.instantiate v).check config property) m').1 :=
  (hc.sameAnswer_check hinitial config property).agrees hm hm' hrange

/-- A rally of two players who return the ball with probability `p`. In the states `0` and `1` it is
their turn; a miss gives the point to the other one, in the states `3` and `2`. -/
def rally : Chain RationalFunction where
  transitions := .ofRows 4 [[⟨1, .ofParameter "p"⟩, ⟨3, 1 - .ofParameter "p"⟩],
    [⟨0, .ofParameter "p"⟩, ⟨2, 1 - .ofParameter "p"⟩], [⟨2, 1⟩], [⟨3, 1⟩]]
  initial := .singleton 4 0
  labelling := [("point", .singleton 4 2)]
  stateRewards := some #[1, 1, 0, 0]
  transitionRewards := some (.ofRows 4 [[⟨1, .ofParameter "p"⟩], [], [], []])

instance : NeZero rally.size := ⟨by decide⟩

/-- The rally is a Markov chain for `p = 1/3`. -/
theorem isMarkovAt_rally : rally.IsMarkovAt (.ofList [("p", 1 / 3)]) := by
  rw [isMarkovAt_iff]
  decide_cbv

/-- At `p = 1/3` the symbolic probability that the first player wins the point has the value that
the check of the instance returns. -/
theorem check_rally :
    (outcome (rally.check {} (.probability (.eventually (.label "point")))) {}).1 ≠
        .error (.fault .degreeOverflow) ∧
      (∀ fault, (outcome (rally.check {} (.probability (.eventually (.label "point")))) {}).1 ≠
        .error (.fault fault)) ∧
      Agrees (.ofList [("p", 1 / 3)])
        (outcome (rally.check {} (.probability (.eventually (.label "point")))) {}).1
        (outcome ((rally.instantiate (.ofList [("p", 1 / 3)])).check {}
          (.probability (.eventually (.label "point")))) {}).1 := by
  have hok : (outcome (rally.check {} (.probability (.eventually (.label "point")))) {}).1.isOk =
      true := by
    cbv
  have hrange : (outcome (rally.check {} (.probability (.eventually (.label "point")))) {}).1 ≠
      .error (.fault .degreeOverflow) :=
    ne_error_of_isOk hok _
  have hinitial : rally.initial.toList = [↑(0 : Fin rally.size)] := by decide
  exact ⟨hrange, check_agrees_instantiate isMarkovAt_rally hinitial {} _ rfl rfl hrange⟩

end Chain

end MarkovElimination
