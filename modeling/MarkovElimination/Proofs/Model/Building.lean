import Mathlib
import MarkovElimination.Model.Call
import MarkovElimination.Proofs.Matrix.Builder
import MarkovElimination.Proofs.Model.Semantics
import MarkovElimination.Proofs.Number.Difference

/-! # What a builder accepts

A chain is the result of any number of calls of a builder and one last call, and each of them can be
refused. `Reached` holds of every builder, whatever the calls (`Reached.afterAll`), and `Builds` of
every chain that is not refused (`build_meets`). So every accepted chain is well formed, and its
transitions are the sums of what was given for them.

Rational numbers are tested by their nearest binary64 numbers. An accepted chain of them is **nearly
stochastic** (`build_nearly_stochastic`): a transition may be negative, but hardly, and the
transitions of a state may miss one by hardly more than the tolerance. If nothing negative is given
and the sums have denominators below a million, it is a Markov chain (`isMarkov_of_build`). -/

namespace MarkovElimination

/-! ### Collecting entries -/

namespace Interpretation

variable {α K : Type} [Weight α] [Field K] (I : Interpretation α K)

/-- Putting in an entry adds its product. -/
theorem dot_insert {entry : Entry α} {row : Row α} (hentry : I.Valid entry.value)
    (hrow : I.ValidRow row) (x : Nat → K) :
    I.ValidRow (row.insert entry) ∧
      I.dot (row.insert entry) x = I.dot row x + I.value entry.value * x entry.column := by
  fun_induction Row.insert entry row with
  | case1 => exact ⟨List.forall_mem_singleton.2 hentry, by simp⟩
  | case2 first rest hcmp => exact ⟨List.forall_mem_cons.2 ⟨hentry, hrow⟩,
      by rw [dot_cons]; ring⟩
  | case3 first rest hcmp =>
    obtain ⟨hfirst, hrest⟩ := List.forall_mem_cons.1 hrow
    obtain ⟨hvalid, hvalue⟩ := I.simplify_add hfirst hentry
    refine ⟨List.forall_mem_cons.2 ⟨hvalid, hrest⟩, ?_⟩
    rw [dot_cons, dot_cons, hvalue, Nat.compare_eq_eq.1 hcmp]
    ring
  | case4 first rest hcmp ih =>
    obtain ⟨hfirst, hrest⟩ := List.forall_mem_cons.1 hrow
    obtain ⟨hvalid, hdot⟩ := ih hrest
    refine ⟨List.forall_mem_cons.2 ⟨hfirst, hvalid⟩, ?_⟩
    rw [dot_cons, dot_cons, hdot]
    ring

/-- **Collecting entries** keeps dot products, however often a column occurs. -/
theorem dot_ofEntries {entries : List (Entry α)} (h : I.ValidRow entries) (x : Nat → K) :
    I.ValidRow (Row.ofEntries entries) ∧ I.dot (Row.ofEntries entries) x = I.dot entries x := by
  have hloop (todo : List (Entry α)) (row : Row α) (htodo : I.ValidRow todo)
      (hrow : I.ValidRow row) :
      I.ValidRow (todo.foldl (fun row entry => row.insert entry) row) ∧
        I.dot (todo.foldl (fun row entry => row.insert entry) row) x =
          I.dot row x + I.dot todo x := by
    induction todo generalizing row with
    | nil => exact ⟨hrow, by simp⟩
    | cons e todo ih =>
      obtain ⟨he, htodo⟩ := List.forall_mem_cons.1 htodo
      obtain ⟨hvalid, hdot⟩ := I.dot_insert he hrow x
      obtain ⟨hvalid', hdot'⟩ := ih _ htodo hvalid
      refine ⟨hvalid', ?_⟩
      rw [List.foldl_cons, hdot', hdot, dot_cons]
      ring
  obtain ⟨hvalid, hdot⟩ := hloop entries [] h (List.forall_mem_nil _)
  exact ⟨hvalid, by rw [Row.ofEntries, hdot, dot_nil, zero_add]⟩

/-- Dropping zeros keeps dot products. -/
theorem dot_dropZeros {row : Row α} (h : I.ValidRow row) (x : Nat → K) :
    I.dot row.dropZeros x = I.dot row x := by
  induction row with
  | nil => rfl
  | cons e row ih =>
    obtain ⟨he, hrow⟩ := List.forall_mem_cons.1 h
    have ih := ih hrow
    rw [Row.dropZeros] at ih ⊢
    rw [List.filter_cons, dot_cons]
    cases hzero : Weight.isZero e.value with
    | false => simp [ih]
    | true => simp [ih, I.value_of_isZero he hzero]

/-- The value of an entry of a sorted row is its dot product with a unit vector. -/
theorem value_eq_dot {row : Row α} (h : row.Sorted) {e : Entry α} (he : e ∈ row) :
    I.value e.value = I.dot row (Pi.single e.column 1) := by
  have hothers : I.dot (row.erase e.column) (Pi.single e.column 1) = 0 := by
    refine I.dot_eq_zero fun c hc => ?_
    exact Pi.single_eq_of_ne (Row.mem_columns_erase.1 hc).2 1
  rw [I.dot_erase h, I.coefficient_of_get? (h.get?_of_mem he), Pi.single_eq_same] at hothers
  linear_combination -hothers

end Interpretation

/-! ### Labellings -/

namespace Labelling

variable {labelling : Labelling} {label : String} {states : StateSet}

/-- What a labelling holds after a change is the change or was there before. -/
theorem mem_set {entry : String × StateSet} (h : entry ∈ labelling.set label states) :
    entry = (label, states) ∨ entry ∈ labelling := by
  fun_induction Labelling.set label states labelling with
  | case1 => exact .inl (List.mem_singleton.1 h)
  | case2 other others rest hcmp => exact List.mem_cons.1 h
  | case3 other others rest hcmp =>
    exact (List.mem_cons.1 h).imp_right (List.mem_cons_of_mem _)
  | case4 other others rest hcmp ih =>
    rcases List.mem_cons.1 h with rfl | h
    · exact .inr List.mem_cons_self
    · exact (ih h).imp_right (List.mem_cons_of_mem _)

/-- States that are found are those of an entry. -/
theorem mem_of_get? (h : labelling.get? label = some states) : (label, states) ∈ labelling := by
  obtain ⟨l₁, l₂, rfl, -⟩ := List.lookup_eq_some_iff.1 h
  simp

end Labelling

/-! ### Calls of a builder -/

namespace ChainBuilder

variable {α : Type}

/-- A state that passes is one of the chain. -/
theorem checkState_meets (b : ChainBuilder α) (s : Nat) :
    Meets (fun _ => True) (fun _ => s < b.size) (b.checkState s) := by
  rw [checkState]
  by_cases hs : s < b.size
  · rw [if_pos hs]
    exact hs
  · rw [if_neg hs]
    trivial

variable [Weight α]

/-- **What holds of a builder** of the given size after the given calls: its parts agree about the
size, and its transitions are among those that were given and passed as probabilities. -/
structure Reached (size : Nat) (calls : List (Call α)) (b : ChainBuilder α) : Prop where
  size_eq : b.size = size
  initial_size : b.initial.size = size
  labelling_size : ∀ label ∈ b.labelling, label.2.size = size
  stateRewards_size : ∀ rewards ∈ b.stateRewards, rewards.size = size
  transitions_length : b.transitions.length ≤ calls.length
  transition : ∀ s t v, (s, t, v) ∈ b.transitions →
    t < size ∧ isProbability v = .ok true ∧ .addTransition s t v ∈ calls

variable {size : Nat} {calls : List (Call α)} {b : ChainBuilder α}

/-- A builder starts with nothing. -/
theorem reached_new (size : Nat) : Reached size [] (new size : ChainBuilder α) where
  size_eq := rfl
  initial_size := StateSet.size_empty size
  labelling_size := by simp [new]
  stateRewards_size := by simp [new]
  transitions_length := le_rfl
  transition := by simp [new]

/-- A call that changes nothing. -/
theorem Reached.skip (h : Reached size calls b) (call : Call α) :
    Reached size (calls ++ [call]) b where
  __ := h
  transitions_length := h.transitions_length.trans (by simp)
  transition s t v hmem := by
    obtain ⟨ht, hv, hcall⟩ := h.transition s t v hmem
    exact ⟨ht, hv, List.mem_append_left _ hcall⟩

variable [WeightText α]

/-- **One call** keeps what holds of a builder. -/
theorem Reached.perform_meets (h : Reached size calls b) (call : Call α) :
    Meets (fun _ => True) (Reached size (calls ++ [call])) (b.perform call) := by
  have hskip := h.skip call
  have hinsert (s : StateSet) (i : Nat) (hs : s.size = size) : (s.insert i).size = size :=
    (StateSet.size_ofPredicate _ _).trans hs
  have hempty : (StateSet.empty b.size).size = size := (StateSet.size_empty _).trans h.size_eq
  -- What a call checks is what is to be shown of the field it writes; `hskip` has the others.
  cases call with
  | addTransition s t value =>
    refine (b.checkState_meets s).bind fun _ hs => (b.checkState_meets t).bind fun _ ht => ?_
    cases hvalue : isProbability value with
    | error e => trivial
    | ok passes =>
      cases passes with
      | false => trivial
      | true =>
        refine { hskip with transitions_length := ?_, transition := ?_ }
        · simpa using h.transitions_length
        · intro s' t' v hmem
          rcases List.mem_cons.1 hmem with heq | hmem
          · obtain ⟨rfl, rfl, rfl⟩ := heq
            exact ⟨h.size_eq ▸ ht, hvalue, by simp⟩
          · exact hskip.transition s' t' v hmem
  | addInitial s =>
    refine (b.checkState_meets s).bind fun _ hs => ?_
    exact { hskip with initial_size := hinsert _ _ h.initial_size }
  | declareLabel label =>
    show Reached _ _ (b.declareLabel label)
    rw [declareLabel]
    cases b.labelling.get? label with
    | some states => exact hskip
    | none =>
      refine { hskip with labelling_size := fun entry hentry => ?_ }
      rcases Labelling.mem_set hentry with rfl | hentry
      · exact hempty
      · exact h.labelling_size entry hentry
  | addLabel label s =>
    refine (b.checkState_meets s).bind fun _ hs => ?_
    have hstates : ((b.labelling.get? label).getD (.empty b.size)).size = size := by
      cases hget : b.labelling.get? label with
      | none => exact hempty
      | some states => exact h.labelling_size _ (Labelling.mem_of_get? hget)
    have hlabels : ∀ entry ∈ b.labelling.set label
        (((b.labelling.get? label).getD (.empty b.size)).insert s), entry.2.size = size := by
      intro entry hentry
      rcases Labelling.mem_set hentry with rfl | hentry
      · exact hinsert _ _ hstates
      · exact h.labelling_size entry hentry
    show Reached _ _ (if label = initLabel then _ else _)
    split
    · exact { hskip with
        labelling_size := hlabels
        initial_size := hinsert _ _ h.initial_size }
    · exact { hskip with labelling_size := hlabels }
  | setStateRewards rewards =>
    show Meets _ _ (if rewards.length = b.size then _ else _)
    split
    · next hlength =>
      refine { hskip with stateRewards_size := ?_ }
      rintro _ ⟨⟩
      exact hlength.trans h.size_eq
    · trivial
  | addStateReward s reward =>
    have hrewards : (b.stateRewards.getD (Array.replicate b.size 0)).size = size := by
      cases hget : b.stateRewards with
      | none => exact Array.size_replicate.trans h.size_eq
      | some rewards => exact h.stateRewards_size rewards hget
    refine (b.checkState_meets s).bind fun _ hs =>
      Meets.bind (Q := fun _ => True) (.of_forall fun _ => trivial) fun _ _ => ?_
    refine { hskip with stateRewards_size := ?_ }
    rintro _ ⟨⟩
    exact Array.size_modify.trans hrewards
  | addTransitionReward s t reward =>
    exact (b.checkState_meets s).bind fun _ hs => (b.checkState_meets t).bind fun _ ht =>
      { hskip with }

/-- One call, refused or not. -/
theorem Reached.after (h : Reached size calls b) (call : Call α) :
    Reached size (calls ++ [call]) (b.after call) := by
  have hmeets := h.perform_meets call
  rw [ChainBuilder.after]
  cases hperform : b.perform call with
  | error e => exact h.skip call
  | ok b' =>
    rw [hperform] at hmeets
    exact hmeets

/-- **Any number of calls.** -/
theorem Reached.afterAll (h : Reached size calls b) (more : List (Call α)) :
    Reached size (calls ++ more) (b.afterAll more) := by
  induction more generalizing calls b with
  | nil => simpa [ChainBuilder.afterAll] using h
  | cons call more ih =>
    rw [← List.singleton_append, ← List.append_assoc]
    exact ih (h.after call)

/-! ### The last call -/

omit [WeightText α] in
/-- Entries are collected if their sums can be computed. -/
theorem collect_eq (size : Nat) (entries : List (Nat × Nat × α)) :
    collect size entries = (do
      checkRange (Matrix.entriesFit size entries.reverse)
      pure (Matrix.ofEntries size size entries.reverse false)) := by
  let b := (MatrixBuilder.new size size false).placeAll entries.reverse
  calc collect size entries
      = Except.mapError .fault (do let m ← b.build; pure m.toMatrix) := by
        rw [collect, ← MatrixBuilder.placeAll]
        cases b.build <;> rfl
    _ = Except.mapError .fault (do
          requireRange (Matrix.entriesFit size entries.reverse)
          pure (Matrix.ofEntries size size entries.reverse false)) :=
        congrArg _ (MatrixBuilder.returnsIf_build_placeAll size size entries.reverse false)
    _ = _ := by
        rw [checkRange]
        cases Matrix.entriesFit size entries.reverse <;> rfl

omit [WeightText α] in
/-- A collected matrix holds the entries in the order in which they were given. -/
theorem collect_meets (size : Nat) (entries : List (Nat × Nat × α)) :
    Meets (fun _ => True) (fun m => m = Matrix.ofEntries size size entries.reverse false)
      (collect size entries) := by
  rw [collect_eq]
  exact Meets.bind (Q := fun _ => True) (.of_forall fun _ => trivial) fun _ _ => rfl

/-- A row without an error is accepted. -/
theorem isStochastic_of_rowError? {s : Nat} {row : Row α} (h : rowError? s row = none) :
    isStochastic row = true := by
  rw [rowError?] at h
  split_ifs at h with hfits hrow
  exact hrow

/-- What a builder turns into. -/
structure Builds (b : ChainBuilder α) (c : Chain α) : Prop where
  transitions_eq : c.transitions = Matrix.ofEntries b.size b.size b.transitions.reverse false
  stochastic : ∀ s < b.size, isStochastic (c.transitions.row s) = true
  initial_eq : c.initial = b.initial
  labelling_eq : c.labelling = b.labelling.set initLabel b.initial
  stateRewards_eq : c.stateRewards = b.stateRewards
  transitionRewards_size : ∀ rewards ∈ c.transitionRewards, rewards.rowCount = b.size

/-- **The last call**: the chain holds what was given, and all its rows are accepted. -/
theorem build_meets (b : ChainBuilder α) : Meets (fun _ => True) b.Builds b.build := by
  rw [build]
  by_cases hinitial : b.initial.isEmpty = true
  · rw [if_pos hinitial]
    trivial
  · rw [if_neg hinitial]
    refine (collect_meets b.size b.transitions).bind fun m hm => ?_
    cases hrows : (List.range b.size).findSome? fun s => rowError? s (m.row s) with
    | some e => trivial
    | none =>
      have hrewards : Meets (fun _ => True)
          (fun matrix => ∀ rewards ∈ matrix, rewards.rowCount = b.size)
          (b.transitionRewards.mapM (collect b.size)) := by
        cases b.transitionRewards with
        | none => rintro _ ⟨⟩
        | some entries =>
          refine (collect_meets b.size entries).bind fun rewards hrewards => ?_
          rintro _ ⟨⟩
          rw [hrewards, Matrix.rowCount_ofEntries]
      refine hrewards.bind fun rewards hrewards => ⟨hm, fun s hs => ?_, rfl, rfl, rfl, hrewards⟩
      exact isStochastic_of_rowError? (List.findSome?_eq_none_iff.1 hrows s (List.mem_range.2 hs))

/-- A chain that is not refused. -/
theorem builds_of_build {c : Chain α} (h : b.build = .ok c) : b.Builds c := by
  have hmeets := b.build_meets
  rw [h] at hmeets
  exact hmeets

omit [WeightText α] in
/-- **A chain that is built is well formed.** -/
theorem Reached.wellFormed {c : Chain α} (h : Reached size calls b) (hc : b.Builds c) :
    c.size = size ∧ c.WellFormed := by
  have hsize : c.size = size := by
    rw [Chain.size, hc.transitions_eq, Matrix.rowCount_ofEntries, h.size_eq]
  have hmatrix : c.transitions.WellFormed := by
    rw [hc.transitions_eq]
    refine Matrix.wellFormed_ofEntries (fun e he => ?_) false
    rw [h.size_eq]
    exact (h.transition _ _ _ (List.mem_reverse.1 he)).1
  have hcolumns : c.transitions.columns = size := by rw [hc.transitions_eq]; exact h.size_eq
  refine ⟨hsize, hcolumns.trans hsize.symm, hmatrix.sorted, ?_, ?_, ?_, ?_, ?_⟩
  · rw [hsize, ← hcolumns]
    exact hmatrix.column_lt
  · rw [hc.initial_eq, hsize, h.initial_size]
  · intro label hlabel
    rw [hc.labelling_eq] at hlabel
    rw [hsize]
    rcases Labelling.mem_set hlabel with rfl | hlabel
    · exact h.initial_size
    · exact h.labelling_size label hlabel
  · rw [hc.stateRewards_eq, hsize]
    exact h.stateRewards_size
  · rw [hsize, ← h.size_eq]
    exact hc.transitionRewards_size

end ChainBuilder

/-! ### Builders of rational numbers -/

/-- The sum of the transitions of a state. -/
def Chain.outgoing (c : Chain ℚ) (s : Nat) : ℚ := ((c.transitions.row s).map (·.value)).sum

namespace ChainBuilder

variable {size : Nat} {calls : List (Call ℚ)} {b : ChainBuilder ℚ} {c : Chain ℚ}

/-- The rational numbers that pass as probabilities are hardly negative. -/
theorem neg_le_of_isProbability {v : ℚ} (h : isProbability v = .ok true) :
    -2 ^ (-1075 : ℤ) ≤ v := by
  have htest : ((floatOfRat v).isFinite && decide (0 ≤ floatOfRat v)) = true := by
    injection h
  simp only [Bool.and_eq_true, decide_eq_true_eq] at htest
  exact Binary64.neg_le_of_floatOfRat_nonneg htest.1 htest.2

/-- A rational number that is close to one and has a small denominator is one. -/
theorem eq_one_of_abs_sub_one_lt {r : ℚ} (h : |r - 1| < 1 / 10 ^ 6 + 1 / 2 ^ 52)
    (hden : r.den < 10 ^ 6) : r = 1 := by
  by_contra hne
  have hpos : (0 : ℚ) < r.den := by exact_mod_cast r.den_pos
  have hdiff : r - 1 = (r.num - r.den : ℤ) / r.den := by
    rw [Int.cast_sub, Int.cast_natCast, sub_div, div_self hpos.ne', Rat.num_div_den]
  have hnum : r.num - r.den ≠ 0 := by
    intro hzero
    rw [hzero, Int.cast_zero, zero_div, sub_eq_zero] at hdiff
    exact hne hdiff
  -- A difference other than zero is at least one over the denominator.
  have hge : 1 / (r.den : ℚ) ≤ |r - 1| := by
    rw [hdiff, abs_div, abs_of_pos hpos]
    gcongr
    exact_mod_cast Int.one_le_abs hnum
  have hden' : (r.den : ℚ) ≤ 10 ^ 6 - 1 := by
    rw [le_sub_iff_add_le]
    exact_mod_cast hden
  have hlt := ((one_div_le_one_div_of_le hpos hden').trans hge).trans_lt h
  norm_num at hlt

/-- The sum of a row that is accepted is close to one. -/
theorem abs_sum_sub_one_lt {row : Row ℚ} (h : isStochastic row = true) :
    |(row.map (·.value)).sum - 1| < 1 / 10 ^ 6 + 1 / 2 ^ 52 := by
  have hsum : row.sum = (row.map (·.value)).sum := by
    have hvalid : Interpretation.rat.ValidRow row := fun _ _ => trivial
    simpa [Interpretation.dot, Interpretation.rat] using (Interpretation.rat.sum_row hvalid).2
  have htest : (decide (row.sum = 1) || decide ((floatOfRat row.sum - 1).abs ≤ 1e-6)) = true := h
  simp only [Bool.or_eq_true, decide_eq_true_eq] at htest
  rw [← hsum]
  rcases htest with hone | hclose
  · rw [hone]
    norm_num
  · exact Binary64.abs_sub_one_lt_of_floatOfRat hclose

/-- The transitions of a state sum to nearly one. -/
theorem Builds.abs_outgoing_sub_one_lt (hc : b.Builds c) {s : Nat} (hs : s < b.size) :
    |c.outgoing s - 1| < 1 / 10 ^ 6 + 1 / 2 ^ 52 :=
  abs_sum_sub_one_lt (hc.stochastic s hs)

/-- The transitions of a chain are the sums of what was given for them, and are not zero. -/
theorem Builds.value_eq (hc : b.Builds c) {s : Nat} {e : Entry ℚ}
    (he : e ∈ c.transitions.row s) :
    e.value ≠ 0 ∧ e.value = ((Matrix.entriesOf b.transitions.reverse s).map fun f =>
      if f.column = e.column then f.value else 0).sum := by
  have hs : s < b.size := by
    have hlt := Matrix.lt_rowCount_of_mem_columns (List.mem_map_of_mem he)
    rwa [hc.transitions_eq, Matrix.rowCount_ofEntries] at hlt
  have hrow : c.transitions.row s =
      (Row.ofEntries (Matrix.entriesOf b.transitions.reverse s)).dropZeros := by
    rw [hc.transitions_eq, Matrix.row_ofEntries hs]
    rfl
  rw [hrow] at he
  have hsorted := (Row.ofEntries_spec (Matrix.entriesOf b.transitions.reverse s)).1
  obtain ⟨-, hzero⟩ := List.mem_filter.1 he
  refine ⟨by simpa [Weight.isZero] using hzero, ?_⟩
  have hvalue := Interpretation.rat.value_eq_dot hsorted.dropZeros he
  rw [Interpretation.rat.dot_dropZeros fun _ _ => trivial,
    (Interpretation.rat.dot_ofEntries (fun _ _ => trivial) _).2] at hvalue
  simpa [Interpretation.dot, Interpretation.rat, Pi.single_apply] using hvalue

/-- No transition is far below zero, and none is negative where nothing negative was given. -/
theorem Reached.value_bounds (h : Reached size calls b) (hc : b.Builds c) {s : Nat} {e : Entry ℚ}
    (he : e ∈ c.transitions.row s) :
    -(calls.length * 2 ^ (-1075 : ℤ)) ≤ e.value ∧
      ((∀ v, .addTransition s e.column v ∈ calls → 0 ≤ v) → 0 < e.value) := by
  obtain ⟨hzero, hvalue⟩ := hc.value_eq he
  have hgiven (f : Entry ℚ) (hf : f ∈ Matrix.entriesOf b.transitions.reverse s) :
      isProbability f.value = .ok true ∧ .addTransition s f.column f.value ∈ calls :=
    (h.transition _ _ _ (List.mem_reverse.1 (Matrix.mem_of_mem_entriesOf hf))).2
  have hlength : (Matrix.entriesOf b.transitions.reverse s).length ≤ calls.length :=
    (List.length_filterMap_le _ _).trans (by simpa using h.transitions_length)
  generalize Matrix.entriesOf b.transitions.reverse s = given at hvalue hgiven hlength
  have hterm {δ : ℚ} (hδ : δ ≤ 0)
      (hle : ∀ f ∈ given, f.column = e.column → δ ≤ f.value) :
      given.length • δ ≤ e.value := by
    rw [hvalue,
      ← List.length_map (f := fun f : Entry ℚ => if f.column = e.column then f.value else 0)]
    refine List.card_nsmul_le_sum _ _ fun x hx => ?_
    obtain ⟨f, hf, rfl⟩ := List.mem_map.1 hx
    split
    · next hcolumn => exact hle f hf hcolumn
    · exact hδ
  constructor
  · have hneg : -(2 : ℚ) ^ (-1075 : ℤ) ≤ 0 := neg_nonpos.2 (by positivity)
    have hle := hterm hneg fun f hf _ => neg_le_of_isProbability (hgiven f hf).1
    rw [nsmul_eq_mul] at hle
    calc -(calls.length * 2 ^ (-1075 : ℤ)) ≤ (given.length : ℚ) * -2 ^ (-1075 : ℤ) := by
          rw [mul_neg, neg_le_neg_iff]
          gcongr
      _ ≤ e.value := hle
  · intro hnonneg
    have hle := hterm le_rfl fun f hf hcolumn => hnonneg _ (hcolumn ▸ (hgiven f hf).2)
    rw [smul_zero] at hle
    exact lt_of_le_of_ne hle hzero.symm

/-- Nothing is lost in exact arithmetic if nothing negative is given and the sums have denominators
below a million: **the accepted chain is a Markov chain**. -/
theorem isMarkov_of_build (h : ((new size).afterAll calls).build = .ok c)
    (hnonneg : ∀ s t v, .addTransition s t v ∈ calls → 0 ≤ v)
    (hden : ∀ s < size, (c.outgoing s).den < 10 ^ 6) : c.IsMarkov := by
  have hb := (reached_new size).afterAll calls
  have hc := builds_of_build h
  obtain ⟨hsize, hwf⟩ := hb.wellFormed hc
  refine ⟨hwf, fun s e he => ?_, fun s hs => ?_⟩
  · exact (hb.value_bounds hc he).2 fun v hv => hnonneg s e.column v hv
  · rw [hsize] at hs
    exact eq_one_of_abs_sub_one_lt (hc.abs_outgoing_sub_one_lt (hb.size_eq.symm ▸ hs)) (hden s hs)

/-- **Accepted chains are nearly stochastic.** Whatever the calls, in a chain of rational numbers
that is accepted no transition is zero, a transition is positive unless something negative was given
for it, and is at most `2^-1075` below zero for each call. The transitions of a state sum to one up
to the tolerance of `10^-6` and the precision of binary64 numbers near one, and to exactly one if
the sum has a denominator below a million. -/
theorem build_nearly_stochastic (h : ((new size).afterAll calls).build = .ok c) :
    c.size = size ∧ c.WellFormed ∧
      (∀ s, ∀ e ∈ c.transitions.row s, e.value ≠ 0 ∧
        -(calls.length * 2 ^ (-1075 : ℤ)) ≤ e.value ∧
        ((∀ v, .addTransition s e.column v ∈ calls → 0 ≤ v) → 0 < e.value)) ∧
      ∀ s < size, |c.outgoing s - 1| < 1 / 10 ^ 6 + 1 / 2 ^ 52 ∧
        ((c.outgoing s).den < 10 ^ 6 → c.outgoing s = 1) := by
  have hb := (reached_new size).afterAll calls
  have hc := builds_of_build h
  obtain ⟨hsize, hwf⟩ := hb.wellFormed hc
  refine ⟨hsize, hwf, fun s e he => ⟨(hc.value_eq he).1, hb.value_bounds hc he⟩,
    fun s hs => ?_⟩
  have hclose := hc.abs_outgoing_sub_one_lt (hb.size_eq.symm ▸ hs)
  exact ⟨hclose, eq_one_of_abs_sub_one_lt hclose⟩

/-- A coin that is thrown until it shows one side. The other side is given in two halves. -/
def coinCalls : List (Call ℚ) :=
  [.addTransition 0 1 (1 / 4), .addTransition 0 0 (1 / 2), .addTransition 0 1 (1 / 4),
    .addTransition 1 1 1, .addInitial 0]

theorem build_nearly_stochastic_coin : ∃ c, ((new 2).afterAll coinCalls).build = .ok c ∧
    c.WellFormed ∧ (∀ s, ∀ e ∈ c.transitions.row s, 0 < e.value) ∧
    ∀ s < 2, |c.outgoing s - 1| < 1 / 10 ^ 6 + 1 / 2 ^ 52 := by
  obtain ⟨c, hc⟩ := exists_eq_ok_of_isOk
    (show ((new 2).afterAll coinCalls).build.isOk = true by
      rw [build, collect_eq]
      decide +kernel)
  obtain ⟨-, hwf, hvalue, hsum⟩ := build_nearly_stochastic hc
  refine ⟨c, hc, hwf, fun s e he => (hvalue s e he).2.2 fun v hv => ?_, fun s hs =>
    (hsum s hs).1⟩
  simp only [coinCalls, List.mem_cons, List.not_mem_nil, Call.addTransition.injEq, reduceCtorEq,
    or_false] at hv
  rcases hv with ⟨-, -, rfl⟩ | ⟨-, -, rfl⟩ | ⟨-, -, rfl⟩ | ⟨-, -, rfl⟩ <;> norm_num

/-- State `0` has a negative transition, and state `1` stays with more than certainty. -/
def driftCalls : List (Call ℚ) :=
  [.addTransition 0 0 1, .addTransition 0 1 (-1 / 10 ^ 400),
    .addTransition 1 1 (10000001 / 10000000), .addInitial 0]

/-- A chain is accepted although a transition is negative and a sum is not one: neither shows in the
nearest binary64 numbers. -/
theorem build_drift_not_stochastic : ∃ c, ((new 2).afterAll driftCalls).build = .ok c ∧
    (∃ e ∈ c.transitions.row 0, e.value < 0) ∧ 1 < c.outgoing 1 := by
  have htest : (((new 2).afterAll driftCalls).build.toOption.any fun c =>
      (c.transitions.row 0).any (fun e => e.value < 0) && 1 < c.outgoing 1) = true := by
    rw [build, collect_eq]
    decide +kernel
  cases hc : ((new 2).afterAll driftCalls).build with
  | error e =>
    rw [hc] at htest
    cases htest
  | ok c =>
    rw [hc] at htest
    have hboth : ((c.transitions.row 0).any (fun e => e.value < 0) && 1 < c.outgoing 1) = true :=
      htest
    simp only [Bool.and_eq_true, List.any_eq_true, decide_eq_true_eq] at hboth
    exact ⟨c, rfl, hboth⟩

end ChainBuilder

end MarkovElimination
