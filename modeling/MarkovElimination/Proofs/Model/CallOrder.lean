import Mathlib
import MarkovElimination.Proofs.Model.Building

/-! # The order of calls

The calls of a builder change it in place (`Call.commands`), and a call may be broken off halfway.
With rational numbers a call that is refused leaves no trace (`eq_of_run_error`), and whether it is
refused depends on its arguments and on the number of states only (`map_content_perform`). What a
builder holds is looked at without the order in which transitions were given (`Content`). Then two
calls that add something can be exchanged (`Content.after_comm`), hence any number of them
(`content_afterAll_perm`). The chain is a function of what is held (`build_eq`): **it does not
depend on the order of the calls that are accepted** (`build_order_independent`). -/

namespace MarkovElimination

/-! ### Changes that can be exchanged -/

namespace StateSet

/-- The members of a set with one more member. -/
theorem contains_insert (s : StateSet) (i j : Nat) :
    (s.insert i).contains j = (decide (j < s.size) && (j == i || s.contains j)) := by
  rw [insert, contains_ofPredicate]

@[simp] theorem size_insert (s : StateSet) (i : Nat) : (s.insert i).size = s.size :=
  size_ofPredicate _ _

/-- Members are put in in any order. -/
theorem insert_comm (s : StateSet) (i j : Nat) : (s.insert i).insert j = (s.insert j).insert i := by
  refine ext_contains (by simp) fun k => ?_
  simp only [contains_insert, size_insert]
  cases decide (k < s.size) <;> simp [Bool.or_left_comm]

end StateSet

namespace Labelling

/-- A label that is looked for behind an entry. -/
theorem get?_cons (label other : String) (others : StateSet) (labelling : Labelling) :
    get? ((other, others) :: labelling) label =
      if label = other then some others else labelling.get? label := by
  rw [get?, List.lookup_cons]
  by_cases h : label = other
  · rw [if_pos h, beq_iff_eq.2 h]
  · rw [if_neg h, beq_eq_false_iff_ne.2 h, get?]

/-- The label that is set has its new states, and all others keep theirs. -/
theorem get?_set (labelling : Labelling) (label other : String) (states : StateSet) :
    (labelling.set label states).get? other =
      if other = label then some states else labelling.get? other := by
  fun_induction Labelling.set label states labelling with
  | case1 => rw [get?_cons]
  | case2 first others rest hcmp => rw [get?_cons]
  | case3 first others rest hcmp =>
    rw [compare_eq_iff_eq] at hcmp
    rw [get?_cons, get?_cons, hcmp]
    split <;> rfl
  | case4 first others rest hcmp ih =>
    rw [compare_gt_iff_gt] at hcmp
    rw [get?_cons, get?_cons, ih]
    by_cases hfirst : other = first
    · rw [if_pos hfirst, if_pos hfirst, if_neg (hfirst ▸ hcmp.ne)]
    · rw [if_neg hfirst, if_neg hfirst]

/-- The last states that are set for a label count. -/
theorem set_set (labelling : Labelling) (label : String) (states states' : StateSet) :
    (labelling.set label states).set label states' = labelling.set label states' := by
  fun_induction Labelling.set label states labelling with
  | case1 => simp [Labelling.set]
  | case2 first others rest hcmp => simp [Labelling.set, hcmp]
  | case3 first others rest hcmp => simp [Labelling.set, hcmp]
  | case4 first others rest hcmp ih => simp [Labelling.set, hcmp, ih]

/-- Different labels are set in any order. -/
theorem set_comm (labelling : Labelling) {label other : String} (hne : label ≠ other)
    (states others : StateSet) : (labelling.set label states).set other others =
      (labelling.set other others).set label states := by
  wlog hlt : label < other generalizing label other states others
  · exact (this hne.symm others states (lt_of_le_of_ne (not_lt.1 hlt) hne.symm)).symm
  have hcmp : compare label other = .lt := compare_lt_iff_lt.2 hlt
  have hcmp' : compare other label = .gt := compare_gt_iff_gt.2 hlt
  induction labelling with
  | nil => simp [Labelling.set, hcmp, hcmp']
  | cons entry rest ih =>
    obtain ⟨first, firsts⟩ := entry
    rcases lt_trichotomy label first with hfirst | rfl | hfirst
    · have hfirst' : compare label first = .lt := compare_lt_iff_lt.2 hfirst
      cases h : compare other first <;> simp [Labelling.set, hcmp, hcmp', hfirst', h]
    · simp [Labelling.set, hcmp']
    · have hfirst' : compare label first = .gt := compare_gt_iff_gt.2 hfirst
      have hother : compare other first = .gt := compare_gt_iff_gt.2 (hfirst.trans hlt)
      simp [Labelling.set, hfirst', hother, ih]

/-- The labelling in which a label exists and, if a state is given, that state carries it. -/
def mark (size : Nat) (label : String) : Option Nat → Labelling → Labelling
  | none, labelling =>
    if (labelling.get? label).isSome then labelling else labelling.set label (.empty size)
  | some s, labelling =>
    labelling.set label (((labelling.get? label).getD (.empty size)).insert s)

/-- A label that exists has the states that it had. -/
theorem get?_mark_none (size : Nat) (label : String) (labelling : Labelling) :
    (labelling.mark size label none).get? label =
      some ((labelling.get? label).getD (.empty size)) := by
  cases h : labelling.get? label <;> simp [mark, h, get?_set]

/-- A label whose states are set exists. -/
theorem set_mark_none (size : Nat) (label : String) (states : StateSet) (labelling : Labelling) :
    (labelling.mark size label none).set label states = labelling.set label states := by
  cases h : labelling.get? label <;> simp [mark, h, set_set]

/-- Labels are marked in any order. -/
theorem mark_comm (size : Nat) (label other : String) (s? t? : Option Nat) (labelling : Labelling) :
    (labelling.mark size label s?).mark size other t? =
      (labelling.mark size other t?).mark size label s? := by
  by_cases hne : label = other
  · subst hne
    cases h : labelling.get? label <;> cases s? <;> cases t? <;>
      simp [mark, h, get?_set, set_set, StateSet.insert_comm]
  · cases h : labelling.get? label <;> cases h' : labelling.get? other <;> cases s? <;>
      cases t? <;>
      simp [mark, h, h', get?_set, hne, Ne.symm hne, set_comm _ hne]

end Labelling

/-! ### Rows -/

namespace Row

/-- Entries are put in in any order. -/
theorem insert_comm (e f : Entry ℚ) (row : Row ℚ) :
    (row.insert e).insert f = (row.insert f).insert e := by
  rcases lt_trichotomy e.column f.column with hlt | heq | hlt
  · exact insert_comm_of_lt hlt row
  · have hsum (a b c : ℚ) : Weight.simplify (Weight.simplify (a + b) + c) =
        Weight.simplify (Weight.simplify (a + c) + b) := add_right_comm a b c
    induction row with
    | nil => simp [Row.insert, heq, add_comm]
    | cons first rest ih =>
      cases h : compare f.column first.column with
      | lt => simp [Row.insert, heq, h, add_comm]
      | eq => simp [Row.insert, heq, h, hsum]
      | gt => simp [Row.insert, heq, h, ih]
  · exact (insert_comm_of_lt hlt row).symm

/-- **Entries are collected in any order.** -/
theorem ofEntries_perm {entries entries' : List (Entry ℚ)} (h : entries.Perm entries') :
    ofEntries entries = ofEntries entries' :=
  h.foldl_eq' (fun e _ f _ row => insert_comm e f row) []

/-- Rational numbers can always be added. -/
theorem insertAllFits_rat (row : Row ℚ) (entries : List (Entry ℚ)) :
    row.insertAllFits entries = true := by
  induction entries generalizing row with
  | nil => rfl
  | cons e entries ih =>
    have hfits : row.insertFits e = true := by
      rw [insertFits]
      split <;> rfl
    rw [insertAllFits, hfits, ih, Bool.true_and]

end Row

namespace Matrix

/-- Rational numbers can always be added. -/
theorem entriesFit_rat (rows : Nat) (entries : List (Nat × Nat × ℚ)) :
    entriesFit rows entries = true :=
  List.all_eq_true.2 fun i _ => Row.insertAllFits_rat [] (entriesOf entries i)

/-- **Entries are collected in any order.** -/
theorem ofEntries_perm {entries entries' : List (Nat × Nat × ℚ)} (h : entries.Perm entries')
    (rows columns : Nat) (keepZeros : Bool) :
    ofEntries rows columns entries keepZeros = ofEntries rows columns entries' keepZeros := by
  simp only [ofEntries, Row.ofEntries_perm (h.filterMap _), entriesOf]

end Matrix

namespace ChainBuilder

/-! ### Calls in place -/

section InPlace

variable {α : Type}

/-- A check either breaks off or leaves the builder to the commands behind it. -/
theorem run_inspect {β γ : Type} (check : ChainBuilder α → Except ModelError β)
    (next : β → InPlace α γ) (b : ChainBuilder α) : (inspect check >>= next).run b =
      match check b with
      | .ok x => (next x).run b
      | .error e => .error e b := by
  show EStateM.bind (EStateM.bind EStateM.get fun b => MonadExcept.ofExcept (check b)) next b = _
  simp only [EStateM.bind, EStateM.get]
  cases check b <;> rfl

end InPlace

/-- A label that is declared exists. -/
theorem declareLabel_eq {α : Type} (b : ChainBuilder α) (label : String) :
    b.declareLabel label = { b with labelling := b.labelling.mark b.size label none } := by
  rw [declareLabel]
  cases h : b.labelling.get? label <;> simp [Labelling.mark, h]

/-- The commands do what the functions of a builder do, and change nothing if these refuse. -/
theorem run_commands (b : ChainBuilder ℚ) (call : Call ℚ) : call.commands.run b =
    match b.perform call with
    | .ok b' => .ok () b'
    | .error e => .error e b := by
  -- The only check behind a write is the one of the range, and rational numbers pass it.
  cases call with
  | addTransition s t value =>
    rw [Call.commands, run_inspect, perform, addTransition]
    cases b.checkState s with
    | error e => rfl
    | ok =>
      refine (run_inspect _ _ b).trans ?_
      cases b.checkState t with
      | error e => rfl
      | ok =>
        refine (run_inspect _ _ b).trans ?_
        cases isProbability value with
        | error e => rfl
        | ok passes => cases passes <;> rfl
  | addInitial s =>
    rw [Call.commands, run_inspect, perform, addInitial]
    cases b.checkState s <;> rfl
  | declareLabel label => rfl
  | addLabel label s =>
    rw [Call.commands, run_inspect, perform, addLabel]
    cases b.checkState s with
    | error e => rfl
    | ok =>
      by_cases hinit : label = initLabel <;>
        simp [declareLabel_eq, Labelling.get?_mark_none, Labelling.set_mark_none, hinit]
  | setStateRewards rewards =>
    rw [Call.commands, run_inspect, perform, setStateRewards]
    by_cases h : rewards.length = b.size
    · rw [if_pos h, if_pos h]
      rfl
    · rw [if_neg h, if_neg h]
      rfl
  | addStateReward s reward =>
    rw [Call.commands, run_inspect, perform, addStateReward]
    cases b.checkState s <;> rfl
  | addTransitionReward s t reward =>
    rw [Call.commands, run_inspect, perform, addTransitionReward]
    cases b.checkState s with
    | error e => rfl
    | ok =>
      refine (run_inspect _ _ b).trans ?_
      cases b.checkState t <;> rfl

/-- **A call that is refused leaves no trace.** -/
theorem eq_of_run_error {b b' : ChainBuilder ℚ} {call : Call ℚ} {e : ModelError}
    (h : call.commands.run b = .error e b') : b' = b := by
  rw [run_commands] at h
  cases hperform : b.perform call <;> rw [hperform] at h <;> cases h
  rfl

/-! ### What a builder holds -/

/-- The transition that a call gives. -/
def Call.transition? {α : Type} : Call α → Option (Nat × Nat × α)
  | .addTransition s t value => some (s, t, value)
  | _ => none

/-- The state that a call makes initial. -/
def Call.initial? {α : Type} : Call α → Option Nat
  | .addInitial s => some s
  | .addLabel label s => if label = initLabel then some s else none
  | _ => none

/-- The label that a call declares, and the state that it gives the label to. -/
def Call.label? {α : Type} : Call α → Option (String × Option Nat)
  | .declareLabel label => some (label, none)
  | .addLabel label s => some (label, some s)
  | _ => none

/-- The rewards of states after a call. -/
def Call.stateRewards (size : Nat) : Call ℚ → Option (Array ℚ) → Option (Array ℚ)
  | .setStateRewards rewards, _ => some rewards.toArray
  | .addStateReward s reward, rewards =>
    some ((rewards.getD (Array.replicate size 0)).modify s (· + reward))
  | _, rewards => rewards

/-- The reward of a transition that a call gives. -/
def Call.transitionReward? {α : Type} : Call α → Option (Nat × Nat × α)
  | .addTransitionReward s t reward => some (s, t, reward)
  | _ => none

/-- What a builder holds, without the order in which transitions and their rewards were given. -/
@[ext]
structure Content where
  size : Nat
  transitions : Multiset (Nat × Nat × ℚ)
  initial : StateSet
  labelling : Labelling
  stateRewards : Option (Array ℚ)
  transitionRewards : Option (Multiset (Nat × Nat × ℚ))

/-- What a builder holds. -/
def content (b : ChainBuilder ℚ) : Content where
  size := b.size
  transitions := b.transitions
  initial := b.initial
  labelling := b.labelling
  stateRewards := b.stateRewards
  transitionRewards := b.transitionRewards.map fun rewards => rewards

namespace Content

/-- What is held after a call that is accepted. -/
def add (c : Content) (call : Call ℚ) : Content where
  size := c.size
  transitions := call.transition?.elim c.transitions fun entry => entry ::ₘ c.transitions
  initial := call.initial?.elim c.initial c.initial.insert
  labelling := call.label?.elim c.labelling fun (label, s?) => c.labelling.mark c.size label s?
  stateRewards := call.stateRewards c.size c.stateRewards
  transitionRewards := call.transitionReward?.elim c.transitionRewards fun entry =>
    some (entry ::ₘ c.transitionRewards.getD 0)

/-- What is held after a call, refused or not. -/
def after (c : Content) (call : Call ℚ) : Content :=
  if ((new c.size).perform call).isOk then c.add call else c

end Content

/-- Only the number of states is looked at. -/
theorem checkState_new {α : Type} (b : ChainBuilder α) (s : Nat) :
    (new b.size : ChainBuilder α).checkState s = b.checkState s := rfl

/-- **Whether a call is accepted** depends on its arguments and on the number of states only. -/
theorem map_content_perform (b : ChainBuilder ℚ) (call : Call ℚ) :
    (b.perform call).map content = ((new b.size).perform call).map fun _ => b.content.add call := by
  -- Both sides run the same checks, so it is enough to look at what an accepted call adds.
  cases call with
  | addTransition s t value =>
    simp only [perform, addTransition, checkState_new]
    cases b.checkState s with
    | error e => rfl
    | ok =>
      cases b.checkState t with
      | error e => rfl
      | ok =>
        cases isProbability value with
        | error e => rfl
        | ok passes => cases passes <;> rfl
  | addInitial s =>
    simp only [perform, addInitial, checkState_new]
    cases b.checkState s <;> rfl
  | declareLabel label => exact congrArg (Except.ok ∘ content) (b.declareLabel_eq label)
  | addLabel label s =>
    simp only [perform, addLabel, checkState_new]
    cases b.checkState s with
    | error e => rfl
    | ok =>
      by_cases hinit : label = initLabel
      · simp only [hinit, if_true, Content.add, Call.initial?]
        rfl
      · simp only [hinit, if_false, Content.add, Call.initial?]
        rfl
  | setStateRewards rewards =>
    show Except.map content (if rewards.length = b.size then _ else _) =
      Except.map _ (if rewards.length = b.size then _ else _)
    split <;> rfl
  | addStateReward s reward =>
    simp only [perform, addStateReward, checkState_new]
    cases b.checkState s <;> rfl
  | addTransitionReward s t reward =>
    simp only [perform, addTransitionReward, checkState_new]
    cases b.checkState s with
    | error e => rfl
    | ok =>
      cases b.checkState t with
      | error e => rfl
      | ok => obtain ⟨_, _, _, _, _, _ | _⟩ := b <;> rfl

/-- **A call** acts on what a builder holds. -/
theorem content_after (b : ChainBuilder ℚ) (call : Call ℚ) :
    (b.after call).content = b.content.after call := by
  have h := b.map_content_perform call
  rw [after, Content.after]
  show _ = if ((new b.size).perform call).isOk then _ else _
  cases hb : b.perform call <;> cases hnew : (new b.size).perform call <;> rw [hb, hnew] at h
  case error.error => rfl
  case ok.ok => exact Except.ok.inj h
  all_goals cases h

/-- **Any number of calls** act one after the other. -/
theorem content_afterAll (b : ChainBuilder ℚ) (calls : List (Call ℚ)) :
    (b.afterAll calls).content = calls.foldl Content.after b.content :=
  (List.foldl_hom content fun b call => (content_after b call).symm).symm

/-! ### Calls in any order -/

/-- Whether a call adds to what is held. The rewards of all states replace what is held. -/
def Call.isStep {α : Type} : Call α → Bool
  | .setStateRewards _ => false
  | _ => true

/-- Rewards are added to states in any order. -/
theorem Call.stateRewards_comm {call call' : Call ℚ} (h : call.isStep) (h' : call'.isStep)
    (size : Nat) (rewards : Option (Array ℚ)) :
    call'.stateRewards size (call.stateRewards size rewards) =
      call.stateRewards size (call'.stateRewards size rewards) := by
  have hmodify (values : Array ℚ) (s t : Nat) (x y : ℚ) :
      (values.modify s (· + x)).modify t (· + y) = (values.modify t (· + y)).modify s
        (· + x) := by
    refine Array.ext (by simp) fun i _ _ => ?_
    simp only [Array.getElem_modify]
    split <;> split <;> simp [add_right_comm]
  cases call with
  | setStateRewards => cases h
  | addStateReward s x =>
    cases call' with
    | setStateRewards => cases h'
    | addStateReward t y => exact congrArg some (hmodify _ s t x y)
    | _ => rfl
  | _ =>
    cases call' with
    | setStateRewards => cases h'
    | _ => rfl

/-- Accepted calls that add something can be exchanged. -/
theorem Content.add_comm {call call' : Call ℚ} (h : call.isStep) (h' : call'.isStep)
    (c : Content) : (c.add call).add call' = (c.add call').add call := by
  have hrewards := Call.stateRewards_comm h h' c.size c.stateRewards
  ext1
  case stateRewards => exact hrewards
  case size => rfl
  case transitions =>
    cases h : call.transition? <;> cases h' : call'.transition? <;>
      simp [Content.add, h, h', Multiset.cons_swap]
  case initial =>
    cases h : call.initial? <;> cases h' : call'.initial? <;>
      simp [Content.add, h, h', StateSet.insert_comm]
  case labelling =>
    cases h : call.label? <;> cases h' : call'.label? <;>
      simp [Content.add, h, h', Labelling.mark_comm]
  case transitionRewards =>
    cases h : call.transitionReward? <;> cases h' : call'.transitionReward? <;>
      simp [Content.add, h, h', Multiset.cons_swap]

/-- **Calls that add something can be exchanged**, refused or not. -/
theorem Content.after_comm {call call' : Call ℚ} (h : call.isStep) (h' : call'.isStep)
    (c : Content) : (c.after call).after call' = (c.after call').after call := by
  have hafter (call call' : Call ℚ) : (c.after call).after call' =
      if ((new c.size).perform call').isOk then (c.after call).add call' else c.after call := by
    have hsize : (c.after call).size = c.size := by
      rw [Content.after]
      split <;> rfl
    rw [Content.after, hsize]
  rw [hafter, hafter, Content.after, Content.after]
  split <;> split <;> simp [Content.add_comm h h']

/-- **Calls in any order** lead to builders that hold the same. -/
theorem content_afterAll_perm {calls calls' : List (Call ℚ)} (hperm : calls.Perm calls')
    (hsteps : ∀ call ∈ calls, call.isStep) (b : ChainBuilder ℚ) :
    (b.afterAll calls).content = (b.afterAll calls').content := by
  rw [content_afterAll, content_afterAll]
  exact hperm.foldl_eq' (fun x hx y hy c => Content.after_comm (hsteps x hx) (hsteps y hy) c) _

/-! ### Calls that are refused -/

/-- Calls in place lead to the same builder as calls one after the other. -/
theorem executeAll_eq (b : ChainBuilder ℚ) (calls : List (Call ℚ)) :
    b.executeAll calls = b.afterAll calls := by
  have hstep (b : ChainBuilder ℚ) (call : Call ℚ) :
      left (call.commands.run b) = b.after call := by
    rw [run_commands, after]
    cases b.perform call <;> rfl
  exact congrArg (fun f => calls.foldl f b) (funext₂ hstep)

/-- **Calls that are refused can be left out.** -/
theorem executeAll_accepted (b : ChainBuilder ℚ) (calls : List (Call ℚ)) :
    b.executeAll (b.accepted calls) = b.executeAll calls := by
  have hcons (b : ChainBuilder ℚ) (call : Call ℚ) (calls : List (Call ℚ)) :
      b.executeAll (call :: calls) = (left (call.commands.run b)).executeAll calls := rfl
  induction calls generalizing b with
  | nil => rfl
  | cons call calls ih =>
    rw [accepted, hcons]
    cases hrun : call.commands.run b with
    | ok x b' =>
      show b.executeAll (call :: b'.accepted calls) = b'.executeAll calls
      rw [hcons, hrun]
      exact ih b'
    | error e b' =>
      obtain rfl := eq_of_run_error hrun
      exact ih b'

/-- The calls that are accepted are among the calls. -/
theorem accepted_sublist (b : ChainBuilder ℚ) (calls : List (Call ℚ)) :
    (b.accepted calls).Sublist calls := by
  induction calls generalizing b with
  | nil => exact .slnil
  | cons call calls ih =>
    rw [accepted]
    split
    · exact (ih _).cons_cons call
    · exact (ih _).cons call

/-! ### The last call -/

/-- The order of entries does not matter when they are collected. -/
theorem collect_perm {entries entries' : List (Nat × Nat × ℚ)} (h : entries.Perm entries')
    (size : Nat) : collect size entries = collect size entries' := by
  have hreverse : entries.reverse.Perm entries'.reverse :=
    (List.reverse_perm _).trans (h.trans (List.reverse_perm _).symm)
  rw [collect_eq, collect_eq, Matrix.entriesFit_rat, Matrix.entriesFit_rat,
    Matrix.ofEntries_perm hreverse]

/-- **Builders that hold the same** turn into the same chain, or are refused for the same reason. -/
theorem build_eq {b b' : ChainBuilder ℚ} (h : b.content = b'.content) : b.build = b'.build := by
  obtain ⟨size, transitions, initial, labelling, stateRewards, rewards⟩ := b
  obtain ⟨size', transitions', initial', labelling', stateRewards', rewards'⟩ := b'
  simp only [content, Content.mk.injEq, Multiset.coe_eq_coe] at h
  obtain ⟨rfl, htransitions, rfl, rfl, rfl, hrewards⟩ := h
  have hcollect : rewards.mapM (collect size) = rewards'.mapM (collect size) := by
    cases rewards <;> cases rewards' <;> simp at hrewards ⊢
    rw [collect_perm hrewards]
  simp only [build, collect_perm htransitions, hcollect]

/-- **The order of calls does not matter.** Let two lists of calls, each of which adds something, be
the same up to order once the calls that are refused are left out. Then both lead to the same
outcome: either both chains are refused for the same reason, or they are the same chain, in which
the initial states carry their label. A call that is refused has no effect. -/
theorem build_order_independent {size : Nat} {calls calls' : List (Call ℚ)}
    (hsteps : ∀ call ∈ calls, call.isStep)
    (hperm : ((new size).accepted calls).Perm ((new size).accepted calls')) :
    ((new size).executeAll calls).build = ((new size).executeAll calls').build ∧
      (new size).executeAll ((new size).accepted calls) = (new size).executeAll calls ∧
      ∀ c, ((new size).executeAll calls).build = .ok c →
        c.labelling.get? initLabel = some c.initial := by
  refine ⟨build_eq ?_, executeAll_accepted _ _, fun c hc => ?_⟩
  · rw [← executeAll_accepted _ calls, ← executeAll_accepted _ calls', executeAll_eq,
      executeAll_eq]
    exact content_afterAll_perm hperm
      (fun call hcall => hsteps call ((accepted_sublist _ _).subset hcall)) _
  · have hbuilds := builds_of_build hc
    rw [hbuilds.labelling_eq, Labelling.get?_set, if_pos rfl, hbuilds.initial_eq]

deriving instance DecidableEq for Call

/-- A coin that is thrown until it shows one side. The other side is given in two halves, and two
calls are refused. -/
def throwCalls : List (Call ℚ) :=
  [.addTransition 0 1 (1 / 4), .addLabel "done" 2, .addTransition 0 0 (1 / 2), .declareLabel "done",
    .addTransition 0 1 (1 / 4), .addStateReward 0 1, .addLabel "done" 1, .addTransition 1 1 1,
    .addTransition 1 0 (-1), .addLabel initLabel 0]

/-- The same coin in another order, with another call that is refused. -/
def catchCalls : List (Call ℚ) :=
  [.addLabel initLabel 0, .addLabel "done" 1, .addTransition 1 1 1, .addTransition 0 1 (1 / 4),
    .addTransition 0 1 (1 / 4), .addStateReward 0 1, .addStateReward 5 1, .declareLabel "done",
    .addTransition 0 0 (1 / 2)]

theorem build_order_independent_coin :
    ∃ c, ((new 2).executeAll throwCalls).build = .ok c ∧
      ((new 2).executeAll catchCalls).build = .ok c ∧
      c.labelling.get? initLabel = some c.initial := by
  have hperm : ((new 2).accepted throwCalls).Perm ((new 2).accepted catchCalls) := by
    decide +kernel
  obtain ⟨hbuild, -, hinit⟩ := build_order_independent (by decide) hperm
  obtain ⟨c, hc⟩ := exists_eq_ok_of_isOk
    (show ((new 2).executeAll throwCalls).build.isOk = true by
      rw [build, collect_eq]
      decide +kernel)
  exact ⟨c, hc, hbuild ▸ hc, hinit c hc⟩

end ChainBuilder

end MarkovElimination
