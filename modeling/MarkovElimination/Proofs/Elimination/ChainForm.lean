import MarkovElimination.Number.Float
import MarkovElimination.Proofs.Elimination.Chains
import MarkovElimination.Proofs.Elimination.Substitution
import MarkovElimination.Proofs.Number.Difference

/-! # The form of collapsed chains

Once all states but those of an event, those of a condition and the initial one are gone, collapsing
only asks for eliminations that are possible: a state is bypassed because it leads to another state,
so it is a state of the two sets, and only the arithmetic of its self-loop can fail. So collapsing
ends with collapsed chains for weights of every kind, unless a state is bypassed whose self-loop is
one, or an operation on weights is a fault (`collapseChains_collapses`). Which faults are left
depends on the weights (`Computes`): there are none for binary64 numbers, whose difference is zero
only if they are equal, and none for rational numbers, and rational functions can only leave their
range. -/

namespace MarkovElimination.Problem

variable {α : Type} [Weight α]

/-! ### Faults of an elimination -/

/-- The self-loop of a state is one. -/
def CertainLoop (p : Problem α) (s : Nat) : Prop :=
  ∃ loop, (p.row s).get? s = some loop ∧ Weight.isOne loop = true

/-- The faults of an elimination: the self-loop of the state is one, or arithmetic meets a fault of
`F`. -/
def EliminationFault (F : Fault → Prop) (p : Problem α) (s : Nat) (f : Fault) : Prop :=
  p.CertainLoop s ∧ f = .certainSelfLoop s ∨ F f

/-- **What arithmetic guarantees** for problems with the property `V`, which eliminations keep:
resolving a self-loop other than one and leaving the range of weights only meet faults of `F`. -/
structure Computes (V : Problem α → Prop) (F : Fault → Prop) : Prop where
  range : ¬F .degreeOverflow → Weight.Unbounded α
  resolves : ∀ p, V p → ∀ s loop, (p.row s).get? s = some loop →
    Weight.isOne loop = false →
    Meets F (fun _ => True) (Weight.invertComplement loop)
  kept : ∀ p p', V p → p.Consistent → ∀ s drop constraint,
    p.eliminate s drop constraint = .ok p' → V p'

/-- A plan can only be found if the self-loop of its state is not one. -/
theorem not_certainLoop_of_redirection {p : Problem α} {s : Nat} {drop : Bool}
    {constraint : Option StateSet} {r : Redirection α}
    (h : p.redirection s drop constraint = .ok r) : ¬p.CertainLoop s := by
  rintro ⟨loop, hget, hone⟩
  obtain ⟨-, factor, hresc, -⟩ := redirection_eq_ok h
  have hthrow : p.rescaling s = .error (.certainSelfLoop s) := by
    rw [rescaling, hget]
    simp only [loopFactor, if_pos hone]
    rfl
  rw [hthrow] at hresc
  cases hresc

namespace Computes

variable {V : Problem α → Prop} {F : Fault → Prop} {p : Problem α} {s : Nat}

/-- A range check passes, or the range is left. -/
theorem requireRange_meets (h : Computes V F) {fits : Bool}
    (hfits : Weight.Unbounded α → fits = true) :
    Meets (EliminationFault F p s) (fun _ => True) (requireRange fits) := by
  cases fits with
  | true => trivial
  | false =>
    refine .inr ?_
    by_contra hF
    cases hfits (h.range hF)

/-- The factor of a self-loop is known, unless the self-loop is one or arithmetic fails. -/
theorem rescaling_meets (h : Computes V F) (hV : V p) (s : Nat) :
    Meets (EliminationFault F p s) (fun _ => True) (p.rescaling s) := by
  rw [rescaling]
  cases hget : (p.row s).get? s with
  | none => trivial
  | some loop =>
    have hfactor : Meets (EliminationFault F p s) (fun _ => True) (loopFactor s loop) := by
      rw [loopFactor]
      cases hone : Weight.isOne loop with
      | true => exact .inl ⟨⟨loop, hget, hone⟩, rfl⟩
      | false =>
        have hinvert : Meets (EliminationFault F p s) (fun _ => True)
            (Weight.invertComplement loop) :=
          (h.resolves p hV s loop hget hone).weaken fun _ => .inr
        exact hinvert.bind fun f _ =>
          (h.requireRange_meets fun hu => hu.simplifyFits f).bind fun _ _ => trivial
    exact hfactor.bind fun f _ =>
      (h.requireRange_meets fun hu => hu.rescaleFits p s f).bind fun _ _ => trivial

/-- **An elimination** of a state whose predecessors are covered succeeds, unless the self-loop of
the state is one or arithmetic fails. -/
theorem eliminate_meets (h : Computes V F) (hp : p.Consistent) (hV : V p) (hs : s < p.size)
    (drop : Bool) {constraint : Option StateSet} (hcovers : p.Covers s constraint) :
    Meets (EliminationFault F p s) (fun p' => p.eliminate s drop constraint = .ok p')
      (p.eliminate s drop constraint) := by
  have hplan : Meets (EliminationFault F p s) (p.IsPlan s drop constraint)
      (p.redirection s drop constraint) := by
    cases hr : p.redirection s drop constraint with
    | ok r => exact isPlan_of_redirection hr
    | error f =>
      have hmeets := h.rescaling_meets hV s
      rw [rescaling_eq_error hs hcovers hr] at hmeets
      exact hmeets
  have hmeets := hp.eliminate_meets_of_redirection (fun _ hr => hr)
    (fun hrange => h.range fun hF => hrange (.inr hF)) hplan
  cases heq : p.eliminate s drop constraint with
  | ok p' => rfl
  | error f =>
    rw [heq] at hmeets
    exact hmeets

end Computes

/-! ### Weights of every kind -/

/-- Weights of every kind only meet faults of arithmetic. -/
theorem computes_of_weight :
    Computes (fun _ : Problem α => True) (fun f => f.isArithmetic = true) where
  range h := absurd rfl h
  resolves p _ s loop _ _ := by
    cases h : Weight.invertComplement loop with
    | ok _ => trivial
    | error f => exact Weight.divide_fault _ _ f h
  kept _ _ _ _ _ _ _ _ := trivial

/-- Binary64 numbers have no range to leave, and only one minus one is zero. -/
theorem computes_float : Computes (fun _ : Problem Float => True) (fun _ => False) where
  range _ := ⟨fun _ _ => rfl, fun _ _ => rfl, fun _ => rfl⟩
  resolves p _ s loop _ hone := by
    have hne : ¬(1 - loop == 0) = true := by
      intro hzero
      have hsame : Weight.isOne loop = true := Binary64.beq_of_sub_beq_zero hzero
      rw [hone] at hsame
      cases hsame
    have hok : Weight.invertComplement loop = .ok (1 / (1 - loop)) := if_neg hne
    rw [hok]
    trivial
  kept _ _ _ _ _ _ _ _ := trivial

/-- **Weights with an exact interpretation** can only leave their range. -/
theorem computes_of_exact {K : Type} [Field K] {I : Interpretation α K} (hI : I.Exact) :
    Computes (Problem.Valid I) I.RangeFault where
  range h := I.unbounded fun hover => h ⟨hover, rfl⟩
  resolves p hv s loop hget hone := by
    have hloop := (hv.rows s).get? I hget
    have hne : I.value loop ≠ 1 := by
      intro hval
      rw [hI.isOne_of_value hloop hval] at hone
      cases hone
    have hsub : I.value (1 - loop) = 1 - I.value loop := by
      rw [I.value_sub I.valid_one hloop, I.value_one]
    exact (I.divide_meets I.valid_one (I.valid_sub I.valid_one hloop)
      (by rw [hsub]; exact sub_ne_zero.2 hne.symm)).mono fun _ _ => trivial
  kept p p' hv hp s drop constraint h := by
    obtain ⟨r, hr, rfl⟩ := eliminate_eq_ok h
    have hloop : p.loop I s ≠ 1 := loop_ne_one hI hv fun a ha => by
      by_contra hone
      exact not_certainLoop_of_redirection hr ⟨a, ha, by simpa using hone⟩
    exact ((planned_of_redirection hv hloop hr).eliminated hp hv).valid

/-! ### Problems of chains -/

/-- **Only chains are left**: every state but the initial one that leads anywhere is in one of the
two sets, the initial state is in neither, and no state leads to it. -/
structure Chained (event condition : StateSet) (initial : Nat) (p : Problem α) : Prop where
  consistent : p.Consistent
  event_size : event.size = p.size
  condition_size : condition.size = p.size
  initial_lt : initial < p.size
  flagged : ∀ s, s ≠ initial → p.row s ≠ [] →
    event.contains s = true ∨ condition.contains s = true
  event_initial : event.contains initial = false
  condition_initial : condition.contains initial = false
  no_return : ∀ s, initial ∉ (p.row s).columns

/-- Problems that are reached by bypassing states of the two sets. -/
def Bypasses (event condition : StateSet) : Problem α → Problem α → Prop :=
  Relation.ReflTransGen fun p p' => ∃ c kind, (kind = event ∨ kind = condition) ∧
    p.eliminate c false (some kind) = .ok p'

/-- A fault of collapsing that is none of arithmetic: the self-loop of a state is one when the state
is to be bypassed. -/
def MeetsCertainLoop (event condition : StateSet) (p : Problem α) (f : Fault) : Prop :=
  ∃ q c, Bypasses event condition p q ∧ q.CertainLoop c ∧ f = .certainSelfLoop c

/-- **Collapsing ends with collapsed chains**, unless the self-loop of a state to be bypassed is one
or arithmetic meets a fault of `F`: the row of the initial state is the one it was, and the chains
behind each of its successors lead to the other set in one step, or to a state without a proper
successor. -/
def Collapses (F : Fault → Prop) (event condition : StateSet) (initial : Nat) (p : Problem α) :
    Prop :=
  Runs (Interruption.IsFault fun f => MeetsCertainLoop event condition p f ∨ F f)
    (fun q => q.row initial = p.row initial ∧
      ∀ s ∈ (p.row initial).columns, Ready event condition q s)
    (p.collapseChains event condition initial)

section Chained

variable {event condition stop kind : StateSet} {initial c : Nat} {p p' q : Problem α}

omit [Weight α] in
/-- Shortcuts between the two sets leave only chains. -/
theorem Chained.of_shortcut (h : Chained event condition initial p)
    (hsides : Sides event condition stop kind) (hcut : Shortcut stop kind c p p')
    (hp : p'.Consistent) (hsize : p'.size = p.size) : Chained event condition initial p' where
  consistent := hp
  event_size := h.event_size.trans hsize.symm
  condition_size := h.condition_size.trans hsize.symm
  initial_lt := hsize ▸ h.initial_lt
  flagged s hs hrow := by
    obtain ⟨e, he⟩ := List.exists_mem_of_ne_nil _ hrow
    rcases hcut.mem_columns_of_mem (List.mem_map_of_mem he) with hcol | ⟨hmem, -⟩
    · refine h.flagged s hs fun hnil => ?_
      rw [hnil] at hcol
      cases hcol
    · exact hsides.mem_sets hmem
  event_initial := h.event_initial
  condition_initial := h.condition_initial
  no_return s hs := by
    rcases hcut.mem_columns_of_mem hs with hs | ⟨-, -, hs⟩
    · exact h.no_return s hs
    · exact h.no_return c hs

variable {V : Problem α → Prop} {F : Fault → Prop}

/-- **Where only chains are left, every state between the sets can be bypassed.** -/
theorem Computes.bypassable (hF : Computes V F) (hsides : Sides event condition stop kind) :
    Bypassable (Interruption.IsFault fun f => MeetsCertainLoop event condition p f ∨
      F f) stop kind
      fun q => Chained event condition initial q ∧ V q ∧ Bypasses event condition p q where
  consistent _ hq := hq.1.consistent
  member q hq i c hc hstop hleaves := by
    obtain ⟨d, hd, -⟩ := hleaves
    have hrow : q.row c ≠ [] := fun hnil => by simp [hnil] at hd
    have hne : c ≠ initial := fun hci => hq.1.no_return i (hci ▸ hc)
    exact hsides.mem_kind (hq.1.flagged c hne hrow) hstop
  runs q c hq hstop hmem hleaves := by
    obtain ⟨hchained, hV, hreached⟩ := hq
    have hq := hchained.consistent
    have hsize := hsides.size_eq hchained.event_size hchained.condition_size
    have hset : ∀ set ∈ some kind, set.size = q.size := by simp [hsize]
    obtain ⟨d, hd, hdc⟩ := hleaves
    have hmeets := hF.eliminate_meets hq hV (lt_size_of_mem_columns hd) false (hq.covers hset)
    refine runs_eliminateMonitored ((hmeets.weaken ?_).mono fun q' heq => ?_)
    · rintro f (⟨hloop, rfl⟩ | hf)
      · exact .inl ⟨q, c, hreached, hloop, rfl⟩
      · exact .inr hf
    · have hcut := Shortcut.of_eliminate hq heq hstop hmem ⟨d, hd, hdc⟩
      have hsize' : q'.size = q.size := by
        obtain ⟨r, -, rfl⟩ := eliminate_eq_ok heq
        exact IsPlan.size_redirect q r
      have hkind : kind = event ∨ kind = condition := hsides.imp And.right And.right
      exact ⟨⟨hchained.of_shortcut hsides hcut (hq.eliminate heq) hsize',
        hF.kept q q' hV hq _ _ _ heq, hreached.tail ⟨c, kind, hkind, heq⟩⟩, hcut⟩

/-- More faults that are allowed. -/
theorem Collapses.weaken_fault {F' : Fault → Prop} (h : Collapses F event condition initial p)
    (hF : ∀ f, F f → F' f) : Collapses F' event condition initial p :=
  h.weaken fun i hi => by
    cases i with
    | cancelled => exact hi
    | fault f => exact hi.imp_right (hF f)

/-- A run that ends with a result ends with collapsed chains. -/
theorem Collapses.exists_collapsed (h : Collapses F event condition initial p) {m : Monitor}
    (hm : m.cancelAt = none)
    (hok : (outcome (p.collapseChains event condition initial) m).1.isOk = true) :
    ∃ q, (outcome (p.collapseChains event condition initial) m).1 = .ok q ∧
      q.row initial = p.row initial ∧
      ∀ s ∈ (p.row initial).columns, Ready event condition q s := by
  obtain ⟨q, hq⟩ := exists_eq_ok_of_isOk hok
  have hmeets := (h m hm).1
  rw [hq] at hmeets
  exact ⟨q, hq, hmeets⟩

/-- **Collapsing ends with collapsed chains.** -/
theorem Computes.collapses (hF : Computes V F) (hp : Chained event condition initial p) (hV : V p) :
    Collapses F event condition initial p := by
  have hruns := Bypassable.runs_collapseChains (hF.bypassable (p := p) (.inl ⟨rfl, rfl⟩))
    (hF.bypassable (.inr ⟨rfl, rfl⟩)) ⟨hp, hV, .refl⟩ hp.event_initial hp.condition_initial
  exact hruns.mono fun q hq => hq.2

end Chained

/-- **Collapsing chains terminates**, and then the chains are collapsed, for weights of every kind.
Where only chains are left, the run ends with the row of the initial state as it was, and every
entry in the row of a successor that is in the event only leads to a state of the condition or to a
state without a proper successor, and likewise for a successor that is in the condition only. It
fails only if the self-loop of a state is one when the state is to be bypassed, or if arithmetic
fails. Arithmetic never fails with binary64 numbers and rational numbers, and with rational
functions only by an exponent that leaves its range. -/
theorem collapseChains_collapses (event condition : StateSet) (initial : Nat) :
    (∀ (α : Type) [Weight α] (p : Problem α), Chained event condition initial p →
      Collapses (fun f => f.isArithmetic = true) event condition initial p) ∧
    (∀ p : Problem Float, Chained event condition initial p →
      Collapses (fun _ => False) event condition initial p) ∧
    (∀ p : Problem ℚ, Chained event condition initial p →
      Collapses (fun _ => False) event condition initial p) ∧
    (∀ p : Problem RationalFunction, Chained event condition initial p →
      (∀ s, ∀ e ∈ p.row s, e.value.WellFormed) → (∀ s, (p.value s).WellFormed) →
      Collapses (fun f => f = .degreeOverflow) event condition initial p) := by
  refine ⟨fun α _ p hp => ?_, fun p hp => ?_, fun p hp => ?_, fun p hp hrows hvalues => ?_⟩
  · exact computes_of_weight.collapses hp trivial
  · exact computes_float.collapses hp trivial
  · have hruns := (computes_of_exact Interpretation.exact_rat).collapses hp p.valid_rat
    exact hruns.weaken_fault fun f hf => hf.1
  · have hruns := (computes_of_exact Interpretation.exact_field).collapses hp
      (valid_field hrows hvalues)
    exact hruns.weaken_fault fun f hf => hf.2

/-! ### Two chains -/

/-- The problem of a matrix has only chains, if the matrix has. -/
theorem chained_ofMatrix {event condition : StateSet} {initial : Nat} {mode : ValueMode}
    {m : Matrix α} {values : List α} {p : Problem α} (hm : m.WellFormed)
    (h : ofMatrix mode m values = .ok p) (hinitial : initial < m.rowCount)
    (hevent : event.size = m.rowCount ∧ event.contains initial = false)
    (hcondition : condition.size = m.rowCount ∧ condition.contains initial = false)
    (hflagged : ∀ s ∈ List.range m.rowCount, s ≠ initial → (m.row s).columns ≠ [] →
      event.contains s = true ∨ condition.contains s = true)
    (hreturn : ∀ s ∈ List.range m.rowCount, initial ∉ (m.row s).columns) :
    Chained event condition initial p := by
  have hsub {s c : Nat} (hc : c ∈ (p.row s).columns) : c ∈ (m.row s).columns := by
    rw [row_ofMatrix h] at hc
    exact Row.mem_columns_of_mem_dropZeros hc
  have hsize := size_ofMatrix h
  have hlt {s c : Nat} (hc : c ∈ (p.row s).columns) : s ∈ List.range m.rowCount :=
    List.mem_range.2 (hsize ▸ lt_size_of_mem_columns hc)
  exact {
    consistent := consistent_ofMatrix hm h
    event_size := hevent.1.trans hsize.symm
    condition_size := hcondition.1.trans hsize.symm
    initial_lt := hsize ▸ hinitial
    flagged := fun s hs hrow => by
      obtain ⟨e, he⟩ := List.exists_mem_of_ne_nil _ hrow
      have hc : e.column ∈ (p.row s).columns := List.mem_map_of_mem he
      exact hflagged s (hlt hc) hs (List.ne_nil_of_mem (hsub hc))
    event_initial := hevent.2
    condition_initial := hcondition.2
    no_return := fun s hc => hreturn s (hlt hc) (hsub hc) }

/-- States `1` and `2` of the event lead to each other, and so do states `4` and `6` of the
condition. State `3` is in both sets, and state `5` leads nowhere. -/
def relayMatrix : Matrix ℚ :=
  .ofRows 7 [[⟨1, 1 / 2⟩, ⟨4, 1 / 2⟩], [⟨1, 1 / 4⟩, ⟨2, 1 / 2⟩, ⟨3, 1 / 4⟩],
    [⟨1, 1 / 3⟩, ⟨5, 2 / 3⟩], [⟨2, 1 / 2⟩, ⟨4, 1 / 2⟩],
      [⟨3, 1 / 2⟩, ⟨6, 1 / 2⟩], [],
    [⟨1, 1 / 2⟩, ⟨4, 1 / 2⟩]]

/-- The event of the relay. -/
def relayEvent : StateSet := .ofList 7 [1, 2, 3]

/-- The condition of the relay. -/
def relayCondition : StateSet := .ofList 7 [3, 4, 6]

/-- States `1` and `2` of the event lead to state `3`, the first one with a power of a parameter and
the second one with the parameter. -/
def strideMatrix (n : ℕ) : Matrix RationalFunction :=
  .ofRows 4 [[⟨1, 1⟩], [⟨2, .ofPolynomial ⟨[⟨⟨[⟨"q", n⟩]⟩, 1⟩]⟩⟩],
    [⟨3, .ofParameter "q"⟩], []]

/-- The event of the stride. -/
def strideEvent : StateSet := .ofList 4 [1, 2]

/-- The condition of the stride. -/
def strideCondition : StateSet := .ofList 4 [3]

/-- Only chains are left in the stride, whatever the power. -/
theorem chained_stride {n : ℕ} {p : Problem RationalFunction}
    (h : ofMatrix .probabilities (strideMatrix n) (List.replicate 4 0) = .ok p) :
    Chained strideEvent strideCondition 0 p := by
  refine chained_ofMatrix ?_ h ?_ ?_ ?_ ?_ ?_
  all_goals exact of_decide_eq_true rfl

/-- All weights of a stride with the parameter itself are well formed. -/
theorem wellFormed_stride (s : Nat) : ∀ e ∈ (strideMatrix 1).row s, e.value.WellFormed := by
  intro e he
  have hs : s < 4 := Matrix.lt_rowCount_of_mem_columns (List.mem_map_of_mem he)
  interval_cases s <;> revert e <;> decide

/-- The chains of the relay are collapsed, four states being bypassed, and so are those of the
stride. -/
theorem collapseChains_collapses_relay :
    (∃ p q, ofMatrix .probabilities relayMatrix (List.replicate 7 0) = .ok p ∧
      (outcome (p.collapseChains relayEvent relayCondition 0) {}).1 = .ok q ∧
      q.row 0 = p.row 0 ∧ ∀ s ∈ (p.row 0).columns, Ready relayEvent relayCondition q s) ∧
    ∃ p q, ofMatrix .probabilities (strideMatrix 1) (List.replicate 4 0) = .ok p ∧
      (outcome (p.collapseChains strideEvent strideCondition 0) {}).1 = .ok q ∧
      q.row 0 = p.row 0 ∧ ∀ s ∈ (p.row 0).columns, Ready strideEvent strideCondition q s := by
  constructor
  · obtain ⟨p, hp⟩ := exists_eq_ok_of_isOk
      (x := ofMatrix .probabilities relayMatrix (List.replicate 7 0)) (by cbv)
    have hok : (ofMatrix .probabilities relayMatrix (List.replicate 7 0)).toOption.map
        (fun p => (outcome (p.collapseChains relayEvent relayCondition 0) {}).1.isOk) =
        some true := by
      cbv
    rw [hp] at hok
    have hchained : Chained relayEvent relayCondition 0 p :=
      chained_ofMatrix (by decide) hp (by decide) (by decide) (by decide) (by decide) (by decide)
    have hruns := (collapseChains_collapses relayEvent relayCondition 0).2.2.1 p hchained
    obtain ⟨q, hq, hform⟩ := hruns.exists_collapsed (m := {}) rfl (Option.some.inj hok)
    exact ⟨p, q, hp, hq, hform⟩
  · obtain ⟨p, hp⟩ := exists_eq_ok_of_isOk
      (x := ofMatrix .probabilities (strideMatrix 1) (List.replicate 4 0)) (by cbv)
    have hok : (ofMatrix .probabilities (strideMatrix 1) (List.replicate 4 0)).toOption.map
        (fun p => (outcome (p.collapseChains strideEvent strideCondition 0) {}).1.isOk) =
        some true := by
      cbv
    rw [hp] at hok
    have hvalues : ∀ a ∈ List.replicate 4 (0 : RationalFunction), a.WellFormed := by decide
    obtain ⟨hpending, -⟩ := pending_ofMatrix (I := .field) (by decide)
      (fun s e he => (wellFormed_stride s e he).valid_field)
      (fun a ha => (hvalues a ha).valid_field) hp
    have hruns := (collapseChains_collapses strideEvent strideCondition 0).2.2.2 p
      (chained_stride hp) (fun s e he => (hpending.valid.rows s e he).wellFormed)
      fun s => (hpending.valid.values s).wellFormed
    obtain ⟨q, hq, hform⟩ := hruns.exists_collapsed (m := {}) rfl (Option.some.inj hok)
    exact ⟨p, q, hp, hq, hform⟩

/-- With the greatest exponent that can be represented, collapsing the stride leaves the range,
though no state of it has a self-loop. -/
theorem collapseChains_stride_overflow :
    (∀ s ∈ List.range 4, ∀ e ∈ (strideMatrix 4294967295).row s,
      e.value.WellFormed ∧ e.value.numerator.InRange ∧ e.value.denominator.InRange) ∧
    ∃ p, ofMatrix .probabilities (strideMatrix 4294967295) (List.replicate 4 0) = .ok p ∧
      Chained strideEvent strideCondition 0 p ∧ (∀ s, s ∉ (p.row s).columns) ∧
      (outcome (p.collapseChains strideEvent strideCondition 0) {}).1 =
        .error (.fault .degreeOverflow) ∧
      ¬Collapses (fun _ => False) strideEvent strideCondition 0 p := by
  refine ⟨by decide_cbv, ?_⟩
  obtain ⟨p, hp⟩ := exists_eq_ok_of_isOk
    (x := ofMatrix .probabilities (strideMatrix 4294967295) (List.replicate 4 0)) (by cbv)
  have hrun : (ofMatrix .probabilities (strideMatrix 4294967295)
      (List.replicate 4 0)).toOption.map
      (fun p => (outcome (p.collapseChains strideEvent strideCondition 0) {}).1) =
      some (.error (.fault .degreeOverflow)) := by
    cbv
  rw [hp] at hrun
  have hfail : (outcome (p.collapseChains strideEvent strideCondition 0) {}).1 =
      .error (.fault .degreeOverflow) := Option.some.inj hrun
  refine ⟨p, hp, chained_stride hp, fun s hs => ?_, hfail, fun hcollapses => ?_⟩
  · have hlt := size_ofMatrix hp ▸ lt_size_of_mem_columns hs
    rw [row_ofMatrix hp] at hs
    have hnone : ∀ s ∈ List.range 4, s ∉ ((strideMatrix 4294967295).row s).columns := by
      decide_cbv
    exact hnone s (List.mem_range.2 hlt) (Row.mem_columns_of_mem_dropZeros hs)
  · have hmeets := (hcollapses {} rfl).1
    rw [hfail] at hmeets
    rcases hmeets with ⟨q, c, -, -, hfault⟩ | hfalse
    · cases hfault
    · exact hfalse

end MarkovElimination.Problem
