import MarkovElimination.Number.Rational
import MarkovElimination.Proofs.Elimination.Consistency
import MarkovElimination.Proofs.Outcome

/-! # The two sides of a problem

A problem keeps its transitions twice: in the rows of its equations, and in rows that mark the
predecessors of every state with one. The problem of a matrix starts with two sides that agree, and
no sequence of eliminations makes them drift apart (`twoSided_eliminateCalls`), whatever states,
constraints and rows to keep it names. An elimination therefore only fails for a reason that lies in
what it is asked for, or in the arithmetic of weights (`TwoSided.eliminate_meets`). -/

namespace MarkovElimination

/-- The faults of a problem whose two sides have drifted apart. -/
def Fault.isDrift : Fault → Bool
  | .missingTransition _ _ | .missingPredecessor _ | .unsortedRow => true
  | _ => false

/-- An elimination that is asked for. -/
structure EliminationCall where
  state : Nat
  dropOutgoing : Bool
  constraint : Option StateSet

namespace Row

variable {α : Type} [Weight α]

/-- All marks are one. -/
theorem value_marks {columns : List Nat} : ∀ e ∈ (marks columns : Row α), e.value = 1 := by
  intro e he
  obtain ⟨c, -, rfl⟩ := List.mem_map.1 he
  rfl

/-- Marking keeps a row of ones a row of ones. -/
theorem value_mark {row : Row α} {columns : List Nat} (h : ∀ e ∈ row, e.value = 1) :
    ∀ e ∈ row.mark columns, e.value = 1 := by
  fun_induction mark row columns with
  | case1 columns => exact value_marks
  | case2 e row => exact h
  | case3 e row c columns hcmp ih =>
    rw [List.forall_mem_cons] at h ⊢
    exact ⟨h.1, ih h.2⟩
  | case4 e row c columns hcmp ih => exact List.forall_mem_cons.2 ⟨rfl, ih h⟩
  | case5 e row c columns hcmp ih =>
    rw [List.forall_mem_cons] at h ⊢
    exact ⟨h.1, ih h.2⟩

end Row

namespace Problem

variable {α : Type} [Weight α]

/-- Carries out eliminations one after the other, up to the first one that fails. -/
def eliminateCalls (p : Problem α) (calls : List EliminationCall) : Except Fault (Problem α) :=
  calls.foldlM (fun p c => p.eliminate c.state c.dropOutgoing c.constraint) p

/-- **The two sides agree**: a state is marked as a predecessor exactly if its equation mentions the
other state, all rows of both sides are sorted and within the states, and all marks are one. -/
structure TwoSided (p : Problem α) : Prop extends p.Consistent where
  incoming_lt : ∀ s, ∀ c ∈ (p.incomingRow s).columns, c < p.size
  ones : ∀ s, ∀ e ∈ p.incomingRow s, e.value = 1

/-- Marks of predecessors stay within the states of a consistent problem. -/
theorem Consistent.twoSided {p : Problem α} (hp : p.Consistent)
    (hones : ∀ s, ∀ e ∈ p.incomingRow s, e.value = 1) : p.TwoSided where
  toConsistent := hp
  incoming_lt s c hc := lt_size_of_mem_columns ((hp.agree c s).1 hc)
  ones := hones

/-- The problem of a well-formed matrix starts with two sides that agree. -/
theorem twoSided_ofMatrix {mode : ValueMode} {m : Matrix α} {values : List α} {p : Problem α}
    (hm : m.WellFormed) (h : ofMatrix mode m values = .ok p) : p.TwoSided := by
  refine (consistent_ofMatrix hm h).twoSided fun s => ?_
  rw [incomingRow_ofMatrix h]
  exact Row.value_marks

/-- Carrying out a plan keeps the two sides in agreement. -/
theorem TwoSided.redirect {p : Problem α} {s : Nat} {drop : Bool} {constraint : Option StateSet}
    {r : Redirection α} (hp : p.TwoSided) (h : p.IsPlan s drop constraint r) :
    (p.redirect r).TwoSided := by
  refine (hp.toConsistent.redirect h).twoSided fun j => ?_
  rw [h.incomingRow_redirect hp.toConsistent, Redirection.newIncoming]
  split
  · exact Row.value_marks
  · split
    · refine Row.value_mark ?_
      split
      · exact fun e he => hp.ones j e (Row.mem_of_mem_erase he)
      · exact hp.ones j
    · exact hp.ones j

/-! ### Why an elimination can fail -/

/-- Reasons for the failure of an elimination that have nothing to do with the two sides. -/
inductive CallFault (p : Problem α) (c : EliminationCall) : Fault → Prop where
  /-- The state is not a state of the problem. -/
  | noState : p.size ≤ c.state → CallFault p c (.rowOutOfRange c.state p.size)
  /-- The self-loop of the state is one. -/
  | certainSelfLoop {loop : α} : (p.row c.state).get? c.state = some loop →
      Weight.isOne loop = true → CallFault p c (.certainSelfLoop c.state)
  /-- The constraint is a set over fewer states than there are predecessors. -/
  | smallConstraint {set : StateSet} {i : Nat} : c.constraint = some set →
      i ∈ p.predecessors c.state → set.size ≤ i →
      CallFault p c (.stateOutOfRange i set.size)
  /-- A weight is divided by zero or leaves the range that can be represented. -/
  | arithmetic {f : Fault} : f.isArithmetic = true → CallFault p c f

/-- No such reason is a drift of the two sides. -/
theorem CallFault.isDrift_eq_false {p : Problem α} {c : EliminationCall} {f : Fault}
    (h : p.CallFault c f) : f.isDrift = false := by
  cases h with
  | noState _ => rfl
  | certainSelfLoop _ _ => rfl
  | smallConstraint _ _ _ => rfl
  | arithmetic h => cases f <;> first | rfl | simp [Fault.isArithmetic] at h

/-- A range check fails with a fault of arithmetic. -/
theorem requireRange_meets_arithmetic (fits : Bool) :
    Meets (fun f => f.isArithmetic = true) (fun _ => True) (requireRange fits) := by
  cases fits with
  | true => trivial
  | false => rfl

/-- The factor of a self-loop is known unless the self-loop is one or arithmetic fails. -/
theorem rescaling_meets_callFault (p : Problem α) (c : EliminationCall) :
    Meets (p.CallFault c) (fun _ => True) (p.rescaling c.state) := by
  rw [rescaling]
  cases hget : (p.row c.state).get? c.state with
  | none => trivial
  | some loop =>
    have hrange (fits : Bool) : Meets (p.CallFault c) (fun _ => True) (requireRange fits) :=
      (requireRange_meets_arithmetic fits).weaken fun _ => .arithmetic
    have hfactor : Meets (p.CallFault c) (fun _ => True) (loopFactor c.state loop) := by
      rw [loopFactor]
      by_cases hone : Weight.isOne loop = true
      · rw [if_pos hone]
        exact .certainSelfLoop hget hone
      · rw [if_neg hone]
        have hinvert : Meets (p.CallFault c) (fun _ => True) (Weight.invertComplement loop) := by
          cases h : Weight.invertComplement loop with
          | ok _ => trivial
          | error f => exact .arithmetic (Weight.divide_fault _ _ f h)
        exact hinvert.bind fun factor _ => (hrange _).bind fun _ _ => trivial
    exact hfactor.bind fun factor _ => (hrange _).bind fun _ _ => trivial

/-- A plan exists unless there is a reason against it. -/
theorem redirection_meets_callFault (p : Problem α) (c : EliminationCall) :
    Meets (p.CallFault c) (p.IsPlan c.state c.dropOutgoing c.constraint)
      (p.redirection c.state c.dropOutgoing c.constraint) := by
  cases h : p.redirection c.state c.dropOutgoing c.constraint with
  | ok r => exact isPlan_of_redirection h
  | error f =>
    -- The checks come one after the other: the state, its self-loop, the constraint.
    have hrescaling := rescaling_meets_callFault p c
    unfold redirection at h
    by_cases hs : p.size ≤ c.state
    · rw [if_pos hs] at h
      cases h
      exact .noState hs
    · rw [if_neg hs] at h
      simp only [bind, Except.bind, pure, Except.pure] at h
      split at h
      · rename_i f' hf'
        cases h
        rw [hf'] at hrescaling
        exact hrescaling
      · split at h
        · rename_i set hset
          split at h
          · rename_i i hfind
            cases h
            have hmem := List.mem_of_find?_eq_some hfind
            have hle := List.find?_some hfind
            exact .smallConstraint hset (List.mem_filter.1 hmem).1 (by simpa using hle)
          · cases h
        · cases h

/-- **An elimination never drifts**: it keeps the two sides in agreement, or it fails for a reason
that has nothing to do with them. -/
theorem TwoSided.eliminate_meets {p : Problem α} (hp : p.TwoSided) (c : EliminationCall) :
    Meets (p.CallFault c) TwoSided (p.eliminate c.state c.dropOutgoing c.constraint) := by
  refine (redirection_meets_callFault p c).bind fun r hr => ?_
  cases hfault : p.redirectFault? r with
  | none =>
    simp only [hp.toConsistent.writtenSorted_redirect hr, if_true]
    exact hp.redirect hr
  | some f =>
    obtain ⟨rfl, -⟩ := hp.toConsistent.redirectFault?_eq hr hfault
    exact .arithmetic rfl

/-- Calls one after the other: the sides agree after all of them, or the first one that fails finds
sides that agree and has a reason of its own. -/
theorem TwoSided.eliminateCalls_meets {p : Problem α} (hp : p.TwoSided)
    (calls : List EliminationCall) :
    Meets (fun f => ∃ done c rest q, calls = done ++ c :: rest ∧
      p.eliminateCalls done = .ok q ∧
      q.TwoSided ∧ q.CallFault c f) TwoSided (p.eliminateCalls calls) := by
  induction calls generalizing p with
  | nil => exact hp
  | cons c calls ih =>
    have hstep := hp.eliminate_meets c
    rw [eliminateCalls, List.foldlM_cons]
    cases h : p.eliminate c.state c.dropOutgoing c.constraint with
    | error f =>
      rw [h] at hstep
      exact ⟨[], c, calls, p, rfl, rfl, hp, hstep⟩
    | ok q =>
      rw [h] at hstep
      refine (ih hstep).weaken ?_
      rintro f ⟨done, d, rest, q', rfl, hdone, hq', hf⟩
      refine ⟨c :: done, d, rest, q', rfl, ?_, hq', hf⟩
      rw [eliminateCalls, List.foldlM_cons, h]
      exact hdone

/-- **The two sides never drift apart.** From the problem of a matrix, after any sequence of
eliminations of any states, with or without a constraint, and keeping or dropping their rows: the
two sides list the same transitions, all rows are sorted and within the states, and all marks are
one. If a call fails, then not because the two sides differ or a row is not sorted, but because of
its state, its self-loop, its constraint, or the arithmetic of weights. -/
theorem twoSided_eliminateCalls {mode : ValueMode} {m : Matrix α} {values : List α}
    {p : Problem α} (hm : m.WellFormed) (h : ofMatrix mode m values = .ok p)
    (calls : List EliminationCall) :
    Meets (fun f => f.isDrift = false ∧ ∃ done c rest q, calls = done ++ c :: rest ∧
      p.eliminateCalls done = .ok q ∧ q.TwoSided ∧ q.CallFault c f) TwoSided
      (p.eliminateCalls calls) := by
  refine ((twoSided_ofMatrix hm h).eliminateCalls_meets calls).weaken ?_
  rintro f ⟨done, c, rest, q, hsplit, hdone, hq, hf⟩
  exact ⟨hf.isDrift_eq_false, done, c, rest, q, hsplit, hdone, hq, hf⟩

/-- Three states, each of which leads to a predecessor of its own. -/
def detour : Matrix ℚ :=
  .ofRows 3 [[⟨0, 1 / 2⟩, ⟨1, 1 / 4⟩], [⟨0, 1 / 3⟩, ⟨2, 2 / 3⟩], [⟨1, -1⟩]]

/-- The middle state is first bypassed for one predecessor only and keeps its row; later it is
eliminated for good. -/
def detourCalls : List EliminationCall :=
  [⟨1, false, some (.singleton 3 0)⟩, ⟨0, true, none⟩, ⟨1, true, none⟩]

/-- All calls of the detour succeed, and the two sides agree after them. -/
theorem twoSided_detour : detour.WellFormed ∧ ∃ p q,
    ofMatrix .rewards detour [1, 0, 2] = .ok p ∧ p.eliminateCalls detourCalls = .ok q ∧
      q.TwoSided := by
  have hm : detour.WellFormed := by decide
  have hok : (ofMatrix .rewards detour [1, 0, 2] >>= fun p => p.eliminateCalls detourCalls).isOk =
      true := by
    cbv
  obtain ⟨p, hp⟩ := exists_eq_ok_of_isOk (x := ofMatrix .rewards detour [1, 0, 2]) (by cbv)
  rw [hp] at hok
  obtain ⟨q, hq⟩ := exists_eq_ok_of_isOk (x := p.eliminateCalls detourCalls) hok
  have hcalls := twoSided_eliminateCalls hm hp detourCalls
  rw [hq] at hcalls
  exact ⟨hm, p, q, hp, hq, hcalls⟩

end Problem

end MarkovElimination
