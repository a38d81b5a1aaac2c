import MarkovElimination.Proofs.Elimination.Cancellation
import MarkovElimination.Proofs.Elimination.Sides

/-! # Progress reports

When `total` eliminations are expected, a report is due after every `max 1 (total / 10)` of them,
and one after the last. The tracker does not count in multiples: it moves its threshold on from
wherever a report was made, and the report after the last expected elimination shifts the rhythm of
those that follow. What holds all the time is the invariant `Tracker.Paced`. From it the reports
have a closed form, `Report.scheduled`, which depends on the number of eliminations alone, and
`reports_closedForm` says what this means for any sequence of eliminations, however long it is. -/

namespace MarkovElimination

namespace Report

/-- The number of eliminations between two reports. -/
def chunk (total : Nat) : Nat := max 1 (total / 10)

/-- The report after the `d`-th elimination, if there is one and `total` are expected. -/
def scheduled (total d : Nat) : Option Report :=
  if total = 0 then none
  else if d ≤ total then if chunk total ∣ d ∨ d = total then some ⟨d, total⟩ else none
  else if chunk total ∣ d - total then some ⟨total, total⟩ else none

/-- The reports of the first `d` eliminations. -/
def schedule (total d : Nat) : List Report :=
  (List.range d).filterMap fun i => scheduled total (i + 1)

variable {total d : Nat} {r : Report}

theorem chunk_pos (total : Nat) : 0 < chunk total := by
  rw [chunk]
  omega

/-- **What a report says**: how many of the expected eliminations are done. -/
theorem eq_of_scheduled (h : scheduled total d = some r) : r = ⟨min d total, total⟩ := by
  unfold scheduled at h
  split_ifs at h with hzero hle hdue hdue
  · rw [min_eq_left hle]
    exact (Option.some.inj h).symm
  · rw [min_eq_right (not_le.1 hle).le]
    exact (Option.some.inj h).symm

/-- The report after the last expected elimination. -/
theorem scheduled_total (h : 0 < total) : scheduled total total = some ⟨total, total⟩ := by
  rw [scheduled, if_neg h.ne', if_pos le_rfl, if_pos (.inr rfl)]

/-- One more elimination adds its report. -/
theorem schedule_succ (total d : Nat) :
    schedule total (d + 1) = schedule total d ++ (scheduled total (d + 1)).toList := by
  rw [schedule, List.range_succ, List.filterMap_append]
  rfl

theorem mem_schedule : r ∈ schedule total d ↔ ∃ i < d, scheduled total (i + 1) = some r := by
  simp only [schedule, List.mem_filterMap, List.mem_range]

/-- **The reported numbers never decrease.** -/
theorem pairwise_schedule (total d : Nat) :
    (schedule total d).Pairwise fun r r' => r.eliminated ≤ r'.eliminated := by
  rw [schedule, List.pairwise_filterMap]
  refine List.pairwise_lt_range.imp fun {i j} hij r hr r' hr' => ?_
  rw [eq_of_scheduled hr, eq_of_scheduled hr']
  exact min_le_min_right total (by omega)

/-- **The reported numbers never exceed the total.** -/
theorem le_of_mem_schedule (h : r ∈ schedule total d) :
    r.eliminated ≤ total ∧ r.total = total := by
  obtain ⟨i, -, hi⟩ := mem_schedule.1 h
  rw [eq_of_scheduled hi]
  exact ⟨min_le_right _ _, rfl⟩

/-- **The total is reported** as soon as all expected eliminations are done, and not before. -/
theorem total_mem_schedule : ⟨total, total⟩ ∈ schedule total d ↔ 0 < total ∧
    total ≤ d := by
  rw [mem_schedule]
  constructor
  · rintro ⟨i, hi, hr⟩
    have hmin := congrArg Report.eliminated (eq_of_scheduled hr)
    have hpos : total ≠ 0 := by
      rintro rfl
      simp [scheduled] at hr
    simp only at hmin
    omega
  · rintro ⟨hpos, hle⟩
    refine ⟨total - 1, by omega, ?_⟩
    rw [Nat.sub_add_cancel hpos]
    exact scheduled_total hpos

end Report

/-! ### The threshold -/

/-- The next multiple of a number. -/
def nextMultiple (c d : Nat) : Nat := (d / c + 1) * c

section NextMultiple

variable {c : Nat} (d : Nat)

theorem nextMultiple_of_dvd (h : c ∣ d) : nextMultiple c d = d + c := by
  rw [nextMultiple, Nat.succ_mul, Nat.div_mul_cancel h]

/-- Between two multiples the next one stays the same. -/
theorem nextMultiple_succ (h : ¬c ∣ d + 1) : nextMultiple c (d + 1) = nextMultiple c d := by
  rw [nextMultiple, Nat.succ_div_of_not_dvd h, nextMultiple]

/-- The next multiple is one step away exactly in front of a multiple. -/
theorem nextMultiple_le_iff (hc : 0 < c) : nextMultiple c d ≤ d + 1 ↔ c ∣ d + 1 := by
  constructor
  · intro hle
    have hlt : d < nextMultiple c d := Nat.lt_mul_of_div_lt (Nat.lt_succ_self _) hc
    exact ⟨d / c + 1, (le_antisymm hlt hle).trans (Nat.mul_comm _ _)⟩
  · intro h
    rw [nextMultiple, ← Nat.succ_div_of_dvd h, Nat.div_mul_cancel h]

end NextMultiple

/-- The number of eliminations at which the next report is due after `d` of them. Beyond the total,
multiples of the chunk are counted from the total on. -/
def Report.next (total d : Nat) : Nat :=
  if d < total then nextMultiple (chunk total) d else total + nextMultiple (chunk total) (d - total)

namespace Report

variable {total d : Nat}

/-- **A report is due** exactly where it is scheduled. -/
theorem next_le_iff (htotal : 0 < total) :
    next total d ≤ d + 1 ∨ d + 1 = total ↔ ∃ r, scheduled total (d + 1) = some r := by
  have hchunk := chunk_pos total
  rw [scheduled, if_neg htotal.ne', next]
  rcases lt_trichotomy (d + 1) total with hlt | heq | hgt
  · rw [if_pos (by omega), if_pos hlt.le, nextMultiple_le_iff d hchunk]
    split_ifs with hdue <;> simp [hdue]
  · simp [heq]
  · -- Beyond the total the same holds of the number of further eliminations.
    have hshift : d + 1 - total = d - total + 1 := by omega
    have hle := nextMultiple_le_iff (d - total) hchunk
    rw [if_neg (by omega), if_neg (by omega), hshift]
    split_ifs with hdue <;> rw [← hle] at hdue
    · simp only [Option.some.injEq, exists_eq', iff_true]
      omega
    · simp only [exists_false, iff_false]
      omega

/-- Where a report is made, the next one is due a chunk later. -/
theorem next_of_scheduled {r : Report} (h : scheduled total d = some r) :
    next total d = d + chunk total := by
  unfold scheduled at h
  rw [next]
  split_ifs at h with hzero hle hdue hdue
  · rcases hle.lt_or_eq with hlt | rfl
    · rw [if_pos hlt, nextMultiple_of_dvd d (hdue.resolve_right hlt.ne)]
    · rw [if_neg (lt_irrefl d), Nat.sub_self, nextMultiple_of_dvd 0 (dvd_zero _), Nat.zero_add]
  · rw [if_neg (by omega), nextMultiple_of_dvd _ hdue]
    omega

/-- Where no report is made, the next one is due as before. -/
theorem next_succ (htotal : 0 < total) (h : scheduled total (d + 1) = none) :
    next total (d + 1) = next total d := by
  rw [scheduled, if_neg htotal.ne'] at h
  rw [next, next]
  split_ifs at h with hle hdue hdue
  · rw [not_or] at hdue
    rw [if_pos (by omega), if_pos (by omega), nextMultiple_succ d hdue.1]
  · have hshift : d + 1 - total = d - total + 1 := by omega
    rw [hshift] at hdue ⊢
    rw [if_neg (by omega), if_neg (by omega), nextMultiple_succ _ hdue]

end Report

namespace Tracker

/-- **The invariant of a tracker** that expects `total` eliminations, after `d` of them. -/
structure Paced (total d : Nat) (t : Tracker) : Prop where
  total_eq : t.total = total
  chunk_eq : t.chunk = Report.chunk total
  done_eq : t.done = d
  due_eq : 0 < total → t.due = Report.next total d

variable {total d : Nat} {t : Tracker}

/-- A tracker starts paced. -/
theorem paced_start (total : Nat) : (start total).Paced total 0 where
  total_eq := rfl
  chunk_eq := rfl
  done_eq := rfl
  due_eq h := by
    rw [Report.next, if_pos h, nextMultiple_of_dvd 0 (dvd_zero _), Nat.zero_add]
    rfl

/-- **One more elimination** keeps the pace and makes the report that is scheduled. -/
theorem Paced.tick (h : t.Paced total d) :
    t.tick.1.Paced total (d + 1) ∧ t.tick.2 = Report.scheduled total (d + 1) := by
  obtain ⟨rfl, hchunk, rfl, hdue⟩ := h
  rcases Nat.eq_zero_or_pos t.total with hzero | hpos
  · have htick : t.tick = ({ t with done := t.done + 1 }, none) := by
      rw [Tracker.tick, if_pos (by simp [hzero])]
    rw [htick, Report.scheduled, if_pos hzero]
    exact ⟨⟨rfl, hchunk, rfl, fun hpos => absurd hzero hpos.ne'⟩, rfl⟩
  · have hiff := Report.next_le_iff (d := t.done) hpos
    rw [← hdue hpos] at hiff
    cases hsched : Report.scheduled t.total (t.done + 1) with
    | none =>
      have hnot : ¬(t.due ≤ t.done + 1 ∨ t.done + 1 = t.total) := by
        simp [hiff, hsched]
      have hnext := (hdue hpos).trans (Report.next_succ hpos hsched).symm
      have htick : t.tick = ({ t with done := t.done + 1 }, none) := by
        rw [Tracker.tick, if_pos (by simp; omega)]
      rw [htick]
      exact ⟨⟨rfl, hchunk, rfl, fun _ => hnext⟩, rfl⟩
    | some r =>
      have hyes : t.due ≤ t.done + 1 ∨ t.done + 1 = t.total := hiff.2 ⟨r, hsched⟩
      have htick : t.tick = ({ t with done := t.done + 1, due := t.done + 1 + t.chunk },
          some ⟨min (t.done + 1) t.total, t.total⟩) := by
        rw [Tracker.tick, if_neg (by simp; omega)]
      rw [htick, Report.eq_of_scheduled hsched]
      refine ⟨⟨rfl, hchunk, rfl, fun _ => ?_⟩, rfl⟩
      rw [Report.next_of_scheduled hsched, ← hchunk]

end Tracker

/-! ### Runs -/

namespace Monitor

/-- **The invariant of a monitor** that expects `total` eliminations since the time of the reports
`before`, after `d` of them. -/
structure Expects (before : List Report) (total d : Nat) (m : Monitor) : Prop where
  paced : m.tracker.Paced total d
  reports_eq : m.reports = before ++ Report.schedule total d

variable {before : List Report} {total d : Nat} {m : Monitor}

/-- One more elimination. -/
theorem Expects.tick (h : m.Expects before total d) : m.tick.Expects before total (d + 1) where
  paced := h.paced.tick.1
  reports_eq := by
    show m.reports ++ m.tracker.tick.2.toList = _
    rw [h.reports_eq, h.paced.tick.2, List.append_assoc, ← Report.schedule_succ]

end Monitor

namespace Problem

variable {α : Type} [Weight α]

/-- Carries out eliminations under a monitor, one after the other. -/
def eliminateCallsMonitored (p : Problem α) (calls : List EliminationCall) :
    Monitored (Problem α) :=
  calls.foldlM (fun p c => p.eliminateMonitored c.state c.dropOutgoing c.constraint) p

/-- An elimination that is carried out is counted, by the problem and by the monitor. -/
theorem outcome_eliminateMonitored {p q : Problem α} {s : Nat} {drop : Bool}
    {constraint : Option StateSet} {m m' : Monitor}
    (h : outcome (p.eliminateMonitored s drop constraint) m = (.ok q, m')) :
    q.eliminated = p.eliminated + 1 ∧ m' = m.tick := by
  rw [eliminateMonitored, outcome_bind] at h
  cases hrun : p.eliminate s drop constraint with
  | error f =>
    rw [hrun] at h
    cases h
  | ok q' =>
    rw [hrun] at h
    cases h
    obtain ⟨r, -, rfl⟩ := eliminate_eq_ok hrun
    exact ⟨rfl, rfl⟩

/-- **A run of eliminations**, all of which are carried out. -/
theorem expects_eliminateCalls {p q : Problem α} {calls : List EliminationCall}
    {before : List Report} {total d : Nat} {m m' : Monitor} (hm : m.Expects before total d)
    (h : outcome (p.eliminateCallsMonitored calls) m = (.ok q, m')) :
    q.eliminated = p.eliminated + calls.length ∧ m'.Expects before total (d + calls.length) := by
  induction calls generalizing p m d with
  | nil =>
    cases h
    exact ⟨rfl, hm⟩
  | cons c calls ih =>
    rw [eliminateCallsMonitored, List.foldlM_cons, outcome_bind] at h
    cases hfirst : outcome (p.eliminateMonitored c.state c.dropOutgoing c.constraint) m with
    | mk result m₁ =>
      rw [hfirst] at h
      cases result with
      | error e => cases h
      | ok p' =>
        obtain ⟨hcount, rfl⟩ := outcome_eliminateMonitored hfirst
        obtain ⟨hrest, hexpects⟩ := ih hm.tick h
        rw [List.length_cons, hrest, hcount]
        exact ⟨by omega, by rwa [Nat.add_right_comm, Nat.add_assoc] at hexpects⟩

/-- A computation in two parts only returns if its first part does. -/
theorem exists_outcome_of_isOk {ε β γ : Type} {x : ExceptT ε (StateM Monitor) β}
    {f : β → ExceptT ε (StateM Monitor) γ} {m : Monitor}
    (h : (outcome (x >>= f) m).1.isOk = true) :
    ∃ after : β × Monitor, outcome x m = (.ok after.1, after.2) ∧
      (outcome (f after.1) after.2).1.isOk = true := by
  rw [outcome_bind] at h
  generalize outcome x m = result at h ⊢
  obtain ⟨b | b, m'⟩ := result
  · cases h
  · exact ⟨(b, m'), rfl, h⟩

/-- Where eliminations are expected from now on, none is done yet. -/
theorem outcome_expect_bind {β : Type} (total : Nat) (x : Monitored β) (m : Monitor) :
    outcome (do Monitored.expect total; x) m = outcome x { m with tracker := .start total } := by
  rw [outcome_bind]
  rfl

/-- **Progress reports have a closed form.** From the moment when `total` eliminations are expected,
at any time and whatever was reported before, let some eliminations be carried out and then another
one, the `d`-th. If nothing is expected, it makes no report. Up to the total it reports `d` out of
`total` exactly if `d` is a multiple of `max 1 (total / 10)` or the total; beyond the total it
reports the total, and does so at the same multiples counted from the total on. So what is reported
never decreases and never exceeds the total, and the total is reported exactly if all expected
eliminations are done. -/
theorem reports_closedForm {p q q' : Problem α} {done : List EliminationCall}
    {c : EliminationCall} {m m₁ m₂ : Monitor} {total d : Nat} (hd : d = done.length + 1)
    (hdone : outcome (do Monitored.expect total; p.eliminateCallsMonitored done) m = (.ok q, m₁))
    (hcall : outcome (q.eliminateMonitored c.state c.dropOutgoing c.constraint) m₁ =
      (.ok q', m₂)) :
    q'.eliminated = p.eliminated + d ∧
      (total = 0 → m₂.reports = m₁.reports) ∧
      (d ≤ total → m₂.reports = m₁.reports ++
        if max 1 (total / 10) ∣ d ∨ d = total then [⟨d, total⟩] else []) ∧
      (0 < total → total < d → m₂.reports = m₁.reports ++
        if max 1 (total / 10) ∣ d - total then [⟨total, total⟩] else []) ∧
      ∃ new, m₂.reports = m.reports ++ new ∧
        new.Pairwise (fun r r' => r.eliminated ≤ r'.eliminated) ∧
        (∀ r ∈ new, r.eliminated ≤ total ∧ r.total = total) ∧
        (⟨total, total⟩ ∈ new ↔ 0 < total ∧ total ≤ d) := by
  subst hd
  rw [outcome_expect_bind] at hdone
  have hstart : Monitor.Expects m.reports total 0 { m with tracker := .start total } :=
    ⟨Tracker.paced_start total, (List.append_nil _).symm⟩
  obtain ⟨hcount, hexpects⟩ := expects_eliminateCalls hstart hdone
  obtain ⟨hcount', rfl⟩ := outcome_eliminateMonitored hcall
  rw [Nat.zero_add] at hexpects
  have hlast : m₁.tick.reports =
      m₁.reports ++ (Report.scheduled total (done.length + 1)).toList := by
    rw [← hexpects.paced.tick.2]
    rfl
  refine ⟨by omega, fun hzero => ?_, fun hle => ?_, fun hpos hlt => ?_, Report.schedule total _,
    hexpects.tick.reports_eq, Report.pairwise_schedule total _,
    fun r => Report.le_of_mem_schedule, Report.total_mem_schedule⟩
  · rw [hlast, Report.scheduled, if_pos hzero]
    exact List.append_nil _
  · rw [hlast, Report.scheduled, if_neg (by omega), if_pos hle, Report.chunk]
    split_ifs <;> rfl
  · rw [hlast, Report.scheduled, if_neg (by omega), if_neg (by omega), Report.chunk]
    split_ifs <;> rfl

/-- The calls of the detour, and then its last state again and again. -/
def lingeringCalls (n : Nat) : List EliminationCall :=
  detourCalls ++ List.replicate n ⟨2, true, none⟩

/-- Of 21 expected eliminations every second one is reported, and the last one; so the 23rd makes
the next report. -/
theorem reports_closedForm_detour : ∃ p q q' m₁ m₂,
    ofMatrix .probabilities detour [1, 0, 2] = .ok p ∧
      outcome (do Monitored.expect 21; p.eliminateCallsMonitored (lingeringCalls 19)) {} =
        (.ok q, m₁) ∧
      outcome (q.eliminateMonitored 2 true none) m₁ = (.ok q', m₂) ∧
      q'.eliminated = 23 ∧ m₂.reports = m₁.reports ++ [⟨21, 21⟩] := by
  obtain ⟨p, hp⟩ := exists_eq_ok_of_isOk
    (x := ofMatrix .probabilities detour [1, 0, 2]) (by cbv)
  have hok : (ofMatrix .probabilities detour [1, 0, 2]).toOption.map (fun p =>
      (outcome (p.eliminateCallsMonitored (lingeringCalls 19) >>= fun q =>
        q.eliminateMonitored 2 true none) { tracker := .start 21 }).1.isOk) = some true := by
    cbv
  rw [hp] at hok
  obtain ⟨⟨q, m₁⟩, hdone, hcall⟩ := exists_outcome_of_isOk (Option.some.inj hok)
  obtain ⟨q', hq'⟩ := exists_eq_ok_of_isOk hcall
  obtain ⟨m₂, hm₂⟩ :
      ∃ m₂, outcome (q.eliminateMonitored 2 true none) m₁ = (.ok q', m₂) :=
    ⟨_, Prod.ext hq' rfl⟩
  rw [← outcome_expect_bind 21 _ {}] at hdone
  obtain ⟨hcount, -, -, hlater, -⟩ :=
    reports_closedForm (c := ⟨2, true, none⟩) rfl hdone hm₂
  have hstart : p.eliminated = 0 := by
    obtain ⟨-, -, rfl⟩ := ofMatrix_eq_ok hp
    rfl
  exact ⟨p, q, q', m₁, m₂, hp, hdone, hm₂, hcount.trans (by rw [hstart]; rfl),
    hlater (by decide) (by decide)⟩

end Problem

end MarkovElimination
