import Mathlib
import MarkovElimination.Checking.Error

/-! # Outcomes of computations

`Meets E Q` says of an outcome that it is a result with property `Q` or an error that `E` allows;
`Runs E Q` says the same of every run of a monitored computation whose trigger is never set, and
`Runs E Q x k` of every run whose trigger is set after `k` reports. Both come with one rule for each
way computations are put together, so the proof about a computation follows its text. -/

namespace MarkovElimination

/-- The outcome is a result with property `Q`, or an error that `E` allows. -/
def Meets {ε β : Type} (E : ε → Prop) (Q : β → Prop) : Except ε β → Prop
  | .ok b => Q b
  | .error e => E e

/-- An outcome that is told to be a result is one. -/
theorem exists_eq_ok_of_isOk {ε β : Type} {x : Except ε β} (h : x.isOk = true) :
    ∃ b, x = .ok b := by
  cases x with
  | ok b => exact ⟨b, rfl⟩
  | error e => cases h

/-- An outcome that is told to be a result is no error. -/
theorem ne_error_of_isOk {ε β : Type} {x : Except ε β} (h : x.isOk = true) (e : ε) :
    x ≠ .error e := by
  rintro rfl
  cases h

namespace Meets

variable {ε β γ : Type} {E : ε → Prop} {Q : β → Prop} {R : γ → Prop}

/-- A computation followed by another. -/
theorem bind {x : Except ε β} {f : β → Except ε γ} (hx : Meets E Q x)
    (hf : ∀ b, Q b → Meets E R (f b)) : Meets E R (x >>= f) := by
  cases x with
  | ok b => exact hf b hx
  | error e => exact hx

/-- A weaker property. -/
theorem mono {Q' : β → Prop} {x : Except ε β} (hx : Meets E Q x) (h : ∀ b, Q b → Q' b) :
    Meets E Q' x := by
  cases x with
  | ok b => exact h b hx
  | error e => exact hx

/-- More errors that are allowed. -/
theorem weaken {E' : ε → Prop} {x : Except ε β} (hx : Meets E Q x) (h : ∀ e, E e → E' e) :
    Meets E' Q x := by
  cases x with
  | ok b => exact hx
  | error e => exact h e hx

/-- Where no error is allowed, an outcome is a result. -/
theorem exists_ok {x : Except ε β} (hx : Meets E Q x) (hE : ∀ e, ¬E e) :
    ∃ b, x = .ok b ∧ Q b := by
  cases x with
  | ok b => exact ⟨b, rfl, hx⟩
  | error e => exact absurd hx (hE e)

/-- Where only one error is allowed, an outcome that is not this error is a result. -/
theorem exists_ok_of_ne {x : Except ε β} {e₀ : ε} (hx : Meets E Q x)
    (hE : ∀ e, E e → e = e₀) (hne : x ≠ .error e₀) : ∃ b, x = .ok b ∧ Q b := by
  cases x with
  | ok b => exact ⟨b, rfl, hx⟩
  | error e => exact absurd (congrArg Except.error (hE e hx)) hne

/-- A property of all results. -/
theorem of_forall {x : Except ε β} (h : ∀ b, Q b) : Meets (fun _ => True) Q x := by
  cases x with
  | ok b => exact h b
  | error e => trivial

/-- A result under a function. -/
theorem map {x : Except ε β} {f : β → γ} (hx : Meets E Q x) :
    Meets E (fun c => ∃ b, Q b ∧ c = f b) (x.map f) := by
  cases x with
  | ok b => exact ⟨b, hx, rfl⟩
  | error e => exact hx

/-- **A loop over a list**: `J` holds between the steps, of what is left and the current value. -/
theorem foldlM {f : β → γ → Except ε β} {J : List γ → β → Prop}
    (hstep : ∀ c rest b, J (c :: rest) b → Meets E (J rest) (f b c)) {l : List γ} {b : β}
    (h : J l b) : Meets E (J []) (l.foldlM f b) := by
  induction l generalizing b with
  | nil => exact h
  | cons c rest ih =>
    rw [List.foldlM_cons]
    exact (hstep c rest b h).bind fun _ hb => ih hb

end Meets

/-- The outcome of a monitored computation, with the monitor after it. -/
def outcome {ε β : Type} (x : ExceptT ε (StateM Monitor) β) (m : Monitor) :
    Except ε β × Monitor :=
  x.run.run m

/-- A computation followed by another: the second one starts with the monitor that the first one
leaves behind, and an error of the first one ends both. -/
theorem outcome_bind {ε β γ : Type} (x : ExceptT ε (StateM Monitor) β)
    (f : β → ExceptT ε (StateM Monitor) γ) (m : Monitor) :
    outcome (x >>= f) m = match outcome x m with
      | (.ok b, m') => outcome (f b) m'
      | (.error e, m') => (.error e, m') := by
  show (ExceptT.run (x >>= f)).run m = _
  rw [ExceptT.run_bind, StateT.run_bind]
  show (match (x.run.run m).1 with
    | .ok b => (f b).run
    | .error e => Pure.pure (Except.error e)).run (x.run.run m).2 = _
  rw [outcome]
  obtain ⟨result, m'⟩ := x.run.run m
  cases result <;> rfl

/-- **Every run** ends with a result with property `Q`, or an error that `E` allows. The trigger is
never set, unless `k` says after how many reports it is. -/
def Runs {ε β : Type} (E : ε → Prop) (Q : β → Prop) (x : ExceptT ε (StateM Monitor) β)
    (k : Option Nat := none) : Prop :=
  ∀ m : Monitor, m.cancelAt = k → Meets E Q (outcome x m).1 ∧ (outcome x m).2.cancelAt = k

namespace Runs

variable {ε β γ : Type} {E : ε → Prop} {Q : β → Prop} {R : γ → Prop} {k : Option Nat}

/-- A computation that only returns. -/
theorem pure {b : β} (h : Q b) : Runs E Q (Pure.pure b) k := fun _ hm => ⟨h, hm⟩

/-- A computation that only fails. -/
theorem throw {e : ε} (h : E e) : Runs E Q (MonadExcept.throw e) k := fun _ hm => ⟨h, hm⟩

/-- A weaker property. -/
theorem mono {Q' : β → Prop} {x : ExceptT ε (StateM Monitor) β} (hx : Runs E Q x k)
    (h : ∀ b, Q b → Q' b) : Runs E Q' x k :=
  fun m hm => ⟨(hx m hm).1.mono h, (hx m hm).2⟩

/-- More errors that are allowed. -/
theorem weaken {E' : ε → Prop} {x : ExceptT ε (StateM Monitor) β} (hx : Runs E Q x k)
    (h : ∀ e, E e → E' e) : Runs E' Q x k :=
  fun m hm => ⟨(hx m hm).1.weaken h, (hx m hm).2⟩

/-- A computation followed by another. -/
theorem bind {x : ExceptT ε (StateM Monitor) β} {f : β → ExceptT ε (StateM Monitor) γ}
    (hx : Runs E Q x k) (hf : ∀ b, Q b → Runs E R (f b) k) : Runs E R (x >>= f) k := by
  intro m hm
  obtain ⟨hmeets, htrigger⟩ := hx m hm
  rw [outcome_bind]
  generalize outcome x m = after at hmeets htrigger ⊢
  obtain ⟨result, m'⟩ := after
  cases result with
  | ok b => exact hf b hmeets m' htrigger
  | error e => exact ⟨hmeets, htrigger⟩

/-- **A monitored loop over a list**: `J` holds between the steps, of what is left and the current
value. -/
theorem foldlM {f : β → γ → ExceptT ε (StateM Monitor) β} {J : List γ → β → Prop}
    (hstep : ∀ c rest b, J (c :: rest) b → Runs E (J rest) (f b c) k) {l : List γ} {b : β}
    (h : J l b) : Runs E (J []) (l.foldlM f b) k := by
  -- The current value changes with every step, so the induction is over all of them.
  induction l generalizing b with
  | nil => exact .pure h
  | cons c rest ih =>
    rw [List.foldlM_cons]
    exact (hstep c rest b h).bind fun _ hb => ih hb

/-- **A monitored loop over a list**, with an invariant of what is done. -/
theorem foldlM_done {f : β → γ → ExceptT ε (StateM Monitor) β} {J : List γ → β → Prop}
    {l : List γ} (hstep : ∀ done c rest b, l = done ++ c :: rest → J done b →
      Runs E (J (done ++ [c])) (f b c) k) {b : β} (h : J [] b) :
    Runs E (J l) (l.foldlM f b) k := by
  have hloop := foldlM (E := E) (k := k) (f := f)
    (J := fun rest b => ∃ done, l = done ++ rest ∧ J done b)
    (fun c rest b hJ => ?_) ⟨[], rfl, h⟩
  · refine hloop.mono ?_
    rintro b' ⟨done, hsplit, hdone⟩
    rw [List.append_nil] at hsplit
    exact hsplit ▸ hdone
  · obtain ⟨done, hsplit, hdone⟩ := hJ
    refine (hstep done c rest b hsplit hdone).mono fun b' hb' => ⟨done ++ [c], ?_, hb'⟩
    rw [hsplit, List.append_assoc, List.singleton_append]

/-- Where no error is allowed, an uncancelled run ends with a result. -/
theorem exists_ok {x : ExceptT ε (StateM Monitor) β} (hx : Runs E Q x) (hE : ∀ e, ¬E e)
    {m : Monitor} (hm : m.cancelAt = none) : ∃ b, (outcome x m).1 = .ok b ∧ Q b :=
  (hx m hm).1.exists_ok hE

end Runs

/-- An interruption by a fault that `F` allows. -/
def Interruption.IsFault (F : Fault → Prop) : Interruption → Prop
  | .cancelled => False
  | .fault f => F f

/-- The errors of a run whose trigger is set after `k` reports, and which meets only the faults of
`F`. -/
def Interruption.Allowed (k : Option Nat) (F : Fault → Prop) : Interruption → Prop
  | .cancelled => k ≠ none
  | .fault f => F f

/-- An error that is a fault that `F` allows. -/
def CheckError.IsFault (F : Fault → Prop) : CheckError → Prop
  | .fault f => F f
  | _ => False

namespace Monitored

variable {β : Type} {E : Interruption → Prop} {F : Fault → Prop} {Q : β → Prop}
    {k : Option Nat}

/-- A computation can only be cancelled at a checkpoint, and only if its trigger is set at all. -/
theorem runs_checkpoint_of (hE : k ≠ none → E .cancelled) :
    Runs E (fun _ => True) checkpoint k := by
  intro m hm
  have hout : outcome checkpoint m =
      (if m.isCancelled = true then .error .cancelled else .ok (), m) := by
    show outcome (if m.isCancelled = true then throw .cancelled else pure () : Monitored Unit) m = _
    cases m.isCancelled <;> rfl
  rw [hout]
  refine ⟨?_, hm⟩
  by_cases hc : m.isCancelled = true
  · rw [if_pos hc]
    refine hE ?_
    rintro rfl
    simp [Monitor.isCancelled, hm] at hc
  · rw [if_neg hc]
    trivial

/-- An uncancelled computation passes its checkpoints. -/
theorem runs_checkpoint : Runs E (fun _ => True) checkpoint :=
  runs_checkpoint_of fun h => absurd rfl h

/-- Counting an elimination does not set the trigger. -/
theorem runs_tick : Runs E (fun _ => True) tick k := fun _ hm => ⟨trivial, hm⟩

/-- Announcing eliminations does not set the trigger. -/
theorem runs_expect (total : Nat) : Runs E (fun _ => True) (expect total) k :=
  fun _ hm => ⟨trivial, hm⟩

/-- A step that can meet a fault. -/
theorem runs_ofFault_of {x : Except Fault β} (h : Meets (fun f => E (.fault f)) Q x) :
    Runs E Q (ofFault x) k := by
  cases x with
  | ok b => exact .pure h
  | error f => exact .throw h

/-- A step that can meet a fault, in a computation whose other steps meet none. -/
theorem runs_ofFault {x : Except Fault β} (h : Meets F Q x) :
    Runs (Interruption.IsFault F) Q (ofFault x) :=
  runs_ofFault_of h

end Monitored

namespace Checked

variable {β : Type} {F : Fault → Prop} {Q : β → Prop}

/-- A monitored computation as part of a check. -/
theorem runs_ofMonitored {x : Monitored β} (h : Runs (Interruption.IsFault F) Q x) :
    Runs (CheckError.IsFault F) Q (ofMonitored x) := by
  intro m hm
  obtain ⟨hmeets, hnone⟩ := h m hm
  -- Only the error changes its type; the monitor is handed on.
  have hout : outcome (ofMonitored x) m =
      ((outcome x m).1.mapError CheckError.ofInterruption, (outcome x m).2) := rfl
  rw [hout]
  refine ⟨?_, hnone⟩
  cases hx : (outcome x m).1 with
  | ok b =>
    rw [hx] at hmeets
    exact hmeets
  | error i =>
    rw [hx] at hmeets
    cases i with
    | cancelled => exact hmeets
    | fault f => exact hmeets

/-- An uncancelled check passes its checkpoints. -/
theorem runs_checkpoint : Runs (CheckError.IsFault F) (fun _ => True) checkpoint :=
  runs_ofMonitored Monitored.runs_checkpoint

/-- A step of a check that can meet a fault. -/
theorem runs_ofFault {x : Except Fault β} (h : Meets F Q x) :
    Runs (CheckError.IsFault F) Q (ofFault x) :=
  runs_ofMonitored (Monitored.runs_ofFault h)

/-- A step of a check that can fail. -/
theorem runs_ofExcept {E : CheckError → Prop} {x : Except CheckError β} (h : Meets E Q x) :
    Runs E Q (ofExcept x) := by
  cases x with
  | ok b => exact .pure h
  | error e => exact .throw h

end Checked

end MarkovElimination
