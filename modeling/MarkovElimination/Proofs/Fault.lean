import MarkovElimination.Proofs.Outcome
import MarkovElimination.Weight

/-! # Computations that stay in range

`ReturnsIf fits a x` says that the only thing that can go wrong in the computation `x` is that a
part cannot be represented, and that this happens unless `fits`. There is one rule for each way
computations are put together, so the proof about a computation follows its text. -/

namespace MarkovElimination

/-- **The computation returns** `a` if everything stays in range, and the fault that it does not
otherwise. -/
def ReturnsIf {α : Type} (fits : Bool) (a : α) (x : Except Fault α) : Prop :=
  x = do requireRange fits; pure a

namespace ReturnsIf

variable {α β : Type} {fits fits' : Bool} {a : α} {b : β} {x : Except Fault α}
    {y : Except Fault β}

theorem pure (a : α) : ReturnsIf true a (Pure.pure a) := rfl

theorem eq_ok (hx : ReturnsIf fits a x) (h : fits = true) : x = .ok a := by
  subst h
  exact hx

theorem eq_error (hx : ReturnsIf fits a x) (h : fits = false) : x = .error .degreeOverflow := by
  subst h
  exact hx

/-- What is returned is the result. -/
theorem eq_of_eq_ok (hx : ReturnsIf fits a x) {a' : α} (h : x = .ok a') :
    fits = true ∧ a = a' := by
  cases fits with
  | false => exact nomatch (hx.eq_error rfl).symm.trans h
  | true => exact ⟨rfl, Except.ok.inj ((hx.eq_ok rfl).symm.trans h)⟩

/-- What does not return has left the range. -/
theorem meets (hx : ReturnsIf fits a x) {Q : α → Prop} (h : fits = true → Q a) :
    Meets (· = .degreeOverflow) Q x := by
  cases fits with
  | false => rw [hx.eq_error rfl]; rfl
  | true => rw [hx.eq_ok rfl]; exact h rfl

/-- A computation behind a condition on the range. -/
theorem require (hy : fits = true → ReturnsIf fits' b y) :
    ReturnsIf (fits && fits') b (do requireRange fits; y) := by
  cases fits with
  | false => rfl
  | true => exact hy rfl

/-- A computation behind another one. -/
theorem bind {f : α → Except Fault β} (hx : ReturnsIf fits a x)
    (hf : fits = true → ReturnsIf fits' b (f a)) : ReturnsIf (fits && fits') b (x >>= f) := by
  cases fits with
  | false => rw [hx.eq_error rfl]; rfl
  | true => rw [hx.eq_ok rfl]; exact hf rfl

/-- A computation behind one that stays in range. -/
theorem bind_of_fits {f : α → Except Fault β} (hx : ReturnsIf fits a x) (h : fits = true)
    (hf : ReturnsIf fits' b (f a)) : ReturnsIf fits' b (x >>= f) := by
  rw [hx.eq_ok h]
  exact hf

/-- The result under a function. -/
theorem map (f : α → β) (hx : ReturnsIf fits a x) :
    ReturnsIf fits (f a) (do Pure.pure (f (← x))) := by
  cases fits with
  | false => rw [hx.eq_error rfl]; rfl
  | true => rw [hx.eq_ok rfl]; rfl

/-- A computation for each element of a list. -/
theorem mapM {γ : Type} {f : γ → Except Fault β} {fits : γ → Bool} {g : γ → β}
    {l : List γ} (h : ∀ c ∈ l, ReturnsIf (fits c) (g c) (f c)) :
    ReturnsIf (l.all fits) (l.map g) (l.mapM f) := by
  induction l with
  | nil => exact .pure []
  | cons c l ih =>
    obtain ⟨hc, hl⟩ := List.forall_mem_cons.1 h
    rw [List.mapM_cons, List.all_cons, List.map_cons]
    exact hc.bind fun _ => (ih hl).map (g c :: ·)

/-- **A loop over a list**, each step of which computes something from its element. -/
theorem foldlM {γ : Type} {f : β → γ → Except Fault β} {fits : γ → Bool}
    {g : β → γ → β}
    {l : List γ} (h : ∀ b, ∀ c ∈ l, ReturnsIf (fits c) (g b c) (f b c)) (b : β) :
    ReturnsIf (l.all fits) (l.foldl g b) (l.foldlM f b) := by
  induction l generalizing b with
  | nil => exact .pure b
  | cons c l ih =>
    rw [List.foldlM_cons, List.all_cons, List.foldl_cons]
    exact (h b c List.mem_cons_self).bind fun _ =>
      ih (fun b c hc => h b c (List.mem_cons_of_mem _ hc)) _

end ReturnsIf

namespace Weight

variable {α : Type} [Weight α]

theorem returnsIf_checkedAdd (a b : α) : ReturnsIf (addFits a b) (a + b) (checkedAdd a b) := rfl

theorem returnsIf_checkedMul (a b : α) : ReturnsIf (mulFits a b) (a * b) (checkedMul a b) := rfl

theorem returnsIf_checkedSame (a b : α) :
    ReturnsIf (sameFits a b) (same a b) (checkedSame a b) := rfl

theorem returnsIf_checkedSimplify (a : α) :
    ReturnsIf (simplifyFits a) (simplify a) (checkedSimplify a) := rfl

end Weight

end MarkovElimination
