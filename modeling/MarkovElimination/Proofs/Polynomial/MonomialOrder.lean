import Mathlib.Order.OrderIsoNat
import MarkovElimination.Proofs.Polynomial.Division
import MarkovElimination.Proofs.Polynomial.Representation

/-! # The order of monomials

Sorted lists of terms, leading terms, exact division and the termination of the greatest common
divisor all rest on the comparison of monomials. It is a **total order with least element one**, a
product with the same monomial keeps it (`compare_checkedMul`), and over finitely many parameters it
has no infinite descent (`exists_compare_ne_lt`). The only failure of a product is an exponent that
leaves its range, and a quotient is exactly the factor that a product with the divisor brings back
(`div?_eq_some_iff`). -/

namespace MarkovElimination.Monomial

/-! ### Products in range -/

/-- A monomial that can be represented: its factors are in order, and its exponents in range. -/
structure Representable (m : Monomial) : Prop where
  wellFormed : m.WellFormed
  inRange : m.InRange

variable {a b c x y : Monomial}

/-- A monomial is in range exactly if all its degrees are. -/
theorem inRange_iff (h : a.WellFormed) : a.InRange ↔ ∀ p, a.toFinsupp p < degreeBound := by
  refine ⟨fun hrange p => ?_, fun hlt f hf =>
    (Polynomial.exponent_le_exponentSum hf).trans_lt (hlt _)⟩
  rw [← degreeIn_eq_toFinsupp h, degreeIn]
  cases hfind : a.factors.find? fun f => f.parameter == p with
  | none => decide
  | some f => exact hrange f (List.mem_of_find?_eq_some hfind)

/-- **A product is returned** exactly if its exponents are in range. -/
theorem checkedMul_eq_ok_iff : a.checkedMul b = .ok x ↔ (a * b).InRange ∧ a * b = x := by
  rw [checkedMul]
  split
  case isTrue h =>
    exact ⟨fun heq => ⟨h, Except.ok.inj heq⟩, fun heq => congrArg Except.ok heq.2⟩
  case isFalse h => exact ⟨fun heq => (nomatch heq), fun heq => absurd heq.1 h⟩

/-- The range of a product is decided by the sums of the degrees. -/
theorem inRange_mul_iff (ha : a.WellFormed) (hb : b.WellFormed) :
    (a * b).InRange ↔ ∀ p, a.degreeIn p + b.degreeIn p < degreeBound := by
  simp only [inRange_iff (ha.mul hb), toFinsupp_mul, Finsupp.add_apply, degreeIn_eq_toFinsupp ha,
    degreeIn_eq_toFinsupp hb]

/-- The factors of a product in range are in range. -/
theorem InRange.of_mul_left (ha : a.WellFormed) (hb : b.WellFormed) (h : (a * b).InRange) :
    a.InRange := by
  rw [inRange_iff (ha.mul hb)] at h
  refine (inRange_iff ha).2 fun p => lt_of_le_of_lt ?_ (h p)
  rw [toFinsupp_mul, Finsupp.add_apply]
  exact Nat.le_add_right _ _

/-- Some product is returned exactly if the degrees add up to exponents in range. -/
theorem exists_checkedMul_iff (ha : a.WellFormed) (hb : b.WellFormed) :
    (∃ x, a.checkedMul b = .ok x) ↔ ∀ p, a.degreeIn p + b.degreeIn p < degreeBound := by
  simp only [checkedMul_eq_ok_iff, exists_and_left, exists_eq', and_true, inRange_mul_iff ha hb]

/-- **The degrees determine a product**: it is the representable monomial to which they add up. -/
theorem checkedMul_eq_ok_iff_degreeIn (ha : a.WellFormed) (hb : b.WellFormed) :
    a.checkedMul b = .ok x ↔
      x.Representable ∧ ∀ p, x.degreeIn p = a.degreeIn p + b.degreeIn p := by
  have hmul := ha.mul hb
  rw [checkedMul_eq_ok_iff]
  constructor
  · rintro ⟨hrange, rfl⟩
    refine ⟨⟨hmul, hrange⟩, fun p => ?_⟩
    rw [degreeIn_eq_toFinsupp hmul, degreeIn_eq_toFinsupp ha, degreeIn_eq_toFinsupp hb,
      toFinsupp_mul, Finsupp.add_apply]
  · rintro ⟨hx, hdegree⟩
    obtain rfl : a * b = x := by
      refine toFinsupp_injective hmul hx.wellFormed (Finsupp.ext fun p => ?_)
      rw [← degreeIn_eq_toFinsupp hx.wellFormed, hdegree, degreeIn_eq_toFinsupp ha,
        degreeIn_eq_toFinsupp hb, toFinsupp_mul, Finsupp.add_apply]
    exact ⟨hx.inRange, rfl⟩

/-- The product of monomials is the product of the polynomials that they form. -/
theorem checkedMul_ofTerm (ha : a.WellFormed) (hb : b.WellFormed) :
    (Polynomial.ofTerm ⟨a, 1⟩).checkedMul (.ofTerm ⟨b, 1⟩) =
      (a.checkedMul b).map fun x => .ofTerm ⟨x, 1⟩ := by
  have hterm (m : Monomial) : Polynomial.ofTerm ⟨m, 1⟩ = ⟨[⟨m, 1⟩]⟩ :=
    if_neg one_ne_zero
  have hdegree (m : Monomial) (p : Parameter) :
      (Polynomial.ofTerm ⟨m, 1⟩).degreeIn p = m.degreeIn p :=
    Nat.zero_max _
  have hfits : (Polynomial.ofTerm ⟨a, 1⟩).mulFits (.ofTerm ⟨b, 1⟩) = true ↔
      (a * b).InRange := by
    rw [Polynomial.mulFits_iff (Polynomial.wellFormed_ofTerm ha) (Polynomial.wellFormed_ofTerm hb),
      inRange_mul_iff ha hb]
    simp only [hdegree]
  have hproduct : Polynomial.ofTerm ⟨a, 1⟩ * .ofTerm ⟨b, 1⟩ = .ofTerm ⟨a * b, 1⟩ := by
    have hone : (⟨[⟨a, 1⟩]⟩ * ⟨[⟨b, 1⟩]⟩ : Polynomial) =
        ⟨[⟨a * b, 1 * 1⟩]⟩ := by
      show Polynomial.mul _ _ = _
      simp only [Polynomial.mul, List.foldr, Polynomial.add, Polynomial.mulTerm, List.map,
        Polynomial.zero, Polynomial.addTerms]
    rw [hterm, hterm, hterm, hone, one_mul]
  rw [Polynomial.checkedMul, checkedMul]
  by_cases h : (a * b).InRange
  · rw [if_pos h, if_pos (hfits.2 h), hproduct]
    rfl
  · rw [if_neg h, if_neg (hfits.not.2 h)]
    rfl

theorem mul_comm_of_wellFormed (ha : a.WellFormed) (hb : b.WellFormed) : a * b = b * a := by
  refine toFinsupp_injective (ha.mul hb) (hb.mul ha) ?_
  rw [toFinsupp_mul, toFinsupp_mul, add_comm]

theorem mul_assoc_of_wellFormed (ha : a.WellFormed) (hb : b.WellFormed) (hc : c.WellFormed) :
    a * b * c = a * (b * c) := by
  refine toFinsupp_injective ((ha.mul hb).mul hc) (ha.mul (hb.mul hc)) ?_
  simp only [toFinsupp_mul, add_assoc]

/-- **Products commute**, also in leaving the range. -/
theorem checkedMul_comm (ha : a.WellFormed) (hb : b.WellFormed) :
    a.checkedMul b = b.checkedMul a := by
  rw [checkedMul, checkedMul, mul_comm_of_wellFormed ha hb]

/-- A product of three monomials is in range whenever the whole product is. -/
theorem checkedMul_bind (ha : a.WellFormed) (hb : b.WellFormed) (hc : c.WellFormed) :
    (a.checkedMul b >>= fun x => x.checkedMul c) =
      if (a * b * c).InRange then .ok (a * b * c) else .error .degreeOverflow := by
  by_cases h : (a * b).InRange
  · rw [checkedMul, if_pos h]
    rfl
  · rw [checkedMul, if_neg h, if_neg fun habc => h (.of_mul_left (ha.mul hb) hc habc)]
    rfl

/-- **Products associate**, also in leaving the range. -/
theorem checkedMul_assoc (ha : a.WellFormed) (hb : b.WellFormed) (hc : c.WellFormed) :
    (a.checkedMul b >>= fun x => x.checkedMul c) = b.checkedMul c >>= fun y => a.checkedMul y := by
  have hright : (b.checkedMul c >>= fun y => a.checkedMul y) =
      b.checkedMul c >>= fun y => y.checkedMul a := by
    by_cases h : (b * c).InRange
    · rw [checkedMul, if_pos h]
      exact checkedMul_comm ha (hb.mul hc)
    · rw [checkedMul, if_neg h]
      rfl
  rw [hright, checkedMul_bind ha hb hc, checkedMul_bind hb hc ha,
    mul_comm_of_wellFormed (hb.mul hc) ha, mul_assoc_of_wellFormed ha hb hc]

/-- **A quotient** is the factor whose product with the divisor is the dividend. -/
theorem div?_eq_some_iff (ha : a.Representable) (hb : b.WellFormed) (hc : c.WellFormed) :
    a.div? b = some c ↔ b.checkedMul c = .ok a := by
  rw [checkedMul_eq_ok_iff]
  constructor
  · intro h
    obtain ⟨-, hsum⟩ := ha.wellFormed.div? h
    obtain rfl : b * c = a :=
      toFinsupp_injective (hb.mul hc) ha.wellFormed ((toFinsupp_mul b c).trans hsum.symm)
    exact ⟨ha.inRange, rfl⟩
  · rintro ⟨-, rfl⟩
    have hle : b.toFinsupp ≤ (b * c).toFinsupp := by
      rw [toFinsupp_mul]
      exact le_self_add
    obtain ⟨k, hk⟩ := exists_div? ha.wellFormed hb hle
    obtain ⟨hkwf, hsum⟩ := ha.wellFormed.div? hk
    -- there is only one factor that brings the product back
    rw [toFinsupp_mul] at hsum
    rw [hk, toFinsupp_injective hkwf hc (add_left_cancel hsum).symm]

/-! ### The order -/

theorem compare_eq_iff (ha : a.WellFormed) (hb : b.WellFormed) : compare a b = .eq ↔ a = b := by
  refine ⟨eq_of_compare_eq, ?_⟩
  rintro rfl
  exact (compare_compares ha hb).eq_eq.2 rfl

theorem compare_swap (ha : a.WellFormed) (hb : b.WellFormed) :
    (compare a b).swap = compare b a :=
  (Ordering.compares_swap.2 (compare_compares ha hb)).inj (compare_compares hb ha)

theorem compare_trans (ha : a.WellFormed) (hb : b.WellFormed) (hc : c.WellFormed)
    (hab : compare a b = .lt) (hbc : compare b c = .lt) : compare a c = .lt := by
  rw [compare_eq_lt_iff ha hb] at hab
  rw [compare_eq_lt_iff hb hc] at hbc
  exact (compare_eq_lt_iff ha hc).2 (hab.trans hbc)

/-- **One is the least monomial.** -/
theorem compare_one (ha : a.WellFormed) (hne : a ≠ one) : compare one a = .lt := by
  obtain ⟨fs⟩ := a
  cases fs with
  | nil => exact absurd rfl hne
  | cons f fs => rfl

/-- Products with the same monomial compare as the factors do. -/
theorem compare_mul (ha : a.WellFormed) (hb : b.WellFormed) (hc : c.WellFormed)
    (h : compare a b = .lt) : compare (a * c) (b * c) = .lt := by
  rw [compare_eq_lt_iff ha hb] at h
  rw [compare_eq_lt_iff (ha.mul hc) (hb.mul hc), toFinsupp_mul, toFinsupp_mul, toLex_add, toLex_add]
  exact add_lt_add_left h _

/-- **There is no infinite descent** over finitely many parameters. -/
theorem exists_compare_ne_lt (S : Finset Parameter) (m : ℕ → Monomial)
    (hm : ∀ n, (m n).WellFormed) (hS : ∀ n, ∀ p ∈ (m n).parameters, p ∈ S) :
    ∃ n, compare (m (n + 1)) (m n) ≠ .lt := by
  by_contra! hdescent
  let ps := S.sort (· ≤ ·)
  have hsorted : ps.Pairwise (· < ·) := S.sortedLT_sort.pairwise
  have hless (n : ℕ) : Exponents.Less ps ((m (n + 1)).exponents ps) ((m n).exponents ps) := by
    refine exponents_less (hm (n + 1)) (hm n) hsorted (fun p hp => ?_)
      ((compare_eq_lt_iff (hm _) (hm _)).1 (hdescent n))
    by_contra hne
    exact hp ((S.mem_sort _).2 (hS n p ((mem_parameters_iff (hm n)).2 hne)))
  exact (wellFounded_iff_isEmpty_descending_chain.1 (Exponents.wellFounded_less ps)).false
    ⟨fun n => (m n).exponents ps, hless⟩

/-- **The order of monomials.** Comparing is a total order that agrees with equality, with least
element one. A product is returned exactly if the degrees add up to exponents in range, and it is
the monomial that has these degrees; products commute and associate, also in leaving the range. As
long as both products are returned, they compare as their first factors do. A quotient of a monomial
in range is the factor whose product with the divisor is returned and gives the monomial back. Over
a finite set of parameters there is no infinite descent. -/
theorem compare_wellOrder :
    (∀ a b c : Monomial, a.WellFormed → b.WellFormed → c.WellFormed →
      (compare a b = .eq ↔ a = b) ∧ (compare a b).swap = compare b a ∧
      (compare a b = .lt → compare b c = .lt → compare a c = .lt) ∧
      (a ≠ one → compare one a = .lt) ∧
      ((∃ x, a.checkedMul b = .ok x) ↔ ∀ p, a.degreeIn p + b.degreeIn p < degreeBound) ∧
      (∀ x, a.checkedMul b = .ok x ↔
        x.Representable ∧ ∀ p, x.degreeIn p = a.degreeIn p + b.degreeIn p) ∧
      (∀ x y, compare a b = .lt → a.checkedMul c = .ok x → b.checkedMul c = .ok y →
        compare x y = .lt) ∧
      a.checkedMul b = b.checkedMul a ∧
      (a.checkedMul b >>= fun x => x.checkedMul c) =
      (b.checkedMul c >>= fun y => a.checkedMul y) ∧
      (a.InRange → (a.div? b = some c ↔ b.checkedMul c = .ok a))) ∧
    ∀ (S : Finset Parameter) (m : ℕ → Monomial), (∀ n, (m n).WellFormed) →
      (∀ n, ∀ p ∈ (m n).parameters, p ∈ S) →
      ∃ n, compare (m (n + 1)) (m n) ≠ .lt := by
  refine ⟨fun a b c ha hb hc => ?_, exists_compare_ne_lt⟩
  refine ⟨compare_eq_iff ha hb, compare_swap ha hb, compare_trans ha hb hc, compare_one ha,
    exists_checkedMul_iff ha hb, fun x => checkedMul_eq_ok_iff_degreeIn ha hb,
    fun x y hlt hx hy => ?_, checkedMul_comm ha hb, checkedMul_assoc ha hb hc,
    fun hrange => div?_eq_some_iff ⟨ha, hrange⟩ hb hc⟩
  obtain ⟨-, rfl⟩ := checkedMul_eq_ok_iff.1 hx
  obtain ⟨-, rfl⟩ := checkedMul_eq_ok_iff.1 hy
  exact compare_mul ha hb hc hlt

/-- The monomials `p * q ^ 2` and `p ^ 2` are ordered by the exponents of `p`, and so are their
products with `q`; the powers of `q` descend to one. -/
theorem compare_wellOrder_leading :
    compare (⟨[⟨"p", 1⟩, ⟨"q", 3⟩]⟩ : Monomial)
    ⟨[⟨"p", 2⟩, ⟨"q", 1⟩]⟩ = .lt ∧
      div? ⟨[⟨"p", 2⟩, ⟨"q", 1⟩]⟩ (ofParameter "q") = some ⟨[⟨"p", 2⟩]⟩ ∧
      ∃ n, compare (ofPower "q" (3 - (n + 1))) (ofPower "q" (3 - n)) ≠ .lt := by
  obtain ⟨hlaws, hdescent⟩ := compare_wellOrder
  have hq := wellFormed_ofParameter "q"
  have hmono := hlaws ⟨[⟨"p", 1⟩, ⟨"q", 2⟩]⟩ ⟨[⟨"p", 2⟩]⟩ (ofParameter "q")
    (by decide) (by decide) hq
  have hdiv := hlaws ⟨[⟨"p", 2⟩, ⟨"q", 1⟩]⟩ (ofParameter "q") ⟨[⟨"p", 2⟩]⟩
    (by decide) hq (by decide)
  refine ⟨?_, ?_, hdescent {"q"} (fun n => ofPower "q" (3 - n))
    (fun n => wellFormed_ofPower _ _) ?_⟩
  · obtain ⟨-, -, -, -, -, -, hlt, -⟩ := hmono
    exact hlt _ _ (by decide) (by cbv) (by cbv)
  · obtain ⟨-, -, -, -, -, -, -, -, -, hquotient⟩ := hdiv
    exact (hquotient (by decide)).2 (by cbv)
  · intro n p hp
    rw [mem_parameters_iff (wellFormed_ofPower _ _), toFinsupp_ofPower, Finsupp.single_apply] at hp
    simp_all

/-- With the greatest exponent that can be represented, one is less than `q`, and the product of one
is returned; the product of `q` leaves the range, and so does that of the polynomials. -/
theorem checkedMul_greatest_overflow :
    one.Representable ∧ (ofParameter "q").Representable ∧
      (ofPower "q" 4294967295).Representable ∧ compare one (ofParameter "q") = .lt ∧
      one.checkedMul (ofPower "q" 4294967295) = .ok (ofPower "q" 4294967295) ∧
      (ofParameter "q").checkedMul (ofPower "q" 4294967295) = .error .degreeOverflow ∧
      (Polynomial.ofTerm ⟨ofParameter "q", 1⟩).checkedMul
      (.ofTerm ⟨ofPower "q" 4294967295, 1⟩) = .error .degreeOverflow := by
  have hoverflow : (ofParameter "q").checkedMul (ofPower "q" 4294967295) =
      .error .degreeOverflow := by
    cbv
  refine ⟨⟨by decide, by decide⟩, ⟨by decide, by decide⟩, ⟨by decide, by decide⟩, rfl,
    by cbv, hoverflow, ?_⟩
  rw [checkedMul_ofTerm (wellFormed_ofParameter "q") (wellFormed_ofPower "q" _), hoverflow]
  rfl

end MarkovElimination.Monomial
