import MarkovElimination.Proofs.Polynomial.Monomial
import MarkovElimination.Proofs.Polynomial.Univariate

/-! # The ring of polynomials

The view of a polynomial is the element of Mathlib's ring of polynomials in many variables that its
terms add up to. **Every operation computes the ring operation** of its name and keeps polynomials
well formed. Of a well-formed polynomial the terms are the coefficients of its view, the first one
belongs to the greatest exponent vector, and the empty sum alone is zero. -/

namespace MarkovElimination

/-- The exponent vector of a term, in lexicographic order. -/
noncomputable def Term.exponents (t : Term) : Lex (Parameter →₀ ℕ) :=
  toLex t.monomial.toFinsupp

/-- The value of a term. -/
noncomputable def Term.toMv (t : Term) : MvPolynomial Parameter ℚ :=
  MvPolynomial.monomial t.monomial.toFinsupp t.coefficient

namespace Polynomial

instance (p : Polynomial) : Decidable p.WellFormed := inferInstanceAs (Decidable (_ ∧ _))

/-- The sum of a list of terms. -/
noncomputable def termSum (ts : List Term) : MvPolynomial Parameter ℚ := (ts.map Term.toMv).sum

/-- **The polynomial** that the terms add up to. -/
noncomputable def toMv (p : Polynomial) : MvPolynomial Parameter ℚ := termSum p.terms

@[simp] theorem termSum_nil : termSum [] = 0 := rfl

@[simp] theorem termSum_cons (t : Term) (ts : List Term) :
    termSum (t :: ts) = t.toMv + termSum ts := by
  simp [termSum]

/-- Terms of decreasing exponent vectors without zero coefficients. -/
def Decreasing (ts : List Term) : Prop :=
  ts.Pairwise (fun t u => u.exponents < t.exponents) ∧
    ∀ t ∈ ts, t.monomial.WellFormed ∧ t.coefficient ≠ 0

/-- A polynomial is well formed if its terms decrease. -/
theorem wellFormed_iff {p : Polynomial} : p.WellFormed ↔ Decreasing p.terms := by
  refine and_congr_left fun h => List.Pairwise.iff_of_mem fun hs ht => ?_
  exact Monomial.compare_eq_gt_iff (h _ hs).1 (h _ ht).1

theorem decreasing_nil : Decreasing [] := by
  simp [Decreasing]

theorem decreasing_cons {t : Term} {ts : List Term} :
    Decreasing (t :: ts) ↔ (∀ u ∈ ts, u.exponents < t.exponents) ∧
      (t.monomial.WellFormed ∧ t.coefficient ≠ 0) ∧ Decreasing ts := by
  simp only [Decreasing, List.pairwise_cons, List.forall_mem_cons]
  tauto

/-- Terms stay decreasing under a map that respects the order. -/
theorem Decreasing.map {ts : List Term} (h : Decreasing ts) {g : Term → Term}
    (hlt : ∀ t ∈ ts, ∀ u ∈ ts, u.exponents < t.exponents →
      (g u).exponents < (g t).exponents)
    (hg : ∀ t ∈ ts, (g t).monomial.WellFormed ∧ (g t).coefficient ≠ 0) :
    Decreasing (ts.map g) := by
  refine ⟨List.pairwise_map.2 (h.1.imp_of_mem fun {t u} ht hu htu => hlt t ht u hu htu), ?_⟩
  intro t ht
  obtain ⟨u, hu, rfl⟩ := List.mem_map.1 ht
  exact hg u hu

/-! ### Coefficients -/

/-- An exponent vector of no term has coefficient zero. -/
theorem coeff_termSum_of_forall_ne {ts : List Term} {e : Parameter →₀ ℕ}
    (h : ∀ t ∈ ts, t.monomial.toFinsupp ≠ e) : (termSum ts).coeff e = 0 := by
  induction ts with
  | nil => simp
  | cons t ts ih =>
    rw [List.forall_mem_cons] at h
    rw [termSum_cons, MvPolynomial.coeff_add, ih h.2, Term.toMv, MvPolynomial.coeff_monomial,
      if_neg h.1, add_zero]

/-- **The coefficient of a term** is its coefficient in the sum. -/
theorem coeff_termSum_of_mem {ts : List Term} (h : Decreasing ts) {t : Term} (ht : t ∈ ts) :
    (termSum ts).coeff t.monomial.toFinsupp = t.coefficient := by
  induction ts with
  | nil => cases ht
  | cons u us ih =>
    obtain ⟨hlt, -, hus⟩ := decreasing_cons.1 h
    rw [termSum_cons, MvPolynomial.coeff_add, Term.toMv, MvPolynomial.coeff_monomial]
    rcases List.mem_cons.1 ht with rfl | ht
    · rw [if_pos rfl, coeff_termSum_of_forall_ne, add_zero]
      intro u hu heq
      exact (hlt u hu).ne (congrArg toLex heq)
    · rw [if_neg, ih hus ht, zero_add]
      intro heq
      exact (hlt t ht).ne (congrArg toLex heq.symm)

/-- The exponent vectors with a coefficient are those of the terms. -/
theorem coeff_termSum_ne_zero_iff {ts : List Term} (h : Decreasing ts) {e : Parameter →₀ ℕ} :
    (termSum ts).coeff e ≠ 0 ↔ ∃ t ∈ ts, t.monomial.toFinsupp = e := by
  refine ⟨fun hne => ?_, ?_⟩
  · by_contra hnot
    push Not at hnot
    exact hne (coeff_termSum_of_forall_ne hnot)
  · rintro ⟨t, ht, rfl⟩
    rw [coeff_termSum_of_mem h ht]
    exact (h.2 t ht).2

/-- Only the empty sum is zero. -/
theorem isZero_iff {p : Polynomial} (h : p.WellFormed) : p.isZero = true ↔ p.toMv = 0 := by
  obtain ⟨ts⟩ := p
  rw [wellFormed_iff] at h
  rw [isZero, List.isEmpty_iff, toMv]
  refine ⟨?_, fun hzero => ?_⟩
  · rintro rfl
    rfl
  · rw [List.eq_nil_iff_forall_not_mem]
    intro t ht
    apply (h.2 t ht).2
    rw [← coeff_termSum_of_mem h ht, hzero, MvPolynomial.coeff_zero]

/-! ### Constants and single terms -/

theorem wellFormed_zero : (0 : Polynomial).WellFormed := wellFormed_iff.2 decreasing_nil

@[simp] theorem toMv_zero : (0 : Polynomial).toMv = 0 := rfl

theorem wellFormed_ofTerm {t : Term} (h : t.monomial.WellFormed) : (ofTerm t).WellFormed := by
  unfold ofTerm
  split
  case isTrue => exact wellFormed_zero
  case isFalse hne =>
    exact wellFormed_iff.2 (decreasing_cons.2 ⟨by simp, ⟨h, hne⟩, decreasing_nil⟩)

@[simp] theorem toMv_ofTerm (t : Term) : (ofTerm t).toMv = t.toMv := by
  unfold ofTerm
  split
  case isTrue h =>
    rw [Term.toMv, h, MvPolynomial.monomial_zero]
    rfl
  case isFalse => simp [toMv]

theorem wellFormed_const (c : ℚ) : (const c).WellFormed :=
  wellFormed_ofTerm Monomial.wellFormed_one

@[simp] theorem toMv_const (c : ℚ) : (const c).toMv = MvPolynomial.C c := by
  rw [const, toMv_ofTerm]
  rfl

theorem wellFormed_one : (1 : Polynomial).WellFormed := wellFormed_const 1

@[simp] theorem toMv_one : (1 : Polynomial).toMv = 1 := toMv_const 1

/-- A polynomial without parameters is its value. -/
theorem toMv_of_constant? {p : Polynomial} {c : ℚ} (h : p.constant? = some c) :
    p.toMv = MvPolynomial.C c := by
  obtain ⟨ts⟩ := p
  match ts with
  | [] =>
    obtain rfl := Option.some.inj h
    rw [MvPolynomial.C_0]
    rfl
  | [t] =>
    obtain ⟨⟨fs⟩, a⟩ := t
    simp only [constant?, Monomial.isOne, List.isEmpty_iff, Option.ite_none_right_eq_some] at h
    obtain ⟨rfl, hac⟩ := h
    obtain rfl := Option.some.inj hac
    simp only [toMv, termSum_cons, termSum_nil, add_zero]
    rfl
  | _ :: _ :: _ => cases h

/-! ### Sums -/

/-- Merging terms adds their sums. -/
theorem termSum_addTerms (ts us : List Term) :
    termSum (addTerms ts us) = termSum ts + termSum us := by
  fun_induction addTerms ts us with
  | case1 => simp
  | case2 => simp
  | case3 t ts u us _ ih => rw [termSum_cons, ih, termSum_cons t ts, add_assoc]
  | case4 t ts u us _ ih => rw [termSum_cons, ih, termSum_cons u us, add_left_comm]
  | case5 t ts u us heq hzero ih =>
    -- coefficients that cancel leave no term
    have hcancel : t.toMv + u.toMv = 0 := by
      rw [Term.toMv, Term.toMv, Monomial.eq_of_compare_eq heq, ← map_add, hzero, map_zero]
    rw [ih, termSum_cons, termSum_cons, add_add_add_comm, hcancel, zero_add]
  | case6 t ts u us heq _ ih =>
    have hsum : Term.toMv ⟨t.monomial, t.coefficient + u.coefficient⟩ = t.toMv + u.toMv := by
      rw [Term.toMv, Term.toMv, Term.toMv, Monomial.eq_of_compare_eq heq, ← map_add]
    rw [termSum_cons, ih, hsum, termSum_cons, termSum_cons, add_add_add_comm]

/-- A bound above the terms of both lists is one above the merged list. -/
theorem forall_lt_addTerms {ts us : List Term} {e : Lex (Parameter →₀ ℕ)}
    (ht : ∀ t ∈ ts, t.exponents < e) (hu : ∀ u ∈ us, u.exponents < e) :
    ∀ t ∈ addTerms ts us, t.exponents < e := by
  fun_induction addTerms ts us with
  | case1 => exact hu
  | case2 => exact ht
  | case3 t ts u us _ ih =>
    rw [List.forall_mem_cons] at ht ⊢
    exact ⟨ht.1, ih ht.2 hu⟩
  | case4 t ts u us _ ih =>
    rw [List.forall_mem_cons] at hu ⊢
    exact ⟨hu.1, ih ht hu.2⟩
  | case5 t ts u us _ _ ih =>
    rw [List.forall_mem_cons] at ht hu
    exact ih ht.2 hu.2
  | case6 t ts u us _ _ ih =>
    rw [List.forall_mem_cons] at ht hu ⊢
    exact ⟨ht.1, ih ht.2 hu.2⟩

/-- Merging keeps terms decreasing. -/
theorem decreasing_addTerms {ts us : List Term} (ht : Decreasing ts) (hu : Decreasing us) :
    Decreasing (addTerms ts us) := by
  fun_induction addTerms ts us with
  | case1 => exact hu
  | case2 => exact ht
  | case3 t ts u us hgt ih =>
    obtain ⟨ht₁, ht₂, ht₃⟩ := decreasing_cons.1 ht
    obtain ⟨hu₁, hu₂, -⟩ := decreasing_cons.1 hu
    have hlt : u.exponents < t.exponents := (Monomial.compare_eq_gt_iff ht₂.1 hu₂.1).1 hgt
    refine decreasing_cons.2 ⟨forall_lt_addTerms ht₁ ?_, ht₂, ih ht₃ hu⟩
    exact List.forall_mem_cons.2 ⟨hlt, fun w hw => (hu₁ w hw).trans hlt⟩
  | case4 t ts u us hlt ih =>
    obtain ⟨ht₁, ht₂, -⟩ := decreasing_cons.1 ht
    obtain ⟨hu₁, hu₂, hu₃⟩ := decreasing_cons.1 hu
    have hlt : t.exponents < u.exponents := (Monomial.compare_eq_lt_iff ht₂.1 hu₂.1).1 hlt
    refine decreasing_cons.2 ⟨forall_lt_addTerms ?_ hu₁, hu₂, ih ht hu₃⟩
    exact List.forall_mem_cons.2 ⟨hlt, fun w hw => (ht₁ w hw).trans hlt⟩
  | case5 t ts u us _ _ ih => exact ih (decreasing_cons.1 ht).2.2 (decreasing_cons.1 hu).2.2
  | case6 t ts u us heq hne ih =>
    -- a sum of two terms has their common monomial
    obtain ⟨ht₁, ht₂, ht₃⟩ := decreasing_cons.1 ht
    obtain ⟨hu₁, -, hu₃⟩ := decreasing_cons.1 hu
    have hexp : u.exponents = t.exponents := by
      rw [Term.exponents, Term.exponents, Monomial.eq_of_compare_eq heq]
    exact decreasing_cons.2 ⟨forall_lt_addTerms ht₁ (hexp ▸ hu₁), ⟨ht₂.1, hne⟩,
      ih ht₃ hu₃⟩

theorem WellFormed.add {p q : Polynomial} (hp : p.WellFormed) (hq : q.WellFormed) :
    (p + q).WellFormed :=
  wellFormed_iff.2 (decreasing_addTerms (wellFormed_iff.1 hp) (wellFormed_iff.1 hq))

@[simp] theorem toMv_add (p q : Polynomial) : (p + q).toMv = p.toMv + q.toMv :=
  termSum_addTerms _ _

/-- Terms changed one by one, each by the same factor, are multiplied by it. -/
theorem termSum_map {ts : List Term} {g : Term → Term} {c : MvPolynomial Parameter ℚ}
    (h : ∀ t ∈ ts, (g t).toMv = c * t.toMv) : termSum (ts.map g) = c * termSum ts := by
  induction ts with
  | nil => simp
  | cons t ts ih =>
    rw [List.forall_mem_cons] at h
    rw [List.map_cons, termSum_cons, h.1, ih h.2, termSum_cons, mul_add]

theorem WellFormed.neg {p : Polynomial} (hp : p.WellFormed) : (-p).WellFormed := by
  have h := wellFormed_iff.1 hp
  exact wellFormed_iff.2 (h.map (fun _ _ _ _ hlt => hlt) fun t ht =>
    ⟨(h.2 t ht).1, neg_ne_zero.2 (h.2 t ht).2⟩)

@[simp] theorem toMv_neg (p : Polynomial) : (-p).toMv = -p.toMv := by
  rw [← neg_one_mul]
  refine termSum_map fun t _ => ?_
  rw [Term.toMv, Term.toMv, map_neg, neg_one_mul]

theorem WellFormed.sub {p q : Polynomial} (hp : p.WellFormed) (hq : q.WellFormed) :
    (p - q).WellFormed :=
  hp.add hq.neg

@[simp] theorem toMv_sub (p q : Polynomial) : (p - q).toMv = p.toMv - q.toMv := by
  rw [sub_eq_add_neg, ← toMv_neg, ← toMv_add]
  rfl

/-! ### Products -/

theorem WellFormed.mulTerm {t : Term} (hm : t.monomial.WellFormed) (hc : t.coefficient ≠ 0)
    {p : Polynomial} (hp : p.WellFormed) : (mulTerm t p).WellFormed := by
  have h := wellFormed_iff.1 hp
  refine wellFormed_iff.2 (h.map (fun u _ w _ hlt => ?_) fun u hu =>
    ⟨hm.mul (h.2 u hu).1, mul_ne_zero hc (h.2 u hu).2⟩)
  -- adding the same vector on both sides keeps the order
  simp only [Term.exponents, Monomial.toFinsupp_mul, toLex_add]
  exact add_lt_add_right hlt _

@[simp] theorem toMv_mulTerm (t : Term) (p : Polynomial) :
    (mulTerm t p).toMv = t.toMv * p.toMv := by
  refine termSum_map fun u _ => ?_
  rw [Term.toMv, Term.toMv, Term.toMv, MvPolynomial.monomial_mul, Monomial.toFinsupp_mul]

/-- Products of the terms with a polynomial, added up. -/
theorem foldr_mulTerm {ts : List Term} (h : Decreasing ts) {q : Polynomial} (hq : q.WellFormed) :
    let product := ts.foldr (fun t sum => (mulTerm t q).add sum) zero
    product.WellFormed ∧ product.toMv = termSum ts * q.toMv := by
  induction ts with
  | nil => exact ⟨wellFormed_zero, by simp [toMv, zero]⟩
  | cons t ts ih =>
    obtain ⟨-, ht, hts⟩ := decreasing_cons.1 h
    obtain ⟨hwf, hval⟩ := ih hts
    refine ⟨(WellFormed.mulTerm ht.1 ht.2 hq).add hwf, ?_⟩
    rw [List.foldr_cons, termSum_cons, add_mul, ← hval, ← toMv_mulTerm]
    exact toMv_add _ _

theorem WellFormed.mul {p q : Polynomial} (hp : p.WellFormed) (hq : q.WellFormed) :
    (p * q).WellFormed :=
  (foldr_mulTerm (wellFormed_iff.1 hp) hq).1

/-- **The product of polynomials.** -/
theorem toMv_mul {p q : Polynomial} (hp : p.WellFormed) (hq : q.WellFormed) :
    (p * q).toMv = p.toMv * q.toMv :=
  (foldr_mulTerm (wellFormed_iff.1 hp) hq).2

theorem WellFormed.scale {p : Polynomial} (hp : p.WellFormed) (c : ℚ) :
    (p.scale c).WellFormed := by
  have h := wellFormed_iff.1 hp
  unfold Polynomial.scale
  split
  case isTrue => exact wellFormed_zero
  case isFalse hc =>
    exact wellFormed_iff.2 (h.map (fun _ _ _ _ hlt => hlt) fun t ht =>
      ⟨(h.2 t ht).1, mul_ne_zero (h.2 t ht).2 hc⟩)

@[simp] theorem toMv_scale (p : Polynomial) (c : ℚ) :
    (p.scale c).toMv = MvPolynomial.C c * p.toMv := by
  unfold Polynomial.scale
  split
  case isTrue hc =>
    rw [hc, MvPolynomial.C_0, zero_mul]
    rfl
  case isFalse =>
    refine termSum_map fun t _ => ?_
    rw [Term.toMv, Term.toMv, MvPolynomial.C_mul_monomial, mul_comm]

/-- Powers of well-formed polynomials are well formed. -/
theorem WellFormed.pow {p : Polynomial} (hp : p.WellFormed) (n : ℕ) : (p.pow n).WellFormed := by
  induction n with
  | zero => exact wellFormed_one
  | succ n ih => exact ih.mul hp

theorem toMv_pow {p : Polynomial} (hp : p.WellFormed) (n : ℕ) : (p.pow n).toMv = p.toMv ^ n := by
  induction n with
  | zero =>
    rw [pow_zero, ← toMv_one]
    rfl
  | succ n ih =>
    rw [pow_succ, ← ih, ← toMv_mul (hp.pow n) hp]
    rfl

/-! ### The leading term -/

/-- A polynomial that is not zero has a leading term. -/
theorem exists_leading? {p : Polynomial} (hne : p.toMv ≠ 0) :
    ∃ t, p.leading? = some t := by
  obtain ⟨ts⟩ := p
  cases ts with
  | nil => exact absurd rfl hne
  | cons t ts => exact ⟨t, rfl⟩

/-- **The leading term** has the greatest exponent vector. -/
theorem leading?_spec {p : Polynomial} (h : p.WellFormed) {t : Term} (ht : p.leading? = some t) :
    t.monomial.WellFormed ∧ t.coefficient ≠ 0 ∧
      p.toMv.coeff t.monomial.toFinsupp = t.coefficient ∧
      ∀ e, p.toMv.coeff e ≠ 0 → toLex e ≤ t.exponents := by
  rw [wellFormed_iff] at h
  have hmem : t ∈ p.terms := List.mem_of_mem_head? ht
  refine ⟨(h.2 t hmem).1, (h.2 t hmem).2, coeff_termSum_of_mem h hmem, fun e he => ?_⟩
  obtain ⟨u, hu, rfl⟩ := (coeff_termSum_ne_zero_iff h).1 he
  obtain ⟨ts⟩ := p
  obtain ⟨us, rfl⟩ := List.head?_eq_some_iff.1 ht
  rcases List.mem_cons.1 hu with rfl | hu
  · exact le_rfl
  · exact ((decreasing_cons.1 h).1 u hu).le

theorem WellFormed.monic {p : Polynomial} (h : p.WellFormed) : p.monic.WellFormed := by
  unfold Polynomial.monic
  split
  · exact wellFormed_zero
  · exact h.scale _

/-- The monic multiple differs by a unit. -/
theorem associated_monic {p : Polynomial} (h : p.WellFormed) : Associated p.toMv p.monic.toMv := by
  unfold Polynomial.monic
  split
  case h_1 hnone =>
    obtain ⟨ts⟩ := p
    obtain rfl := List.head?_eq_none_iff.1 hnone
    exact Associated.refl _
  case h_2 t ht =>
    obtain ⟨-, hc, -⟩ := leading?_spec h ht
    have hunit : IsUnit (MvPolynomial.C t.coefficient⁻¹ : MvPolynomial Parameter ℚ) :=
      (isUnit_iff_ne_zero.2 (inv_ne_zero hc)).map MvPolynomial.C
    rw [toMv_scale]
    exact (associated_unit_mul_left _ _ hunit).symm

end Polynomial

end MarkovElimination
