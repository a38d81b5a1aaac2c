import MarkovElimination.Proofs.Polynomial.Degree

/-! # Exact division

What is found of the quotient times the divisor and the remainder always add up to the dividend, so
**the quotient times the divisor is the dividend** (`mul_of_quotient?`). If the divisor divides the
dividend, then the leading monomial of the divisor divides that of every remainder, and cancelling
the leading term gives a remainder with a smaller leading monomial. So no step of the division fails
(`quotient?_spec`). -/

namespace MarkovElimination

/-! ### Leading exponents of products -/

section Leading

variable {f g : MvPolynomial Parameter ℚ} {a b : Parameter →₀ ℕ}

/-- The coefficient at the sum of two upper bounds of the exponent vectors comes from one product
only. -/
theorem coeff_mul_of_forall_le (hf : ∀ e, f.coeff e ≠ 0 → toLex e ≤ toLex a)
    (hg : ∀ e, g.coeff e ≠ 0 → toLex e ≤ toLex b) :
    (f * g).coeff (a + b) = f.coeff a * g.coeff b := by
  classical
  rw [MvPolynomial.coeff_mul]
  refine Finset.sum_eq_single (a, b) ?_ (by simp)
  rintro ⟨c, d⟩ hcd hne
  rw [Finset.HasAntidiagonal.mem_antidiagonal] at hcd
  by_contra hprod
  have hc : toLex c ≤ toLex a := hf c (left_ne_zero_of_mul hprod)
  have hd : toLex d ≤ toLex b := hg d (right_ne_zero_of_mul hprod)
  -- two bounds with the same sum are both attained
  obtain ⟨hca, hdb⟩ := (add_eq_add_iff_eq_and_eq hc hd).1 (congrArg toLex hcd)
  exact hne (Prod.ext hca hdb)

/-- The sum of two upper bounds is an upper bound for the product. -/
theorem forall_le_of_mul (hf : ∀ e, f.coeff e ≠ 0 → toLex e ≤ toLex a)
    (hg : ∀ e, g.coeff e ≠ 0 → toLex e ≤ toLex b) :
    ∀ e, (f * g).coeff e ≠ 0 → toLex e ≤ toLex (a + b) := by
  classical
  intro e he
  rw [MvPolynomial.coeff_mul] at he
  obtain ⟨⟨c, d⟩, hcd, hne⟩ := Finset.exists_ne_zero_of_sum_ne_zero he
  rw [Finset.HasAntidiagonal.mem_antidiagonal] at hcd
  rw [← hcd]
  exact add_le_add (hf c (left_ne_zero_of_mul hne)) (hg d (right_ne_zero_of_mul hne))

/-- **The greatest exponent vectors of factors add up** to that of the product. -/
theorem add_eq_of_greatest {c : Parameter →₀ ℕ} (ha : f.coeff a ≠ 0)
    (hf : ∀ e, f.coeff e ≠ 0 → toLex e ≤ toLex a) (hb : g.coeff b ≠ 0)
    (hg : ∀ e, g.coeff e ≠ 0 → toLex e ≤ toLex b) (hc : (f * g).coeff c ≠ 0)
    (hfg : ∀ e, (f * g).coeff e ≠ 0 → toLex e ≤ toLex c) : a + b = c := by
  have hab : (f * g).coeff (a + b) ≠ 0 := by
    rw [coeff_mul_of_forall_le hf hg]
    exact mul_ne_zero ha hb
  exact toLex.injective (le_antisymm (hfg _ hab) (forall_le_of_mul hf hg c hc))

/-- A polynomial that is not zero has a greatest exponent vector. -/
theorem exists_greatest (hf : f ≠ 0) :
    ∃ a, f.coeff a ≠ 0 ∧ ∀ e, f.coeff e ≠ 0 → toLex e ≤ toLex a := by
  obtain ⟨a, ha, hmax⟩ := f.support.exists_max_image toLex (MvPolynomial.support_nonempty.2 hf)
  exact ⟨a, MvPolynomial.mem_support_iff.1 ha,
    fun e he => hmax e (MvPolynomial.mem_support_iff.2 he)⟩

end Leading

/-! ### Descent -/

/-- A smaller monomial has smaller exponents at a sorted list of parameters that contains all those
of the greater one. -/
theorem Monomial.exponents_less {m n : Monomial} (hm : m.WellFormed) (hn : n.WellFormed)
    {ps : List Parameter} (hps : ps.Pairwise (· < ·))
    (hin : ∀ x, x ∉ ps → n.toFinsupp x = 0) (h : toLex m.toFinsupp < toLex n.toFinsupp) :
    Exponents.Less ps (m.exponents ps) (n.exponents ps) := by
  obtain ⟨x, hbefore, hx⟩ := Finsupp.Lex.lt_iff.1 h
  -- the first parameter with different exponents is a listed one
  have hmem : x ∈ ps := by
    by_contra hnot
    have hzero := hin x hnot
    change m.toFinsupp x < n.toFinsupp x at hx
    omega
  clear hin h
  induction ps with
  | nil => cases hmem
  | cons p ps ih =>
    rw [List.pairwise_cons] at hps
    change m.degreeIn p < n.degreeIn p ∨ m.degreeIn p = n.degreeIn p ∧ Exponents.Less ps _ _
    rw [degreeIn_eq_toFinsupp hm, degreeIn_eq_toFinsupp hn]
    rcases List.mem_cons.1 hmem with rfl | hmem
    · exact Or.inl hx
    · exact Or.inr ⟨hbefore p (hps.1 x hmem), ih hps.2 hmem⟩

namespace Polynomial

/-- A polynomial with only smaller exponent vectors has a smaller rank. -/
theorem rank_less {p q : Polynomial} (hp : p.WellFormed) (hq : q.WellFormed) {ps : List Parameter}
    (hps : ps.Pairwise (· < ·)) (hin : Within ps q.toMv) {t : Term} (ht : q.leading? = some t)
    (h : ∀ e, p.toMv.coeff e ≠ 0 → toLex e < t.exponents) :
    Exponents.Less ("" :: ps) (p.rank ps) (q.rank ps) := by
  have hqrank : q.rank ps = (1, t.monomial.exponents ps) := by
    rw [rank, ht]
  rw [hqrank]
  unfold rank
  split
  case h_1 => exact Or.inl Nat.zero_lt_one
  case h_2 u hu =>
    obtain ⟨hum, huc, hcoeff, -⟩ := leading?_spec hp hu
    obtain ⟨htm, -⟩ := leading?_spec hq ht
    refine Or.inr ⟨rfl, Monomial.exponents_less hum htm hps (fun x hx => ?_) (h _ ?_)⟩
    · exact (free_iff_forall_terms hq).1 (hin x hx) t (List.mem_of_mem_head? ht)
    · rwa [hcoeff]

/-- The leading monomial of a divisor divides that of the dividend. -/
theorem leading?_le_of_dvd {p d : Polynomial} (hp : p.WellFormed) (hd : d.WellFormed) {t l : Term}
    (ht : p.leading? = some t) (hl : d.leading? = some l) (hdvd : d.toMv ∣ p.toMv) :
    l.monomial.toFinsupp ≤ t.monomial.toFinsupp := by
  obtain ⟨-, htc, htcoeff, htmax⟩ := leading?_spec hp ht
  obtain ⟨-, hlc, hlcoeff, hlmax⟩ := leading?_spec hd hl
  rw [← htcoeff] at htc
  rw [← hlcoeff] at hlc
  obtain ⟨k, hk⟩ := hdvd
  rw [hk] at htc htmax
  have hk₀ : k ≠ 0 := by
    rintro rfl
    rw [mul_zero, MvPolynomial.coeff_zero] at htc
    exact htc rfl
  obtain ⟨b, hb, hbmax⟩ := exists_greatest hk₀
  rw [← add_eq_of_greatest hlc hlmax hb hbmax htc htmax]
  exact le_self_add

/-- The remainder after a step of a division is well formed. -/
theorem wellFormed_cancel {p d : Polynomial} (hp : p.WellFormed) (hd : d.WellFormed) {t l : Term}
    (ht : p.leading? = some t) (hl : d.leading? = some l) {m : Monomial}
    (hm : t.monomial.div? l.monomial = some m) :
    m.WellFormed ∧ t.monomial.toFinsupp = l.monomial.toFinsupp + m.toFinsupp ∧
      (p - mulTerm ⟨m, t.coefficient / l.coefficient⟩ d).WellFormed := by
  obtain ⟨htm, htc, -⟩ := leading?_spec hp ht
  obtain ⟨-, hlc, -⟩ := leading?_spec hd hl
  obtain ⟨hmwf, hmsum⟩ := htm.div? hm
  exact ⟨hmwf, hmsum, hp.sub (WellFormed.mulTerm hmwf (div_ne_zero htc hlc) hd)⟩

/-- **Cancelling the leading term** leaves only smaller exponent vectors. -/
theorem forall_lt_of_cancel {p d : Polynomial} (hp : p.WellFormed) (hd : d.WellFormed) {t l : Term}
    (ht : p.leading? = some t) (hl : d.leading? = some l) {m : Monomial}
    (hm : t.monomial.toFinsupp = l.monomial.toFinsupp + m.toFinsupp) :
    ∀ e, (p - mulTerm ⟨m, t.coefficient / l.coefficient⟩ d).toMv.coeff e ≠ 0 →
      toLex e < t.exponents := by
  obtain ⟨-, -, htcoeff, htmax⟩ := leading?_spec hp ht
  obtain ⟨-, hlc, hlcoeff, hlmax⟩ := leading?_spec hd hl
  set factor : Term := ⟨m, t.coefficient / l.coefficient⟩
  have hfactor : ∀ e, factor.toMv.coeff e ≠ 0 → toLex e ≤ toLex m.toFinsupp := by
    intro e he
    rw [Term.toMv, MvPolynomial.coeff_monomial] at he
    split at he
    case isTrue heq => exact (congrArg toLex heq).ge
    case isFalse => exact absurd rfl he
  have hprod := forall_le_of_mul hfactor hlmax
  have htop := coeff_mul_of_forall_le hfactor hlmax
  rw [add_comm, ← hm] at hprod htop
  intro e he
  rw [toMv_sub, toMv_mulTerm, MvPolynomial.coeff_sub] at he
  refine lt_of_le_of_ne ?_ ?_
  · -- every exponent vector comes from one of the two sides
    by_cases hpe : p.toMv.coeff e = 0
    · rw [hpe, zero_sub, neg_ne_zero] at he
      exact hprod e he
    · exact htmax e hpe
  · -- the coefficients of the leading terms cancel
    intro heq
    obtain rfl : e = t.monomial.toFinsupp := toLex.injective heq
    apply he
    rw [htop, htcoeff, hlcoeff, Term.toMv, MvPolynomial.coeff_monomial, if_pos rfl,
      div_mul_cancel₀ _ hlc, sub_self]

/-- What one step of a division adds to the quotient has only the listed parameters. -/
theorem within_factor {ps : List Parameter} {p : Polynomial} (hp : p.WellFormed)
    (hin : Within ps p.toMv) {t : Term} (ht : p.leading? = some t) {l m : Monomial}
    (hm : t.monomial.toFinsupp = l.toFinsupp + m.toFinsupp) (c : ℚ) :
    Within ps (Term.toMv ⟨m, c⟩) := by
  intro x hx
  have hzero := (free_iff_forall_terms hp).1 (hin x hx) t (List.mem_of_mem_head? ht)
  rw [hm, Finsupp.add_apply] at hzero
  exact free_monomial (Nat.eq_zero_of_add_eq_zero_left hzero) c

/-- What a step of a division leaves has only the listed parameters. -/
theorem within_cancel {ps : List Parameter} {p d : Polynomial} (hp : p.WellFormed)
    (hin : Within ps p.toMv) (hdin : Within ps d.toMv) {t : Term} (ht : p.leading? = some t)
    {l m : Monomial} (hm : t.monomial.toFinsupp = l.toFinsupp + m.toFinsupp) (c : ℚ) :
    Within ps (p - mulTerm ⟨m, c⟩ d).toMv := by
  rw [toMv_sub, toMv_mulTerm]
  exact fun x hx => (hin x hx).sub ((within_factor hp hin ht hm c x hx).mul (hdin x hx))

/-- **Every step of a division descends**, whether or not the divisor divides. -/
theorem rank_cancel_less {ps : List Parameter} (hps : ps.Pairwise (· < ·)) {p d : Polynomial}
    (hp : p.WellFormed) (hd : d.WellFormed) (hin : Within ps p.toMv) {t l : Term}
    (ht : p.leading? = some t) (hl : d.leading? = some l) {m : Monomial}
    (hm : t.monomial.div? l.monomial = some m) :
    Exponents.Less ("" :: ps)
      ((p - mulTerm ⟨m, t.coefficient / l.coefficient⟩ d).rank ps) (p.rank ps) := by
  obtain ⟨-, hsum, hwf⟩ := wellFormed_cancel hp hd ht hl hm
  exact rank_less hwf hp hps hin ht (forall_lt_of_cancel hp hd ht hl hsum)

/-- **A quotient that is returned**: what is found of it and the remainder always make up the
dividend, and at the end there is no remainder. -/
theorem mul_of_divideRemainder {ps : List Parameter} {divisor quotient remainder q : Polynomial}
    {lead : Term} (hd : divisor.WellFormed) (hlead : divisor.leading? = some lead)
    (hq : quotient.WellFormed) (hr : remainder.WellFormed)
    (hrun : divideRemainder ps divisor lead quotient remainder = some q) :
    q.WellFormed ∧ q.toMv * divisor.toMv = quotient.toMv * divisor.toMv + remainder.toMv := by
  fun_induction divideRemainder ps divisor lead quotient remainder with
  | case1 quotient remainder hnone =>
    have hzero : remainder.toMv = 0 := by
      by_contra hne
      obtain ⟨t, ht⟩ := exists_leading? hne
      rw [hnone] at ht
      cases ht
    obtain rfl := Option.some.inj hrun
    exact ⟨hq, by rw [hzero, add_zero]⟩
  | case2 => cases hrun
  | case3 quotient remainder t ht m hm factor next _ ih =>
    obtain ⟨hmwf, -, hnext⟩ := wellFormed_cancel hr hd ht hlead hm
    obtain ⟨hqwf, hqval⟩ := ih (hq.add (wellFormed_ofTerm hmwf)) hnext hrun
    refine ⟨hqwf, ?_⟩
    rw [hqval, toMv_sub, toMv_mulTerm, toMv_add, toMv_ofTerm]
    ring
  | case4 => cases hrun

/-- **Division of a multiple** runs to its end. -/
theorem isSome_divideRemainder {ps : List Parameter} (hps : ps.Pairwise (· < ·))
    {divisor quotient remainder : Polynomial} {lead : Term} (hd : divisor.WellFormed)
    (hlead : divisor.leading? = some lead) (hr : remainder.WellFormed)
    (hdin : Within ps divisor.toMv) (hrin : Within ps remainder.toMv)
    (hdvd : divisor.toMv ∣ remainder.toMv) :
    (divideRemainder ps divisor lead quotient remainder).isSome = true := by
  obtain ⟨hleadm, -⟩ := leading?_spec hd hlead
  fun_induction divideRemainder ps divisor lead quotient remainder with
  | case1 => rfl
  | case2 quotient remainder t ht hnone =>
    -- the leading monomial of the divisor divides that of the remainder
    have hle := leading?_le_of_dvd hr hd ht hlead hdvd
    obtain ⟨m, hm⟩ := Monomial.exists_div? (leading?_spec hr ht).1 hleadm hle
    rw [hnone] at hm
    cases hm
  | case3 quotient remainder t ht m hm factor next _ ih =>
    obtain ⟨-, hmsum, hnext⟩ := wellFormed_cancel hr hd ht hlead hm
    refine ih hnext (within_cancel hr hrin hdin ht hmsum factor.coefficient) ?_
    rw [toMv_sub, toMv_mulTerm]
    exact dvd_sub hdvd (dvd_mul_left _ _)
  | case4 quotient remainder t ht m hm factor next hnot =>
    exact absurd (rank_cancel_less hps hr hd hrin ht hlead hm) hnot

/-- A constant divisor other than zero is taken out by scaling. -/
theorem toMv_scale_inv_mul {p d : Polynomial} {c : ℚ} (hc : d.constant? = some c)
    (hd₀ : d.toMv ≠ 0) : (p.scale c⁻¹).toMv * d.toMv = p.toMv := by
  have hdc := toMv_of_constant? hc
  have hc₀ : c ≠ 0 := by
    rintro rfl
    exact hd₀ (hdc.trans MvPolynomial.C_0)
  rw [toMv_scale, hdc, mul_right_comm, ← MvPolynomial.C_mul, inv_mul_cancel₀ hc₀,
    MvPolynomial.C_1, one_mul]

/-- What is returned is a quotient. -/
theorem mul_of_quotient? {p d q : Polynomial} (hp : p.WellFormed) (hd : d.WellFormed)
    (hd₀ : d.toMv ≠ 0) (hrun : p.quotient? d = some q) :
    q.WellFormed ∧ q.toMv * d.toMv = p.toMv := by
  rw [quotient?] at hrun
  split at hrun
  case h_1 c hc =>
    obtain rfl := Option.some.inj hrun
    exact ⟨hp.scale _, toMv_scale_inv_mul hc hd₀⟩
  case h_2 =>
    obtain ⟨lead, hlead⟩ := exists_leading? hd₀
    rw [hlead] at hrun
    obtain ⟨hq, hval⟩ := mul_of_divideRemainder hd hlead wellFormed_zero hp hrun
    rw [toMv_zero, zero_mul, zero_add] at hval
    exact ⟨hq, hval⟩

/-- **Exact division**: a polynomial is divided by each of its divisors. -/
theorem quotient?_spec {p d : Polynomial} (hp : p.WellFormed) (hd : d.WellFormed)
    (hd₀ : d.toMv ≠ 0) (hdvd : d.toMv ∣ p.toMv) :
    ∃ q, p.quotient? d = some q ∧ q.WellFormed ∧ q.toMv * d.toMv = p.toMv := by
  have hsome : (p.quotient? d).isSome = true := by
    rw [quotient?]
    split
    case h_1 => rfl
    case h_2 =>
      obtain ⟨lead, hlead⟩ := exists_leading? hd₀
      rw [hlead]
      obtain ⟨hpin, hdin⟩ := within_jointParameters hp hd
      exact isSome_divideRemainder (pairwise_jointParameters p d) hd hlead hp hdin hpin hdvd
  obtain ⟨q, hq⟩ := Option.isSome_iff_exists.1 hsome
  exact ⟨q, hq, mul_of_quotient? hp hd hd₀ hq⟩

end Polynomial

end MarkovElimination
