import MarkovElimination.Proofs.Polynomial.Ring

/-! # Degrees and coefficients in one parameter

The degree in a parameter and the coefficients of its powers are those of the **univariate view**.
The parameters of a polynomial are the ones it is not free of, and they are listed in increasing
order. -/

namespace MarkovElimination.Polynomial

/-! ### Sorted keys -/

section InsertKey

variable {κ : Type} [LinearOrder κ]

@[simp] theorem mem_insertKey {k a : κ} {l : List κ} :
    a ∈ insertKey k l ↔ a = k ∨ a ∈ l := by
  fun_induction insertKey k l with
  | case1 => simp
  | case2 => simp
  | case3 first rest heq =>
    rw [compare_eq_iff_eq] at heq
    simp [heq]
  | case4 first rest _ ih =>
    rw [List.mem_cons, ih, List.mem_cons, or_left_comm]

/-- Putting a key in its place keeps keys increasing. -/
theorem pairwise_insertKey {k : κ} {l : List κ} (h : l.Pairwise (· < ·)) :
    (insertKey k l).Pairwise (· < ·) := by
  fun_induction insertKey k l with
  | case1 => simp
  | case2 first rest hlt =>
    rw [compare_lt_iff_lt] at hlt
    refine List.pairwise_cons.2 ⟨?_, h⟩
    exact List.forall_mem_cons.2 ⟨hlt, fun a ha => hlt.trans ((List.pairwise_cons.1 h).1 a ha)⟩
  | case3 => exact h
  | case4 first rest hgt ih =>
    rw [compare_gt_iff_gt] at hgt
    rw [List.pairwise_cons] at h ⊢
    refine ⟨fun a ha => ?_, ih h.2⟩
    rcases mem_insertKey.1 ha with rfl | ha
    · exact hgt
    · exact h.1 a ha

theorem mem_foldr_insertKey {a : κ} {ks l : List κ} :
    a ∈ ks.foldr insertKey l ↔ a ∈ ks ∨ a ∈ l := by
  induction ks with
  | nil => simp
  | cons k ks ih => rw [List.foldr_cons, mem_insertKey, ih, List.mem_cons, or_assoc]

theorem pairwise_foldr_insertKey {ks l : List κ} (h : l.Pairwise (· < ·)) :
    (ks.foldr insertKey l).Pairwise (· < ·) := by
  induction ks with
  | nil => exact h
  | cons k ks ih => exact pairwise_insertKey ih

end InsertKey

/-! ### Coefficients and degrees -/

/-- The coefficients of a sum of terms in its univariate view. -/
theorem coeff_univariate_termSum {ts : List Term} (h : ∀ t ∈ ts, t.monomial.WellFormed)
    (x : Parameter) (i : ℕ) :
    (univariate x (termSum ts)).coeff i =
      termSum ((ts.filter fun t => t.monomial.degreeIn x == i).map fun t =>
        ⟨t.monomial.erase x, t.coefficient⟩) := by
  induction ts with
  | nil => simp
  | cons t ts ih =>
    rw [List.forall_mem_cons] at h
    rw [termSum_cons, map_add, Polynomial.coeff_add, ih h.2, Term.toMv, univariate_monomial,
      Polynomial.coeff_monomial, ← Monomial.degreeIn_eq_toFinsupp h.1]
    by_cases hi : t.monomial.degreeIn x = i
    · rw [if_pos hi, List.filter_cons_of_pos (by simpa using hi), List.map_cons, termSum_cons,
        Term.toMv, Monomial.toFinsupp_erase]
    · rw [if_neg hi, List.filter_cons_of_neg (by simpa using hi), zero_add]

/-- **The coefficient of a power** is that of the univariate view. -/
theorem toMv_coefficientIn {p : Polynomial} (h : p.WellFormed) (x : Parameter) (i : ℕ) :
    (p.coefficientIn x i).toMv = (univariate x p.toMv).coeff i :=
  (coeff_univariate_termSum (fun t ht => (h.2 t ht).1) x i).symm

theorem WellFormed.coefficientIn {p : Polynomial} (h : p.WellFormed) (x : Parameter) (i : ℕ) :
    (p.coefficientIn x i).WellFormed := by
  have hdec := wellFormed_iff.1 h
  have hfilter : Decreasing (p.terms.filter fun t => t.monomial.degreeIn x == i) :=
    ⟨hdec.1.filter _, fun t ht => hdec.2 t (List.mem_of_mem_filter ht)⟩
  refine wellFormed_iff.2 (hfilter.map (fun t ht u hu hlt => ?_) fun t ht =>
    ⟨(hfilter.2 t ht).1.erase x, (hfilter.2 t ht).2⟩)
  -- both terms have the same power of the parameter, which can be added again
  have hdeg : ∀ w ∈ p.terms.filter (fun t => t.monomial.degreeIn x == i),
      w.monomial.toFinsupp = Finsupp.single x i + w.monomial.toFinsupp.erase x := by
    intro w hw
    have hwi : w.monomial.degreeIn x = i := by simpa using (List.mem_filter.1 hw).2
    rw [← hwi, Monomial.degreeIn_eq_toFinsupp (hfilter.2 w hw).1, Finsupp.single_add_erase]
  rw [Term.exponents, Term.exponents, hdeg t ht, hdeg u hu, toLex_add, toLex_add,
    add_lt_add_iff_left] at hlt
  rwa [Term.exponents, Term.exponents, Monomial.toFinsupp_erase, Monomial.toFinsupp_erase]

theorem foldl_max_le_iff {l : List ℕ} {a n : ℕ} :
    l.foldl max a ≤ n ↔ a ≤ n ∧ ∀ b ∈ l, b ≤ n := by
  induction l generalizing a with
  | nil => simp
  | cons b l ih => rw [List.foldl_cons, ih, max_le_iff, List.forall_mem_cons, and_assoc]

theorem degreeIn_le_iff {p : Polynomial} {x : Parameter} {n : ℕ} :
    p.degreeIn x ≤ n ↔ ∀ t ∈ p.terms, t.monomial.degreeIn x ≤ n := by
  rw [degreeIn, foldl_max_le_iff]
  simp

/-- A coefficient is zero exactly if no term has that power. -/
theorem coeff_univariate_eq_zero_iff {p : Polynomial} (h : p.WellFormed) {x : Parameter} {i : ℕ} :
    (univariate x p.toMv).coeff i = 0 ↔ ∀ t ∈ p.terms, t.monomial.degreeIn x ≠ i := by
  rw [← toMv_coefficientIn h, ← isZero_iff (h.coefficientIn x i)]
  simp [isZero, coefficientIn]

/-- **The degree in a parameter** is that of the univariate view. -/
theorem degreeIn_eq_natDegree {p : Polynomial} (h : p.WellFormed) (x : Parameter) :
    p.degreeIn x = (univariate x p.toMv).natDegree := by
  refine eq_of_forall_ge_iff fun n => ?_
  rw [degreeIn_le_iff, Polynomial.natDegree_le_iff_coeff_eq_zero]
  refine ⟨fun hle i hi => ?_, fun hzero t ht => ?_⟩
  · refine (coeff_univariate_eq_zero_iff h).2 fun t ht heq => ?_
    have := hle t ht
    omega
  · by_contra hlt
    exact (coeff_univariate_eq_zero_iff h).1 (hzero _ (not_le.1 hlt)) t ht rfl

/-- A parameter does not occur exactly if it does not occur in any term. -/
theorem free_iff_forall_terms {p : Polynomial} (h : p.WellFormed) {x : Parameter} :
    Free x p.toMv ↔ ∀ t ∈ p.terms, t.monomial.toFinsupp x = 0 := by
  rw [Free, ← degreeIn_eq_natDegree h, ← Nat.le_zero, degreeIn_le_iff]
  refine forall₂_congr fun t ht => ?_
  rw [Monomial.degreeIn_eq_toFinsupp (h.2 t ht).1, Nat.le_zero]

/-- A coefficient is free of all parameters that the polynomial is free of. -/
theorem free_coefficientIn {p : Polynomial} (h : p.WellFormed) {x y : Parameter} (i : ℕ)
    (hy : Free y p.toMv) : Free y (p.coefficientIn x i).toMv := by
  rw [free_iff_forall_terms (h.coefficientIn x i)]
  intro t ht
  obtain ⟨u, hu, rfl⟩ := List.mem_map.1 ht
  have huy := (free_iff_forall_terms h).1 hy u (List.mem_of_mem_filter hu)
  rw [Monomial.toFinsupp_erase, Finsupp.erase_apply, huy, ite_self]

/-! ### The coefficients that occur -/

theorem mem_foldl_insertKey {ts : List Term} {x : Parameter} {is : List ℕ} {i : ℕ} :
    i ∈ ts.foldl (fun exponents t => insertKey (t.monomial.degreeIn x) exponents) is ↔
      i ∈ is ∨ ∃ t ∈ ts, t.monomial.degreeIn x = i := by
  induction ts generalizing is with
  | nil => simp
  | cons t ts ih =>
    rw [List.foldl_cons, ih, mem_insertKey, List.exists_mem_cons_iff, eq_comm, or_assoc,
      or_left_comm]

/-- The powers that occur are those of the terms. -/
theorem mem_exponentsIn {p : Polynomial} {x : Parameter} {i : ℕ} :
    i ∈ p.exponentsIn x ↔ ∃ t ∈ p.terms, t.monomial.degreeIn x = i := by
  rw [exponentsIn, mem_foldl_insertKey]
  simp

/-- The powers that occur are listed in increasing order. -/
theorem pairwise_exponentsIn (p : Polynomial) (x : Parameter) :
    (p.exponentsIn x).Pairwise (· < ·) :=
  List.foldlRecOn p.terms _ List.Pairwise.nil fun _ h _ _ => pairwise_insertKey h

/-- **The coefficients that occur** are those up to the degree, without zeros. -/
theorem coefficientsIn_eq_filter (p : Polynomial) (x : Parameter) :
    p.coefficientsIn x = ((List.range (p.degreeIn x + 1)).map fun i => p.coefficientIn x i).filter
      fun c => !c.isZero := by
  have hrange : (List.range (p.degreeIn x + 1)).Pairwise (· < ·) := List.pairwise_lt_range
  rw [List.filter_map, coefficientsIn]
  refine congrArg _ ((pairwise_exponentsIn p x).eq_of_mem_iff (hrange.filter _) fun i => ?_)
  rw [mem_exponentsIn, List.mem_filter, List.mem_range, Nat.lt_succ_iff]
  have hzero : (p.coefficientIn x i).isZero = false ↔
      ∃ t ∈ p.terms, t.monomial.degreeIn x = i := by
    simp [isZero, coefficientIn]
  simp only [Function.comp_apply, Bool.not_eq_true', hzero]
  refine ⟨fun h => ⟨?_, h⟩, fun h => h.2⟩
  obtain ⟨t, ht, rfl⟩ := h
  exact degreeIn_le_iff.1 le_rfl t ht

/-- **A polynomial is put together** from the coefficients of the powers of a parameter. -/
theorem toMv_eq_sum_coefficientIn {p : Polynomial} (h : p.WellFormed) (x : Parameter) :
    p.toMv = ∑ i ∈ Finset.range (p.degreeIn x + 1),
      (p.coefficientIn x i).toMv * MvPolynomial.X x ^ i := by
  simp only [toMv_coefficientIn h, degreeIn_eq_natDegree h]
  rw [← Polynomial.eval_eq_sum_range, eval_univariate]

/-- A common divisor of the coefficients that occur divides all coefficients. -/
theorem forall_coefficientsIn_dvd_iff {p : Polynomial} (h : p.WellFormed) {x : Parameter}
    {d : MvPolynomial Parameter ℚ} :
    (∀ c ∈ p.coefficientsIn x, d ∣ c.toMv) ↔
    ∀ i, d ∣ (univariate x p.toMv).coeff i := by
  refine ⟨fun hd i => ?_, fun hd c hc => ?_⟩
  · by_cases hi : (univariate x p.toMv).coeff i = 0
    · rw [hi]
      exact dvd_zero d
    · rw [coeff_univariate_eq_zero_iff h] at hi
      push Not at hi
      rw [← toMv_coefficientIn h]
      exact hd _ (List.mem_map.2 ⟨i, mem_exponentsIn.2 hi, rfl⟩)
  · obtain ⟨i, -, rfl⟩ := List.mem_map.1 hc
    rw [toMv_coefficientIn h]
    exact hd i

/-! ### Parameters -/

/-- **The parameters of a polynomial** are those it is not free of. -/
theorem mem_parameters_iff {p : Polynomial} (h : p.WellFormed) {x : Parameter} :
    x ∈ p.parameters ↔ ¬Free x p.toMv := by
  rw [parameters, mem_foldr_insertKey, free_iff_forall_terms h]
  simp only [List.mem_flatMap, List.not_mem_nil, or_false]
  push Not
  refine exists_congr fun t => and_congr_right fun ht => ?_
  exact Monomial.mem_parameters_iff (h.2 t ht).1

/-- The joint parameters of two polynomials are those that one of them is not free of. -/
theorem mem_jointParameters_iff {p q : Polynomial} (hp : p.WellFormed) (hq : q.WellFormed)
    {x : Parameter} : x ∈ jointParameters p q ↔ ¬Free x p.toMv ∨ ¬Free x q.toMv := by
  rw [jointParameters, mem_foldr_insertKey, mem_parameters_iff hp, mem_parameters_iff hq]

/-- Two polynomials have only their joint parameters. -/
theorem within_jointParameters {p q : Polynomial} (hp : p.WellFormed) (hq : q.WellFormed) :
    Within (jointParameters p q) p.toMv ∧ Within (jointParameters p q) q.toMv := by
  refine ⟨fun x hx => ?_, fun x hx => ?_⟩
  all_goals
    rw [mem_jointParameters_iff hp hq] at hx
    tauto

/-- Joint parameters increase. -/
theorem pairwise_jointParameters (p q : Polynomial) :
    (jointParameters p q).Pairwise (· < ·) :=
  pairwise_foldr_insertKey (pairwise_foldr_insertKey List.Pairwise.nil)

end MarkovElimination.Polynomial
