import Mathlib.Data.Finsupp.Lex
import Mathlib.Data.Finsupp.Order
import Mathlib.Data.String.Basic
import Mathlib.Order.Compare
import MarkovElimination.Polynomial.Division

/-! # Monomials as exponent vectors

The view of a monomial is its **exponent vector**, a finitely supported function from parameters to
exponents. Multiplication adds exponent vectors, division subtracts them, and the comparison of
sorted factor lists is the lexicographic order of the vectors. Well-formed monomials with the same
vector are the same, so every statement about monomials can be made about their vectors. -/

namespace MarkovElimination.Monomial

/-- Factors of increasing parameters with positive exponents. -/
def Ordered (fs : List Factor) : Prop :=
  fs.Pairwise (fun f g => f.parameter < g.parameter) ∧ ∀ f ∈ fs, 0 < f.exponent

/-- The exponents of a list of factors, added up at every parameter. -/
noncomputable def exponentSum (fs : List Factor) : Parameter →₀ ℕ :=
  (fs.map fun f => Finsupp.single f.parameter f.exponent).sum

/-- **The exponent vector** of a monomial. -/
noncomputable def toFinsupp (m : Monomial) : Parameter →₀ ℕ := exponentSum m.factors

instance (m : Monomial) : Decidable m.WellFormed := inferInstanceAs (Decidable (_ ∧ _))

@[simp] theorem exponentSum_nil : exponentSum [] = 0 := rfl

@[simp] theorem exponentSum_cons (f : Factor) (fs : List Factor) :
    exponentSum (f :: fs) = Finsupp.single f.parameter f.exponent + exponentSum fs := by
  simp [exponentSum]

theorem ordered_nil : Ordered [] := by
  simp [Ordered]

theorem ordered_cons {f : Factor} {fs : List Factor} :
    Ordered (f :: fs) ↔ (∀ g ∈ fs, f.parameter < g.parameter) ∧ 0 < f.exponent ∧
    Ordered fs := by
  simp only [Ordered, List.pairwise_cons, List.forall_mem_cons]
  tauto

/-- A parameter of no factor has exponent zero. -/
theorem exponentSum_apply_of_forall_ne {fs : List Factor} {p : Parameter}
    (h : ∀ f ∈ fs, f.parameter ≠ p) : exponentSum fs p = 0 := by
  induction fs with
  | nil => simp
  | cons f fs ih =>
    rw [List.forall_mem_cons] at h
    simp [h.1, ih h.2]

/-- Parameters up to one that precedes all factors have exponent zero. -/
theorem exponentSum_apply_of_forall_lt {fs : List Factor} {p q : Parameter}
    (h : ∀ f ∈ fs, p < f.parameter) (hq : q ≤ p) : exponentSum fs q = 0 := by
  apply exponentSum_apply_of_forall_ne
  intro f hf hfq
  exact absurd (hfq ▸ h f hf) (not_lt_of_ge hq)

/-- The first of some ordered factors decides the exponent of its parameter. -/
theorem exponentSum_apply_self {f : Factor} {fs : List Factor} (h : Ordered (f :: fs)) :
    exponentSum (f :: fs) f.parameter = f.exponent := by
  rw [ordered_cons] at h
  simp [exponentSum_apply_of_forall_lt h.1 le_rfl]

/-- No parameter before the first of some ordered factors occurs. -/
theorem exponentSum_apply_of_lt {f : Factor} {fs : List Factor} (h : Ordered (f :: fs))
    {q : Parameter} (hq : q < f.parameter) : exponentSum (f :: fs) q = 0 := by
  rw [ordered_cons] at h
  simp [exponentSum_apply_of_forall_lt h.1 hq.le, hq.ne']

/-- The degree in a parameter is the entry of the exponent vector. -/
theorem degreeIn_eq_toFinsupp {m : Monomial} (h : m.WellFormed) (p : Parameter) :
    m.degreeIn p = m.toFinsupp p := by
  obtain ⟨fs⟩ := m
  change Ordered fs at h
  change ((fs.find? fun f => f.parameter == p).map (·.exponent)).getD 0 = exponentSum fs p
  induction fs with
  | nil => simp
  | cons f fs ih =>
    by_cases hp : f.parameter = p
    · subst hp
      rw [exponentSum_apply_self h, List.find?_cons_of_pos (by simp)]
      rfl
    · rw [List.find?_cons_of_neg (by simpa using hp), ih (ordered_cons.1 h).2.2]
      simp [hp]

/-- A parameter occurs exactly if its exponent is positive. -/
theorem mem_parameters_iff {m : Monomial} (h : m.WellFormed) {p : Parameter} :
    p ∈ m.parameters ↔ m.toFinsupp p ≠ 0 := by
  obtain ⟨fs⟩ := m
  change Ordered fs at h
  change p ∈ fs.map (·.parameter) ↔ exponentSum fs p ≠ 0
  induction fs with
  | nil => simp
  | cons f fs ih =>
    rw [List.map_cons, List.mem_cons, ih (ordered_cons.1 h).2.2]
    have hpos := (ordered_cons.1 h).2.1
    by_cases hp : p = f.parameter
    · subst hp
      simp [hpos.ne']
    · simp [hp]

/-! ### Single powers -/

theorem wellFormed_one : one.WellFormed := ordered_nil

@[simp] theorem toFinsupp_one : one.toFinsupp = 0 := rfl

theorem wellFormed_ofPower (p : Parameter) (n : Nat) : (ofPower p n).WellFormed := by
  unfold ofPower
  split
  · exact wellFormed_one
  · exact ordered_cons.2 ⟨by simp, by simpa [Nat.pos_iff_ne_zero], ordered_nil⟩

@[simp] theorem toFinsupp_ofPower (p : Parameter) (n : Nat) :
    (ofPower p n).toFinsupp = Finsupp.single p n := by
  unfold ofPower
  split
  case isTrue h => simp [h]
  case isFalse => simp [toFinsupp]

theorem wellFormed_ofParameter (p : Parameter) : (ofParameter p).WellFormed :=
  wellFormed_ofPower p 1

@[simp] theorem toFinsupp_ofParameter (p : Parameter) :
    (ofParameter p).toFinsupp = Finsupp.single p 1 :=
  toFinsupp_ofPower p 1

/-! ### The order -/

/-- The vector of ordered factors is greater than one that has nothing up to their first
parameter. -/
theorem toLex_lt_of_forall_le {f : Factor} {fs gs : List Factor} (hf : Ordered (f :: fs))
    (hg : ∀ q ≤ f.parameter, exponentSum gs q = 0) :
    toLex (exponentSum gs) < toLex (exponentSum (f :: fs)) := by
  refine Finsupp.Lex.lt_iff.2 ⟨f.parameter, fun q hq => ?_, ?_⟩
  · exact (hg q hq.le).trans (exponentSum_apply_of_lt hf hq).symm
  · calc exponentSum gs f.parameter = 0 := hg _ le_rfl
      _ < f.exponent := (ordered_cons.1 hf).2.1
      _ = exponentSum (f :: fs) f.parameter := (exponentSum_apply_self hf).symm

/-- Of ordered factors with the same first parameter, the exponents of that parameter decide. -/
theorem toLex_lt_of_exponent_lt {f g : Factor} {fs gs : List Factor} (hf : Ordered (f :: fs))
    (hg : Ordered (g :: gs)) (hp : f.parameter = g.parameter) (h : f.exponent < g.exponent) :
    toLex (exponentSum (f :: fs)) < toLex (exponentSum (g :: gs)) := by
  refine Finsupp.Lex.lt_iff.2 ⟨f.parameter, fun q hq => ?_, ?_⟩
  · exact (exponentSum_apply_of_lt hf hq).trans (exponentSum_apply_of_lt hg (hp ▸ hq)).symm
  · calc exponentSum (f :: fs) f.parameter = f.exponent := exponentSum_apply_self hf
      _ < g.exponent := h
      _ = exponentSum (g :: gs) f.parameter := by rw [hp, exponentSum_apply_self hg]

/-- **The comparison of ordered factors** is the lexicographic comparison of their exponent
vectors. -/
theorem compareFactors_compares {fs gs : List Factor} (hf : Ordered fs) (hg : Ordered gs) :
    (compareFactors fs gs).Compares (toLex (exponentSum fs)) (toLex (exponentSum gs)) := by
  fun_induction compareFactors fs gs with
  | case1 => rfl
  | case2 f fs => exact toLex_lt_of_forall_le hf fun q _ => rfl
  | case3 g gs => exact toLex_lt_of_forall_le hg fun q _ => rfl
  | case4 f fs g gs hlt =>
    rw [compare_lt_iff_lt] at hlt
    exact toLex_lt_of_forall_le hf fun q hq => exponentSum_apply_of_lt hg (hq.trans_lt hlt)
  | case5 f fs g gs hgt =>
    rw [compare_gt_iff_gt] at hgt
    exact toLex_lt_of_forall_le hg fun q hq => exponentSum_apply_of_lt hf (hq.trans_lt hgt)
  | case6 f fs g gs heq ih =>
    rw [compare_eq_iff_eq] at heq
    rcases lt_trichotomy f.exponent g.exponent with h | h | h
    · rw [compare_lt_iff_lt.2 h]
      exact toLex_lt_of_exponent_lt hf hg heq h
    · -- the first factors agree, so the others decide
      have hrest := ih (ordered_cons.1 hf).2.2 (ordered_cons.1 hg).2.2
      rw [compare_eq_iff_eq.2 h, exponentSum_cons, exponentSum_cons, heq, h, toLex_add, toLex_add]
      exact (add_right_strictMono.compares).2 hrest
    · rw [compare_gt_iff_gt.2 h]
      exact toLex_lt_of_exponent_lt hg hf heq.symm h

/-- Factor lists that compare equal are the same. -/
theorem eq_of_compareFactors_eq {fs gs : List Factor} (h : compareFactors fs gs = .eq) :
    fs = gs := by
  fun_induction compareFactors fs gs with
  | case1 => rfl
  | case2 => cases h
  | case3 => cases h
  | case4 => cases h
  | case5 => cases h
  | case6 f fs g gs heq ih =>
    rw [Ordering.then_eq_eq, compare_eq_iff_eq] at h
    obtain ⟨p, e⟩ := f
    obtain ⟨q, d⟩ := g
    rw [compare_eq_iff_eq] at heq
    simp_all

/-- Monomials compare as their exponent vectors do. -/
theorem compare_compares {m n : Monomial} (hm : m.WellFormed) (hn : n.WellFormed) :
    (compare m n).Compares (toLex m.toFinsupp) (toLex n.toFinsupp) :=
  compareFactors_compares hm hn

theorem compare_eq_gt_iff {m n : Monomial} (hm : m.WellFormed) (hn : n.WellFormed) :
    compare m n = .gt ↔ toLex n.toFinsupp < toLex m.toFinsupp :=
  (compare_compares hm hn).eq_gt

theorem compare_eq_lt_iff {m n : Monomial} (hm : m.WellFormed) (hn : n.WellFormed) :
    compare m n = .lt ↔ toLex m.toFinsupp < toLex n.toFinsupp :=
  (compare_compares hm hn).eq_lt

theorem eq_of_compare_eq {m n : Monomial} (h : compare m n = .eq) : m = n := by
  obtain ⟨fs⟩ := m
  obtain ⟨gs⟩ := n
  exact congrArg Monomial.mk (eq_of_compareFactors_eq h)

/-- **Well-formed monomials are determined by their exponent vectors.** -/
theorem toFinsupp_injective {m n : Monomial} (hm : m.WellFormed) (hn : n.WellFormed)
    (h : m.toFinsupp = n.toFinsupp) : m = n :=
  eq_of_compare_eq ((compare_compares hm hn).eq_eq.2 (congrArg toLex h))

/-! ### Products -/

/-- Merging factors adds the exponents. -/
theorem exponentSum_mulFactors (fs gs : List Factor) :
    exponentSum (mulFactors fs gs) = exponentSum fs + exponentSum gs := by
  fun_induction mulFactors fs gs with
  | case1 => simp
  | case2 => simp
  | case3 f fs g gs _ ih => rw [exponentSum_cons, ih, exponentSum_cons f fs, add_assoc]
  | case4 f fs g gs _ ih => rw [exponentSum_cons, ih, exponentSum_cons g gs, add_left_comm]
  | case5 f fs g gs heq ih =>
    rw [compare_eq_iff_eq] at heq
    rw [exponentSum_cons, ih, exponentSum_cons, exponentSum_cons, heq, Finsupp.single_add,
      add_add_add_comm]

/-- A bound below the parameters of both lists is one below those of the merged list. -/
theorem forall_lt_mulFactors {fs gs : List Factor} {p : Parameter}
    (hf : ∀ f ∈ fs, p < f.parameter) (hg : ∀ g ∈ gs, p < g.parameter) :
    ∀ h ∈ mulFactors fs gs, p < h.parameter := by
  fun_induction mulFactors fs gs <;> simp_all

/-- Merging keeps factors ordered. -/
theorem ordered_mulFactors {fs gs : List Factor} (hf : Ordered fs) (hg : Ordered gs) :
    Ordered (mulFactors fs gs) := by
  fun_induction mulFactors fs gs with
  | case1 => exact hg
  | case2 => exact hf
  | case3 f fs g gs hlt ih =>
    rw [compare_lt_iff_lt] at hlt
    obtain ⟨hfirst, hpos, hrest⟩ := ordered_cons.1 hf
    refine ordered_cons.2 ⟨forall_lt_mulFactors hfirst ?_, hpos, ih hrest hg⟩
    exact List.forall_mem_cons.2 ⟨hlt, fun h hh => hlt.trans ((ordered_cons.1 hg).1 h hh)⟩
  | case4 f fs g gs hgt ih =>
    rw [compare_gt_iff_gt] at hgt
    obtain ⟨hfirst, hpos, hrest⟩ := ordered_cons.1 hg
    refine ordered_cons.2 ⟨forall_lt_mulFactors ?_ hfirst, hpos, ih hf hrest⟩
    exact List.forall_mem_cons.2 ⟨hgt, fun h hh => lt_trans hgt ((ordered_cons.1 hf).1 h hh)⟩
  | case5 f fs g gs heq ih =>
    -- factors of one parameter become one, with the sum of the exponents
    rw [compare_eq_iff_eq] at heq
    obtain ⟨hf₁, hpos, hf₂⟩ := ordered_cons.1 hf
    obtain ⟨hg₁, -, hg₂⟩ := ordered_cons.1 hg
    refine ordered_cons.2 ⟨forall_lt_mulFactors hf₁ (heq ▸ hg₁), ?_, ih hf₂ hg₂⟩
    exact Nat.add_pos_left hpos _

theorem WellFormed.mul {m n : Monomial} (hm : m.WellFormed) (hn : n.WellFormed) :
    (m * n).WellFormed :=
  ordered_mulFactors hm hn

@[simp] theorem toFinsupp_mul (m n : Monomial) :
    (m * n).toFinsupp = m.toFinsupp + n.toFinsupp :=
  exponentSum_mulFactors _ _

/-! ### Quotients -/

/-- What is taken out and what is left make up the dividend. -/
theorem exponentSum_divFactors? {fs gs hs : List Factor} (h : divFactors? fs gs = some hs) :
    exponentSum fs = exponentSum gs + exponentSum hs := by
  fun_induction divFactors? fs gs generalizing hs with
  | case1 fs =>
    obtain rfl := Option.some.inj h
    simp
  | case2 => cases h
  | case3 => cases h
  | case4 f fs g gs _ ih =>
    obtain ⟨rest, hrest, rfl⟩ := Option.map_eq_some_iff.1 h
    rw [exponentSum_cons, ih hrest, exponentSum_cons f rest, add_left_comm]
  | case5 => cases h
  | case6 f fs g gs heq hle ih =>
    obtain ⟨rest, hrest, rfl⟩ := Option.map_eq_some_iff.1 h
    rw [compare_eq_iff_eq] at heq
    have hsplit : Finsupp.single f.parameter f.exponent =
        Finsupp.single g.parameter g.exponent +
          Finsupp.single f.parameter (f.exponent - g.exponent) := by
      rw [heq, ← Finsupp.single_add, Nat.add_sub_cancel' (not_lt.1 hle)]
    rw [exponentSum_cons, exponentSum_cons, ih hrest, hsplit]
    -- a factor that is used up is dropped
    split
    · simp_all [add_assoc]
    · simp only [exponentSum_cons]
      exact add_add_add_comm _ _ _ _

/-- The parameters of a quotient are among those of the dividend. -/
theorem sublist_divFactors? {fs gs hs : List Factor} (h : divFactors? fs gs = some hs) :
    (hs.map (·.parameter)).Sublist (fs.map (·.parameter)) := by
  fun_induction divFactors? fs gs generalizing hs with
  | case1 fs =>
    obtain rfl := Option.some.inj h
    exact List.Sublist.refl _
  | case2 => cases h
  | case3 => cases h
  | case4 f fs g gs _ ih =>
    obtain ⟨rest, hrest, rfl⟩ := Option.map_eq_some_iff.1 h
    exact (ih hrest).cons_cons _
  | case5 => cases h
  | case6 f fs g gs _ _ ih =>
    obtain ⟨rest, hrest, rfl⟩ := Option.map_eq_some_iff.1 h
    split
    · exact (ih hrest).cons _
    · exact (ih hrest).cons_cons _

/-- The exponents of a quotient are positive. -/
theorem pos_divFactors? {fs gs hs : List Factor} (h : divFactors? fs gs = some hs)
    (hpos : ∀ f ∈ fs, 0 < f.exponent) : ∀ f ∈ hs, 0 < f.exponent := by
  fun_induction divFactors? fs gs generalizing hs with
  | case1 fs =>
    obtain rfl := Option.some.inj h
    exact hpos
  | case2 => cases h
  | case3 => cases h
  | case4 f fs g gs _ ih =>
    obtain ⟨rest, hrest, rfl⟩ := Option.map_eq_some_iff.1 h
    rw [List.forall_mem_cons] at hpos ⊢
    exact ⟨hpos.1, ih hrest hpos.2⟩
  | case5 => cases h
  | case6 f fs g gs _ hle ih =>
    obtain ⟨rest, hrest, rfl⟩ := Option.map_eq_some_iff.1 h
    rw [List.forall_mem_cons] at hpos
    split
    · exact ih hrest hpos.2
    · rw [List.forall_mem_cons]
      exact ⟨by dsimp only; omega, ih hrest hpos.2⟩

/-- **Division succeeds** if the exponents of the divisor are at most those of the dividend. -/
theorem isSome_divFactors? {fs gs : List Factor} (hf : Ordered fs) (hg : Ordered gs)
    (h : exponentSum gs ≤ exponentSum fs) : (divFactors? fs gs).isSome := by
  fun_induction divFactors? fs gs with
  | case1 => rfl
  | case2 g gs =>
    -- the divisor has a parameter that the dividend lacks
    have hle := h g.parameter
    rw [exponentSum_apply_self hg] at hle
    exact absurd hle (not_le.2 (ordered_cons.1 hg).2.1)
  | case3 f fs g gs hlt =>
    rw [compare_lt_iff_lt] at hlt
    have hle := h g.parameter
    rw [exponentSum_apply_self hg, exponentSum_apply_of_lt hf hlt] at hle
    exact absurd hle (not_le.2 (ordered_cons.1 hg).2.1)
  | case4 f fs g gs hgt ih =>
    -- the first factor of the dividend is kept, and the divisor does not have its parameter
    rw [compare_gt_iff_gt] at hgt
    rw [Option.isSome_map]
    refine ih (ordered_cons.1 hf).2.2 hg fun q => ?_
    by_cases hq : q = f.parameter
    · rw [hq, exponentSum_apply_of_lt hg hgt]
      exact Nat.zero_le _
    · have hle := h q
      rwa [exponentSum_cons f, Finsupp.add_apply, Finsupp.single_eq_of_ne hq, zero_add] at hle
  | case5 f fs g gs heq hlt =>
    rw [compare_eq_iff_eq] at heq
    have hle := h g.parameter
    rw [exponentSum_apply_self hg, heq, exponentSum_apply_self hf] at hle
    exact absurd hlt (not_lt.2 hle)
  | case6 f fs g gs heq _ ih =>
    -- behind the common parameter both lists have greater ones only
    rw [compare_eq_iff_eq] at heq
    rw [Option.isSome_map]
    refine ih (ordered_cons.1 hf).2.2 (ordered_cons.1 hg).2.2 fun q => ?_
    by_cases hq : q = f.parameter
    · rw [exponentSum_apply_of_forall_lt (ordered_cons.1 hg).1 (hq.trans heq.symm).le]
      exact Nat.zero_le _
    · have hle := h q
      rwa [exponentSum_cons f, exponentSum_cons g, Finsupp.add_apply, Finsupp.add_apply, heq,
        Finsupp.single_eq_of_ne hq, Finsupp.single_eq_of_ne hq, zero_add, zero_add] at hle

/-- A quotient of monomials is well formed, and its product with the divisor is the dividend. -/
theorem WellFormed.div? {m n k : Monomial} (hm : m.WellFormed) (h : m.div? n = some k) :
    k.WellFormed ∧ m.toFinsupp = n.toFinsupp + k.toFinsupp := by
  obtain ⟨hs, hhs, rfl⟩ := Option.map_eq_some_iff.1 h
  refine ⟨⟨?_, pos_divFactors? hhs hm.2⟩, exponentSum_divFactors? hhs⟩
  have hsorted := (List.pairwise_map.2 hm.1).sublist (sublist_divFactors? hhs)
  exact List.pairwise_map.1 hsorted

/-- A monomial is divided by any monomial of smaller exponents. -/
theorem exists_div? {m n : Monomial} (hm : m.WellFormed) (hn : n.WellFormed)
    (h : n.toFinsupp ≤ m.toFinsupp) : ∃ k, m.div? n = some k := by
  rw [← Option.isSome_iff_exists, Monomial.div?, Option.isSome_map]
  exact isSome_divFactors? hm hn h

/-! ### Removing a parameter -/

theorem WellFormed.erase {m : Monomial} (h : m.WellFormed) (p : Parameter) :
    (m.erase p).WellFormed :=
  ⟨h.1.filter _, fun f hf => h.2 f (List.mem_of_mem_filter hf)⟩

/-- Erasing a parameter erases its exponent. -/
@[simp] theorem toFinsupp_erase (p : Parameter) (m : Monomial) :
    (m.erase p).toFinsupp = m.toFinsupp.erase p := by
  obtain ⟨fs⟩ := m
  change exponentSum (fs.filter fun f => f.parameter != p) = (exponentSum fs).erase p
  induction fs with
  | nil => simp
  | cons f fs ih =>
    by_cases hp : f.parameter = p
    · rw [List.filter_cons_of_neg (by simpa using hp), ih, exponentSum_cons, Finsupp.erase_add, hp,
        Finsupp.erase_single, zero_add]
    · rw [List.filter_cons_of_pos (by simpa using hp), exponentSum_cons, ih, exponentSum_cons,
        Finsupp.erase_add, Finsupp.erase_single_ne (Ne.symm hp)]

end MarkovElimination.Monomial
