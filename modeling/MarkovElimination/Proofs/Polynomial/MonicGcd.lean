import MarkovElimination.Polynomial.Range
import MarkovElimination.Proofs.Polynomial.Canonical
import MarkovElimination.Proofs.Polynomial.Gcd

/-! # The monic greatest common divisor

The computed greatest common divisor is **monic**, so it is the only one: it does not depend on the
order of the arguments (`gcd_comm`). It can be computed as long as the exponents of all products
formed on the way are in range. With a **single parameter** they always are, since the coefficients
are numbers and pseudo-division only lowers the degree (`gcdFits_of_length_le_one`). With two
parameters the leading coefficients of pseudo-division have degrees of their own, which add up. -/

namespace MarkovElimination.Polynomial

variable {x : Parameter} {ps : List Parameter} {a b f g : Polynomial}

/-! ### Uniqueness -/

/-- **The computed polynomial is monic**, whatever the parameters. -/
theorem isMonic_gcdIn (ps : List Parameter) (a b : Polynomial) : (gcdIn ps a b).IsMonic := by
  induction ps generalizing a b with
  | nil =>
    rw [gcdIn]
    split_ifs
    · exact isMonic_monic b
    · exact isMonic_monic a
    · exact isMonic_one
  | cons x ps ih =>
    rw [gcdIn]
    split_ifs
    · exact isMonic_monic b
    · exact isMonic_monic a
    · exact isMonic_one
    -- next to a polynomial free of the main parameter the others decide
    · exact ih _ _
    · exact ih _ _
    · exact isMonic_monic _
    · exact isMonic_monic _

theorem isMonic_gcd (a b : Polynomial) : (a.gcd b).IsMonic := isMonic_gcdIn _ a b

/-- Two greatest common divisors differ by a unit. -/
theorem associated_of_isGcd {a b g g' : MvPolynomial Parameter ℚ} (h : IsGcd a b g)
    (h' : IsGcd a b g') : Associated g g' :=
  associated_of_dvd_dvd ((h' g).2 ⟨h.dvd_left, h.dvd_right⟩)
    ((h g').2 ⟨h'.dvd_left, h'.dvd_right⟩)

/-- **The order of the arguments does not matter.** -/
theorem gcd_comm (ha : a.WellFormed) (hb : b.WellFormed) : a.gcd b = b.gcd a := by
  obtain ⟨hwf, hgcd⟩ := gcd_isGcd ha hb
  obtain ⟨hwf', hgcd'⟩ := gcd_isGcd hb ha
  refine IsMonic.eq_of_associated hwf hwf' (isMonic_gcd a b) (isMonic_gcd b a) ?_
  exact associated_of_isGcd hgcd hgcd'.symm

/-- The greatest common divisor is zero only if both polynomials are. -/
theorem gcd_eq_zero_iff (ha : a.WellFormed) (hb : b.WellFormed) :
    a.gcd b = 0 ↔ a = 0 ∧ b = 0 := by
  obtain ⟨hwf, hgcd⟩ := gcd_isGcd ha hb
  rw [hwf.eq_zero_iff, ha.eq_zero_iff, hb.eq_zero_iff, ← zero_dvd_iff, hgcd 0, zero_dvd_iff,
    zero_dvd_iff]

/-! ### The range of exponents -/

/-- All exponents of a polynomial are in range. -/
def InRange (p : Polynomial) : Prop :=
  ∀ t ∈ p.terms, ∀ f ∈ t.monomial.factors, f.exponent < degreeBound

instance (p : Polynomial) : Decidable p.InRange :=
  inferInstanceAs
    (Decidable (∀ t ∈ p.terms, ∀ f ∈ t.monomial.factors, f.exponent < degreeBound))

/-- In range the degrees are below the bound. -/
theorem InRange.degreeIn_lt {p : Polynomial} (h : p.InRange) (x : Parameter) :
    p.degreeIn x < degreeBound := by
  suffices hle : p.degreeIn x ≤ degreeBound - 1 by
    have : 0 < degreeBound := by decide
    omega
  refine degreeIn_le_iff.2 fun t ht => ?_
  rw [Monomial.degreeIn]
  cases hfind : t.monomial.factors.find? fun f => f.parameter == x with
  | none => exact Nat.zero_le _
  | some f =>
    have := h t ht f (List.mem_of_find?_eq_some hfind)
    show f.exponent ≤ degreeBound - 1
    omega

/-- A product fits if the degrees in the parameters that can occur add up to less than the bound. -/
theorem mulFits_of_within (hf : f.WellFormed) (hg : g.WellFormed) (hfin : Within ps f.toMv)
    (hgin : Within ps g.toMv) (h : ∀ x ∈ ps, f.degreeIn x + g.degreeIn x < degreeBound) :
    f.mulFits g = true := by
  rw [mulFits, List.all_eq_true]
  intro x hx
  rw [decide_eq_true_eq]
  apply h
  by_contra hnot
  exact ((mem_jointParameters_iff hf hg).1 hx).elim (· (hfin x hnot)) (· (hgin x hnot))

/-- A coefficient has degree zero. -/
theorem degreeIn_coefficientIn (hf : f.WellFormed) (x : Parameter) (i : ℕ) :
    (f.coefficientIn x i).degreeIn x = 0 := by
  rw [degreeIn_eq_natDegree (hf.coefficientIn x i), toMv_coefficientIn hf]
  exact free_coeff x _ i

/-- **One step of pseudo-division** in the only parameter stays in range. -/
theorem pseudoStepFits_single (hf : f.WellFormed) (hg : g.WellFormed) (hfin : Within [x] f.toMv)
    (hgin : Within [x] g.toMv) (hle : g.degreeIn x ≤ f.degreeIn x)
    (hlt : f.degreeIn x < degreeBound) : pseudoStepFits x f g = true := by
  obtain ⟨hshiftwf, hval⟩ := toMv_shiftedTop hf x g
  rw [pseudoStepFits, Bool.and_eq_true]
  constructor
  · refine mulFits_of_within (hg.coefficientIn x _) hf (within_coefficientIn hg hgin x _) hfin ?_
    rw [List.forall_mem_singleton, degreeIn_coefficientIn hg]
    omega
  · refine mulFits_of_within hshiftwf hg ?_ hgin ?_
    · rw [hval]
      exact within_pseudoFactor hf List.mem_cons_self hfin g
    · -- the shift makes up the difference of the degrees
      have hshift : (univariate x (pseudoFactor x f g)).natDegree ≤
          f.degreeIn x - g.degreeIn x := by
        rw [pseudoFactor, map_mul, univariate_monomial, Finsupp.single_eq_same]
        refine Polynomial.natDegree_mul_le.trans ?_
        rw [free_coeff x f.toMv (f.degreeIn x), add_zero]
        exact Polynomial.natDegree_monomial_le _
      rw [List.forall_mem_singleton, degreeIn_eq_natDegree hshiftwf, hval]
      omega

/-- **Pseudo-division** in the only parameter stays in range: the degree falls with every step. -/
theorem pseudoRemainderFits_single (hf : f.WellFormed) (hg : g.WellFormed)
    (hfin : Within [x] f.toMv) (hgin : Within [x] g.toMv) (hlt : f.degreeIn x < degreeBound) :
    pseudoRemainderFits x f g = true := by
  fun_induction pseudoRemainderFits x f g with
  | case1 => rfl
  | case2 f hgo ih =>
    rw [Bool.or_eq_true, decide_eq_true_eq, not_or, not_lt] at hgo
    rw [pseudoStepFits_single hf hg hfin hgin hgo.2 hlt, Bool.true_and]
    dsimp only
    split
    case isTrue hfall =>
      refine ih hfall (toMv_pseudoStep hf hg).1 ?_ (hfall.trans hlt)
      exact within_pseudoStep hf hg List.mem_cons_self hfin hgin
    case isFalse => rfl

theorem gcdInFits_nil (a b : Polynomial) : gcdInFits [] a b = true := rfl

/-- Without other parameters the content stays in range. -/
theorem contentFits_nil (x : Parameter) (p : Polynomial) :
    contentFits ⟨gcdIn [], gcdInFits []⟩ x p = true := by
  have hfold (cs : List Polynomial) (common : Polynomial) :
      BoundedGcd.foldFits ⟨gcdIn [], gcdInFits []⟩ common cs = true := by
    induction cs generalizing common with
    | nil => rfl
    | cons c cs ih =>
      rw [BoundedGcd.foldFits, ih, Bool.and_true]
      exact gcdInFits_nil common c
  exact hfold _ _

/-- **The remainder sequence** in the only parameter stays in range. -/
theorem primitiveGcdFits_single (hf : f.WellFormed) (hg : g.WellFormed) (hfin : Within [x] f.toMv)
    (hgin : Within [x] g.toMv) (hpos : 0 < g.degreeIn x) (hflt : f.degreeIn x < degreeBound)
    (hglt : g.degreeIn x < degreeBound) :
    primitiveGcdFits ⟨gcdIn [], gcdInFits []⟩ x f g = true := by
  have hgcd := computesGcd_gcdIn []
  fun_induction primitiveGcdFits ⟨gcdIn [], gcdInFits []⟩ x f g with
  | case1 f g ih =>
    rw [pseudoRemainderFits_single hf hg hfin hgin hflt, Bool.true_and]
    dsimp only
    split
    case isTrue => rfl
    case isFalse hgo =>
      rw [Bool.or_eq_true, decide_eq_true_eq, not_or] at hgo
      rw [contentFits_nil, Bool.true_and]
      split
      case isTrue hfall =>
        obtain ⟨hr, hrin, -⟩ := pseudoRemainder_spec hf hg List.mem_cons_self hfin hgin hpos
        have hr₀ := (isZero_iff hr).not.1 hgo.1
        obtain ⟨hnext, -, -, -, hsplit⟩ := hgcd.primitivePart_spec hr hrin hr₀
        have hnextpos : 0 < (primitivePartIn (gcdIn []) x (pseudoRemainder x f g)).degreeIn x := by
          rw [hgcd.degreeIn_primitivePart hr hrin hr₀]
          exact Nat.pos_of_ne_zero hgo.2
        exact ih hfall hg hnext hgin (hrin.of_dvd hr₀ (Dvd.intro_left _ hsplit.symm))
          hnextpos hglt (hfall.trans hglt)
      case isFalse => rfl

/-- The remainder sequence of the primitive parts in the only parameter stays in range. -/
theorem primitiveGcdFits_primitivePart (ha : a.WellFormed) (hb : b.WellFormed)
    (hain : Within [x] a.toMv) (hbin : Within [x] b.toMv) (ha₀ : a.toMv ≠ 0)
    (hb₀ : b.toMv ≠ 0) (hpos : 0 < b.degreeIn x) (halt : a.degreeIn x < degreeBound)
    (hblt : b.degreeIn x < degreeBound) :
    primitiveGcdFits ⟨gcdIn [], gcdInFits []⟩ x (primitivePartIn (gcdIn []) x a)
      (primitivePartIn (gcdIn []) x b) = true := by
  have hgcd := computesGcd_gcdIn []
  obtain ⟨hpa, -, -, -, hsplita⟩ := hgcd.primitivePart_spec ha hain ha₀
  obtain ⟨hpb, -, -, -, hsplitb⟩ := hgcd.primitivePart_spec hb hbin hb₀
  have hpain := hain.of_dvd ha₀ (Dvd.intro_left _ hsplita.symm)
  have hpbin := hbin.of_dvd hb₀ (Dvd.intro_left _ hsplitb.symm)
  rw [← hgcd.degreeIn_primitivePart ha hain ha₀] at halt
  rw [← hgcd.degreeIn_primitivePart hb hbin hb₀] at hblt hpos
  exact primitiveGcdFits_single hpa hpb hpain hpbin hpos halt hblt

/-- **With at most one parameter the range is never left.** -/
theorem gcdFits_of_length_le_one (ha : a.WellFormed) (hb : b.WellFormed) (har : a.InRange)
    (hbr : b.InRange) (h : (jointParameters a b).length ≤ 1) : a.gcdFits b = true := by
  obtain ⟨hain, hbin⟩ := within_jointParameters ha hb
  rw [gcdFits]
  generalize jointParameters a b = ps at h hain hbin
  match ps with
  | [] => rfl
  | [x] =>
    rw [gcdInFits]
    split_ifs with htrivial hadeg hbdeg hle
    · rfl
    · simp only [contentFits_nil, gcdInFits_nil, Bool.and_true]
    · simp only [contentFits_nil, gcdInFits_nil, Bool.and_true]
    all_goals
      simp only [Bool.or_eq_true, not_or] at htrivial
      have ha₀ := (isZero_iff ha).not.1 htrivial.1.1.1
      have hb₀ := (isZero_iff hb).not.1 htrivial.1.1.2
      simp only [contentFits_nil, gcdInFits_nil, Bool.true_and]
    · exact primitiveGcdFits_primitivePart ha hb hain hbin ha₀ hb₀ (Nat.pos_of_ne_zero hbdeg)
        (har.degreeIn_lt x) (hbr.degreeIn_lt x)
    · exact primitiveGcdFits_primitivePart hb ha hbin hain hb₀ ha₀ (Nat.pos_of_ne_zero hadeg)
        (hbr.degreeIn_lt x) (har.degreeIn_lt x)
  | _ :: _ :: _ =>
    simp only [List.length_cons] at h
    omega

end MarkovElimination.Polynomial
