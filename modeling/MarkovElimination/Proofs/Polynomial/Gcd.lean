import Mathlib.Tactic.LinearCombination
import MarkovElimination.Polynomial.Gcd
import MarkovElimination.Proofs.Polynomial.Division

/-! # The greatest common divisor

The computed polynomial **is a greatest common divisor**: its divisors are the common divisors. The
proof follows the recursion. A pseudo-remainder of `f` by `g` is a combination of both in which `f`
has a factor free of the main parameter, so by the lemma of Gauss it has the same common divisors
with a primitive `g` as `f`. Contents are greatest common divisors of coefficients, which have one
parameter less. -/

namespace MarkovElimination

variable {x : Parameter} {ps : List Parameter}

/-- Common divisors have no other parameters. -/
theorem IsGcd.within {a b g : MvPolynomial Parameter ℚ} (h : IsGcd a b g) (ha : Within ps a)
    (hb : Within ps b) : Within ps g := by
  by_cases ha₀ : a = 0
  · by_cases hb₀ : b = 0
    · have hg₀ : g = 0 := zero_dvd_iff.1 ((h 0).2 ⟨ha₀ ▸ dvd_rfl, hb₀ ▸ dvd_rfl⟩)
      rw [hg₀]
      exact fun y _ => free_zero y
    · exact hb.of_dvd hb₀ h.dvd_right
  · exact ha.of_dvd ha₀ h.dvd_left

namespace Polynomial

/-! ### Pseudo-division -/

/-- The polynomial subtracted in a step of pseudo-division, apart from the divisor. -/
noncomputable def pseudoFactor (x : Parameter) (f g : Polynomial) : MvPolynomial Parameter ℚ :=
  MvPolynomial.monomial (Finsupp.single x (f.degreeIn x - g.degreeIn x)) 1 *
    (univariate x f.toMv).coeff (f.degreeIn x)

/-- The leading coefficient of the remainder is shifted to its place. -/
theorem toMv_shiftedTop {f : Polynomial} (hf : f.WellFormed) (x : Parameter) (g : Polynomial) :
    (mulTerm ⟨.ofPower x (f.degreeIn x - g.degreeIn x), 1⟩
      (f.coefficientIn x (f.degreeIn x))).WellFormed ∧
    (mulTerm ⟨.ofPower x (f.degreeIn x - g.degreeIn x), 1⟩
      (f.coefficientIn x (f.degreeIn x))).toMv = pseudoFactor x f g := by
  refine ⟨WellFormed.mulTerm (Monomial.wellFormed_ofPower _ _) one_ne_zero
    (hf.coefficientIn x _), ?_⟩
  rw [toMv_mulTerm, toMv_coefficientIn hf, Term.toMv, Monomial.toFinsupp_ofPower, pseudoFactor]

/-- A step of pseudo-division is a combination of remainder and divisor. -/
theorem toMv_pseudoStep {f g : Polynomial} (hf : f.WellFormed) (hg : g.WellFormed) :
    (pseudoStep x f g).WellFormed ∧ (pseudoStep x f g).toMv =
      (univariate x g.toMv).coeff (g.degreeIn x) * f.toMv - pseudoFactor x f g * g.toMv := by
  obtain ⟨hshift, hval⟩ := toMv_shiftedTop hf x g
  refine ⟨((hg.coefficientIn x _).mul hf).sub (hshift.mul hg), ?_⟩
  rw [pseudoStep, toMv_sub, toMv_mul (hg.coefficientIn x _) hf, toMv_mul hshift hg, hval,
    toMv_coefficientIn hg]

/-- **A step of pseudo-division lowers the degree.** -/
theorem degreeIn_pseudoStep_lt {f g : Polynomial} (hf : f.WellFormed) (hg : g.WellFormed)
    (hpos : 0 < g.degreeIn x) (hle : g.degreeIn x ≤ f.degreeIn x) :
    (pseudoStep x f g).degreeIn x < f.degreeIn x := by
  obtain ⟨hwf, hval⟩ := toMv_pseudoStep (x := x) hf hg
  have hfdeg := degreeIn_eq_natDegree hf x
  have hgdeg := degreeIn_eq_natDegree hg x
  set m := f.degreeIn x
  set n := g.degreeIn x
  suffices h : (univariate x (pseudoStep x f g).toMv).natDegree ≤ m - 1 by
    rw [degreeIn_eq_natDegree hwf]
    omega
  rw [Polynomial.natDegree_le_iff_coeff_eq_zero]
  intro i hi
  have hpower : univariate x (pseudoFactor x f g) =
      Polynomial.C ((univariate x f.toMv).coeff m) * Polynomial.X ^ (m - n) := by
    rw [pseudoFactor, map_mul, free_iff.1 (free_coeff x f.toMv m), univariate_monomial,
      Finsupp.single_eq_same, Finsupp.erase_single, ← Polynomial.C_mul_X_pow_eq_monomial,
        mul_comm,
      MvPolynomial.monomial_zero', MvPolynomial.C_1, Polynomial.C_1, one_mul]
  rw [hval, map_sub, map_mul, map_mul, hpower, free_iff.1 (free_coeff x g.toMv n),
    Polynomial.coeff_sub, Polynomial.coeff_C_mul, mul_assoc, Polynomial.coeff_C_mul,
    Polynomial.coeff_X_pow_mul', if_pos (by omega)]
  by_cases him : i = m
  · -- the leading coefficients cancel
    rw [him, show m - (m - n) = n by omega, mul_comm, sub_self]
  · rw [Polynomial.coeff_eq_zero_of_natDegree_lt (n := i) (by omega),
      Polynomial.coeff_eq_zero_of_natDegree_lt (n := i - (m - n)) (by omega), mul_zero, mul_zero,
      sub_self]

/-- A coefficient brings in no parameters. -/
theorem within_coefficientIn {f : Polynomial} (hf : f.WellFormed) (hfin : Within ps f.toMv)
    (x : Parameter) (i : ℕ) : Within ps (f.coefficientIn x i).toMv :=
  fun y hy => free_coefficientIn hf i (hfin y hy)

/-- The shifted leading coefficient brings in no parameters. -/
theorem within_pseudoFactor {f : Polynomial} (hf : f.WellFormed) (hx : x ∈ ps)
    (hfin : Within ps f.toMv) (g : Polynomial) : Within ps (pseudoFactor x f g) := by
  intro y hy
  have hpower : Finsupp.single x (f.degreeIn x - g.degreeIn x) y = 0 := by
    refine Finsupp.single_eq_of_ne ?_
    rintro rfl
    exact hy hx
  rw [pseudoFactor, ← toMv_coefficientIn hf]
  exact (free_monomial hpower 1).mul (within_coefficientIn hf hfin x _ y hy)

/-- A step of pseudo-division brings in no parameters. -/
theorem within_pseudoStep {f g : Polynomial} (hf : f.WellFormed) (hg : g.WellFormed) (hx : x ∈ ps)
    (hfin : Within ps f.toMv) (hgin : Within ps g.toMv) : Within ps (pseudoStep x f g).toMv := by
  intro y hy
  rw [(toMv_pseudoStep hf hg).2, ← toMv_coefficientIn hg]
  have htop := within_coefficientIn hg hgin x (g.degreeIn x) y hy
  exact (htop.mul (hfin y hy)).sub ((within_pseudoFactor hf hx hfin g y hy).mul (hgin y hy))

/-- **Pseudo-division**: up to a factor free of the parameter, the dividend is a multiple of the
divisor and the remainder, which is zero or of smaller degree. -/
theorem pseudoRemainder_spec {f g : Polynomial} (hf : f.WellFormed) (hg : g.WellFormed)
    (hx : x ∈ ps) (hfin : Within ps f.toMv) (hgin : Within ps g.toMv) (hpos : 0 < g.degreeIn x) :
    (pseudoRemainder x f g).WellFormed ∧ Within ps (pseudoRemainder x f g).toMv ∧
      ((pseudoRemainder x f g).toMv = 0 ∨ (pseudoRemainder x f g).degreeIn x < g.degreeIn x) ∧
      ∃ c q, Free x c ∧ c ≠ 0 ∧ c * f.toMv = q * g.toMv + (pseudoRemainder x f g).toMv := by
  fun_induction pseudoRemainder x f g with
  | case1 f hstop =>
    rw [Bool.or_eq_true, decide_eq_true_eq, isZero_iff hf] at hstop
    exact ⟨hf, hfin, hstop, 1, 0, free_one x, one_ne_zero, by ring⟩
  | case2 f hgo next _ ih =>
    obtain ⟨hnext, hval⟩ := toMv_pseudoStep (x := x) hf hg
    obtain ⟨hwf, hin, hdeg, c, q, hc, hc₀, heq⟩ :=
      ih hnext (within_pseudoStep hf hg hx hfin hgin)
    -- the factors of the steps are leading coefficients of the divisor
    have hlead : (univariate x g.toMv).coeff (g.degreeIn x) ≠ 0 := by
      rw [degreeIn_eq_natDegree hg, ← Polynomial.leadingCoeff, Polynomial.leadingCoeff_ne_zero]
      rintro hzero
      rw [degreeIn_eq_natDegree hg, hzero, Polynomial.natDegree_zero] at hpos
      exact hpos.false
    refine ⟨hwf, hin, hdeg, c * (univariate x g.toMv).coeff (g.degreeIn x),
      q + c * pseudoFactor x f g, hc.mul (free_coeff x _ _), mul_ne_zero hc₀ hlead, ?_⟩
    rw [hval] at heq
    linear_combination heq
  | case3 f hgo next hnot =>
    rw [Bool.or_eq_true, decide_eq_true_eq, not_or, not_lt] at hgo
    exact absurd (degreeIn_pseudoStep_lt hf hg hpos hgo.2) hnot

/-! ### Contents -/

/-- The function computes greatest common divisors of polynomials in the listed parameters. -/
def ComputesGcd (ps : List Parameter) (gcd : Polynomial → Polynomial → Polynomial) : Prop :=
  ∀ a b, a.WellFormed → b.WellFormed → Within ps a.toMv → Within ps b.toMv →
    (gcd a b).WellFormed ∧ IsGcd a.toMv b.toMv (gcd a b).toMv

variable {gcd : Polynomial → Polynomial → Polynomial}

/-- Greatest common divisors taken one after the other. -/
theorem ComputesGcd.foldl (h : ComputesGcd ps gcd) {cs : List Polynomial} {common : Polynomial}
    (hc : common.WellFormed) (hin : Within ps common.toMv)
    (hcs : ∀ c ∈ cs, c.WellFormed ∧ Within ps c.toMv) :
    (cs.foldl gcd common).WellFormed ∧ Within ps (cs.foldl gcd common).toMv ∧
      ∀ d, d ∣ (cs.foldl gcd common).toMv ↔ d ∣ common.toMv ∧
      ∀ c ∈ cs, d ∣ c.toMv := by
  induction cs generalizing common with
  | nil => exact ⟨hc, hin, fun d => by simp⟩
  | cons c cs ih =>
    rw [List.forall_mem_cons] at hcs
    obtain ⟨hwf, hgcd⟩ := h common c hc hcs.1.1 hin hcs.1.2
    obtain ⟨hres, hresin, hdvd⟩ := ih hwf (hgcd.within hin hcs.1.2) hcs.2
    refine ⟨hres, hresin, fun d => ?_⟩
    rw [List.foldl_cons, hdvd, hgcd d, List.forall_mem_cons, and_assoc]

/-- **The content** is divided by the common divisors of all coefficients. -/
theorem ComputesGcd.content_spec (h : ComputesGcd ps gcd) {p : Polynomial} (hp : p.WellFormed)
    (hin : Within (x :: ps) p.toMv) :
    (contentIn gcd x p).WellFormed ∧ Within ps (contentIn gcd x p).toMv ∧
      ∀ d, d ∣ (contentIn gcd x p).toMv ↔ ∀ i, d ∣ (univariate x p.toMv).coeff i := by
  have hcoeffs : ∀ c ∈ p.coefficientsIn x, c.WellFormed ∧ Within ps c.toMv := by
    intro c hc
    obtain ⟨i, -, rfl⟩ := List.mem_map.1 hc
    refine ⟨hp.coefficientIn x i, Within.tail (x := x) ?_ ?_⟩
    · exact fun y hy => free_coefficientIn hp i (hin y hy)
    · rw [toMv_coefficientIn hp]
      exact free_coeff x _ i
  obtain ⟨hwf, hwithin, hdvd⟩ := h.foldl wellFormed_zero (fun y _ => free_zero y) hcoeffs
  refine ⟨hwf, hwithin, fun d => ?_⟩
  rw [contentIn, hdvd, forall_coefficientsIn_dvd_iff hp]
  exact and_iff_right (dvd_zero d)

/-- **A polynomial is its content times its primitive part.** -/
theorem ComputesGcd.primitivePart_spec (h : ComputesGcd ps gcd) {p : Polynomial} (hp : p.WellFormed)
    (hin : Within (x :: ps) p.toMv) (hp₀ : p.toMv ≠ 0) :
    (primitivePartIn gcd x p).WellFormed ∧ Primitive x (primitivePartIn gcd x p).toMv ∧
      Free x (contentIn gcd x p).toMv ∧ (contentIn gcd x p).toMv ≠ 0 ∧
      p.toMv = (contentIn gcd x p).toMv * (primitivePartIn gcd x p).toMv := by
  obtain ⟨hwf, -, hdvd⟩ := h.content_spec hp hin
  set content := contentIn gcd x p with hcontent
  have hcoeff := (hdvd content.toMv).1 dvd_rfl
  have hlead : (univariate x p.toMv).leadingCoeff ≠ 0 :=
    Polynomial.leadingCoeff_ne_zero.2 (univariate_eq_zero.not.2 hp₀)
  have hne : content.toMv ≠ 0 := ne_zero_of_dvd_ne_zero hlead (hcoeff _)
  have hfree : Free x content.toMv := (free_coeff x _ _).of_dvd hlead (hcoeff _)
  obtain ⟨q, hq, hqwf, hval⟩ := quotient?_spec hp hwf hne (hfree.dvd_iff_forall_coeff.2 hcoeff)
  have hpart : primitivePartIn gcd x p = q := by
    rw [primitivePartIn, ← hcontent, if_neg ((isZero_iff hwf).not.2 hne), hq]
    rfl
  rw [hpart]
  refine ⟨hqwf, fun d hd hdq => ?_, hfree, hne, by rw [← hval, mul_comm]⟩
  -- a free divisor of the primitive part makes the content larger
  have hmul : d * content.toMv ∣ content.toMv := by
    rw [hdvd, ← (hd.mul hfree).dvd_iff_forall_coeff, ← hval]
    exact mul_dvd_mul_right hdq _
  refine isUnit_of_dvd_one ((mul_dvd_mul_iff_right hne).1 ?_)
  rwa [one_mul]

/-- **The division by the content** always has a quotient. -/
theorem ComputesGcd.quotient?_content (h : ComputesGcd ps gcd) {p : Polynomial} (hp : p.WellFormed)
    (hin : Within (x :: ps) p.toMv) (hp₀ : p.toMv ≠ 0) :
    p.quotient? (contentIn gcd x p) = some (primitivePartIn gcd x p) := by
  obtain ⟨hwf, -, -⟩ := h.content_spec hp hin
  obtain ⟨-, -, -, hne, hsplit⟩ := h.primitivePart_spec hp hin hp₀
  obtain ⟨q, hq, -⟩ := quotient?_spec hp hwf hne (Dvd.intro _ hsplit.symm)
  rw [primitivePartIn, if_neg ((isZero_iff hwf).not.2 hne), hq]
  rfl

/-- The primitive part has the degree of the polynomial. -/
theorem ComputesGcd.degreeIn_primitivePart (h : ComputesGcd ps gcd) {p : Polynomial}
    (hp : p.WellFormed) (hin : Within (x :: ps) p.toMv) (hp₀ : p.toMv ≠ 0) :
    (primitivePartIn gcd x p).degreeIn x = p.degreeIn x := by
  obtain ⟨hwf, hprim, hfree, hne, hsplit⟩ := h.primitivePart_spec hp hin hp₀
  have hdeg := natDegree_univariate_mul (x := x) hne hprim.ne_zero
  rw [← hsplit, hfree, zero_add] at hdeg
  rw [degreeIn_eq_natDegree hwf, degreeIn_eq_natDegree hp, hdeg]

/-! ### The remainder sequence -/

/-- The common divisors of `f` and a primitive `g` are those of `g` and a primitive `k`, if `f` and
`k` agree up to free factors and a multiple of `g`. -/
theorem isGcd_of_remainder {f g k c d q r l : MvPolynomial Parameter ℚ} (hf : Primitive x f)
    (hg : Primitive x g) (hc : Free x c) (hc₀ : c ≠ 0) (hd : Free x d) (hd₀ : d ≠ 0)
    (heq : c * f = q * g + r) (hr : r = d * k) (h : IsGcd g k l) : IsGcd f g l := by
  intro e
  rw [h e, and_comm]
  refine and_congr_left fun heg => ⟨fun hek => ?_, fun hef => ?_⟩
  · apply (hg.of_dvd heg).dvd_of_dvd_mul hc hc₀
    rw [heq, hr]
    exact dvd_add (heg.mul_left q) (hek.mul_left d)
  · apply (hf.of_dvd hef).dvd_of_dvd_mul hd hd₀
    rw [← hr, show r = c * f - q * g by rw [heq]; ring]
    exact dvd_sub (hef.mul_left c) (heg.mul_left q)

/-- **The last primitive polynomial** of the remainder sequence is a greatest common divisor. -/
theorem ComputesGcd.primitiveGcd_spec (h : ComputesGcd ps gcd) {f g : Polynomial}
    (hf : f.WellFormed) (hg : g.WellFormed) (hfin : Within (x :: ps) f.toMv)
    (hgin : Within (x :: ps) g.toMv) (hfprim : Primitive x f.toMv) (hgprim : Primitive x g.toMv)
    (hpos : 0 < g.degreeIn x) :
    (primitiveGcd gcd x f g).WellFormed ∧
      IsGcd f.toMv g.toMv (primitiveGcd gcd x f g).toMv := by
  fun_induction primitiveGcd gcd x f g with
  | case1 f g remainder hzero =>
    obtain ⟨hr, -, -, c, q, hc, hc₀, heq⟩ :=
      pseudoRemainder_spec hf hg List.mem_cons_self hfin hgin hpos
    rw [(isZero_iff hr).1 hzero, add_zero] at heq
    -- without a remainder the divisor divides
    have hdvd : g.toMv ∣ f.toMv := hgprim.dvd_of_dvd_mul hc hc₀ ⟨q, by rw [heq, mul_comm]⟩
    exact ⟨hg, fun d => ⟨fun hd => ⟨hd.trans hdvd, hd⟩, fun hd => hd.2⟩⟩
  | case2 f g remainder hzero hdeg =>
    obtain ⟨hr, -, -, c, q, -, -, heq⟩ :=
      pseudoRemainder_spec hf hg List.mem_cons_self hfin hgin hpos
    have hne : remainder.toMv ≠ 0 := (isZero_iff hr).not.1 hzero
    have hfree : Free x remainder.toMv := (degreeIn_eq_natDegree hr x).symm.trans hdeg
    -- a common divisor divides the remainder, so it is free and a unit
    refine ⟨wellFormed_one, fun d => ?_⟩
    rw [toMv_one]
    refine ⟨fun hd => ⟨hd.trans (one_dvd _), hd.trans (one_dvd _)⟩,
      fun ⟨hdf, hdg⟩ => ?_⟩
    have hdr : d ∣ remainder.toMv := by
      rw [show remainder.toMv = c * f.toMv - q * g.toMv by rw [heq]; ring]
      exact dvd_sub (hdf.mul_left c) (hdg.mul_left q)
    exact (hfprim d (hfree.of_dvd hne hdr) hdf).dvd
  | case3 f g remainder hzero hdeg next _ ih =>
    obtain ⟨hr, hrin, -, c, q, hc, hc₀, heq⟩ :=
      pseudoRemainder_spec hf hg List.mem_cons_self hfin hgin hpos
    have hne : remainder.toMv ≠ 0 := (isZero_iff hr).not.1 hzero
    obtain ⟨hnext, hprim, hfree, hcontent, hsplit⟩ := h.primitivePart_spec hr hrin hne
    have hnextin : Within (x :: ps) next.toMv := hrin.of_dvd hne (hsplit ▸ dvd_mul_left _ _)
    have hnextdeg : 0 < next.degreeIn x := by
      rw [h.degreeIn_primitivePart hr hrin hne]
      exact Nat.pos_of_ne_zero hdeg
    obtain ⟨hwf, hgcd⟩ := ih hg hnext hgin hnextin hgprim hprim hnextdeg
    exact ⟨hwf, isGcd_of_remainder hfprim hgprim hc hc₀ hfree hcontent heq hsplit hgcd⟩
  | case4 f g remainder hzero hdeg next hnot =>
    obtain ⟨hr, hrin, hlt, -⟩ := pseudoRemainder_spec hf hg List.mem_cons_self hfin hgin hpos
    have hne : remainder.toMv ≠ 0 := (isZero_iff hr).not.1 hzero
    rw [h.degreeIn_primitivePart hr hrin hne] at hnot
    exact absurd (hlt.resolve_left hne) hnot

/-! ### All parameters -/

/-- Without parameters only units are not zero. -/
theorem isUnit_of_within_nil {p : Polynomial} (hp : p.WellFormed) (hin : Within [] p.toMv)
    (hne : p.toMv ≠ 0) : IsUnit p.toMv := by
  have hconst : p.toMv = MvPolynomial.C (p.toMv.coeff 0) := by
    ext e
    rw [MvPolynomial.coeff_C]
    split
    case isTrue he => rw [he]
    case isFalse he =>
      refine coeff_termSum_of_forall_ne fun t ht hte => he ?_
      rw [← hte]
      ext x
      exact ((free_iff_forall_terms hp).1 (hin x (by simp)) t ht).symm
  rw [hconst] at hne ⊢
  exact (isUnit_iff_ne_zero.2 fun hzero => hne (by rw [hzero, MvPolynomial.C_0])).map MvPolynomial.C

/-- A constant is zero or a unit. -/
theorem isUnit_of_isConstant {p : Polynomial} (h : p.isConstant = true) (hne : p.toMv ≠ 0) :
    IsUnit p.toMv := by
  obtain ⟨c, hc⟩ := Option.isSome_iff_exists.1 h
  rw [toMv_of_constant? hc] at hne ⊢
  exact (isUnit_iff_ne_zero.2 fun hzero => hne (by rw [hzero, MvPolynomial.C_0])).map MvPolynomial.C

/-- The greatest common divisor with zero is the other polynomial. -/
theorem monic_isGcd_zero {p : Polynomial} (hp : p.WellFormed) :
    p.monic.WellFormed ∧ IsGcd 0 p.toMv p.monic.toMv :=
  ⟨hp.monic, (isGcd_zero_left _).congr (associated_monic hp)⟩

theorem one_isGcd_of_isUnit {a b : MvPolynomial Parameter ℚ} (h : IsUnit a ∨ IsUnit b) :
    (1 : Polynomial).WellFormed ∧ IsGcd a b (1 : Polynomial).toMv := by
  refine ⟨wellFormed_one, ?_⟩
  rw [toMv_one]
  rcases h with ha | hb
  · exact isGcd_one_of_isUnit b ha
  · exact (isGcd_one_of_isUnit a hb).symm

/-- The remainder sequence of the primitive parts of two polynomials. -/
theorem ComputesGcd.primitiveGcd_primitivePart (h : ComputesGcd ps gcd) {a b : Polynomial}
    (ha : a.WellFormed) (hb : b.WellFormed) (hain : Within (x :: ps) a.toMv)
    (hbin : Within (x :: ps) b.toMv) (ha₀ : a.toMv ≠ 0) (hb₀ : b.toMv ≠ 0)
    (hpos : 0 < b.degreeIn x) :
    (primitiveGcd gcd x (primitivePartIn gcd x a) (primitivePartIn gcd x b)).WellFormed ∧
      IsGcd (primitivePartIn gcd x a).toMv (primitivePartIn gcd x b).toMv
        (primitiveGcd gcd x (primitivePartIn gcd x a) (primitivePartIn gcd x b)).toMv := by
  obtain ⟨hpa, hprima, -, -, hsplita⟩ := h.primitivePart_spec ha hain ha₀
  obtain ⟨hpb, hprimb, -, -, hsplitb⟩ := h.primitivePart_spec hb hbin hb₀
  have hpain := hain.of_dvd ha₀ (Dvd.intro_left _ hsplita.symm)
  have hpbin := hbin.of_dvd hb₀ (Dvd.intro_left _ hsplitb.symm)
  rw [← h.degreeIn_primitivePart hb hbin hb₀] at hpos
  exact h.primitiveGcd_spec hpa hpb hpain hpbin hprima hprimb hpos

/-- **The greatest common divisor of the contents** times that of the primitive parts. -/
theorem ComputesGcd.monic_mul (h : ComputesGcd ps gcd) {a b last : Polynomial}
    (ha : a.WellFormed) (hb : b.WellFormed) (hain : Within (x :: ps) a.toMv)
    (hbin : Within (x :: ps) b.toMv) (ha₀ : a.toMv ≠ 0) (hb₀ : b.toMv ≠ 0)
    (hlast : last.WellFormed)
    (hgcd : IsGcd (primitivePartIn gcd x a).toMv (primitivePartIn gcd x b).toMv last.toMv) :
    (gcd (contentIn gcd x a) (contentIn gcd x b) * last).monic.WellFormed ∧
      IsGcd a.toMv b.toMv (gcd (contentIn gcd x a) (contentIn gcd x b) * last).monic.toMv := by
  obtain ⟨hca, hcain, -⟩ := h.content_spec ha hain
  obtain ⟨hcb, hcbin, -⟩ := h.content_spec hb hbin
  obtain ⟨-, hprima, hfreea, hca₀, hsplita⟩ := h.primitivePart_spec ha hain ha₀
  obtain ⟨-, hprimb, hfreeb, hcb₀, hsplitb⟩ := h.primitivePart_spec hb hbin hb₀
  obtain ⟨hcwf, hcgcd⟩ := h _ _ hca hcb hcain hcbin
  have hprod := hcgcd.mul hgcd hfreea hfreeb hca₀ hcb₀ hprima hprimb
  rw [← hsplita, ← hsplitb, ← toMv_mul hcwf hlast] at hprod
  exact ⟨(hcwf.mul hlast).monic, hprod.congr (associated_monic (hcwf.mul hlast))⟩

/-- **Greatest common divisors over a list of parameters.** -/
theorem computesGcd_gcdIn (ps : List Parameter) : ComputesGcd ps (gcdIn ps) := by
  -- The first parameter is the main one, and the hypothesis is about the contents over the others.
  induction ps with
  | nil =>
    intro a b ha hb hain hbin
    rw [gcdIn]
    split_ifs with ha₀ hb₀
    · rw [(isZero_iff ha).1 ha₀]
      exact monic_isGcd_zero hb
    · rw [(isZero_iff hb).1 hb₀]
      exact (monic_isGcd_zero ha).imp_right IsGcd.symm
    · rw [isZero_iff ha] at ha₀
      exact one_isGcd_of_isUnit (Or.inl (isUnit_of_within_nil ha hain ha₀))
  | cons x ps ih =>
    intro a b ha hb hain hbin
    rw [gcdIn]
    split_ifs with ha₀ hb₀ hconst hadeg hbdeg hle
    · rw [(isZero_iff ha).1 ha₀]
      exact monic_isGcd_zero hb
    · rw [(isZero_iff hb).1 hb₀]
      exact (monic_isGcd_zero ha).imp_right IsGcd.symm
    all_goals rw [isZero_iff ha] at ha₀
    all_goals rw [isZero_iff hb] at hb₀
    · rw [Bool.or_eq_true] at hconst
      refine one_isGcd_of_isUnit (hconst.imp ?_ ?_)
      · exact fun hc => isUnit_of_isConstant hc ha₀
      · exact fun hc => isUnit_of_isConstant hc hb₀
    · -- next to a polynomial free of the main parameter only the content matters
      rw [degreeIn_eq_natDegree ha] at hadeg
      obtain ⟨hwf, hin, hdvd⟩ := ih.content_spec hb hbin
      obtain ⟨hgwf, hgcd⟩ := ih _ _ ha hwf (hain.tail hadeg) hin
      exact ⟨hgwf, hgcd.of_forall_coeff hadeg ha₀ hdvd⟩
    · rw [degreeIn_eq_natDegree hb] at hbdeg
      obtain ⟨hwf, hin, hdvd⟩ := ih.content_spec ha hain
      obtain ⟨hgwf, hgcd⟩ := ih _ _ hwf hb hin (hbin.tail hbdeg)
      exact ⟨hgwf, (hgcd.symm.of_forall_coeff hbdeg hb₀ hdvd).symm⟩
    · obtain ⟨hlast, hgcd⟩ := ih.primitiveGcd_primitivePart ha hb hain hbin ha₀ hb₀
        (Nat.pos_of_ne_zero hbdeg)
      exact ih.monic_mul ha hb hain hbin ha₀ hb₀ hlast hgcd
    · -- the polynomial of greater degree comes first
      obtain ⟨hlast, hgcd⟩ := ih.primitiveGcd_primitivePart hb ha hbin hain hb₀ ha₀
        (Nat.pos_of_ne_zero hadeg)
      exact ih.monic_mul ha hb hain hbin ha₀ hb₀ hlast hgcd.symm

/-- **The greatest common divisor** of two polynomials is one: its divisors are their common
divisors. -/
theorem gcd_isGcd {a b : Polynomial} (ha : a.WellFormed) (hb : b.WellFormed) :
    (a.gcd b).WellFormed ∧ IsGcd a.toMv b.toMv (a.gcd b).toMv := by
  obtain ⟨hain, hbin⟩ := within_jointParameters ha hb
  exact computesGcd_gcdIn _ a b ha hb hain hbin

end Polynomial

end MarkovElimination
