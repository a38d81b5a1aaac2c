import MarkovElimination.Polynomial.Checked
import MarkovElimination.Proofs.Fault
import MarkovElimination.Proofs.Polynomial.Range

/-! # What the checked operations return

A checked operation **returns its result if its predicate holds**, and the fault of the range of
exponents otherwise (`ReturnsIf`). In particular it meets none of its other faults: every step of a
loop comes closer to the end, and the content of a polynomial divides it. -/

namespace MarkovElimination

namespace Polynomial

variable {x : Parameter} {ps : List Parameter} {S : Parameter → Prop} {a b f g p d : Polynomial}

/-! ### Exact division -/

/-- **The loop of an exact division** always comes to its end. -/
theorem returnsIf_cancelLeading (hps : ps.Pairwise (· < ·))
    {divisor quotient remainder : Polynomial} {lead : Term} (hd : divisor.WellFormed)
    (hlead : divisor.leading? = some lead) (hr : remainder.WellFormed)
    (hdin : Within ps divisor.toMv) (hrin : Within ps remainder.toMv) :
    ReturnsIf (divisionFits ps divisor lead remainder)
      (divideRemainder ps divisor lead quotient remainder)
      (cancelLeading ps divisor lead quotient remainder) := by
  fun_induction divideRemainder ps divisor lead quotient remainder with
  | case1 quotient remainder hnone =>
    rw [divisionFits, cancelLeading, hnone]
    exact .pure _
  | case2 quotient remainder t ht hnone =>
    rw [divisionFits, cancelLeading, ht]
    simp only [hnone]
    exact .pure _
  | case3 quotient remainder t ht m hm factor next hless ih =>
    obtain ⟨-, hmsum, hnext⟩ := wellFormed_cancel hr hd ht hlead hm
    rw [divisionFits, cancelLeading, ht]
    simp only [hm]
    rw [if_pos hless, if_pos hless]
    refine .require fun _ => ih hnext ?_
    exact within_cancel hr hrin hdin ht hmsum factor.coefficient
  | case4 quotient remainder t ht m hm factor next hnot =>
    -- Cancelling the leading term lowers the rank, so the loop never stalls.
    exact absurd (rank_cancel_less hps hr hd hrin ht hlead hm) hnot

/-- **Exact division** answers if it stays in range. -/
theorem returnsIf_divExact (hp : p.WellFormed) (hd : d.WellFormed) (hd₀ : d.toMv ≠ 0) :
    ReturnsIf (p.quotientFits d) (p.quotient? d) (p.divExact d) := by
  obtain ⟨lead, hlead⟩ := exists_leading? hd₀
  rw [divExact, if_neg ((isZero_iff hd).not.2 hd₀), quotient?, quotientFits, hlead, isConstant]
  cases d.constant? with
  | some c => exact .pure _
  | none =>
    obtain ⟨hpin, hdin⟩ := within_jointParameters hp hd
    exact returnsIf_cancelLeading (pairwise_jointParameters p d) hd hlead hp hdin hpin

/-- **Exact division**: a polynomial in range is divided by each of its divisors. -/
theorem divExact_spec (hp : p.WellFormed) (hrange : p.InRange) (hd : d.WellFormed)
    (hd₀ : d.toMv ≠ 0) (hdvd : d.toMv ∣ p.toMv) :
    ∃ q, p.divExact d = .ok (some q) ∧ q.WellFormed ∧ q.toMv * d.toMv = p.toMv := by
  obtain ⟨q, hrun, hq, hval⟩ := quotient?_spec hp hd hd₀ hdvd
  refine ⟨q, ?_, hq, hval⟩
  rw [(returnsIf_divExact hp hd hd₀).eq_ok (quotientFits_of_dvd hp hrange hd hdvd), hrun]

/-! ### Pseudo-division -/

/-- A step of pseudo-division that fits stays in range. -/
theorem Over.pseudoStep (hf : f.Over (· ∈ x :: ps)) (hg : g.Over (· ∈ x :: ps))
    (hfits : pseudoStepFits x f g = true) : (pseudoStep x f g).Over (· ∈ x :: ps) := by
  rw [pseudoStepFits, Bool.and_eq_true] at hfits
  obtain ⟨hshift, hval⟩ := toMv_shiftedTop hf.wellFormed x g
  have hshiftover : (mulTerm ⟨.ofPower x (f.degreeIn x - g.degreeIn x), 1⟩
      (f.coefficientIn x (f.degreeIn x))).Over (· ∈ x :: ps) := by
    refine over_of_within hshift ((inRange_iff hshift).2 fun y => ?_) ?_
    · exact lt_of_le_of_lt (Nat.le_add_right _ _)
        ((mulFits_iff hshift hg.wellFormed).1 hfits.2 y)
    · rw [hval]
      exact within_pseudoFactor hf.wellFormed List.mem_cons_self hf.within g
  exact ((hg.coefficientIn x _).mul hf hfits.1).sub (hshiftover.mul hg hfits.2)

/-- **Pseudo-division** always comes to its end. What it leaves is in range if its steps are. -/
theorem returnsIf_pseudoRemainder (hf : f.Over (· ∈ x :: ps)) (hg : g.Over (· ∈ x :: ps))
    (hpos : 0 < g.degreeIn x) :
    ReturnsIf (pseudoRemainderFits x f g) (pseudoRemainder x f g) (checkedPseudoRemainder x f g) ∧
      (pseudoRemainderFits x f g = true → (pseudoRemainder x f g).Over (· ∈ x :: ps)) := by
  fun_induction pseudoRemainder x f g with
  | case1 f hstop =>
    rw [pseudoRemainderFits, checkedPseudoRemainder, if_pos hstop, if_pos hstop]
    exact ⟨.pure _, fun _ => hf⟩
  | case2 f hgo next hless ih =>
    rw [pseudoRemainderFits, checkedPseudoRemainder, if_neg hgo, if_neg hgo]
    dsimp only
    rw [if_pos hless, if_pos hless]
    refine ⟨.require fun hfits => (ih (hf.pseudoStep hg hfits)).1, fun hfits => ?_⟩
    rw [Bool.and_eq_true] at hfits
    exact (ih (hf.pseudoStep hg hfits.1)).2 hfits.2
  | case3 f hgo next hnot =>
    -- A step cancels the leading coefficient, so the loop never stalls.
    rw [Bool.or_eq_true, decide_eq_true_eq, not_or, not_lt] at hgo
    exact absurd (degreeIn_pseudoStep_lt hf.wellFormed hg.wellFormed hpos hgo.2) hnot

/-! ### Greatest common divisors -/

/-- A greatest common divisor is in range. -/
theorem over_gcdIn (ha : a.Over (· ∈ ps)) (hb : b.Over (· ∈ ps)) :
    (gcdIn ps a b).Over (· ∈ ps) := by
  obtain ⟨hwf, hgcd⟩ :=
    computesGcd_gcdIn ps a b ha.wellFormed hb.wellFormed ha.within hb.within
  by_cases ha₀ : a.toMv = 0
  · by_cases hb₀ : b.toMv = 0
    · have hzero : (gcdIn ps a b).toMv = 0 :=
        zero_dvd_iff.1 ((hgcd 0).2 ⟨ha₀ ▸ dvd_rfl, hb₀ ▸ dvd_rfl⟩)
      rw [hwf.eq_zero_iff.2 hzero]
      exact over_const 0
    · exact hb.of_dvd hb₀ hwf hgcd.dvd_right
  · exact ha.of_dvd ha₀ hwf hgcd.dvd_left

/-- The checked computation of greatest common divisors over the listed parameters does what the
unbounded one does, as long as it stays in range. -/
def GcdReturns (ps : List Parameter) : Prop :=
  ∀ a b, a.Over (· ∈ ps) → b.Over (· ∈ ps) →
    ReturnsIf (gcdInFits ps a b) (gcdIn ps a b) (checkedGcdIn ps a b)

/-- A coefficient that is zero leaves the greatest common divisor of the others as it is. -/
theorem checkedGcdIn_of_isZero (ha : a.WellFormed) (hmonic : a.IsMonic) (hb : b.WellFormed)
    (hzero : b.isZero = true) : checkedGcdIn ps a b = .ok a := by
  have hamonic : a.monic = a :=
    IsMonic.eq_of_associated ha.monic ha (isMonic_monic a) hmonic (associated_monic ha).symm
  obtain rfl := hb.eq_zero_iff.2 ((isZero_iff hb).1 hzero)
  cases ha₀ : a.isZero with
  | false => cases ps <;> simp [checkedGcdIn, ha₀, hzero, hamonic, pure, Except.pure]
  | true =>
    obtain rfl := ha.eq_zero_iff.2 ((isZero_iff ha).1 ha₀)
    cases ps <;> rfl

/-- **Greatest common divisors** taken one after the other. -/
theorem GcdReturns.foldlM (h : GcdReturns ps) {cs : List Polynomial}
    (hcs : ∀ c ∈ cs, c.Over (· ∈ ps)) {common : Polynomial} (hover : common.Over (· ∈ ps))
    (hmonic : common.IsMonic) :
    ReturnsIf
      (BoundedGcd.foldFits ⟨gcdIn ps, gcdInFits ps⟩ common (cs.filter fun c => !c.isZero))
      ((cs.filter fun c => !c.isZero).foldl (gcdIn ps) common)
      (cs.foldlM (checkedGcdIn ps) common) := by
  induction cs generalizing common with
  | nil => exact .pure _
  | cons c cs ih =>
    rw [List.forall_mem_cons] at hcs
    rw [List.foldlM_cons]
    cases hzero : c.isZero with
    | true =>
      -- A monic result is its own greatest common divisor with zero, and zeros are not listed.
      rw [checkedGcdIn_of_isZero hover.wellFormed hmonic hcs.1.wellFormed hzero,
        List.filter_cons_of_neg (by simp [hzero])]
      exact ih hcs.2 hover hmonic
    | false =>
      rw [List.filter_cons_of_pos (by simp [hzero])]
      exact (h common c hover hcs.1).bind fun _ =>
        ih hcs.2 (over_gcdIn hover hcs.1) (isMonic_gcdIn ps common c)

/-- **The content** is computed from all coefficients, those that are zero included. -/
theorem GcdReturns.content (h : GcdReturns ps) (hp : p.Over (· ∈ x :: ps)) :
    ReturnsIf (contentFits ⟨gcdIn ps, gcdInFits ps⟩ x p) (contentIn (gcdIn ps) x p)
      (checkedContent (checkedGcdIn ps) x p) := by
  rw [contentFits, contentIn, coefficientsIn_eq_filter]
  refine h.foldlM (fun c hc => ?_) (over_const 0) isMonic_zero
  obtain ⟨i, -, rfl⟩ := List.mem_map.1 hc
  exact (hp.coefficientIn x i).tail (degreeIn_coefficientIn hp.wellFormed x i)

/-- The content is in range. -/
theorem Over.content (hp : p.Over (· ∈ x :: ps)) :
    (contentIn (gcdIn ps) x p).Over (· ∈ ps) := by
  refine List.foldlRecOn (p.coefficientsIn x) _ (over_const 0) fun common hover c hc => ?_
  obtain ⟨i, -, rfl⟩ := List.mem_map.1 hc
  exact over_gcdIn hover ((hp.coefficientIn x i).tail (degreeIn_coefficientIn hp.wellFormed x i))

/-- The primitive part is in range. -/
theorem Over.primitivePart (hp : p.Over (· ∈ x :: ps)) (hp₀ : p.toMv ≠ 0) :
    (primitivePartIn (gcdIn ps) x p).Over (· ∈ x :: ps) := by
  obtain ⟨hwf, -, -, -, hsplit⟩ :=
    (computesGcd_gcdIn ps).primitivePart_spec hp.wellFormed hp.within hp₀
  exact hp.of_dvd hp₀ hwf (Dvd.intro_left _ hsplit.symm)

/-- **The primitive part**: the content divides, so only its computation can leave the range. -/
theorem GcdReturns.primitivePart (h : GcdReturns ps) (hp : p.Over (· ∈ x :: ps))
    (hp₀ : p.toMv ≠ 0) :
    ReturnsIf (contentFits ⟨gcdIn ps, gcdInFits ps⟩ x p) (primitivePartIn (gcdIn ps) x p)
      (checkedPrimitivePart (checkedGcdIn ps) x p) := by
  have hgcd := computesGcd_gcdIn ps
  obtain ⟨hwf, -, -⟩ := hgcd.content_spec hp.wellFormed hp.within
  obtain ⟨-, -, -, hne, hsplit⟩ := hgcd.primitivePart_spec hp.wellFormed hp.within hp₀
  have hfits : p.quotientFits (contentIn (gcdIn ps) x p) = true :=
    quotientFits_of_dvd hp.wellFormed hp.inRange hwf (Dvd.intro _ hsplit.symm)
  rw [checkedPrimitivePart, ← Bool.and_true (contentFits _ _ _)]
  refine (h.content hp).bind fun _ => ?_
  rw [if_neg ((isZero_iff hwf).not.2 hne), (returnsIf_divExact hp.wellFormed hwf hne).eq_ok hfits,
    hgcd.quotient?_content hp.wellFormed hp.within hp₀]
  exact .pure _

/-- **The remainder sequence** always comes to its end. -/
theorem GcdReturns.remainderSequence (h : GcdReturns ps) (hf : f.Over (· ∈ x :: ps))
    (hg : g.Over (· ∈ x :: ps)) (hpos : 0 < g.degreeIn x) :
    ReturnsIf (primitiveGcdFits ⟨gcdIn ps, gcdInFits ps⟩ x f g) (primitiveGcd (gcdIn ps) x f g)
      (checkedPrimitiveGcd (checkedGcdIn ps) x f g) := by
  have hgcd := computesGcd_gcdIn ps
  fun_induction primitiveGcd (gcdIn ps) x f g with
  | case1 f g remainder hzero =>
    rw [primitiveGcdFits, checkedPrimitiveGcd]
    refine (returnsIf_pseudoRemainder hf hg hpos).1.bind fun _ => ?_
    rw [if_pos hzero, if_pos (by rw [Bool.or_eq_true]; exact .inl hzero)]
    exact .pure _
  | case2 f g remainder hzero hdeg =>
    rw [primitiveGcdFits, checkedPrimitiveGcd]
    refine (returnsIf_pseudoRemainder hf hg hpos).1.bind fun _ => ?_
    rw [if_neg hzero, if_pos hdeg,
      if_pos (by rw [Bool.or_eq_true, decide_eq_true_eq]; exact .inr hdeg)]
    exact .pure _
  | case3 f g remainder hzero hdeg next hless ih =>
    obtain ⟨hrem, hremover⟩ := returnsIf_pseudoRemainder hf hg hpos
    rw [primitiveGcdFits, checkedPrimitiveGcd]
    refine hrem.bind fun hfits => ?_
    have hover := hremover hfits
    have hne : remainder.toMv ≠ 0 := (isZero_iff hover.wellFormed).not.1 hzero
    rw [if_neg hzero, if_neg hdeg,
      if_neg (by rw [Bool.or_eq_true, decide_eq_true_eq]; exact not_or.2 ⟨hzero, hdeg⟩)]
    refine (h.primitivePart hover hne).bind fun _ => ?_
    rw [if_pos hless, if_pos hless]
    refine ih hg (hover.primitivePart hne) ?_
    rw [hgcd.degreeIn_primitivePart hover.wellFormed hover.within hne]
    exact Nat.pos_of_ne_zero hdeg
  | case4 f g remainder hzero hdeg next hnot =>
    -- A primitive part has the degree of the remainder, which has become less.
    obtain ⟨hwf, hin, hlt, -⟩ := pseudoRemainder_spec hf.wellFormed hg.wellFormed
      List.mem_cons_self hf.within hg.within hpos
    have hne : remainder.toMv ≠ 0 := (isZero_iff hwf).not.1 hzero
    rw [hgcd.degreeIn_primitivePart hwf hin hne] at hnot
    exact absurd (hlt.resolve_left hne) hnot

/-- The remainder sequence of the primitive parts of two polynomials. -/
theorem GcdReturns.remainderSequence_primitivePart (h : GcdReturns ps)
    (ha : a.Over (· ∈ x :: ps)) (hb : b.Over (· ∈ x :: ps)) (ha₀ : a.toMv ≠ 0)
    (hb₀ : b.toMv ≠ 0) (hpos : 0 < b.degreeIn x) :
    ReturnsIf (primitiveGcdFits ⟨gcdIn ps, gcdInFits ps⟩ x (primitivePartIn (gcdIn ps) x a)
        (primitivePartIn (gcdIn ps) x b))
      (primitiveGcd (gcdIn ps) x (primitivePartIn (gcdIn ps) x a) (primitivePartIn (gcdIn ps) x b))
      (checkedPrimitiveGcd (checkedGcdIn ps) x (primitivePartIn (gcdIn ps) x a)
        (primitivePartIn (gcdIn ps) x b)) := by
  refine h.remainderSequence (ha.primitivePart ha₀) (hb.primitivePart hb₀) ?_
  rwa [(computesGcd_gcdIn ps).degreeIn_primitivePart hb.wellFormed hb.within hb₀]

/-- The product of two factors of a polynomial in range can be computed. -/
theorem mulFits_of_dvd (hp : p.WellFormed) (hd : d.WellFormed) (ha : a.WellFormed)
    (hrange : a.InRange) (ha₀ : a.toMv ≠ 0) (hdvd : (p * d).toMv ∣ a.toMv) :
    p.mulFits d = true := by
  have hne := ne_zero_of_dvd_ne_zero ha₀ hdvd
  refine (mulFits_iff hp hd).2 fun x => ?_
  rw [degreeIn_add_of_mul (hp.mul hd) hp hd hne (toMv_mul hp hd).symm]
  exact (hrange.of_dvd ha (hp.mul hd) ha₀ hdvd).degreeIn_lt x

/-- **The greatest common divisor of the contents** times the last polynomial of the remainder
sequence: the product divides both arguments, so it cannot leave the range. -/
theorem GcdReturns.monic_mul (h : GcdReturns ps) (ha : a.Over (· ∈ x :: ps))
    (hb : b.Over (· ∈ x :: ps)) (ha₀ : a.toMv ≠ 0) (hb₀ : b.toMv ≠ 0) {fits : Bool}
    {last : Polynomial} (sequence : Polynomial → Polynomial → Except Fault Polynomial)
    (hlast : ReturnsIf fits last
      (sequence (primitivePartIn (gcdIn ps) x a) (primitivePartIn (gcdIn ps) x b)))
    (hwf : last.WellFormed) (hisgcd : IsGcd (primitivePartIn (gcdIn ps) x a).toMv
      (primitivePartIn (gcdIn ps) x b).toMv last.toMv) :
    ReturnsIf (contentFits ⟨gcdIn ps, gcdInFits ps⟩ x a &&
        contentFits ⟨gcdIn ps, gcdInFits ps⟩ x b &&
        gcdInFits ps (contentIn (gcdIn ps) x a) (contentIn (gcdIn ps) x b) && fits)
      (gcdIn ps (contentIn (gcdIn ps) x a) (contentIn (gcdIn ps) x b) * last).monic
      (do
        let first ← checkedContent (checkedGcdIn ps) x a
        let second ← checkedContent (checkedGcdIn ps) x b
        let content ← checkedGcdIn ps first second
        let f ← checkedPrimitivePart (checkedGcdIn ps) x a
        let g ← checkedPrimitivePart (checkedGcdIn ps) x b
        let last ← sequence f g
        let product ← content.checkedMul last
        Pure.pure product.monic) := by
  obtain ⟨-, hdvd⟩ := (computesGcd_gcdIn ps).monic_mul ha.wellFormed hb.wellFormed ha.within
    hb.within ha₀ hb₀ hwf hisgcd
  have hcontent : (gcdIn ps (contentIn (gcdIn ps) x a) (contentIn (gcdIn ps) x b)).Over
      (· ∈ ps) :=
    over_gcdIn ha.content hb.content
  set content := gcdIn ps (contentIn (gcdIn ps) x a) (contentIn (gcdIn ps) x b)
  have hmul : content.mulFits last = true := by
    refine mulFits_of_dvd hcontent.wellFormed hwf ha.wellFormed ha.inRange ha₀ ?_
    exact (associated_monic (hcontent.wellFormed.mul hwf)).dvd.trans hdvd.dvd_left
  rw [Bool.and_assoc, Bool.and_assoc]
  refine (h.content ha).bind fun hfirst => (h.content hb).bind fun hsecond => ?_
  refine (h _ _ ha.content hb.content).bind fun _ => ?_
  -- the contents are computed a second time for the primitive parts
  refine (h.primitivePart ha ha₀).bind_of_fits hfirst ?_
  refine (h.primitivePart hb hb₀).bind_of_fits hsecond ?_
  rw [← Bool.and_true fits]
  refine hlast.bind fun _ => ?_
  rw [checkedMul, if_pos hmul]
  exact .pure _

/-- **Greatest common divisors over a list of parameters.** -/
theorem gcdReturns (ps : List Parameter) : GcdReturns ps := by
  -- The first parameter is the main one, and the hypothesis is about the contents over the others.
  induction ps with
  | nil => exact fun a b _ _ => .pure _
  | cons x ps ih =>
    have hgcd := computesGcd_gcdIn ps
    intro a b ha hb
    rw [gcdInFits, gcdIn, checkedGcdIn]
    by_cases htrivial : (a.isZero || b.isZero || a.isConstant || b.isConstant) = true
    · rw [if_pos htrivial]
      split_ifs with ha₀ hb₀ hconst
      · exact .pure _
      · exact .pure _
      · exact .pure _
      all_goals
        rw [Bool.or_eq_true] at hconst
        simp only [Bool.or_eq_true, or_assoc] at htrivial
        tauto
    · rw [if_neg htrivial]
      simp only [Bool.or_eq_true, not_or] at htrivial
      obtain ⟨⟨⟨ha₀, hb₀⟩, haconst⟩, hbconst⟩ := htrivial
      have hconst : ¬(a.isConstant || b.isConstant) = true := by
        rw [Bool.or_eq_true]
        exact not_or.2 ⟨haconst, hbconst⟩
      rw [if_neg ha₀, if_neg ha₀, if_neg hb₀, if_neg hb₀, if_neg hconst, if_neg hconst]
      rw [isZero_iff ha.wellFormed] at ha₀
      rw [isZero_iff hb.wellFormed] at hb₀
      split_ifs with hadeg hbdeg hle
      · exact (ih.content hb).bind fun _ => ih _ _ (ha.tail hadeg) hb.content
      · exact (ih.content ha).bind fun _ => ih _ _ ha.content (hb.tail hbdeg)
      · obtain ⟨hlast, hisgcd⟩ := hgcd.primitiveGcd_primitivePart ha.wellFormed hb.wellFormed
          ha.within hb.within ha₀ hb₀ (Nat.pos_of_ne_zero hbdeg)
        exact ih.monic_mul ha hb ha₀ hb₀ (checkedPrimitiveGcd (checkedGcdIn ps) x)
          (ih.remainderSequence_primitivePart ha hb ha₀ hb₀ (Nat.pos_of_ne_zero hbdeg))
            hlast hisgcd
      · -- the polynomial of greater degree comes first
        obtain ⟨hlast, hisgcd⟩ := hgcd.primitiveGcd_primitivePart hb.wellFormed ha.wellFormed
          hb.within ha.within hb₀ ha₀ (Nat.pos_of_ne_zero hadeg)
        exact ih.monic_mul ha hb ha₀ hb₀
          (fun f g => checkedPrimitiveGcd (checkedGcdIn ps) x g f)
          (ih.remainderSequence_primitivePart hb ha hb₀ ha₀ (Nat.pos_of_ne_zero hadeg)) hlast
          hisgcd.symm

/-- **The monic greatest common divisor** is returned if it stays in range. -/
theorem returnsIf_checkedGcd (ha : a.WellFormed) (hb : b.WellFormed) (har : a.InRange)
    (hbr : b.InRange) : ReturnsIf (a.gcdFits b) (a.gcd b) (a.checkedGcd b) := by
  obtain ⟨hain, hbin⟩ := within_jointParameters ha hb
  exact gcdReturns _ a b (over_of_within ha har hain) (over_of_within hb hbr hbin)

/-! ### The greatest common divisor -/

/-- **The greatest common divisor.** With at most one parameter, and otherwise as long as the
products formed on the way have their exponents in range, the computation ends with a monic
polynomial that divides both arguments and that all their common divisors divide. It is zero only if
both are, and the arguments may be exchanged. -/
theorem checkedGcd_greatest (ha : a.WellFormed) (hb : b.WellFormed) (har : a.InRange)
    (hbr : b.InRange) (hfits : (jointParameters a b).length ≤ 1 ∨ a.gcdFits b = true) :
    ∃ g, a.checkedGcd b = .ok g ∧ g.WellFormed ∧ g.IsMonic ∧ (g = 0 ↔ a = 0 ∧ b = 0) ∧
      g.toMv ∣ a.toMv ∧ g.toMv ∣ b.toMv ∧
      (∀ d, d ∣ a.toMv → d ∣ b.toMv → d ∣ g.toMv) ∧
      ∀ g', b.checkedGcd a = .ok g' → g' = g := by
  have hrun : a.gcdFits b = true := hfits.elim (gcdFits_of_length_le_one ha hb har hbr) id
  obtain ⟨hwf, hgcd⟩ := gcd_isGcd ha hb
  refine ⟨a.gcd b, (returnsIf_checkedGcd ha hb har hbr).eq_ok hrun, hwf, isMonic_gcd a b,
    gcd_eq_zero_iff ha hb, hgcd.dvd_left, hgcd.dvd_right,
    fun d hda hdb => (hgcd d).2 ⟨hda, hdb⟩, fun g' hg' => ?_⟩
  rw [gcd_comm ha hb]
  exact ((returnsIf_checkedGcd hb ha hbr har).eq_of_eq_ok hg').2.symm

/-- The polynomial `p * q ^ n + c`. -/
def steep (n : ℕ) (c : ℚ) : Polynomial :=
  ⟨[⟨⟨[⟨"p", 1⟩, ⟨"q", n⟩]⟩, 1⟩, ⟨.one, c⟩]⟩

theorem checkedGcd_greatest_steep :
    (steep 1 1).gcdFits (steep 1 2) = true ∧ ∃ g, (steep 1 1).checkedGcd (steep 1 2) = .ok g ∧
      g.IsMonic ∧ g ≠ 0 := by
  have hfits : (steep 1 1).gcdFits (steep 1 2) = true := by cbv
  refine ⟨hfits, ?_⟩
  obtain ⟨g, hrun, -, hmonic, hzero, -⟩ := checkedGcd_greatest (a := steep 1 1) (b := steep 1 2)
    (by decide) (by decide) (by decide) (by decide) (.inr hfits)
  refine ⟨g, hrun, hmonic, fun h => ?_⟩
  exact absurd (hzero.1 h).1 (by decide)

/-- Two parameters: the exponent of `q` doubles when the leading coefficients in `p` are made
equal. -/
theorem checkedGcd_steep_overflow :
    (steep 2147483648 1).WellFormed ∧ (steep 2147483648 2).WellFormed ∧
      (steep 2147483648 1).InRange ∧ (steep 2147483648 2).InRange ∧
      (steep 2147483648 1).checkedGcd (steep 2147483648 2) = .error .degreeOverflow := by
  have hfits : (steep 2147483648 1).gcdFits (steep 2147483648 2) = false := by cbv
  refine ⟨by decide, by decide, by decide, by decide, ?_⟩
  exact (returnsIf_checkedGcd (by decide) (by decide) (by decide) (by decide)).eq_error hfits

end Polynomial

end MarkovElimination
