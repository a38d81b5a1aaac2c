import MarkovElimination.Proofs.RationalFunction.Grammar
import MarkovElimination.Proofs.RationalFunction.Numeral

/-! # Printed rational functions read back

A polynomial is printed term by term, and its text is read along the same structure: a sum of terms,
each a number times powers of parameters (`writesSum_render`). A fraction puts its parts in
parentheses if they have several terms. A numerator of one term needs none, and neither does a
denominator that is a single power. But **a denominator with several factors** is printed without
parentheses too, and the bar takes only the first of them: the text of `1/(p*q)` is read as `q/p`.
All other fractions read back as themselves, as long as the canonical form can be computed. -/

namespace MarkovElimination

open MvPolynomial (C X)
open Text Expression

/-! ### Digits -/

section Digits

variable (k : ℕ)

theorem digits_ne_nil : (toString k).toList ≠ [] := by
  rw [Nat.toString_eq_repr, Nat.toList_repr]
  exact Nat.toDigits_ne_nil

theorem isDigit_of_mem_digits : ∀ c ∈ (toString k).toList, c.isDigit = true := by
  intro c hc
  rw [Nat.toString_eq_repr, Nat.toList_repr] at hc
  exact Nat.isDigit_of_mem_toDigits (by decide) (by decide) hc

theorem digitsValue_digits : digitsValue (toString k).toList = k := by
  rw [Nat.toString_eq_repr, Nat.toList_repr]
  exact Nat.ofDigitChars_toDigits (by decide) (by decide)

theorem natural?_digits : natural? (toString k).toList = some k := by
  rw [natural?, if_pos ⟨digits_ne_nil k, List.all_eq_true.2 (isDigit_of_mem_digits k)⟩,
    digitsValue_digits]

/-- Digits are read as an exponent. -/
theorem unsigned?_digits (hk : k < degreeBound) :
    unsigned? degreeBound (toString k).toList = some k := by
  have hplus (rest : List Char) : (toString k).toList ≠ '+' :: rest := by
    intro heq
    have hdigit := isDigit_of_mem_digits k '+' (heq ▸ List.mem_cons_self)
    revert hdigit
    decide
  unfold unsigned?
  split
  case h_1 rest heq => exact absurd heq (hplus rest)
  case h_2 =>
    rw [natural?_digits]
    exact if_pos hk

/-- Digits are read as a number. -/
theorem readRational_digits : readRational (toString k).toList = .ok (k : ℚ) := by
  have hchars : ∀ c ∈ (toString k).toList, isMantissaChar c = true := fun c hc =>
    isMantissaChar_iff.2 (.inl (isDigit_of_mem_digits k c hc))
  have hnumber := forall_number_char hchars .none
  rw [List.append_nil] at hnumber
  have hparts : decimalParts (toString k).toList = .ok ((toString k).toList, 0) := by
    rw [decimalParts, splitOnce_eq_none_iff.2 (forall_not_isExponentMark hchars)]
    rfl
  have hpoint : splitOnce (· == '.') (toString k).toList = none := by
    refine splitOnce_eq_none_iff.2 fun c hc => ?_
    rw [beq_eq_false_iff_ne]
    rintro rfl
    have hdigit := isDigit_of_mem_digits k '.' hc
    revert hdigit
    decide
  have hvalue : mantissaValue (toString k).toList (toString k).toList 0 = .ok (k : ℚ) := by
    have hform : ¬(((toString k).toList.isEmpty && ([] : List Char).isEmpty) ||
        !((toString k).toList ++ []).all Char.isDigit) = true := by
      rw [List.append_nil, List.all_eq_true.2 (isDigit_of_mem_digits k)]
      simp
    rw [← bind_pure (mantissaValue _ _ _), mantissaValue_bind, hpoint]
    dsimp only [Option.getD_none]
    rw [if_neg hform, show decimalPlace? 0 ([] : List Char).length = some 0 by decide,
      List.append_nil, digitsValue_digits]
    dsimp only
    rw [scaleByTen, if_pos le_rfl]
    show Except.ok ((k * 1 : ℕ) : ℚ) = _
    rw [Nat.mul_one]
  rw [readRational_of_forall hnumber, readDecimalRational_eq, hparts]
  show (mantissaValue _ (splitSign (toString k).toList).2 0 >>= fun value =>
    pure (if (splitSign (toString k).toList).1 then -value else value)) = _
  rw [splitSign_of_mantissa hchars, hvalue]
  rfl

end Digits

/-! ### Texts and what they read as -/

variable {s s' : String} {n d n' : MvPolynomial Parameter ℚ}

/-- The text is a unary with the polynomial `n` as its value. -/
def WritesUnary (s : String) (n : MvPolynomial Parameter ℚ) : Prop :=
  ∃ ts, Spells s.toList ts ∧ ReadsUnary ts n 1

/-- The text begins a term with the value `n / d`. -/
def WritesTerm (s : String) (n d : MvPolynomial Parameter ℚ) : Prop :=
  ∃ ts, Spells s.toList ts ∧ ReadsTerm ts n d

/-- The text begins an expression with the polynomial `n` as its value. -/
def WritesSum (s : String) (n : MvPolynomial Parameter ℚ) : Prop :=
  ∃ ts, Spells s.toList ts ∧ ReadsSum ts n

theorem writesUnary_number (k : ℕ) : WritesUnary (toString k) (C (k : ℚ)) :=
  ⟨_, spells_digits (digits_ne_nil k) (isDigit_of_mem_digits k),
    readsUnary_number (readRational_digits k)⟩

theorem WritesUnary.minus (h : WritesUnary s n) : WritesUnary ("-" ++ s) (-n) := by
  obtain ⟨ts, hspells, hreads⟩ := h
  rw [WritesUnary, String.toList_append]
  exact ⟨_, hspells.symbol (s := .minus), hreads.minus⟩

theorem WritesUnary.term (h : WritesUnary s n) : WritesTerm s n 1 := by
  obtain ⟨ts, hspells, hreads⟩ := h
  exact ⟨ts, hspells, hreads.term⟩

/-- A symbol between two texts. -/
theorem spells_symbol_between {ts us : List Token} (h : Spells s.toList ts) (symbol : Symbol)
    (h' : Spells s'.toList us) :
    Spells (s ++ String.singleton symbol.char ++ s').toList (ts ++ .symbol symbol :: us) := by
  rw [String.toList_append, String.toList_append, String.toList_singleton, List.append_assoc]
  exact h.append (h'.symbol (s := symbol)) (delimited_symbol symbol s'.toList)

theorem WritesTerm.times (h : WritesTerm s n d) (h' : WritesUnary s' n')
    (hn : ∀ x, degree x n + degree x n' < degreeBound) (hd : ∀ x, degree x d < degreeBound) :
    WritesTerm (s ++ "*" ++ s') (n * n') d := by
  obtain ⟨ts, hspells, hreads⟩ := h
  obtain ⟨us, hspells', hreads'⟩ := h'
  have hterm := hreads.times hreads' hn fun x => by simpa using hd x
  rw [mul_one] at hterm
  exact ⟨_, spells_symbol_between hspells .times hspells', hterm⟩

theorem WritesTerm.over (h : WritesTerm s n d) (h' : WritesUnary s' n') (hne : n' ≠ 0)
    (hn : ∀ x, degree x n < degreeBound) (hd : ∀ x, degree x d + degree x n' < degreeBound) :
    WritesTerm (s ++ "/" ++ s') n (d * n') := by
  obtain ⟨ts, hspells, hreads⟩ := h
  obtain ⟨us, hspells', hreads'⟩ := h'
  exact ⟨_, spells_symbol_between hspells .over hspells', hreads.over hreads' hne hn hd⟩

theorem WritesTerm.sum (h : WritesTerm s n 1) : WritesSum s n := by
  obtain ⟨ts, hspells, hreads⟩ := h
  exact ⟨ts, hspells, hreads.sum⟩

/-- A symbol between blanks between two texts. -/
theorem spells_blank_between {ts us : List Token} (h : Spells s.toList ts) (symbol : Symbol)
    (h' : Spells s'.toList us) :
    Spells (s ++ String.ofList [' ', symbol.char, ' '] ++ s').toList
      (ts ++ .symbol symbol :: us) := by
  have hblank : isBlank ' ' = true := by decide
  rw [String.toList_append, String.toList_append, String.toList_ofList, List.append_assoc]
  exact h.append (((h'.blank hblank).symbol (s := symbol)).blank hblank) (delimited_blank hblank _)

theorem WritesSum.plus (h : WritesSum s n) (h' : WritesTerm s' n' 1)
    (hn : ∀ x, degree x n < degreeBound) (hn' : ∀ x, degree x n' < degreeBound) :
    WritesSum (s ++ " + " ++ s') (n + n') := by
  obtain ⟨ts, hspells, hreads⟩ := h
  obtain ⟨us, hspells', hreads'⟩ := h'
  exact ⟨_, spells_blank_between hspells .plus hspells', hreads.plus hreads' hn hn'⟩

theorem WritesSum.minus (h : WritesSum s n) (h' : WritesTerm s' n' 1)
    (hn : ∀ x, degree x n < degreeBound) (hn' : ∀ x, degree x n' < degreeBound) :
    WritesSum (s ++ " - " ++ s') (n - n') := by
  obtain ⟨ts, hspells, hreads⟩ := h
  obtain ⟨us, hspells', hreads'⟩ := h'
  exact ⟨_, spells_blank_between hspells .minus hspells', hreads.minus hreads' hn hn'⟩

theorem WritesSum.parenthesis (h : WritesSum s n) : WritesUnary ("(" ++ s ++ ")") n := by
  obtain ⟨ts, hspells, hreads⟩ := h
  have hclose : Spells ")".toList [.symbol .closeParenthesis] :=
    spells_nil.symbol (s := .closeParenthesis)
  refine ⟨_, ?_, hreads.parenthesis⟩
  rw [String.append_assoc, String.toList_append, String.toList_append]
  exact (hspells.append hclose (delimited_symbol .closeParenthesis [])).symbol
    (s := .openParenthesis)

/-! ### Terms -/

/-- A parameter whose name is an identifier. -/
def Writable (x : Parameter) : Prop := IsName x.toList

/-- A power of a parameter that can be written. -/
def Factor.Writable (f : Factor) : Prop :=
  MarkovElimination.Writable f.parameter ∧ f.exponent < degreeBound

theorem writesUnary_factor {f : Factor} (h : f.Writable) :
    WritesUnary (Monomial.renderFactor f) (X f.parameter ^ f.exponent) := by
  rw [Monomial.renderFactor]
  have hname := readsUnary_identifier f.parameter.toList
  have hpower := readsUnary_power f.parameter.toList (unsigned?_digits _ h.2) h.2
  rw [String.ofList_toList] at hname hpower
  split
  case isTrue hone =>
    rw [hone, pow_one]
    exact ⟨_, h.1.spells, hname⟩
  case isFalse =>
    exact ⟨_, spells_symbol_between h.1.spells .power
      (spells_digits (digits_ne_nil _) (isDigit_of_mem_digits _)), hpower⟩

theorem degree_one_lt (x : Parameter) : degree x 1 < degreeBound := by
  rw [degree_one]
  decide

theorem X_pow_eq_monomial (x : Parameter) (k : ℕ) :
    (X x ^ k : MvPolynomial Parameter ℚ) = MvPolynomial.monomial (Finsupp.single x k) 1 :=
  MvPolynomial.X_pow_eq_monomial

/-- The first factor of a monomial. -/
theorem monomial_exponentSum_cons (f : Factor) (fs : List Factor) :
    (MvPolynomial.monomial (Monomial.exponentSum (f :: fs)) 1 : MvPolynomial Parameter ℚ) =
      X f.parameter ^ f.exponent * MvPolynomial.monomial (Monomial.exponentSum fs) 1 := by
  rw [X_pow_eq_monomial, MvPolynomial.monomial_mul, one_mul, Monomial.exponentSum_cons]

/-- **The powers of a monomial** behind the beginning of a term. -/
theorem WritesTerm.factors {fs : List Factor} (h : WritesTerm s n d)
    (hfs : ∀ f ∈ fs, f.Writable)
    (hn : ∀ x, degree x n + Monomial.exponentSum fs x < degreeBound)
    (hd : ∀ x, degree x d < degreeBound) :
    WritesTerm ("*".intercalate (s :: fs.map Monomial.renderFactor))
      (n * MvPolynomial.monomial (Monomial.exponentSum fs) 1) d := by
  induction fs generalizing s n with
  | nil => simpa using h
  | cons f fs ih =>
    obtain ⟨hf, hfs⟩ := List.forall_mem_cons.1 hfs
    have hdegree (x : Parameter) : degree x n + degree x (X f.parameter ^ f.exponent) +
        Monomial.exponentSum fs x < degreeBound := by
      have hx := hn x
      rwa [Monomial.exponentSum_cons, Finsupp.add_apply, ← Nat.add_assoc,
        ← degree_monomial (one_ne_zero (α := ℚ)), ← X_pow_eq_monomial] at hx
    have hstep := h.times (writesUnary_factor hf)
      (fun x => (Nat.le_add_right _ _).trans_lt (hdegree x)) hd
    have hrest := ih hstep hfs fun x =>
      (Nat.add_le_add_right degree_mul_le _).trans_lt (hdegree x)
    rw [monomial_exponentSum_cons, ← mul_assoc, List.map_cons, String.intercalate_cons_cons,
      ← String.intercalate_cons_append]
    exact hrest

section Sign

variable (negative : Prop) [Decidable negative]

/-- The text of a sign. -/
def signText : String := if negative then "-" else ""

/-- A value with a sign. -/
noncomputable def signed (n : MvPolynomial Parameter ℚ) : MvPolynomial Parameter ℚ :=
  if negative then -n else n

theorem signed_mul : signed negative n * n' = signed negative (n * n') := by
  rw [signed, signed]
  split
  · rw [neg_mul]
  · rfl

theorem degree_signed (x : Parameter) : degree x (signed negative n) = degree x n := by
  rw [signed]
  split
  · exact degree_neg
  · rfl

theorem WritesUnary.signed (h : WritesUnary s n) :
    WritesUnary (signText negative ++ s) (MarkovElimination.signed negative n) := by
  rw [signText, MarkovElimination.signed]
  split
  · exact h.minus
  · rw [String.empty_append]
    exact h

/-- **The text of a number** behind a sign. -/
theorem writesTerm_renderRational {c : ℚ} (hc : 0 ≤ c) :
    WritesTerm (signText negative ++ renderRational c) (signed negative (C c)) 1 := by
  have hnum : toString c.num = toString c.num.toNat := by
    rw [Int.toString_eq_repr, Int.repr_eq_if, if_pos (Rat.num_nonneg.2 hc), Nat.toString_eq_repr]
  have hvalue : ((c.num.toNat : ℕ) : ℚ) = c.num := by
    rw [← Int.cast_natCast, Int.toNat_of_nonneg (Rat.num_nonneg.2 hc)]
  have hterm := ((writesUnary_number c.num.toNat).signed negative).term
  rw [hvalue] at hterm
  rw [renderRational, hnum]
  split
  case isTrue hden =>
    have hc' : (c.num : ℚ) = c := by
      rw [← Rat.num_div_den c, hden]
      simp
    rwa [hc'] at hterm
  case isFalse =>
    obtain ⟨ts, hspells, hreads⟩ := hterm
    obtain ⟨us, hspells', hreads'⟩ := writesUnary_number c.den
    rw [← String.append_assoc, ← String.append_assoc]
    refine ⟨_, spells_symbol_between hspells .over hspells', ?_⟩
    have hden : (c.den : ℚ) ≠ 0 := Nat.cast_ne_zero.2 c.den_ne_zero
    rw [signed] at hreads ⊢
    split
    case isTrue hneg =>
      rw [if_pos hneg, ← MvPolynomial.C_neg] at hreads
      have hquotient := hreads.over_number hreads' hden
      rwa [neg_div, Rat.num_div_den, MvPolynomial.C_neg] at hquotient
    case isFalse hneg =>
      rw [if_neg hneg] at hreads
      have hquotient := hreads.over_number hreads' hden
      rwa [Rat.num_div_den] at hquotient

end Sign

/-- A term that can be written. -/
def Term.Writable (t : Term) : Prop :=
  (∀ f ∈ t.monomial.factors, f.Writable) ∧ ∀ x, t.monomial.toFinsupp x < degreeBound

/-- The magnitude of a coefficient. -/
theorem magnitude_nonneg (c : ℚ) : 0 ≤ if c < 0 then -c else c := by
  split
  · rw [Left.nonneg_neg_iff]
    exact le_of_lt ‹c < 0›
  · exact not_lt.1 ‹¬c < 0›

/-- **The text of a term** behind a sign. -/
theorem writesTerm_renderTerm (negative : Prop) [Decidable negative] {t : Term} (h : t.Writable) :
    WritesTerm (signText negative ++ Polynomial.renderTerm t)
      (signed negative (MvPolynomial.monomial t.monomial.toFinsupp
        (if t.coefficient < 0 then -t.coefficient else t.coefficient))) 1 := by
  obtain ⟨⟨fs⟩, c⟩ := t
  obtain ⟨hfs, hdegree⟩ := h
  change ∀ x, Monomial.exponentSum fs x < degreeBound at hdegree
  have hnonneg := magnitude_nonneg c
  dsimp only
  set magnitude := if c < 0 then -c else c with hmagnitude
  have hnumber := writesTerm_renderRational negative hnonneg
  cases fs with
  | nil => exact hnumber
  | cons f fs =>
    have hscale : (MvPolynomial.monomial (Monomial.exponentSum (f :: fs)) magnitude :
        MvPolynomial Parameter ℚ) =
        C magnitude * MvPolynomial.monomial (Monomial.exponentSum (f :: fs)) 1 := by
      rw [MvPolynomial.C_mul_monomial, mul_one]
    have htext : Polynomial.renderTerm ⟨⟨f :: fs⟩, c⟩ =
        if magnitude = 1 then "*".intercalate ((f :: fs).map Monomial.renderFactor)
        else renderRational magnitude ++ "*" ++
          "*".intercalate ((f :: fs).map Monomial.renderFactor) := rfl
    show WritesTerm _ (signed negative
      (MvPolynomial.monomial (Monomial.exponentSum (f :: fs)) magnitude)) 1
    rw [htext, hscale]
    split
    case isTrue hone =>
      -- a coefficient of one is left out, and the sign stands in front of the first power
      rw [hone, MvPolynomial.C_1, one_mul, monomial_exponentSum_cons, ← signed_mul, List.map_cons,
        ← String.intercalate_cons_append]
      refine WritesTerm.factors
        ((writesUnary_factor (hfs f List.mem_cons_self)).signed negative).term
        (fun g hg => hfs g (List.mem_cons_of_mem f hg)) (fun x => ?_) degree_one_lt
      have hx := hdegree x
      rw [Monomial.exponentSum_cons, Finsupp.add_apply] at hx
      rwa [degree_signed, X_pow_eq_monomial, degree_monomial one_ne_zero]
    case isFalse =>
      rw [← signed_mul, ← String.append_assoc, ← String.append_assoc, List.map_cons,
        ← String.intercalate_cons_cons, ← List.map_cons]
      refine hnumber.factors hfs (fun x => ?_) degree_one_lt
      rw [degree_signed, degree_C, Nat.zero_add]
      exact hdegree x

/-! ### Polynomials -/

/-- The terms of a polynomial over names can be written. -/
theorem Polynomial.Over.writable {p : Polynomial} (h : p.Over Writable) {t : Term}
    (ht : t ∈ p.terms) : t.Writable := by
  have hwf := (h.wellFormed.2 t ht).1
  have hdegree (x : Parameter) : t.monomial.toFinsupp x ≤ p.degreeIn x := by
    rw [← Monomial.degreeIn_eq_toFinsupp hwf]
    exact Polynomial.degreeIn_le_iff.1 le_rfl t ht
  refine ⟨fun f hf => ?_, fun x => (hdegree x).trans_lt (h.degreeIn_lt x)⟩
  have hle := (Polynomial.exponent_le_exponentSum hf).trans (hdegree f.parameter)
  refine ⟨?_, hle.trans_lt (h.degreeIn_lt f.parameter)⟩
  by_contra hname
  have hpos := hwf.2 f hf
  rw [h.degreeIn_eq_zero f.parameter hname] at hle
  omega

/-- The view of a term is its magnitude with its sign. -/
theorem Term.toMv_eq_signed (t : Term) : t.toMv =
    signed (t.coefficient < 0) (MvPolynomial.monomial t.monomial.toFinsupp
      (if t.coefficient < 0 then -t.coefficient else t.coefficient)) := by
  rw [signed, Term.toMv]
  split
  · rw [map_neg, neg_neg]
  · rfl

/-- The degree of a term is in range, with or without its sign. -/
theorem Term.Writable.degree_lt {t : Term} (h : t.Writable) (c : ℚ) (x : Parameter) :
    degree x (MvPolynomial.monomial t.monomial.toFinsupp c) < degreeBound := by
  by_cases hc : c = 0
  · rw [hc, map_zero, degree_zero]
    decide
  · rw [degree_monomial hc]
    exact h.2 x

/-- **The terms behind the first one.** -/
theorem WritesSum.tail {ts : List Term} (h : WritesSum s n) (hn : ∀ x, degree x n < degreeBound)
    (hts : ∀ t ∈ ts, t.Writable) : WritesSum (s ++ Polynomial.renderTail ts)
    (n + Polynomial.termSum ts) := by
  induction ts generalizing s n with
  | nil => simpa [Polynomial.renderTail] using h
  | cons t ts ih =>
    obtain ⟨ht, hts⟩ := List.forall_mem_cons.1 hts
    have hstep : WritesSum
        (s ++ (if t.coefficient < 0 then " - " else " + ") ++ Polynomial.renderTerm t)
        (n + t.toMv) := by
      have hterm := writesTerm_renderTerm False ht
      rw [signText, if_neg not_false, String.empty_append, signed, if_neg not_false] at hterm
      rw [Term.toMv_eq_signed, signed]
      split
      case isTrue hneg =>
        rw [if_pos hneg] at hterm
        rw [← sub_eq_add_neg]
        exact h.minus hterm hn (ht.degree_lt _)
      case isFalse hneg =>
        rw [if_neg hneg] at hterm
        exact h.plus hterm hn (ht.degree_lt _)
    have hdegree (x : Parameter) : degree x (n + t.toMv) < degreeBound :=
      degree_add_le.trans_lt (max_lt (hn x) (ht.degree_lt t.coefficient x))
    rw [Polynomial.renderTail, Polynomial.termSum_cons, ← add_assoc, ← String.append_assoc,
      ← String.append_assoc]
    exact ih hstep hdegree hts

/-- **The text of a polynomial** is read as the polynomial. -/
theorem writesSum_render {p : Polynomial} (h : p.Over Writable) : WritesSum p.render p.toMv := by
  obtain ⟨ts⟩ := p
  cases ts with
  | nil =>
    have hzero := ((writesUnary_number 0).term).sum
    rwa [Nat.cast_zero, MvPolynomial.C_0] at hzero
  | cons t ts =>
    have ht := h.writable (t := t) List.mem_cons_self
    have hfirst := (writesTerm_renderTerm (t.coefficient < 0) ht).sum
    rw [← Term.toMv_eq_signed] at hfirst
    have htail := hfirst.tail (ht.degree_lt t.coefficient)
      (fun u hu => h.writable (List.mem_cons_of_mem t hu))
    rwa [← Polynomial.termSum_cons] at htail

/-- The text of a product of powers. -/
theorem render_powers (f : Factor) (fs : List Factor) :
    Polynomial.render ⟨[⟨⟨f :: fs⟩, 1⟩]⟩ =
      "*".intercalate ((f :: fs).map Monomial.renderFactor) := by
  simp [Polynomial.render, Polynomial.renderTail, Polynomial.renderTerm, Monomial.isOne,
    Monomial.render, show ¬(1 : ℚ) < 0 by norm_num]

/-- The view of a product of powers. -/
theorem toMv_powers (f : Factor) (fs : List Factor) :
    (⟨[⟨⟨f :: fs⟩, 1⟩]⟩ : Polynomial).toMv =
      X f.parameter ^ f.exponent * MvPolynomial.monomial (Monomial.exponentSum fs) 1 := by
  show Polynomial.termSum [⟨⟨f :: fs⟩, 1⟩] = _
  rw [Polynomial.termSum_cons, Polynomial.termSum_nil, add_zero, ← monomial_exponentSum_cons]
  rfl

/-! ### Fractions -/

namespace RationalFunction

variable {p : Polynomial} {r : RationalFunction}

/-- The text of a polynomial as the first factor of a term. -/
theorem writesTerm_renderPart (h : p.Over Writable) : WritesTerm (renderPart p) p.toMv 1 := by
  rw [renderPart]
  split
  case isTrue => exact (writesSum_render h).parenthesis.term
  case isFalse hlength =>
    obtain ⟨ts⟩ := p
    match ts with
    | [] =>
      have hzero := (writesUnary_number 0).term
      rwa [Nat.cast_zero, MvPolynomial.C_0] at hzero
    | [t] =>
      have hterm := writesTerm_renderTerm (t.coefficient < 0)
        (h.writable (t := t) List.mem_cons_self)
      rw [← Term.toMv_eq_signed] at hterm
      show WritesTerm (signText (t.coefficient < 0) ++ Polynomial.renderTerm t ++ "")
        (Polynomial.termSum [t]) 1
      rwa [String.append_empty, Polynomial.termSum_cons, Polynomial.termSum_nil, add_zero]
    | t :: u :: ts =>
      simp only [List.length_cons] at hlength
      omega

/-- **A denominator is printed as one unary** if it is a sum, which is put in parentheses, or a
single power. -/
def PrintsUnary (p : Polynomial) : Prop :=
  ∀ t, p.terms = [t] → t.monomial.factors.length ≤ 1

/-- The text of a denominator. -/
theorem writesUnary_renderPart (h : p.Over Writable) (hmonic : p.IsMonic) (hne : p.toMv ≠ 0)
    (hone : p.isOne = false) (hunary : PrintsUnary p) : WritesUnary (renderPart p) p.toMv := by
  rw [renderPart]
  split
  case isTrue => exact (writesSum_render h).parenthesis
  case isFalse hlength =>
    obtain ⟨ts⟩ := p
    match ts with
    | [] => exact absurd rfl hne
    | [⟨⟨fs⟩, c⟩] =>
      obtain rfl : c = 1 := hmonic _ rfl
      match fs, hunary _ rfl with
      | [], _ => exact absurd hone (by decide)
      | [f], _ =>
        rw [render_powers, toMv_powers, Monomial.exponentSum_nil]
        show WritesUnary ("*".intercalate [Monomial.renderFactor f]) (_ * 1)
        rw [String.intercalate_singleton, mul_one]
        exact writesUnary_factor ((h.writable List.mem_cons_self).1 f List.mem_cons_self)
      | f :: g :: fs, hlength =>
        simp only [List.length_cons] at hlength
        omega
    | t :: u :: ts =>
      simp only [List.length_cons] at hlength
      omega

/-- **The text of a canonical fraction** is read as its quotient. -/
theorem exists_readAll_render (hr : r.Over Writable) (hmonic : r.denominator.IsMonic)
    (hunary : PrintsUnary r.denominator) :
    ∃ tokens value, tokenize r.render.toList = .ok tokens ∧
      readAll r.render.toList tokens = .ok value ∧
      Presents value r.numerator.toMv r.denominator.toMv := by
  rw [render]
  split
  case isTrue hone =>
    have hone' : r.denominator.toMv = 1 :=
      (Polynomial.toMv_of_constant? (by simpa [Polynomial.isOne] using hone)).trans MvPolynomial.C_1
    obtain ⟨tokens, hspells, hreads⟩ := writesSum_render hr.numerator
    obtain ⟨value, hread, hvalue⟩ := hreads.readAll r.numerator.render.toList
    exact ⟨tokens, value, hspells.tokenize_eq, hread, hone'.symm ▸ hvalue⟩
  case isFalse hone =>
    have hterm := (writesTerm_renderPart hr.numerator).over
      (writesUnary_renderPart hr.denominator hmonic hr.denominator_ne_zero (by simpa using hone)
        hunary) hr.denominator_ne_zero
      (fun x => hr.numerator.wellFormed.degreeIn_eq x ▸ hr.numerator.degreeIn_lt x)
      (fun x => by
        rw [degree_one, Nat.zero_add, ← hr.denominator.wellFormed.degreeIn_eq]
        exact hr.denominator.degreeIn_lt x)
    rw [one_mul] at hterm
    obtain ⟨tokens, hspells, hreads⟩ := hterm
    obtain ⟨value, hread, hvalue⟩ := hreads.readAll
      (renderPart r.numerator ++ "/" ++ renderPart r.denominator).toList
    exact ⟨tokens, value, hspells.tokenize_eq, hread, hvalue⟩

end RationalFunction

/-- **What is read** is a canonical fraction over names. -/
theorem readRationalFunction_canonical {text : List Char} {r : RationalFunction}
    (h : readRationalFunction text = .ok r) :
    r.Over Writable ∧ r.IsCanonical ∧ r.simplify = r := by
  rw [readRationalFunction] at h
  cases htokens : tokenize text with
  | error e =>
    rw [htokens] at h
    cases h
  | ok tokens =>
    rw [htokens] at h
    change (readAll text tokens >>= _) = _ at h
    cases hread : readAll text tokens with
    | error e =>
      rw [hread] at h
      cases h
    | ok value =>
      rw [hread] at h
      change computed (do requireRange value.simplifyFits; pure value.simplify) = _ at h
      have hnames : Named Writable tokens := fun name hname => by
        rw [Writable, String.toList_ofList]
        exact isName_of_tokenize htokens name hname
      have hover := readAll_over hnames hread
      obtain rfl : value.simplify = r := by
        cases hfits : value.simplifyFits with
        | false =>
          rw [hfits] at h
          cases h
        | true =>
          rw [hfits] at h
          exact Except.ok.inj h
      exact ⟨hover.simplify, RationalFunction.isCanonical_simplify hover.wellFormed hover.inRange,
        RationalFunction.simplify_simplify hover.wellFormed⟩

/-- **Printed rational functions read back as themselves**, unless the denominator is a product of
several powers. With at most one parameter the text is always read; with several ones the canonical
form may leave the range when it is computed again. -/
theorem readRationalFunction_render {text : List Char} {r : RationalFunction}
    (h : readRationalFunction text = .ok r) (hunary : RationalFunction.PrintsUnary r.denominator) :
    Meets (fun e => e = .fault .degreeOverflow ∧ 2 ≤ r.parameters.length)
      (fun r' => r' = r ∧ Weight.checkedSame r' r = .ok true)
      (readRationalFunction r.render.toList) := by
  obtain ⟨hover, hcanonical, hagain⟩ := readRationalFunction_canonical h
  obtain ⟨tokens, value, htokens, hread, hvalue⟩ :=
    RationalFunction.exists_readAll_render hover hcanonical.monic hunary
  have hown := hover.wellFormed.presents
  have hsimplify : value.simplify = r := (hvalue.simplify_eq hown).trans hagain
  have hmeets := RationalFunction.checkedSimplify_meets hvalue.wellFormed
    (hvalue.inRange hown hover.inRange)
  rw [hvalue.parameters_eq hown, hsimplify] at hmeets
  have hsame : Weight.checkedSame r r = .ok true := by
    rw [RationalFunction.checkedSame_eq (by simp [RationalFunction.sameFits])]
    simp [RationalFunction.same]
  rw [readRationalFunction_of_readAll htokens hread]
  cases hresult : Weight.checkedSimplify value with
  | error f =>
    rw [hresult] at hmeets
    exact ⟨congrArg ReadError.fault hmeets.1, hmeets.2⟩
  | ok r' =>
    rw [hresult] at hmeets
    obtain rfl : r' = r := hmeets
    exact ⟨rfl, hsame⟩

/-- The fraction `(p - 1) / (p ^ 2 + 1)`. -/
def share : RationalFunction :=
  ⟨⟨[⟨⟨[⟨"p", 1⟩]⟩, 1⟩, ⟨.one, -1⟩]⟩,
    ⟨[⟨⟨[⟨"p", 2⟩]⟩, 1⟩, ⟨.one, 1⟩]⟩⟩

theorem readRationalFunction_render_share :
    readRationalFunction "(p*p - p)/(p*p*p + p)".toList = .ok share ∧
      RationalFunction.PrintsUnary share.denominator ∧ share.render = "(p - 1)/(p^2 + 1)" ∧
      readRationalFunction "(p - 1)/(p^2 + 1)".toList = .ok share := by
  have hread : readRationalFunction "(p*p - p)/(p*p*p + p)".toList = .ok share := by cbv
  have hunary : RationalFunction.PrintsUnary share.denominator := by
    rintro t ht
    cases ht
  have htext : share.render = "(p - 1)/(p^2 + 1)" := by cbv
  refine ⟨hread, hunary, htext, ?_⟩
  -- with a single parameter nothing can leave the range
  obtain ⟨r, hagain, rfl, -⟩ := (readRationalFunction_render hread hunary).exists_ok fun e he =>
    absurd he.2 (by decide)
  rwa [htext] at hagain

/-! ### Denominators with several factors -/

namespace RationalFunction

/-- A product of powers behind the bar: only the first one is divided by. -/
theorem exists_readAll_render_product {r : RationalFunction} (hr : r.Over Writable) {f : Factor}
    {fs : List Factor} (hden : r.denominator = ⟨[⟨⟨f :: fs⟩, 1⟩]⟩)
    (hrange : ∀ x, r.numerator.degreeIn x + r.denominator.degreeIn x < degreeBound) :
    ∃ tokens value, tokenize r.render.toList = .ok tokens ∧
      readAll r.render.toList tokens = .ok value ∧
      Presents value (r.numerator.toMv * MvPolynomial.monomial (Monomial.exponentSum fs) 1)
        (X f.parameter ^ f.exponent) := by
  have hwritable : Term.Writable ⟨⟨f :: fs⟩, 1⟩ := hr.denominator.writable (by simp [hden])
  have hpower : (X f.parameter ^ f.exponent : MvPolynomial Parameter ℚ) ≠ 0 :=
    pow_ne_zero _ (MvPolynomial.X_ne_zero _)
  have hdegree (x : Parameter) : r.denominator.degreeIn x =
      degree x (X f.parameter ^ f.exponent) + Monomial.exponentSum fs x := by
    have hmonomial : (MvPolynomial.monomial (Monomial.exponentSum fs) 1 :
        MvPolynomial Parameter ℚ) ≠ 0 := MvPolynomial.monomial_eq_zero.not.2 one_ne_zero
    rw [hr.denominator.wellFormed.degreeIn_eq, hden, toMv_powers, degree,
      natDegree_univariate_mul hpower hmonomial]
    exact congrArg _ (degree_monomial one_ne_zero _)
  have htext : r.render = "*".intercalate
      ((renderPart r.numerator ++ "/" ++ Monomial.renderFactor f) ::
        fs.map Monomial.renderFactor) := by
    have hpart : renderPart r.denominator =
        "*".intercalate ((f :: fs).map Monomial.renderFactor) := by
      rw [hden, renderPart, if_neg (by simp), render_powers]
    have hone : ¬r.denominator.isOne = true := by
      rw [hden]
      simp [Polynomial.isOne, Polynomial.constant?, Monomial.isOne]
    rw [render, if_neg hone, hpart, List.map_cons, ← String.intercalate_cons_append]
  have hterm := (writesTerm_renderPart hr.numerator).over
    (writesUnary_factor (hwritable.1 f List.mem_cons_self)) hpower
    (fun x => by
      rw [← hr.numerator.wellFormed.degreeIn_eq]
      exact hr.numerator.degreeIn_lt x)
    (fun x => by
      have hx := hr.denominator.degreeIn_lt x
      rw [hdegree] at hx
      rw [degree_one, Nat.zero_add]
      omega)
  rw [one_mul] at hterm
  obtain ⟨tokens, hspells, hreads⟩ := hterm.factors
    (fun g hg => hwritable.1 g (List.mem_cons_of_mem f hg))
    (fun x => by
      have hx := hrange x
      rw [hdegree, hr.numerator.wellFormed.degreeIn_eq] at hx
      omega)
    (fun x => by
      have hx := hr.denominator.degreeIn_lt x
      rw [hdegree] at hx
      omega)
  rw [← htext] at hspells
  obtain ⟨value, hread, hvalue⟩ := hreads.readAll r.render.toList
  exact ⟨tokens, value, hspells.tokenize_eq, hread, hvalue⟩

end RationalFunction

/-- A fraction does not keep its value if a factor goes from the denominator to the numerator. -/
theorem RationalFunction.same_eq_false_of_moved {value r : RationalFunction}
    {n d m : MvPolynomial Parameter ℚ} (hvalue : value.Presents (n * m) d)
    (hr : r.Presents n (d * m)) (hn : n ≠ 0) {x : Parameter} (hm : degree x m ≠ 0) :
    value.same r = false := by
  by_contra hsame
  rw [Bool.not_eq_false, same_iff_cross hvalue.wellFormed hr.wellFormed] at hsame
  obtain ⟨a, ha, hvn, hvd⟩ := hvalue.multiple
  obtain ⟨b, hb, hrn, hrd⟩ := hr.multiple
  have hm₀ : m ≠ 0 := by
    rintro rfl
    exact hm degree_zero
  -- the square of the factor would be one
  have hfactor : C (a * b) * n * d ≠ 0 :=
    mul_ne_zero (mul_ne_zero (MvPolynomial.C_ne_zero.2 (mul_ne_zero ha hb)) hn)
      hvalue.denominator_ne_zero
  have hcross : C (a * b) * n * d * (m * m) = C (a * b) * n * d * 1 := by
    rw [hvn, hvd, hrn, hrd] at hsame
    rw [MvPolynomial.C_mul]
    linear_combination hsame
  have hdegree := natDegree_univariate_mul (x := x) hm₀ hm₀
  rw [mul_left_cancel₀ hfactor hcross] at hdegree
  have hone : degree x 1 = degree x m + degree x m := hdegree
  rw [degree_one] at hone
  omega

/-- **A denominator with several factors does not read back**: what is read is a different
function. -/
theorem readRationalFunction_render_product {text : List Char} {r : RationalFunction}
    (h : readRationalFunction text = .ok r)
    (hunary : ¬RationalFunction.PrintsUnary r.denominator)
    (hrange : ∀ x, r.numerator.degreeIn x + r.denominator.degreeIn x < degreeBound) :
    Meets (· = .fault .degreeOverflow) (fun r' => r'.same r = false)
      (readRationalFunction r.render.toList) := by
  obtain ⟨hover, hcanonical, hagain⟩ := readRationalFunction_canonical h
  -- the denominator is a monic product of at least two powers
  rw [RationalFunction.PrintsUnary] at hunary
  push Not at hunary
  obtain ⟨⟨⟨fs⟩, c⟩, hterms, hlength⟩ := hunary
  obtain rfl : c = 1 := hcanonical.monic _ (by rw [Polynomial.leading?, hterms]; rfl)
  rcases fs with _ | ⟨f, _ | ⟨g, gs⟩⟩
  · simp at hlength
  · simp at hlength
  · have hden : r.denominator = ⟨[⟨⟨f :: g :: gs⟩, 1⟩]⟩ :=
      congrArg Polynomial.mk hterms
    have hpos : 0 < g.exponent := by
      have hwf := (hover.wellFormed.2.1.2 ⟨⟨f :: g :: gs⟩, 1⟩ (by simp [hterms])).1
      exact hwf.2 g (by simp)
    have hnumerator : r.numerator.toMv ≠ 0 := by
      intro hzero
      have hr := RationalFunction.simplify_of_numerator_eq_zero
        (hover.wellFormed.1.eq_zero_iff.2 hzero)
      rw [hagain] at hr
      have hone : (0 : RationalFunction).denominator.terms = [⟨.one, 1⟩] := by decide
      rw [hr, hone] at hterms
      simp [Monomial.one] at hterms
    obtain ⟨tokens, value, htokens, hread, hvalue⟩ :=
      RationalFunction.exists_readAll_render_product hover hden hrange
    have hown := hover.wellFormed.presents
    rw [hden, toMv_powers] at hown
    have hdegree : degree g.parameter (MvPolynomial.monomial (Monomial.exponentSum (g :: gs)) 1 :
        MvPolynomial Parameter ℚ) ≠ 0 := by
      rw [degree_monomial one_ne_zero, Monomial.exponentSum_cons]
      simp [hpos.ne']
    have hmoved : value.simplify.same r = false := by
      rw [hvalue.simplify_same hover.wellFormed]
      exact RationalFunction.same_eq_false_of_moved hvalue hown hnumerator hdegree
    rw [readRationalFunction_of_readAll htokens hread]
    have hmeets : Meets (· = .degreeOverflow) (fun r' => r'.same r = false)
        (Weight.checkedSimplify value) :=
      (Weight.returnsIf_checkedSimplify value).meets fun _ => hmoved
    cases hresult : Weight.checkedSimplify value with
    | error e =>
      rw [hresult] at hmeets
      exact congrArg ReadError.fault hmeets
    | ok r' =>
      rw [hresult] at hmeets
      exact hmeets

/-- The fraction `p / (q * r)`. -/
def ratio : RationalFunction :=
  ⟨⟨[⟨⟨[⟨"p", 1⟩]⟩, 1⟩]⟩, ⟨[⟨⟨[⟨"q", 1⟩, ⟨"r", 1⟩]⟩, 1⟩]⟩⟩

/-- The text of `p / (q * r)` is read as `p * r / q`. -/
theorem readRationalFunction_render_ratio : ∃ r',
    readRationalFunction "p/(q*r)".toList = .ok ratio ∧ ratio.render = "p/q*r" ∧
      readRationalFunction "p/q*r".toList = .ok r' ∧ Weight.checkedSame r' ratio = .ok false :=
  ⟨⟨⟨[⟨⟨[⟨"p", 1⟩, ⟨"r", 1⟩]⟩, 1⟩]⟩,
    ⟨[⟨⟨[⟨"q", 1⟩]⟩, 1⟩]⟩⟩, by cbv, by cbv, by cbv, by cbv⟩

end MarkovElimination
