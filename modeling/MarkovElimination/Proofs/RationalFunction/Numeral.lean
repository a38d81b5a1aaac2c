import MarkovElimination.Proofs.RationalFunction.Reading

/-! # Numbers as expressions

A text that is read as a rational number is also read as an expression. Both readers cut it into the
same decimals (`exists_readsUnary`), with signs, points and exponents, and give these the same
values. They differ in how they divide: the reader of numbers divides by all that follows a bar, the
reader of expressions divides from the left. So they **agree** on every text with at most one bar,
and `1/2/4` is two for one of them and an eighth for the other. -/

namespace MarkovElimination

open MvPolynomial (C)

namespace Text

variable {text : List Char}

theorem natural?_eq_some {n : ℕ} (h : natural? text = some n) :
    text ≠ [] ∧ (∀ c ∈ text, c.isDigit = true) ∧ digitsValue text = n := by
  rw [natural?] at h
  split at h
  case isTrue hdigits =>
    exact ⟨hdigits.1, List.all_eq_true.1 hdigits.2, Option.some.inj h⟩
  case isFalse => cases h

/-- An integer is an optional sign and digits. -/
theorem signed?_eq_some {bound : ℕ} {k : ℤ} (h : signed? bound text = some k) :
    ∃ sign digits, text = sign ++ digits ∧ sign ∈ [[], ['-'], ['+']] ∧ digits ≠ [] ∧
      ∀ c ∈ digits, c.isDigit = true := by
  -- behind the sign there is a natural number
  have hdigits {rest : List Char} {f : ℤ → ℤ} {g : ℤ → Option ℤ}
      (h : Option.bind (Option.map f (do pure ((← natural? rest : ℕ) : ℤ))) g = some k) :
      rest ≠ [] ∧ ∀ c ∈ rest, c.isDigit = true := by
    obtain ⟨value, hvalue, -⟩ := Option.bind_eq_some_iff.1 h
    obtain ⟨m, hm, -⟩ := Option.map_eq_some_iff.1 hvalue
    obtain ⟨n, hn, -⟩ := Option.bind_eq_some_iff.1 hm
    exact ⟨(natural?_eq_some hn).1, (natural?_eq_some hn).2.1⟩
  unfold signed? at h
  split at h
  case h_1 rest => exact ⟨['-'], rest, rfl, by simp, hdigits h⟩
  case h_2 rest => exact ⟨['+'], rest, rfl, by simp, hdigits h⟩
  case h_3 => exact ⟨[], text, rfl, by simp, hdigits h⟩

end Text

/-! ### Decimals -/

open Text Expression

/-- The mantissa and the exponent of a decimal. -/
def decimalParts (text : List Char) : Except ReadError (List Char × ℤ) :=
  match splitOnce isExponentMark text with
  | none => pure (text, 0)
  | some (mantissa, after) =>
    match signed? exponentBound after with
    | some exponent => pure (mantissa, exponent)
    | none => throw (.invalid text .invalidExponent)

/-- The value of a mantissa without a sign. -/
def mantissaValue (text mantissa : List Char) (exponent : ℤ) : Except ReadError ℚ := do
  let (whole, fraction) := (splitOnce (· == '.') mantissa).getD (mantissa, [])
  if (whole.isEmpty && fraction.isEmpty) || !(whole ++ fraction).all Char.isDigit then
    throw (.invalid text .notANumber)
  match decimalPlace? exponent fraction.length with
  | none => throw (.fault .exponentOverflow)
  | some place => pure (scaleByTen (digitsValue (whole ++ fraction)) place)

/-- A step behind the value of a mantissa. -/
theorem mantissaValue_bind {β : Type} (text mantissa : List Char) (exponent : ℤ)
    (k : ℚ → Except ReadError β) : (mantissaValue text mantissa exponent >>= k) =
      (let parts := (splitOnce (· == '.') mantissa).getD (mantissa, [])
      if (parts.1.isEmpty && parts.2.isEmpty) || !(parts.1 ++ parts.2).all Char.isDigit then
        throw (.invalid text .notANumber)
      else
        match decimalPlace? exponent parts.2.length with
        | none => throw (.fault .exponentOverflow)
        | some place => k (scaleByTen (digitsValue (parts.1 ++ parts.2)) place)) := by
  unfold mantissaValue
  dsimp only
  split
  · rfl
  · cases decimalPlace? exponent _ <;> rfl

theorem readDecimalRational_eq (text : List Char) : readDecimalRational text = (do
    let (mantissa, exponent) ← decimalParts text
    let value ← mantissaValue text (splitSign mantissa).2 exponent
    pure (if (splitSign mantissa).1 then -value else value)) := by
  rw [readDecimalRational, decimalParts]
  simp only [mantissaValue_bind]
  cases splitOnce isExponentMark text with
  | none => rfl
  | some cut =>
    dsimp only
    cases signed? exponentBound cut.2 <;> rfl

variable {text mantissa : List Char} {exponent : ℤ} {value : ℚ}

/-- Digits with an optional point among them. -/
def pointed (whole : List Char) (fraction : Option (List Char)) : List Char :=
  whole ++ (fraction.map ('.' :: ·)).getD []

/-- The parts around the point of a mantissa that is well formed. -/
theorem exists_eq_pointed
    (hform : ¬(let parts := (splitOnce (· == '.') mantissa).getD (mantissa, [])
      (parts.1.isEmpty && parts.2.isEmpty) || !(parts.1 ++ parts.2).all Char.isDigit) = true) :
    ∃ whole fraction, mantissa = pointed whole fraction ∧ whole ++ fraction.getD [] ≠ [] ∧
      ∀ c ∈ whole ++ fraction.getD [], c.isDigit = true := by
  simp only [Bool.or_eq_true, Bool.and_eq_true, List.isEmpty_iff, Bool.not_eq_true', not_or,
    Bool.not_eq_false, List.all_eq_true] at hform
  obtain ⟨hne, hdigits⟩ := hform
  rw [← List.append_eq_nil_iff] at hne
  cases hsplit : splitOnce (· == '.') mantissa with
  | none =>
    rw [hsplit] at hne hdigits
    exact ⟨mantissa, none, (List.append_nil _).symm, hne, hdigits⟩
  | some cut =>
    rw [hsplit] at hne hdigits
    obtain ⟨point, hpoint, heq⟩ := splitOnce_eq_some hsplit
    obtain rfl : point = '.' := by simpa using hpoint
    exact ⟨cut.1, some cut.2, heq, hne, hdigits⟩

section Pointed

variable {whole : List Char} {fraction : Option (List Char)}

theorem pointed_ne_nil (h : whole ++ fraction.getD [] ≠ []) : pointed whole fraction ≠ [] := by
  cases fraction with
  | none => exact h
  | some fraction => exact List.append_ne_nil_of_right_ne_nil _ (List.cons_ne_nil _ _)

theorem isMantissaChar_of_mem_pointed (h : ∀ c ∈ whole ++ fraction.getD [], c.isDigit = true)
    {c : Char} (hc : c ∈ pointed whole fraction) : isMantissaChar c = true := by
  rw [isMantissaChar_iff]
  rcases List.mem_append.1 hc with hc | hc
  · exact .inl (h c (List.mem_append_left _ hc))
  · cases fraction with
    | none => cases hc
    | some fraction =>
      rcases List.mem_cons.1 hc with rfl | hc
      · exact .inr rfl
      · exact .inl (h c (List.mem_append_right _ hc))

end Pointed

/-- A mantissa that has a value consists of digits and points, and the value does not depend on the
text around it. -/
theorem mantissaValue_eq_ok (h : mantissaValue text mantissa exponent = .ok value) :
    mantissa ≠ [] ∧ (∀ c ∈ mantissa, isMantissaChar c = true) ∧
      ∀ text', mantissaValue text' mantissa exponent = .ok value := by
  rw [← bind_pure (mantissaValue text mantissa exponent), mantissaValue_bind] at h
  have htext (text' : List Char) : mantissaValue text' mantissa exponent = _ :=
    (bind_pure _).symm.trans (mantissaValue_bind text' mantissa exponent pure)
  dsimp only at h htext
  split at h
  case isTrue => cases h
  case isFalse hform =>
    split at h
    case h_1 => cases h
    case h_2 place hplace =>
      have hvalue (text' : List Char) : mantissaValue text' mantissa exponent = .ok value := by
        rw [htext, if_neg hform, hplace]
        exact h
      obtain ⟨whole, fraction, rfl, hne, hdigits⟩ := exists_eq_pointed hform
      exact ⟨pointed_ne_nil hne, fun c => isMantissaChar_of_mem_pointed hdigits, hvalue⟩

/-- A mantissa has no mark of an exponent. -/
theorem forall_not_isExponentMark (h : ∀ c ∈ mantissa, isMantissaChar c = true) :
    ∀ c ∈ mantissa, isExponentMark c = false := by
  intro c hc
  by_contra hmark
  have hnot := not_isMantissaChar_of_isExponentMark (by simpa using hmark)
  rw [h c hc] at hnot
  cases hnot

/-- The exponent of a decimal stands behind its mantissa, whatever the mantissa is. -/
theorem decimalParts_eq_ok (h : decimalParts text = .ok (mantissa, exponent)) :
    ∃ tail, IsExponent tail ∧ text = mantissa ++ tail ∧
      ∀ mantissa', (∀ c ∈ mantissa', isMantissaChar c = true) →
        decimalParts (mantissa' ++ tail) = .ok (mantissa', exponent) := by
  rw [decimalParts] at h
  split at h
  case h_1 hsplit =>
    obtain ⟨rfl, rfl⟩ := Prod.mk.inj (Except.ok.inj h)
    refine ⟨[], .none, (List.append_nil _).symm, fun mantissa' hchars => ?_⟩
    rw [List.append_nil, decimalParts, splitOnce_eq_none_iff.2 (forall_not_isExponentMark hchars)]
    rfl
  case h_2 before after hsplit =>
    split at h
    case h_1 k hk =>
      obtain ⟨rfl, rfl⟩ := Prod.mk.inj (Except.ok.inj h)
      obtain ⟨mark, hmark, heq⟩ := splitOnce_eq_some hsplit
      obtain ⟨sign, digits, rfl, hsign, hne, hdigits⟩ := signed?_eq_some hk
      refine ⟨_, .mark hmark hsign hne hdigits, heq, fun mantissa' hchars => ?_⟩
      rw [decimalParts, splitOnce_append (forall_not_isExponentMark hchars) hmark]
      dsimp only
      rw [hk]
      rfl
    case h_2 => cases h

/-- A sign is taken off in front of the rest. -/
theorem exists_eq_append_splitSign (text : List Char) : ∃ sign ∈ [[], ['-'], ['+']],
    text = sign ++ (splitSign text).2 ∧ ((splitSign text).1 = true ↔ sign = ['-']) := by
  unfold splitSign
  split
  · exact ⟨['-'], by simp, rfl, by simp⟩
  · exact ⟨['+'], by simp, rfl, by simp⟩
  · exact ⟨[], by simp, rfl, by simp⟩

/-- A mantissa has no sign. -/
theorem splitSign_of_mantissa (h : ∀ c ∈ mantissa, isMantissaChar c = true) :
    splitSign mantissa = (false, mantissa) := by
  unfold splitSign
  split
  · exact absurd (h '-' List.mem_cons_self) (by decide)
  · exact absurd (h '+' List.mem_cons_self) (by decide)
  · rfl

/-- The characters of a number are neither blanks nor bars. -/
theorem forall_number_char {tail : List Char}
    (hmantissa : ∀ c ∈ mantissa, isMantissaChar c = true)
    (htail : IsExponent tail) : ∀ c ∈ mantissa ++ tail, isBlank c = false ∧
    (c == '/') = false := by
  have hdigit {c : Char} (hc : c.isDigit = true) : isBlank c = false ∧ (c == '/') = false := by
    refine ⟨not_isBlank_of_isWordChar (.inl (isIdentifierChar_of_isDigit hc)), ?_⟩
    rw [beq_eq_false_iff_ne]
    rintro rfl
    revert hc
    decide
  intro c hc
  rcases List.mem_append.1 hc with hc | hc
  · rcases isMantissaChar_iff.1 (hmantissa c hc) with hc | rfl
    · exact hdigit hc
    · decide
  · cases htail with
    | none => cases hc
    | mark hmark hsign hne hdigits =>
      rcases List.mem_cons.1 hc with rfl | hc
      · rw [isExponentMark, Bool.or_eq_true, beq_iff_eq, beq_iff_eq] at hmark
        rcases hmark with rfl | rfl <;> decide
      · rcases List.mem_append.1 hc with hc | hc
        · simp only [List.mem_cons, List.not_mem_nil, or_false] at hsign
          rcases hsign with rfl | rfl | rfl
          · cases hc
          · obtain rfl := List.mem_singleton.1 hc
            decide
          · obtain rfl := List.mem_singleton.1 hc
            decide
        · exact hdigit (hdigits c hc)

/-- Without a bar a text is read as a decimal. -/
theorem readRational_decimal (h : splitOnce (· == '/') (trim text) = none) :
    readRational text = readDecimalRational (trim text) := by
  rw [readRational]
  split
  case h_1 => rfl
  case h_2 before after hsome =>
    rw [h] at hsome
    cases hsome

/-- With a bar a text is read as a quotient. -/
theorem readRational_bar {before after : List Char} {x y : ℚ}
    (h : splitOnce (· == '/') (trim text) = some (before, after))
    (hx : readRational before = .ok x) (hy : readRational after = .ok y) (hne : y ≠ 0) :
    readRational text = .ok (x / y) := by
  rw [readRational]
  split
  case h_1 hnone =>
    rw [h] at hnone
    cases hnone
  case h_2 before' after' hsome =>
    rw [h] at hsome
    obtain ⟨rfl, rfl⟩ := Prod.mk.inj (Option.some.inj hsome)
    rw [hx, hy]
    show (if y = 0 then _ else _) = _
    rw [if_neg hne]
    rfl

/-- A number is read as a decimal. -/
theorem readRational_of_forall (h : ∀ c ∈ text, isBlank c = false ∧ (c == '/') = false) :
    readRational text = readDecimalRational text := by
  have htrim : trim text = text := trim_eq_self fun c hc => (h c hc).1
  rw [readRational_decimal, htrim]
  rw [htrim, splitOnce_eq_none_iff]
  exact fun c hc => (h c hc).2

/-- **Decimals.** What is read as a decimal is also read as a number with an optional sign. -/
theorem exists_readsUnary (h : readDecimalRational text = .ok value) :
    ∃ tokens, Spells text tokens ∧ ReadsUnary tokens (C value) 1 := by
  rw [readDecimalRational_eq] at h
  cases hparts : decimalParts text with
  | error e =>
    rw [hparts] at h
    cases h
  | ok parts =>
    obtain ⟨signed, exponent⟩ := parts
    obtain ⟨tail, htail, htext, hagain⟩ := decimalParts_eq_ok hparts
    obtain ⟨sign, hsign, hsplit, hnegative⟩ := exists_eq_append_splitSign signed
    rw [hparts] at h
    change (mantissaValue text (splitSign signed).2 exponent >>= _) = _ at h
    set mantissa := (splitSign signed).2 with hmantissa
    cases hv : mantissaValue text mantissa exponent with
    | error e =>
      rw [hv] at h
      cases h
    | ok v =>
      rw [hv] at h
      obtain ⟨hne, hchars, hvalue⟩ := mantissaValue_eq_ok hv
      -- without its sign the decimal is one token
      have hnumber : readRational (mantissa ++ tail) = .ok v := by
        rw [readRational_of_forall (forall_number_char hchars htail), readDecimalRational_eq,
          hagain mantissa hchars]
        show (mantissaValue _ (splitSign mantissa).2 exponent >>= fun value =>
          pure (if (splitSign mantissa).1 then -value else value)) = _
        rw [splitSign_of_mantissa hchars, hvalue]
        rfl
      have hspells := spells_number hne hchars htail
      have hreads := readsUnary_number hnumber
      have hresult := Except.ok.inj h
      rw [htext, hsplit, List.append_assoc]
      simp only [List.mem_cons, List.not_mem_nil, or_false] at hsign
      rcases hsign with rfl | rfl | rfl
      · rw [if_neg (by simp [hnegative])] at hresult
        exact ⟨_, hspells, hresult ▸ hreads⟩
      · rw [if_pos (by simp [hnegative])] at hresult
        refine ⟨_, hspells.symbol (s := .minus), ?_⟩
        rw [← hresult, MvPolynomial.C_neg]
        exact hreads.minus
      · rw [if_neg (by simp [hnegative])] at hresult
        exact ⟨_, hspells.symbol (s := .plus), hresult ▸ hreads.plus⟩

/-! ### Quotients -/

namespace Expression

/-- A number divided by the quotient of all that follow: `a / (b / (c / ..))`. -/
def divideByRest : ℚ → List ℚ → ℚ
  | a, [] => a
  | a, b :: rest => a / divideByRest b rest

theorem ne_zero_of_divideByRest_ne_zero {a : ℚ} {rest : List ℚ}
    (h : divideByRest a rest ≠ 0) : a ≠ 0 := by
  cases rest with
  | nil => exact h
  | cons b rest => exact (div_ne_zero_iff.1 h).1

/-- Numbers with bars between them. -/
inductive ReadsQuotient : List Token → ℚ → List ℚ → Prop where
  | number {ts : List Token} {a : ℚ} (h : ReadsUnary ts (C a) 1) : ReadsQuotient ts a []
  | bar {ts us : List Token} {a b : ℚ} {rest : List ℚ} (h : ReadsUnary ts (C a) 1)
      (h' : ReadsQuotient us b rest) : ReadsQuotient (ts ++ .symbol .over :: us) a (b :: rest)

/-- Dividing by a number. -/
theorem ReadsTerm.over_number {ts us : List Token} {a b : ℚ} (h : ReadsTerm ts (C a) 1)
    (h' : ReadsUnary us (C b) 1) (hb : b ≠ 0) :
    ReadsTerm (ts ++ .symbol .over :: us) (C (a / b)) 1 := by
  have hbound : 0 < degreeBound := by decide
  intro source rest hrest
  obtain ⟨value, htake, hvalue⟩ := h.over h' (MvPolynomial.C_ne_zero.2 hb)
    (fun x => by simpa using hbound) (fun x => by simpa using hbound) source rest hrest
  rw [one_mul] at hvalue
  exact ⟨value, htake, hvalue.of_number hb⟩

/-- **Expressions divide from the left.** -/
theorem ReadsQuotient.term {ts : List Token} {a : ℚ} {rest : List ℚ}
    (h : ReadsQuotient ts a rest)
    (hrest : ∀ b ∈ rest, b ≠ 0) : ReadsTerm ts (C (rest.foldl (· / ·) a)) 1 := by
  -- what is read so far is divided by one number after the other
  have hchain {us : List Token} {b : ℚ} {rest : List ℚ} (h : ReadsQuotient us b rest)
      (hne : ∀ c ∈ b :: rest, c ≠ 0) {ts : List Token} {a : ℚ}
        (hts : ReadsTerm ts (C a) 1) :
      ReadsTerm (ts ++ .symbol .over :: us) (C ((b :: rest).foldl (· / ·) a)) 1 := by
    induction h generalizing ts a with
    | number h => exact hts.over_number h (hne _ List.mem_cons_self)
    | bar h h' ih =>
      have hstep := hts.over_number h (hne _ List.mem_cons_self)
      rw [← List.cons_append, ← List.append_assoc]
      exact ih (fun c hc => hne c (List.mem_cons_of_mem _ hc)) hstep
  cases h with
  | number h => exact h.term
  | bar h h' => exact hchain h' hrest h.term

/-- **A number** is cut at its bars into decimals, and each decimal is divided by all that
follows. -/
theorem exists_readsQuotient (h : readRational text = .ok value) :
    ∃ tokens first rest, Spells text tokens ∧ ReadsQuotient tokens first rest ∧
      rest.length = text.count '/' ∧ (∀ b ∈ rest, b ≠ 0) ∧
      value = divideByRest first rest := by
  fun_induction readRational text generalizing value with
  | case1 text hsplit =>
    obtain ⟨tokens, hspells, hreads⟩ := exists_readsUnary h
    refine ⟨tokens, value, [], hspells.trim, .number hreads, ?_, by simp, rfl⟩
    rw [← count_trim (by decide) text, List.length_nil, eq_comm, List.count_eq_zero]
    intro hmem
    have hbar := splitOnce_eq_none_iff.1 hsplit '/' hmem
    simp at hbar
  | case2 text before after hsplit ihbefore ihafter =>
    cases hx : readRational before with
    | error e =>
      rw [hx] at h
      cases h
    | ok x =>
      cases hy : readRational after with
      | error e =>
        rw [hx, hy] at h
        cases h
      | ok y =>
        rw [hx, hy] at h
        change (if y = 0 then _ else _) = _ at h
        split at h
        case isTrue => cases h
        case isFalse hy₀ =>
          obtain ⟨ts, a, rest, hspells, hquotient, hlength, -, rfl⟩ := ihbefore hx
          obtain ⟨us, b, rest', hspells', hquotient', hlength', hne', rfl⟩ := ihafter hy
          obtain ⟨bar, hbar, htext⟩ := splitOnce_eq_some hsplit
          obtain rfl : bar = '/' := by simpa using hbar
          -- the part before the first bar is a single decimal
          have hbefore : before.count '/' = 0 := by
            refine List.count_eq_zero.2 fun hmem => ?_
            have hnot := forall_before_of_splitOnce hsplit '/' hmem
            simp at hnot
          obtain rfl : rest = [] := List.length_eq_zero_iff.1 (hlength.trans hbefore)
          refine ⟨ts ++ .symbol .over :: us, a, b :: rest', Spells.trim ?_, ?_, ?_, ?_, ?_⟩
          · rw [htext]
            exact hspells.append (hspells'.symbol (s := .over)) (delimited_symbol .over after)
          · cases hquotient with
            | number hunary => exact .bar hunary hquotient'
          · rw [← count_trim (by decide) text, htext, List.count_append, List.count_cons_self,
              hbefore, List.length_cons, hlength', Nat.zero_add]
          · exact List.forall_mem_cons.2 ⟨ne_zero_of_divideByRest_ne_zero hy₀, hne'⟩
          · exact (Except.ok.inj h).symm

/-- A term whose value is a number is read as a constant function. -/
theorem ReadsTerm.exists_constant {tokens : List Token} {c : ℚ} (h : ReadsTerm tokens (C c) 1)
    (htext : tokenize text = .ok tokens) :
    ∃ r, readRationalFunction text = .ok r ∧ r.constant? = some c := by
  obtain ⟨v, hread, hv⟩ := h.readAll text
  refine ⟨v.simplify, ?_, hv.constant?_simplify⟩
  have hsimplify : Weight.checkedSimplify v = .ok v.simplify :=
    (Weight.returnsIf_checkedSimplify v).eq_ok (simplifyFits_of_presents hv)
  rw [readRationalFunction_of_readAll htext hread, hsimplify]
  rfl

end Expression

/-- **Numbers read as expressions.** A text that is read as a rational number is read as a constant
function. Both readers find the same numbers between the bars. One divides each number by all that
follow, the other one divides from the left, so with at most one bar they agree. -/
theorem readRationalFunction_of_readRational (h : readRational text = .ok value) :
    ∃ r constant, readRationalFunction text = .ok r ∧ r.constant? = some constant ∧
      (text.count '/' ≤ 1 → constant = value) ∧
      ∃ first rest, rest.length = text.count '/' ∧ value = divideByRest first rest ∧
        constant = rest.foldl (· / ·) first := by
  obtain ⟨tokens, first, rest, hspells, hquotient, hlength, hne, rfl⟩ := exists_readsQuotient h
  obtain ⟨r, hread, hconstant⟩ := (hquotient.term hne).exists_constant hspells.tokenize_eq
  refine ⟨r, rest.foldl (· / ·) first, hread, hconstant, fun hcount => ?_, first, rest,
    hlength, rfl, rfl⟩
  match rest with
  | [] => rfl
  | [b] => rfl
  | b :: c :: rest =>
    simp only [List.length_cons] at hlength
    omega

theorem readRationalFunction_of_readRational_blanks :
    readRational "-1.5e1 / 3".toList = .ok (-5) ∧
      ∃ r, readRationalFunction "-1.5e1 / 3".toList = .ok r ∧ r.constant? = some (-5) := by
  have hvalue : (-15 / 3 : ℚ) = -5 := by norm_num
  have hfive : readRational "-1.5e1 / 3".toList = .ok (-5) := by
    rw [← hvalue]
    have hsplit : splitOnce (· == '/') (trim "-1.5e1 / 3".toList) =
        some ("-1.5e1 ".toList, " 3".toList) := by cbv
    refine readRational_bar hsplit ?_ ?_ ?_
    · rw [readRational_decimal (by cbv)]
      rfl
    · rw [readRational_decimal (by cbv)]
      rfl
    · norm_num
  obtain ⟨r, constant, hread, hconstant, hagree, -⟩ :=
    readRationalFunction_of_readRational hfive
  rw [hagree (by decide)] at hconstant
  exact ⟨hfive, r, hread, hconstant⟩

/-- With two bars one reader divides one by a half, the other one divides a half by four. -/
theorem readRational_two_bars : readRational "1/2/4".toList = .ok 2 ∧
    ∃ r, readRationalFunction "1/2/4".toList = .ok r ∧ r.constant? = some (1 / 8) := by
  have hone : readRational "1".toList = .ok 1 := by rw [readRational_decimal (by cbv)]; rfl
  have htwo : readRational "2".toList = .ok 2 := by rw [readRational_decimal (by cbv)]; rfl
  have hfour : readRational "4".toList = .ok 4 := by rw [readRational_decimal (by cbv)]; rfl
  constructor
  · have hhalf : readRational "2/4".toList = .ok (2 / 4) :=
      readRational_bar (by cbv) htwo hfour (by norm_num)
    have hvalue : (1 / (2 / 4) : ℚ) = 2 := by norm_num
    rw [← hvalue]
    exact readRational_bar (by cbv) hone hhalf (by norm_num)
  · have hvalue : (1 / 2 / 4 : ℚ) = 1 / 8 := by norm_num
    rw [← hvalue]
    have hterm := ((readsUnary_number hone).term.over_number (readsUnary_number htwo)
      (by norm_num)).over_number (readsUnary_number hfour) (by norm_num)
    exact hterm.exists_constant (by cbv)

end MarkovElimination
