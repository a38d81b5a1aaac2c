import MarkovElimination.Proofs.RationalFunction.Numeral

/-! # Decimals

A **numeral** is the text of a decimal: an optional sign, digits with at most one point among or
around them, and an optional exponent. It writes a rational number. The reader of numbers returns
exactly this value as long as the position of the last digit is a 32-bit integer whose negation is
one as well (`Numeral.InRange`), and no other text makes it fail with a fault. -/

namespace MarkovElimination

namespace Text

variable {text front back : List Char}

/-- Digits are read in base ten. -/
theorem digitsValue_eq_ofDigits (digits : List Char) :
    digitsValue digits = Nat.ofDigits 10 (digits.reverse.map digitValue) := by
  rw [Nat.ofDigits_eq_foldr, List.foldr_map, List.foldr_reverse, digitsValue]
  simp only [Nat.cast_id, Nat.add_comm]

theorem trim_append_left (hfront : ∀ c ∈ front, isBlank c = true) :
    trim (front ++ text) = trim text := by
  rw [trim, List.dropWhile_append_of_pos hfront, trim]

theorem trim_append_right (hback : ∀ c ∈ back, isBlank c = true) :
    trim (text ++ back) = trim text := by
  have hreverse : ∀ c ∈ back.reverse, isBlank c = true := fun c hc =>
    hback c (List.mem_reverse.1 hc)
  rw [trim, trim, List.dropWhile_append]
  split
  case isTrue hempty =>
    have hnil : text.dropWhile isBlank = [] := List.isEmpty_iff.1 hempty
    rw [hnil, List.dropWhile_eq_nil_iff.2 hback]
  case isFalse => rw [List.reverse_append, List.dropWhile_append_of_pos hreverse]

end Text

open Text Expression

/-- A number with its sign. -/
def signedBy {α : Type} [Neg α] (sign : List Char) (x : α) : α :=
  if sign = ['-'] then -x else x

/-- The number that digits write in base ten, the most significant digit first. -/
def digitsNumber (digits : List Char) : ℕ :=
  Nat.ofDigits 10 (digits.reverse.map digitValue)

/-- The exponent of a numeral. It is a 32-bit integer. -/
structure Exponent where
  mark : Char
  sign : List Char
  digits : List Char
  isMark : isExponentMark mark = true
  isSign : sign ∈ [[], ['-'], ['+']]
  ne_nil : digits ≠ []
  isDigit : ∀ c ∈ digits, c.isDigit = true
  inRange : -(exponentBound : ℤ) ≤ signedBy sign (digitsNumber digits : ℤ) ∧
    signedBy sign (digitsNumber digits : ℤ) < exponentBound

namespace Exponent

/-- The text of an exponent. -/
def text (e : Exponent) : List Char :=
  e.mark :: (e.sign ++ e.digits)

/-- The integer that an exponent writes. -/
def value (e : Exponent) : ℤ :=
  signedBy e.sign (digitsNumber e.digits : ℤ)

end Exponent

/-- A decimal, with or without a point and an exponent. There is a digit before the point or behind
it. -/
structure Numeral where
  sign : List Char
  whole : List Char
  fraction : Option (List Char)
  exponent : Option Exponent
  isSign : sign ∈ [[], ['-'], ['+']]
  ne_nil : whole ++ fraction.getD [] ≠ []
  isDigit : ∀ c ∈ whole ++ fraction.getD [], c.isDigit = true

namespace Numeral

/-- The digits behind the point. -/
def places (n : Numeral) : List Char :=
  n.fraction.getD []

/-- The digits and the point. -/
def mantissa (n : Numeral) : List Char :=
  pointed n.whole n.fraction

/-- The text of a numeral. -/
def text (n : Numeral) : List Char :=
  n.sign ++ n.mantissa ++ (n.exponent.map Exponent.text).getD []

/-- The exponent, zero if none is written. -/
def scale (n : Numeral) : ℤ :=
  (n.exponent.map Exponent.value).getD 0

/-- The rational number that a numeral writes: all its digits as one integer, times the power of
ten of the last one. -/
def value (n : Numeral) : ℚ :=
  signedBy n.sign (digitsNumber (n.whole ++ n.places) * 10 ^ (n.scale - n.places.length))

/-- The number of digits behind the point and the position of the last digit are 32-bit integers,
and the position is not the least of these, which has no negation among them. -/
def InRange (n : Numeral) : Prop :=
  n.places.length < exponentBound ∧ -(exponentBound : ℤ) < n.scale - n.places.length

end Numeral

/-! ### Exponents -/

/-- A sign and digits are read as the integer that they write, if it is in range. -/
theorem signed?_append {bound : ℕ} {sign digits : List Char} (hsign : sign ∈ [[], ['-'], ['+']])
    (hne : digits ≠ []) (hdigits : ∀ c ∈ digits, c.isDigit = true) :
    signed? bound (sign ++ digits) =
      if -(bound : ℤ) ≤ signedBy sign (digitsNumber digits : ℤ) ∧
          signedBy sign (digitsNumber digits : ℤ) < bound then
        some (signedBy sign (digitsNumber digits : ℤ))
      else none := by
  have hnatural : natural? digits = some (digitsNumber digits) := by
    rw [natural?, if_pos ⟨hne, List.all_eq_true.2 hdigits⟩, digitsValue_eq_ofDigits,
      digitsNumber]
  simp only [List.mem_cons, List.not_mem_nil, or_false] at hsign
  rcases hsign with rfl | rfl | rfl
  · -- digits do not start with a sign
    unfold signed?
    split
    case h_1 heq =>
      rw [List.nil_append] at heq
      exact absurd (hdigits '-' (heq ▸ List.mem_cons_self)) (by decide)
    case h_2 heq =>
      rw [List.nil_append] at heq
      exact absurd (hdigits '+' (heq ▸ List.mem_cons_self)) (by decide)
    case h_3 =>
      rw [List.nil_append, hnatural]
      rfl
  · simp only [signed?, List.cons_append, List.nil_append, hnatural]
    rfl
  · simp only [signed?, List.cons_append, List.nil_append, hnatural]
    rfl

/-- An exponent is read as its value. -/
theorem Exponent.signed?_eq (e : Exponent) :
    signed? exponentBound (e.sign ++ e.digits) = some e.value := by
  rw [signed?_append e.isSign e.ne_nil e.isDigit, if_pos e.inRange, value]

/-- What is read as a 32-bit integer behind a mark is an exponent. -/
theorem exists_exponent {mark : Char} {after : List Char} {k : ℤ}
    (hmark : isExponentMark mark = true) (h : signed? exponentBound after = some k) :
    ∃ e : Exponent, e.text = mark :: after := by
  obtain ⟨sign, digits, rfl, hsign, hne, hdigits⟩ := signed?_eq_some h
  rw [signed?_append hsign hne hdigits] at h
  split at h
  case isTrue hrange =>
    exact ⟨⟨mark, sign, digits, hmark, hsign, hne, hdigits, hrange⟩, rfl⟩
  case isFalse => cases h

/-! ### Mantissas -/

/-- A power of ten in front of the point or behind it. -/
theorem scaleByTen_eq (m : ℕ) (place : ℤ) : scaleByTen m place = m * (10 : ℚ) ^ place := by
  rw [scaleByTen]
  split
  case isTrue h =>
    obtain ⟨k, rfl⟩ := Int.eq_ofNat_of_zero_le h
    simp
  case isFalse h =>
    obtain ⟨k, hk⟩ := Int.eq_ofNat_of_zero_le (le_of_lt (Int.neg_pos_of_neg (not_le.1 h)))
    obtain rfl : place = -(k : ℤ) := by omega
    simp [div_eq_mul_inv]

/-- As long as it is below `2 ^ 31`, the number of digits behind the point is counted exactly. -/
theorem decimalPlace?_eq {digits : ℕ} {exponent : ℤ} (hdigits : digits < exponentBound)
    (hexponent : exponent < exponentBound) :
    decimalPlace? exponent digits =
      if -(exponentBound : ℤ) < exponent - digits then some (exponent - digits) else none := by
  have hwrapped : wrapped digits = digits := by
    have hlow : digits % (2 * exponentBound) = digits := Nat.mod_eq_of_lt (by omega)
    rw [wrapped, hlow, if_pos hdigits]
  rw [decimalPlace?, hwrapped]
  exact if_congr (and_iff_left (by omega)) rfl rfl

namespace Numeral

variable (n : Numeral)

/-- A mantissa is cut at its point. -/
theorem splitOnce_mantissa :
    (splitOnce (· == '.') n.mantissa).getD (n.mantissa, []) = (n.whole, n.places) := by
  have hwhole : ∀ c ∈ n.whole, (c == '.') = false := by
    intro c hc
    rw [beq_eq_false_iff_ne]
    rintro rfl
    exact absurd (n.isDigit '.' (List.mem_append_left _ hc)) (by decide)
  rw [mantissa, pointed, places]
  cases n.fraction with
  | none =>
    rw [Option.map_none, Option.getD_none, List.append_nil, splitOnce_eq_none_iff.2 hwhole]
    rfl
  | some fraction =>
    rw [Option.map_some, Option.getD_some, splitOnce_append hwhole (by decide)]
    rfl

theorem eq_of_mem_sign {c : Char} (hc : c ∈ n.sign) : c = '-' ∨ c = '+' := by
  have hsign := n.isSign
  simp only [List.mem_cons, List.not_mem_nil, or_false] at hsign
  rcases hsign with hsign | hsign | hsign
  · rw [hsign] at hc
    cases hc
  · exact .inl (List.mem_singleton.1 (hsign ▸ hc))
  · exact .inr (List.mem_singleton.1 (hsign ▸ hc))

theorem isMantissaChar_of_mem {c : Char} (hc : c ∈ n.mantissa) : isMantissaChar c = true :=
  isMantissaChar_of_mem_pointed n.isDigit hc

/-- A mantissa has a value, or its last digit is out of reach. -/
theorem mantissaValue_mantissa (text : List Char) (k : ℤ) :
    mantissaValue text n.mantissa k =
      match decimalPlace? k n.places.length with
      | none => .error (.fault .exponentOverflow)
      | some place => .ok (digitsNumber (n.whole ++ n.places) * 10 ^ place) := by
  have hform : ¬((n.whole.isEmpty && n.places.isEmpty) ||
      !(n.whole ++ n.places).all Char.isDigit) = true := by
    have hall : (n.whole ++ n.places).all Char.isDigit = true := List.all_eq_true.2 n.isDigit
    have hempty : (n.whole.isEmpty && n.places.isEmpty) = false := by
      rw [Bool.and_eq_false_iff, List.isEmpty_eq_false_iff, List.isEmpty_eq_false_iff,
        ← not_and_or]
      exact fun h => n.ne_nil (List.append_eq_nil_iff.2 h)
    simp [hall, hempty]
  rw [← bind_pure (mantissaValue _ _ _), mantissaValue_bind, n.splitOnce_mantissa]
  dsimp only
  rw [if_neg hform]
  cases decimalPlace? k n.places.length with
  | none => rfl
  | some place =>
    dsimp only
    rw [scaleByTen_eq, digitsValue_eq_ofDigits]
    rfl

/-- The tail of a numeral is an exponent or nothing. -/
theorem isExponent_tail : IsExponent ((n.exponent.map Exponent.text).getD []) := by
  cases n.exponent with
  | none => exact .none
  | some e => exact .mark e.isMark e.isSign e.ne_nil e.isDigit

theorem decimalParts_text : decimalParts n.text = .ok (n.sign ++ n.mantissa, n.scale) := by
  have hmark : ∀ c ∈ n.sign ++ n.mantissa, isExponentMark c = false := by
    intro c hc
    rcases List.mem_append.1 hc with hc | hc
    · rcases n.eq_of_mem_sign hc with rfl | rfl <;> decide
    · exact forall_not_isExponentMark (fun c => n.isMantissaChar_of_mem) c hc
  rw [decimalParts, text, scale]
  cases n.exponent with
  | none =>
    rw [Option.map_none, Option.getD_none, List.append_nil, splitOnce_eq_none_iff.2 hmark]
    rfl
  | some e =>
    rw [Option.map_some, Option.getD_some, Exponent.text, splitOnce_append hmark e.isMark]
    dsimp only
    rw [e.signed?_eq]
    rfl

theorem splitSign_text :
    splitSign (n.sign ++ n.mantissa) = (decide (n.sign = ['-']), n.mantissa) := by
  have hsign := n.isSign
  simp only [List.mem_cons, List.not_mem_nil, or_false] at hsign
  rcases hsign with hsign | hsign | hsign
  · rw [hsign, List.nil_append, splitSign_of_mantissa fun c => n.isMantissaChar_of_mem]
    rfl
  · rw [hsign]
    rfl
  · rw [hsign]
    rfl

/-- **A numeral** is read up to the position of its last digit. -/
theorem readDecimalRational_text :
    readDecimalRational n.text =
      match decimalPlace? n.scale n.places.length with
      | none => .error (.fault .exponentOverflow)
      | some place =>
        .ok (signedBy n.sign (digitsNumber (n.whole ++ n.places) * (10 : ℚ) ^ place)) := by
  rw [readDecimalRational_eq, n.decimalParts_text]
  show (mantissaValue n.text (splitSign (n.sign ++ n.mantissa)).2 n.scale >>= fun value =>
    pure (if (splitSign (n.sign ++ n.mantissa)).1 then -value else value)) = _
  rw [n.splitSign_text, n.mantissaValue_mantissa]
  cases decimalPlace? n.scale n.places.length with
  | none => rfl
  | some place =>
    show Except.ok _ = Except.ok _
    simp only [signedBy, decide_eq_true_eq]

theorem scale_lt : n.scale < exponentBound := by
  rw [scale]
  cases n.exponent with
  | none => decide
  | some e => exact e.inRange.2

variable {n}

theorem InRange.readDecimalRational_eq (h : n.InRange) :
    readDecimalRational n.text = .ok n.value := by
  rw [readDecimalRational_text, decimalPlace?_eq h.1 n.scale_lt, if_pos h.2]
  rfl

theorem readDecimalRational_overflow (hplaces : n.places.length < exponentBound)
    (h : ¬n.InRange) : readDecimalRational n.text = .error (.fault .exponentOverflow) := by
  rw [readDecimalRational_text, decimalPlace?_eq hplaces n.scale_lt,
    if_neg fun hplace => h ⟨hplaces, hplace⟩]

/-- A numeral has neither blanks nor bars. -/
theorem forall_text_char : ∀ c ∈ n.text, isBlank c = false ∧ (c == '/') = false := by
  have hnumber := forall_number_char (fun c => n.isMantissaChar_of_mem) n.isExponent_tail
  intro c hc
  rw [text, List.append_assoc, List.mem_append] at hc
  rcases hc with hc | hc
  · rcases n.eq_of_mem_sign hc with rfl | rfl <;> decide
  · exact hnumber c hc

/-- Between blanks a numeral is read as a decimal. -/
theorem readRational_of_trim {text : List Char} (h : trim text = n.text) :
    readRational text = readDecimalRational n.text := by
  rw [readRational_decimal, h]
  rw [h, splitOnce_eq_none_iff]
  exact fun c hc => (forall_text_char c hc).2

end Numeral

/-! ### Faults -/

variable {text mantissa : List Char} {k : ℤ} {f : Fault}

/-- Only digits and a point have a last digit that is out of reach. -/
theorem exists_pointed_of_fault (h : mantissaValue text mantissa k = .error (.fault f)) :
    ∃ whole fraction, mantissa = pointed whole fraction ∧ whole ++ fraction.getD [] ≠ [] ∧
      ∀ c ∈ whole ++ fraction.getD [], c.isDigit = true := by
  rw [← bind_pure (mantissaValue text mantissa k), mantissaValue_bind] at h
  dsimp only at h
  split at h
  case isTrue => cases h
  case isFalse hform => exact exists_eq_pointed hform

/-- The exponent of a decimal stands behind its mantissa. -/
theorem exists_exponent_of_decimalParts (h : decimalParts text = .ok (mantissa, k)) :
    ∃ e : Option Exponent, text = mantissa ++ (e.map Exponent.text).getD [] := by
  rw [decimalParts] at h
  split at h
  case h_1 =>
    obtain ⟨rfl, -⟩ := Prod.mk.inj (Except.ok.inj h)
    exact ⟨none, (List.append_nil _).symm⟩
  case h_2 before after hsplit =>
    split at h
    case h_1 hk =>
      obtain ⟨rfl, -⟩ := Prod.mk.inj (Except.ok.inj h)
      obtain ⟨mark, hmark, heq⟩ := splitOnce_eq_some hsplit
      obtain ⟨e, he⟩ := exists_exponent hmark hk
      exact ⟨some e, by rw [Option.map_some, Option.getD_some, he, heq]⟩
    case h_2 => cases h

theorem decimalParts_ne_fault : decimalParts text ≠ .error (.fault f) := by
  intro h
  rw [decimalParts] at h
  split at h
  case h_1 => cases h
  case h_2 => split at h <;> cases h

/-- Only numerals make the reader of decimals fail with a fault. -/
theorem exists_numeral_of_fault (h : readDecimalRational text = .error (.fault f)) :
    ∃ n : Numeral, text = n.text ∧ ¬n.InRange := by
  -- a numeral in range is read, so it suffices to find the parts of a numeral
  suffices hnumeral : ∃ n : Numeral, text = n.text by
    obtain ⟨n, rfl⟩ := hnumeral
    refine ⟨n, rfl, fun hrange => ?_⟩
    rw [hrange.readDecimalRational_eq] at h
    cases h
  rw [readDecimalRational_eq] at h
  cases hparts : decimalParts text with
  | error e =>
    rw [hparts] at h
    obtain rfl : e = .fault f := Except.error.inj h
    exact absurd hparts decimalParts_ne_fault
  | ok parts =>
    obtain ⟨signed, k⟩ := parts
    rw [hparts] at h
    change (mantissaValue text (splitSign signed).2 k >>= _) = _ at h
    cases hvalue : mantissaValue text (splitSign signed).2 k with
    | error e =>
      rw [hvalue] at h
      obtain rfl : e = .fault f := Except.error.inj h
      obtain ⟨sign, hsign, hsigned, -⟩ := exists_eq_append_splitSign signed
      obtain ⟨whole, fraction, hmantissa, hne, hdigits⟩ := exists_pointed_of_fault hvalue
      obtain ⟨exponent, htext⟩ := exists_exponent_of_decimalParts hparts
      refine ⟨⟨sign, whole, fraction, exponent, hsign, hne, hdigits⟩, ?_⟩
      rw [htext, hsigned, hmantissa]
      rfl
    | ok v =>
      rw [hvalue] at h
      cases h

/-- A text without a bar has one part. -/
theorem splitOn_bar_eq_singleton (h : '/' ∉ trim text) : text.splitOn '/' = [text] := by
  have hbars : ∀ c ∈ text, (c == '/') = false := by
    intro c hc
    rw [beq_eq_false_iff_ne]
    rintro rfl
    rw [← List.count_pos_iff, ← count_trim (by decide), List.count_pos_iff] at hc
    exact h hc
  rw [List.splitOn_eq_splitOnP, List.splitOnP_eq_singleton hbars]

/-- A text with a bar has the parts of what stands before the bar and of what stands behind it; the
blanks around the text are blanks around the outer parts. -/
theorem exists_splitOn_bar {before after : List Char} (h : trim text = before ++ '/' :: after) :
    ∃ front back, (∀ c ∈ front, isBlank c = true) ∧ (∀ c ∈ back, isBlank c = true) ∧
      text.splitOn '/' = (front ++ before).splitOn '/' ++ (after ++ back).splitOn '/' := by
  obtain ⟨front, back, hblanks, hfront, hback⟩ := exists_eq_append_trim text
  have htext : text = (front ++ before) ++ '/' :: (after ++ back) := by
    rw [hblanks, h]
    simp only [List.append_assoc, List.cons_append]
  refine ⟨front, back, hfront, hback, ?_⟩
  rw [htext, List.splitOn_eq_splitOnP, List.splitOnP_append_cons _ _ (by decide)]
  rfl

/-- **A fault** comes from one of the decimals between the bars. The blanks around the text make no
difference. -/
theorem exists_part_of_fault (h : readRational text = .error (.fault f)) {text' : List Char}
    (htrim : trim text' = trim text) :
    ∃ part ∈ text'.splitOn '/', ∃ n : Numeral, trim part = n.text ∧ ¬n.InRange := by
  fun_induction readRational text generalizing text' with
  | case1 text hsplit =>
    have hbar : '/' ∉ trim text' := fun hc => by
      simpa using splitOnce_eq_none_iff.1 hsplit '/' (htrim ▸ hc)
    obtain ⟨n, hn, hrange⟩ := exists_numeral_of_fault h
    refine ⟨text', ?_, n, htrim.trans hn, hrange⟩
    rw [splitOn_bar_eq_singleton hbar]
    exact List.mem_singleton_self _
  | case2 text before after hsplit ihbefore ihafter =>
    obtain ⟨bar, hbar, hcut⟩ := splitOnce_eq_some hsplit
    obtain rfl : bar = '/' := by simpa using hbar
    obtain ⟨front, back, hfront, hback, hparts⟩ := exists_splitOn_bar (htrim.trans hcut)
    -- The two sides are read in turn, and the first fault is the fault of the whole.
    cases hx : readRational before with
    | error e =>
      rw [hx] at h
      obtain rfl : e = .fault f := Except.error.inj h
      obtain ⟨part, hpart, hn⟩ := ihbefore hx (trim_append_left hfront)
      exact ⟨part, hparts ▸ List.mem_append_left _ hpart, hn⟩
    | ok x =>
      cases hy : readRational after with
      | error e =>
        rw [hx, hy] at h
        obtain rfl : e = .fault f := Except.error.inj h
        obtain ⟨part, hpart, hn⟩ := ihafter hy (trim_append_right hback)
        exact ⟨part, hparts ▸ List.mem_append_right _ hpart, hn⟩
      | ok y =>
        rw [hx, hy] at h
        change (if y = 0 then _ else _) = _ at h
        split at h <;> cases h

/-- **Numbers are read exactly.** A numeral in range, between blanks, is read as the number that it
writes. Without a numeral out of range between its bars no text is a fault. A numeral whose last
digit is at position `-2 ^ 31` or further behind the point is one. -/
theorem readRational_exact (text : List Char) :
    (∀ f, readRational text = .error (.fault f) →
      ∃ part ∈ text.splitOn '/', ∃ n : Numeral, trim part = n.text ∧ ¬n.InRange) ∧
    ∀ n : Numeral, trim text = n.text →
      (n.InRange → readRational text = .ok n.value) ∧
      (n.places.length < exponentBound → ¬n.InRange →
        readRational text = .error (.fault .exponentOverflow)) := by
  refine ⟨fun f h => exists_part_of_fault h rfl, fun n htext => ?_⟩
  rw [Numeral.readRational_of_trim htext]
  exact ⟨fun hrange => hrange.readDecimalRational_eq,
    fun hplaces hrange => Numeral.readDecimalRational_overflow hplaces hrange⟩

/-- The numeral `-.50e-3`. -/
def Numeral.sample : Numeral where
  sign := ['-']
  whole := []
  fraction := some ['5', '0']
  exponent := some
    { mark := 'e', sign := ['-'], digits := ['3'], isMark := rfl, isSign := by decide
      ne_nil := by decide, isDigit := by simp
      inRange := by simp [signedBy, digitsNumber, digitValue, exponentBound] }
  isSign := by decide
  ne_nil := by decide
  isDigit := by simp

theorem readRational_exact_sample :
    readRational " -.50e-3 ".toList = .ok (-(50 * 10 ^ (-5 : ℤ))) ∧
      ∃ part ∈ "0e-2147483648".toList.splitOn '/',
        ∃ n : Numeral, trim part = n.text ∧ ¬n.InRange := by
  constructor
  · have hrange : Numeral.sample.InRange := by
      simp [Numeral.InRange, Numeral.sample, Numeral.places, Numeral.scale, Exponent.value,
        signedBy, digitsNumber, digitValue, exponentBound]
    exact ((readRational_exact " -.50e-3 ".toList).2 Numeral.sample (by cbv)).1 hrange
  · refine (readRational_exact "0e-2147483648".toList).1 .exponentOverflow ?_
    rw [readRational_decimal (by cbv)]
    rfl

/-- Zero with the least exponent is a fault: its position has no negation. With a digit behind the
point there is no position. -/
theorem readRational_lowest :
    readRational "0e-2147483648".toList = .error (.fault .exponentOverflow) ∧
      readRational "0.0e-2147483648".toList = .error (.fault .exponentOverflow) := by
  constructor
  · rw [readRational_decimal (by cbv)]
    rfl
  · rw [readRational_decimal (by cbv)]
    rfl

end MarkovElimination
