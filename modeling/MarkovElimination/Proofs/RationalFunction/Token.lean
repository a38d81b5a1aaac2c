import MarkovElimination.Proofs.Text
import MarkovElimination.RationalFunction.Token

/-! # What a text spells

A text **spells** a list of tokens if it is cut into them whatever follows, as long as what follows
cannot continue a number or an identifier (`Spells`). Symbols and blanks can be put in front of a
text, and a text can be followed by one that begins with a delimiter. So what a printer writes is
cut up piece by piece. -/

namespace MarkovElimination

open Text

/-! ### Characters -/

/-- Letters, digits, the underscore and the point are not blanks. -/
theorem not_isBlank_of_isWordChar {c : Char}
    (h : Expression.isIdentifierChar c = true ∨ c = '.') : isBlank c = false := by
  rcases h with h | rfl
  · rw [Expression.isIdentifierChar, Bool.or_eq_true, Char.isAlphanum, Bool.or_eq_true,
      Char.isAlpha, Bool.or_eq_true, Char.isUpper, Char.isLower, Char.isDigit] at h
    simp only [Bool.and_eq_true, decide_eq_true_eq, beq_iff_eq, ge_iff_le, UInt32.le_iff_toNat_le,
      UInt32.reduceToNat, Char.reduceVal] at h
    rw [isBlank, Ranges.contains, blankRanges]
    simp only [Char.toNat, List.any_cons, List.any_nil, Bool.or_false, Bool.or_eq_false_iff,
      Bool.and_eq_false_iff, decide_eq_false_iff_not]
    rcases h with ((h | h) | h) | rfl
    · omega
    · omega
    · omega
    · decide
  · decide

namespace Expression

/-- A digit continues a word. -/
theorem isIdentifierChar_of_isDigit {c : Char} (h : c.isDigit = true) :
    isIdentifierChar c = true := by
  simp [isIdentifierChar, Char.isAlphanum, h]

/-- What starts an identifier also continues one. -/
theorem isIdentifierChar_of_start {c : Char} (h : isIdentifierStart c = true) :
    isIdentifierChar c = true := by
  rw [isIdentifierStart, Bool.or_eq_true] at h
  rcases h with h | h <;> simp [isIdentifierChar, Char.isAlphanum, h]

/-- The mark of an exponent is a letter. -/
theorem isIdentifierChar_of_isExponentMark {c : Char} (h : isExponentMark c = true) :
    isIdentifierChar c = true := by
  rw [isExponentMark, Bool.or_eq_true, beq_iff_eq, beq_iff_eq] at h
  rcases h with rfl | rfl <;> decide

/-- Digits and the point are not letters. -/
theorem not_isMantissaChar_of_start {c : Char} (h : isIdentifierStart c = true) :
    isMantissaChar c = false := by
  rw [isIdentifierStart, Bool.or_eq_true, Char.isAlpha, Bool.or_eq_true, Char.isUpper, Char.isLower]
    at h
  simp only [Bool.and_eq_true, decide_eq_true_eq, beq_iff_eq, ge_iff_le, UInt32.le_iff_toNat_le,
    UInt32.reduceToNat, Char.reduceVal] at h
  rw [isMantissaChar, Bool.or_eq_false_iff, Char.isDigit]
  simp only [Bool.and_eq_false_iff, decide_eq_false_iff_not, ge_iff_le, UInt32.le_iff_toNat_le,
    UInt32.reduceToNat, Char.reduceVal, beq_eq_false_iff_ne]
  rcases h with (h | h) | rfl
  · exact ⟨by omega, by rintro rfl; simp at h⟩
  · exact ⟨by omega, by rintro rfl; simp at h⟩
  · decide

theorem not_isMantissaChar_of_isExponentMark {c : Char} (h : isExponentMark c = true) :
    isMantissaChar c = false := by
  rw [isExponentMark, Bool.or_eq_true, beq_iff_eq, beq_iff_eq] at h
  rcases h with rfl | rfl <;> decide

/-- A character of a mantissa is a digit or the point. -/
theorem isMantissaChar_iff {c : Char} : isMantissaChar c = true ↔ c.isDigit = true ∨
    c = '.' := by
  rw [isMantissaChar, Bool.or_eq_true, beq_iff_eq]

/-- A mantissa is no blank. -/
theorem not_isBlank_of_isMantissaChar {c : Char} (h : isMantissaChar c = true) :
    isBlank c = false :=
  not_isBlank_of_isWordChar ((isMantissaChar_iff.1 h).imp_left isIdentifierChar_of_isDigit)

/-! ### Delimiters -/

/-- The text does not begin with a character that continues a number or an identifier. -/
def Delimited (text : List Char) : Prop :=
  ∀ c ∈ text.head?, isIdentifierChar c = false ∧ c ≠ '.'

theorem delimited_nil : Delimited [] := by simp [Delimited]

theorem delimited_cons {c : Char} {text : List Char} :
    Delimited (c :: text) ↔ isIdentifierChar c = false ∧ c ≠ '.' := by
  simp [Delimited]

theorem Delimited.append {text rest : List Char} (h : Delimited text) (hrest : Delimited rest) :
    Delimited (text ++ rest) := by
  cases text with
  | nil => exact hrest
  | cons c text => exact delimited_cons.2 (delimited_cons.1 h)

/-- Symbols and blanks are delimiters. -/
theorem delimited_symbol (s : Symbol) (text : List Char) : Delimited (s.char :: text) := by
  rw [delimited_cons]
  cases s <;> decide

theorem delimited_blank {c : Char} (h : isBlank c = true) (text : List Char) :
    Delimited (c :: text) := by
  rw [delimited_cons]
  refine ⟨?_, ?_⟩
  · by_contra hword
    rw [not_isBlank_of_isWordChar (.inl (by simpa using hword))] at h
    cases h
  · rintro rfl
    revert h
    decide

/-- A run of characters of one kind ends where a delimited text begins. -/
theorem Delimited.span {p : Char → Bool} {text rest : List Char} (hrest : Delimited rest)
    (hp : ∀ c, p c = true → isIdentifierChar c = true ∨ c = '.')
    (htext : ∀ c ∈ text, p c = true) :
    (text ++ rest).takeWhile p = text ∧ (text ++ rest).dropWhile p = rest := by
  have hhead : rest.takeWhile p = [] ∧ rest.dropWhile p = rest := by
    cases rest with
    | nil => exact ⟨rfl, rfl⟩
    | cons c rest =>
      obtain ⟨hword, hpoint⟩ := delimited_cons.1 hrest
      have hc : ¬p c = true := fun hc => (hp c hc).elim (by simp [hword]) hpoint
      exact ⟨List.takeWhile_cons_of_neg hc, List.dropWhile_cons_of_neg hc⟩
  rw [List.takeWhile_append_of_pos htext, List.dropWhile_append_of_pos htext, hhead.1, hhead.2,
    List.append_nil]
  exact ⟨rfl, rfl⟩

/-! ### Spelling -/

/-- **A text spells tokens**: it is cut into them, whatever delimited text follows. -/
def Spells (text : List Char) (tokens : List Token) : Prop :=
  ∀ rest, Delimited rest → tokenize (text ++ rest) = (tokens ++ ·) <$> tokenize rest

/-- A text that spells tokens has them. -/
theorem Spells.tokenize_eq {text : List Char} {tokens : List Token} (h : Spells text tokens) :
    tokenize text = .ok tokens := by
  have hnil := h [] delimited_nil
  rw [List.append_nil, tokenize] at hnil
  rw [hnil]
  simp [pure, Except.pure, Functor.map, Except.map]

theorem spells_nil : Spells [] [] := by
  intro rest _
  rw [List.nil_append]
  cases tokenize rest <;> rfl

/-- Blanks are skipped. -/
theorem Spells.blank {c : Char} {text : List Char} {tokens : List Token} (h : Spells text tokens)
    (hc : isBlank c = true) : Spells (c :: text) tokens := by
  intro rest hrest
  rw [List.cons_append, tokenize, if_pos hc, h rest hrest]

/-- A symbol stands for itself. -/
theorem Spells.symbol {s : Symbol} {text : List Char} {tokens : List Token}
    (h : Spells text tokens) : Spells (s.char :: text) (.symbol s :: tokens) := by
  intro rest hrest
  have hchar : isBlank s.char = false ∧ isMantissaChar s.char = false ∧
      isIdentifierStart s.char = false ∧ Symbol.ofChar? s.char = some s := by
    cases s <;> decide
  rw [List.cons_append, tokenize, if_neg (by simp [hchar.1]), if_neg (by simp [hchar.2.1]),
    if_neg (by simp [hchar.2.2.1]), hchar.2.2.2, h rest hrest]
  cases tokenize rest <;> rfl

/-- A text can be followed by one that begins with a delimiter. -/
theorem Spells.append {text text' : List Char} {tokens tokens' : List Token}
    (h : Spells text tokens) (h' : Spells text' tokens') (hdelim : Delimited text') :
    Spells (text ++ text') (tokens ++ tokens') := by
  intro rest hrest
  rw [List.append_assoc, h _ (hdelim.append hrest), h' rest hrest]
  cases tokenize rest with
  | error e => rfl
  | ok ts => simp [Functor.map, Except.map]

/-- Blanks alone spell nothing. -/
theorem spells_blanks {text : List Char} (h : ∀ c ∈ text, isBlank c = true) :
    Spells text [] := by
  induction text with
  | nil => exact spells_nil
  | cons c text ih =>
    exact (ih fun d hd => h d (List.mem_cons_of_mem c hd)).blank (h c List.mem_cons_self)

theorem delimited_blanks {text : List Char} (h : ∀ c ∈ text, isBlank c = true) :
    Delimited text := by
  cases text with
  | nil => exact delimited_nil
  | cons c text => exact delimited_blank (h c List.mem_cons_self) text

/-- Blanks around a text do not matter. -/
theorem Spells.trim {text : List Char} {tokens : List Token} (h : Spells (trim text) tokens) :
    Spells text tokens := by
  obtain ⟨front, back, hsplit, hfront, hback⟩ := exists_eq_append_trim text
  have htail := h.append (spells_blanks hback) (delimited_blanks hback)
  rw [List.append_nil] at htail
  rw [hsplit]
  clear hsplit
  induction front with
  | nil => exact htail
  | cons c front ih =>
    exact (ih fun d hd => hfront d (List.mem_cons_of_mem c hd)).blank
      (hfront c List.mem_cons_self)

/-! ### Words -/

/-- **A name** that can be written: it starts like an identifier and continues like one. -/
def IsName (name : List Char) : Prop :=
  ∃ c rest, name = c :: rest ∧ isIdentifierStart c = true ∧
    ∀ d ∈ rest, isIdentifierChar d = true

/-- A name is read as an identifier. -/
theorem IsName.spells {name : List Char} (h : IsName name) : Spells name [.identifier name] := by
  obtain ⟨c, tail, rfl, hc, htail⟩ := h
  intro rest hrest
  obtain ⟨htake, hdrop⟩ := hrest.span (p := isIdentifierChar) (fun _ h => .inl h) htail
  rw [List.cons_append, tokenize,
    if_neg (by simp [not_isBlank_of_isWordChar (.inl (isIdentifierChar_of_start hc))]),
    if_neg (by simp [not_isMantissaChar_of_start hc]), if_pos hc, htake, hdrop]
  cases tokenize rest <;> rfl

/-- **An exponent** behind a mantissa: nothing, or a mark with an optional sign and digits. -/
inductive IsExponent : List Char → Prop where
  | none : IsExponent []
  | mark {c : Char} {sign digits : List Char} : isExponentMark c = true →
      sign ∈ [[], ['-'], ['+']] → digits ≠ [] → (∀ d ∈ digits, d.isDigit = true) →
      IsExponent (c :: (sign ++ digits))

/-- An optional sign in front of digits is found. -/
theorem scanSign_append {sign digits rest : List Char} (hsign : sign ∈ [[], ['-'], ['+']])
    (hne : digits ≠ []) (hdigits : ∀ d ∈ digits, d.isDigit = true) :
    scanSign (sign ++ digits ++ rest) = (sign, digits ++ rest) := by
  obtain ⟨d, tail, rfl⟩ := List.exists_cons_of_ne_nil hne
  have hd := hdigits d List.mem_cons_self
  simp only [List.mem_cons, List.not_mem_nil, or_false] at hsign
  rcases hsign with rfl | rfl | rfl
  · have hminus : d ≠ '-' := by
      rintro rfl
      revert hd
      decide
    have hplus : d ≠ '+' := by
      rintro rfl
      revert hd
      decide
    rw [List.nil_append, List.cons_append, scanSign]
    · exact fun _ h => hminus (List.cons.inj h).1
    · exact fun _ h => hplus (List.cons.inj h).1
  · rfl
  · rfl

/-- The exponent of a number is found where a delimited text follows. -/
theorem IsExponent.scan {exponent rest : List Char} (h : IsExponent exponent)
    (hrest : Delimited rest) : scanExponent (exponent ++ rest) = (exponent, rest) := by
  cases h with
  | none =>
    cases rest with
    | nil => rfl
    | cons c rest =>
      have hmark : isExponentMark c = false := by
        by_contra hmark
        have hword := (delimited_cons.1 hrest).1
        rw [isIdentifierChar_of_isExponentMark (by simpa using hmark)] at hword
        cases hword
      rw [List.nil_append, scanExponent, hmark]
      rfl
  | mark hmark hsign hne hdigits =>
    rename_i c sign digits
    obtain ⟨htake, hdrop⟩ := hrest.span (p := Char.isDigit)
      (fun c hc => .inl (isIdentifierChar_of_isDigit hc)) hdigits
    rw [List.cons_append, scanExponent, scanSign_append hsign hne hdigits, htake, hdrop, hmark]
    simp [hne]

/-- A number is read as such. -/
theorem spells_number {mantissa exponent : List Char} (hne : mantissa ≠ [])
    (hmantissa : ∀ c ∈ mantissa, isMantissaChar c = true) (hexponent : IsExponent exponent) :
    Spells (mantissa ++ exponent) [.number (mantissa ++ exponent)] := by
  obtain ⟨c, tail, rfl⟩ := List.exists_cons_of_ne_nil hne
  obtain ⟨hc, htail⟩ := List.forall_mem_cons.1 hmantissa
  intro rest hrest
  have hspan : (tail ++ (exponent ++ rest)).takeWhile isMantissaChar = tail ∧
      (tail ++ (exponent ++ rest)).dropWhile isMantissaChar = exponent ++ rest := by
    cases hexponent with
    | none =>
      exact hrest.span (fun c hc => (isMantissaChar_iff.1 hc).imp_left isIdentifierChar_of_isDigit)
        htail
    | mark hmark =>
      have hnot := not_isMantissaChar_of_isExponentMark hmark
      rw [List.takeWhile_append_of_pos htail, List.dropWhile_append_of_pos htail]
      simp [hnot]
  rw [List.cons_append, List.cons_append, List.append_assoc, tokenize,
    if_neg (by simp [not_isBlank_of_isMantissaChar hc]), if_pos hc]
  simp only [hspan.1, hspan.2, hexponent.scan hrest]
  cases tokenize rest <;> rfl

/-- Digits are read as a number. -/
theorem spells_digits {digits : List Char} (hne : digits ≠ [])
    (hdigits : ∀ c ∈ digits, c.isDigit = true) : Spells digits [.number digits] := by
  have h := spells_number hne (fun c hc => isMantissaChar_iff.2 (.inl (hdigits c hc))) .none
  rwa [List.append_nil] at h

/-! ### Identifiers that are found -/

/-- **The identifiers of a text are names.** -/
theorem isName_of_tokenize {text : List Char} {tokens : List Token}
    (h : tokenize text = .ok tokens) : ∀ name, .identifier name ∈ tokens → IsName name := by
  -- a token in front of the others is one more name at most
  have hcons {rest : List Char} {token : Token} {tokens : List Token}
      (ih : ∀ {ts}, tokenize rest = .ok ts → ∀ name, .identifier name ∈ ts → IsName name)
      (htoken : ∀ name, token = .identifier name → IsName name)
      (h : (do pure (token :: (← tokenize rest))) = Except.ok tokens) :
      ∀ name, .identifier name ∈ tokens → IsName name := by
    cases hrest : tokenize rest with
    | error e =>
      rw [hrest] at h
      cases h
    | ok ts =>
      rw [hrest] at h
      cases h
      intro name hname
      rcases List.mem_cons.1 hname with rfl | hname
      · exact htoken name rfl
      · exact ih hrest name hname
  fun_induction tokenize text generalizing tokens with
  | case1 =>
    cases h
    simp
  | case2 c rest hblank ih => exact ih h
  | case3 c rest hblank hmantissa mantissa exponent =>
    rename_i ih
    exact hcons ih (by simp) h
  | case4 c rest hblank hmantissa hstart ih =>
    refine hcons ih ?_ h
    rintro name hname
    cases hname
    exact ⟨c, _, rfl, hstart, fun d hd => List.mem_takeWhile_imp hd⟩
  | case5 c rest hblank hmantissa hstart s hs ih => exact hcons ih (by simp) h
  | case6 c rest => cases h

end Expression

end MarkovElimination
