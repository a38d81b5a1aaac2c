import MarkovElimination.Proofs.RationalFunction.Arithmetic
import MarkovElimination.Proofs.RationalFunction.Token
import MarkovElimination.RationalFunction.Reading

/-! # What a token list reads as

The readers return the unread rest together with a proof that it is shorter. Without these proofs
they satisfy plain **equations** (`takeSum_plus` and the others), and a token list **reads as** a
quotient of polynomials if a reader takes it from the front of whatever follows and the value
presents that quotient (`ReadsUnary`, `ReadsTerm`, `ReadsSum`). There is one rule for each
construct, so the tokens of a printed polynomial are read along its structure. -/

namespace MarkovElimination.Expression

open MvPolynomial (C X)
open RationalFunction (Presents)

variable {source : List Char} {left : RationalFunction} {tokens rest : List Token}

/-! ### Readers without their proofs -/

/-- A value with the unread rest. -/
abbrev Taken := Except ReadError (RationalFunction × List Token)

/-- The value and the rest that are read. -/
def Read.pair (r : Read tokens) : RationalFunction × List Token := (r.value, r.rest)

@[inherit_doc Read.pair]
def ReadOn.pair (r : ReadOn tokens) : RationalFunction × List Token := (r.value, r.rest)

@[inherit_doc readPower]
def takePower (source : List Char) (base : RationalFunction) (tokens : List Token) : Taken :=
  ReadOn.pair <$> readPower source base tokens

@[inherit_doc readExpression]
def takeExpression (source : List Char) (tokens : List Token) : Taken :=
  Read.pair <$> readExpression source tokens

@[inherit_doc readSum]
def takeSum (source : List Char) (left : RationalFunction) (tokens : List Token) : Taken :=
  ReadOn.pair <$> readSum source left tokens

@[inherit_doc readTerm]
def takeTerm (source : List Char) (tokens : List Token) : Taken :=
  Read.pair <$> readTerm source tokens

@[inherit_doc readProduct]
def takeProduct (source : List Char) (left : RationalFunction) (tokens : List Token) : Taken :=
  ReadOn.pair <$> readProduct source left tokens

@[inherit_doc readUnary]
def takeUnary (source : List Char) (tokens : List Token) : Taken :=
  Read.pair <$> readUnary source tokens

@[inherit_doc readAtom]
def takeAtom (source : List Char) (tokens : List Token) : Taken :=
  Read.pair <$> readAtom source tokens

theorem takeExpression_eq : takeExpression source tokens =
    (do let (first, rest) ← takeTerm source tokens; takeSum source first rest) := by
  rw [takeExpression, readExpression, takeTerm]
  simp only [takeSum, map_eq_pure_bind, bind_assoc, pure_bind]
  rfl

theorem takeSum_plus : takeSum source left (.symbol .plus :: rest) = (do
    let (right, rest') ← takeTerm source rest
    let sum ← computed (Weight.checkedAdd left right)
    takeSum source sum rest') := by
  rw [takeSum, readSum, takeTerm]
  simp only [takeSum, map_eq_pure_bind, bind_assoc, pure_bind]
  rfl

theorem takeSum_minus : takeSum source left (.symbol .minus :: rest) = (do
    let (right, rest') ← takeTerm source rest
    let difference ← computed (Weight.checkedSub left right)
    takeSum source difference rest') := by
  rw [takeSum, readSum, takeTerm]
  simp only [takeSum, map_eq_pure_bind, bind_assoc, pure_bind]
  rfl

theorem takeTerm_eq : takeTerm source tokens =
    (do let (first, rest) ← takeUnary source tokens; takeProduct source first rest) := by
  rw [takeTerm, readTerm, takeUnary]
  simp only [takeProduct, map_eq_pure_bind, bind_assoc, pure_bind]
  rfl

theorem takeProduct_times : takeProduct source left (.symbol .times :: rest) = (do
    let (right, rest') ← takeUnary source rest
    let product ← computed (Weight.checkedMul left right)
    takeProduct source product rest') := by
  rw [takeProduct, readProduct, takeUnary]
  simp only [takeProduct, map_eq_pure_bind, bind_assoc, pure_bind]
  rfl

theorem takeProduct_over : takeProduct source left (.symbol .over :: rest) = (do
    let (right, rest') ← takeUnary source rest
    computed (requireRange right.simplifyFits)
    if right.isZero then throw (.invalid source .divisionByZero)
    let quotient ← computed (left.checkedQuotient right)
    takeProduct source quotient rest') := by
  rw [takeProduct, readProduct, takeUnary]
  simp only [takeProduct, map_eq_pure_bind, bind_assoc, pure_bind]
  refine bind_congr fun r => bind_congr fun _ => ?_
  show _ = (if r.value.isZero = true then _ else _)
  split
  · rfl
  · simp only [bind_assoc, pure_bind]
    rfl

theorem takeUnary_minus : takeUnary source (.symbol .minus :: rest) =
    (do let (value, rest') ← takeUnary source rest; pure (-value, rest')) := by
  rw [takeUnary, readUnary, takeUnary]
  simp only [map_eq_pure_bind, bind_assoc, pure_bind]
  rfl

theorem takeUnary_plus :
    takeUnary source (.symbol .plus :: rest) = takeUnary source rest := by
  rw [takeUnary, readUnary, takeUnary]
  simp only [map_eq_pure_bind, bind_assoc, pure_bind]
  rfl

theorem takeUnary_atom (hminus : tokens.head? ≠ some (.symbol .minus))
    (hplus : tokens.head? ≠ some (.symbol .plus)) : takeUnary source tokens =
      (do let (base, rest) ← takeAtom source tokens; takePower source base rest) := by
  rw [takeUnary, readUnary, takeAtom]
  · simp only [takePower, map_eq_pure_bind, bind_assoc, pure_bind]
    rfl
  · rintro rest rfl
    exact hminus rfl
  · rintro rest rfl
    exact hplus rfl

theorem takeAtom_number {text : List Char} : takeAtom source (.number text :: rest) =
    (do let value ← readRational text; pure (.const value, rest)) := by
  rw [takeAtom, readAtom]
  simp only [map_eq_pure_bind, bind_assoc, pure_bind]
  rfl

theorem takeAtom_identifier {name : List Char} : takeAtom source (.identifier name :: rest) =
    .ok (.ofParameter (String.ofList name), rest) := by
  rw [takeAtom, readAtom]
  rfl

theorem takeAtom_open : takeAtom source (.symbol .openParenthesis :: rest) = (do
    let (value, rest') ← takeExpression source rest
    match rest' with
    | .symbol .closeParenthesis :: rest'' => pure (value, rest'')
    | _ => throw (.invalid source .missingParenthesis)) := by
  rw [takeAtom, readAtom, takeExpression]
  simp only [map_eq_pure_bind, bind_assoc, pure_bind]
  refine bind_congr fun r => ?_
  obtain ⟨value, rest', h⟩ := r
  dsimp only [Read.pair]
  split
  case h_1 => rfl
  case h_2 hne =>
    split
    case h_1 => exact (hne _ h rfl HEq.rfl).elim
    case h_2 => rfl

theorem takeAtom_parenthesis {value : RationalFunction} {rest' : List Token}
    (h : takeExpression source rest = .ok (value, .symbol .closeParenthesis :: rest')) :
    takeAtom source (.symbol .openParenthesis :: rest) = .ok (value, rest') := by
  rw [takeAtom_open, h]
  rfl

theorem takePower_number {digits : List Char} {n : ℕ}
    (h : Text.unsigned? degreeBound digits = some n) :
    takePower source left (.symbol .power :: .number digits :: rest) =
      (do let value ← computed (left.checkedPow n); pure (value, rest)) := by
  rw [takePower, readPower, h]
  simp only [map_eq_pure_bind, bind_assoc, pure_bind]
  rfl

theorem readAll_eq : readAll source tokens = (do
    let (value, rest) ← takeExpression source tokens
    if rest.isEmpty then pure value else throw (.invalid source .trailingInput)) := by
  rw [readAll, takeExpression]
  simp only [map_eq_pure_bind, bind_assoc, pure_bind]
  rfl

/-! ### Where a reader stops -/

/-- The token list does not begin with one of the symbols. -/
def Stops (symbols : List Symbol) (rest : List Token) : Prop :=
  ∀ s ∈ symbols, rest.head? ≠ some (.symbol s)

theorem stops_nil (symbols : List Symbol) : Stops symbols [] := by
  intro s _
  simp

theorem stops_symbol {symbols : List Symbol} {s : Symbol} (h : s ∉ symbols) :
    Stops symbols (.symbol s :: rest) := by
  rintro s' hs' heq
  cases heq
  exact h hs'

theorem Stops.mono {symbols symbols' : List Symbol} (h : Stops symbols' rest)
    (hsub : symbols ⊆ symbols') : Stops symbols rest :=
  fun s hs => h s (hsub hs)

theorem takePower_stop (h : Stops [.power] rest) :
    takePower source left rest = .ok (left, rest) := by
  have hpower := h .power (by simp)
  rw [takePower, readPower]
  · rfl
  · rintro digits rest' rfl
    exact hpower rfl
  · rintro rest' rfl
    exact hpower rfl

theorem takeProduct_stop (h : Stops [.times, .over] rest) :
    takeProduct source left rest = .ok (left, rest) := by
  rw [takeProduct, readProduct]
  · rfl
  · rintro rest' rfl
    exact h .times (by simp) rfl
  · rintro rest' rfl
    exact h .over (by simp) rfl

theorem takeSum_stop (h : Stops [.plus, .minus] rest) :
    takeSum source left rest = .ok (left, rest) := by
  rw [takeSum, readSum]
  · rfl
  · rintro rest' rfl
    exact h .plus (by simp) rfl
  · rintro rest' rfl
    exact h .minus (by simp) rfl

/-! ### What tokens read as -/

variable {ts us : List Token} {n d n' d' : MvPolynomial Parameter ℚ}

/-- **The tokens are a unary** of value `n / d`, unless an exponent follows. -/
def ReadsUnary (ts : List Token) (n d : MvPolynomial Parameter ℚ) : Prop :=
  ∀ source rest, Stops [.power] rest →
    ∃ value, takeUnary source (ts ++ rest) = .ok (value, rest) ∧ Presents value n d

/-- **The tokens begin a term** with the value `n / d`, which what follows may continue. -/
def ReadsTerm (ts : List Token) (n d : MvPolynomial Parameter ℚ) : Prop :=
  ∀ source rest, Stops [.power] rest →
    ∃ value, takeTerm source (ts ++ rest) = takeProduct source value rest ∧ Presents value n d

/-- **The tokens begin an expression** with the polynomial `n` as its value, which what follows may
continue, but not with a factor. -/
def ReadsSum (ts : List Token) (n : MvPolynomial Parameter ℚ) : Prop :=
  ∀ source rest, Stops [.power, .times, .over] rest →
    ∃ value, takeExpression source (ts ++ rest) = takeSum source value rest ∧ Presents value n 1

theorem readsUnary_number {text : List Char} {c : ℚ} (h : readRational text = .ok c) :
    ReadsUnary [.number text] (C c) 1 := by
  intro source rest hrest
  refine ⟨.const c, ?_, RationalFunction.presents_const c⟩
  rw [List.singleton_append, takeUnary_atom (by simp) (by simp), takeAtom_number, h]
  exact takePower_stop hrest

theorem readsUnary_identifier (name : List Char) :
    ReadsUnary [.identifier name] (X (String.ofList name)) 1 := by
  intro source rest hrest
  refine ⟨.ofParameter (String.ofList name), ?_, RationalFunction.presents_ofParameter _⟩
  rw [List.singleton_append, takeUnary_atom (by simp) (by simp), takeAtom_identifier]
  exact takePower_stop hrest

/-- A power of a parameter. -/
theorem readsUnary_power (name : List Char) {digits : List Char} {k : ℕ}
    (h : Text.unsigned? degreeBound digits = some k) (hk : k < degreeBound) :
    ReadsUnary [.identifier name, .symbol .power, .number digits]
    (X (String.ofList name) ^ k) 1 := by
  intro source rest _
  have hdegree (x : Parameter) :
      degree x (X (String.ofList name) : MvPolynomial Parameter ℚ) * k < degreeBound := by
    have hle : degree x (X (String.ofList name) : MvPolynomial Parameter ℚ) ≤ 1 := by
      rw [X, degree_monomial one_ne_zero, Finsupp.single_apply]
      split <;> simp
    calc degree x (X (String.ofList name) : MvPolynomial Parameter ℚ) * k ≤ 1 * k :=
          Nat.mul_le_mul_right k hle
      _ = k := Nat.one_mul k
      _ < degreeBound := hk
  obtain ⟨value, hpow, hvalue⟩ :=
    (RationalFunction.presents_ofParameter (String.ofList name)).checkedPow hdegree
  refine ⟨value, ?_, hvalue⟩
  rw [List.cons_append, takeUnary_atom (by simp) (by simp), takeAtom_identifier]
  show takePower source _ (.symbol .power :: .number digits :: rest) = _
  rw [takePower_number h, hpow]
  rfl

theorem ReadsUnary.minus (h : ReadsUnary ts n d) : ReadsUnary (.symbol .minus :: ts) (-n) d := by
  intro source rest hrest
  obtain ⟨value, htake, hvalue⟩ := h source rest hrest
  refine ⟨-value, ?_, hvalue.neg⟩
  rw [List.cons_append, takeUnary_minus, htake]
  rfl

theorem ReadsUnary.plus (h : ReadsUnary ts n d) : ReadsUnary (.symbol .plus :: ts) n d := by
  intro source rest hrest
  rw [List.cons_append, takeUnary_plus]
  exact h source rest hrest

theorem ReadsUnary.term (h : ReadsUnary ts n d) : ReadsTerm ts n d := by
  intro source rest hrest
  obtain ⟨value, htake, hvalue⟩ := h source rest hrest
  refine ⟨value, ?_, hvalue⟩
  rw [takeTerm_eq, htake]
  rfl

theorem ReadsTerm.times (h : ReadsTerm ts n d) (h' : ReadsUnary us n' d')
    (hn : ∀ x, degree x n + degree x n' < degreeBound)
    (hd : ∀ x, degree x d + degree x d' < degreeBound) :
    ReadsTerm (ts ++ .symbol .times :: us) (n * n') (d * d') := by
  intro source rest hrest
  obtain ⟨value, htake, hvalue⟩ :=
    h source (.symbol .times :: (us ++ rest)) (stops_symbol (by decide))
  obtain ⟨value', htake', hvalue'⟩ := h' source rest hrest
  obtain ⟨product, hproduct, hpresents⟩ := hvalue.checkedMul hvalue' hn hd
  refine ⟨product, ?_, hpresents⟩
  rw [List.append_assoc, List.cons_append, htake, takeProduct_times, htake']
  show (computed (Weight.checkedMul value value') >>= _) = _
  rw [hproduct]
  rfl

/-- A polynomial over a number can always be brought into its canonical form. -/
theorem simplifyFits_of_presents {value : RationalFunction} (h : Presents value n 1) :
    value.simplifyFits = true := by
  obtain ⟨c, -, -, hd⟩ := h.multiple
  have hconst : value.denominator = .const c := by
    refine Polynomial.toMv_injective h.wellFormed.2.1 (Polynomial.wellFormed_const c) ?_
    rw [hd, mul_one, Polynomial.toMv_const]
  have hconstant : (Polynomial.const c).isConstant = true := by
    rw [Polynomial.const, Polynomial.ofTerm]
    split <;> rfl
  rw [RationalFunction.simplifyFits, hconst, hconstant]
  simp

theorem ReadsTerm.over (h : ReadsTerm ts n d) (h' : ReadsUnary us n' 1) (hne : n' ≠ 0)
    (hn : ∀ x, degree x n < degreeBound) (hd : ∀ x, degree x d + degree x n' < degreeBound) :
    ReadsTerm (ts ++ .symbol .over :: us) n (d * n') := by
  intro source rest hrest
  obtain ⟨value, htake, hvalue⟩ :=
    h source (.symbol .over :: (us ++ rest)) (stops_symbol (by decide))
  obtain ⟨value', htake', hvalue'⟩ := h' source rest hrest
  obtain ⟨hzero, quotient, hquotient, hpresents⟩ := hvalue.checkedQuotient hvalue' hne
    (fun x => by simpa using hn x) hd
  rw [mul_one] at hpresents
  refine ⟨quotient, ?_, hpresents⟩
  rw [List.append_assoc, List.cons_append, htake, takeProduct_over, htake']
  show (computed (requireRange value'.simplifyFits) >>= _) = _
  rw [simplifyFits_of_presents hvalue']
  show (if value'.isZero = true then _ else _) = _
  rw [if_neg (by simp [hzero]), hquotient]
  rfl

theorem ReadsTerm.sum (h : ReadsTerm ts n 1) : ReadsSum ts n := by
  intro source rest hrest
  obtain ⟨value, htake, hvalue⟩ := h source rest (hrest.mono (by simp))
  refine ⟨value, ?_, hvalue⟩
  rw [takeExpression_eq, htake, takeProduct_stop (hrest.mono (by simp))]
  rfl

/-- A term that is followed by no factor. -/
theorem ReadsTerm.take (h : ReadsTerm ts n d) (source : List Char)
    (hrest : Stops [.power, .times, .over] rest) :
    ∃ value, takeTerm source (ts ++ rest) = .ok (value, rest) ∧ Presents value n d := by
  obtain ⟨value, htake, hvalue⟩ := h source rest (hrest.mono (by simp))
  exact ⟨value, by rw [htake, takeProduct_stop (hrest.mono (by simp))], hvalue⟩

theorem ReadsSum.plus (h : ReadsSum ts n) (h' : ReadsTerm us n' 1)
    (hn : ∀ x, degree x n < degreeBound) (hn' : ∀ x, degree x n' < degreeBound) :
    ReadsSum (ts ++ .symbol .plus :: us) (n + n') := by
  intro source rest hrest
  obtain ⟨value, htake, hvalue⟩ :=
    h source (.symbol .plus :: (us ++ rest)) (stops_symbol (by decide))
  obtain ⟨value', htake', hvalue'⟩ := h'.take source hrest
  obtain ⟨sum, hsum, hpresents⟩ := hvalue.checkedAdd hvalue' hn hn'
  refine ⟨sum, ?_, hpresents⟩
  rw [List.append_assoc, List.cons_append, htake, takeSum_plus, htake']
  show (computed (Weight.checkedAdd value value') >>= _) = _
  rw [hsum]
  rfl

theorem ReadsSum.minus (h : ReadsSum ts n) (h' : ReadsTerm us n' 1)
    (hn : ∀ x, degree x n < degreeBound) (hn' : ∀ x, degree x n' < degreeBound) :
    ReadsSum (ts ++ .symbol .minus :: us) (n - n') := by
  intro source rest hrest
  obtain ⟨value, htake, hvalue⟩ :=
    h source (.symbol .minus :: (us ++ rest)) (stops_symbol (by decide))
  obtain ⟨value', htake', hvalue'⟩ := h'.take source hrest
  obtain ⟨difference, hdifference, hpresents⟩ := hvalue.checkedSub hvalue' hn hn'
  refine ⟨difference, ?_, hpresents⟩
  rw [List.append_assoc, List.cons_append, htake, takeSum_minus, htake']
  show (computed (Weight.checkedSub value value') >>= _) = _
  rw [hdifference]
  rfl

/-- An expression in parentheses. -/
theorem ReadsSum.parenthesis (h : ReadsSum ts n) :
    ReadsUnary (.symbol .openParenthesis :: (ts ++ [.symbol .closeParenthesis])) n 1 := by
  intro source rest hrest
  obtain ⟨value, htake, hvalue⟩ :=
    h source (.symbol .closeParenthesis :: rest) (stops_symbol (by decide))
  rw [takeSum_stop (stops_symbol (by decide))] at htake
  refine ⟨value, ?_, hvalue⟩
  rw [List.cons_append, List.append_assoc, List.singleton_append,
    takeUnary_atom (by simp) (by simp), takeAtom_parenthesis htake]
  exact takePower_stop hrest

/-- A term on its own. -/
theorem ReadsTerm.readAll (h : ReadsTerm ts n d) (source : List Char) :
    ∃ value, readAll source ts = .ok value ∧ Presents value n d := by
  obtain ⟨value, htake, hvalue⟩ := h.take source (stops_nil _)
  rw [List.append_nil] at htake
  refine ⟨value, ?_, hvalue⟩
  rw [readAll_eq, takeExpression_eq, htake]
  show (do let (value, rest) ← takeSum source value []; _ : Except ReadError _) = _
  rw [takeSum_stop (stops_nil _)]
  rfl

/-- An expression on its own. -/
theorem ReadsSum.readAll (h : ReadsSum ts n) (source : List Char) :
    ∃ value, readAll source ts = .ok value ∧ Presents value n 1 := by
  obtain ⟨value, htake, hvalue⟩ := h source [] (stops_nil _)
  rw [List.append_nil, takeSum_stop (stops_nil _)] at htake
  refine ⟨value, ?_, hvalue⟩
  rw [readAll_eq, htake]
  rfl

end MarkovElimination.Expression

/-- A text whose tokens are read is brought into its canonical form. -/
theorem MarkovElimination.readRationalFunction_of_readAll {text : List Char}
    {tokens : List Expression.Token} {value : RationalFunction}
    (htokens : Expression.tokenize text = .ok tokens)
    (hread : Expression.readAll text tokens = .ok value) :
    readRationalFunction text = Expression.computed (Weight.checkedSimplify value) := by
  rw [readRationalFunction, htokens]
  show (do
    let v ← Expression.readAll text tokens
    Expression.computed (Weight.checkedSimplify v)) = _
  rw [hread]
  rfl
