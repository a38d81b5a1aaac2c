import MarkovElimination.Proofs.Polynomial.Representation
import MarkovElimination.Proofs.RationalFunction.FractionField
import MarkovElimination.Proofs.RationalFunction.Reading

/-! # Expressions and their values

The grammar of expressions **derives** a tree from a token list (`Derives`). Operators of one level
are left-recursive, so they associate to the left, and an exponent belongs to the atom in front of
it. A tree has a **value** in the field of fractions, unless it divides by zero. A token list is
read exactly if the grammar derives a tree that has a value and can be computed in the range of
exponents, and what is returned denotes this value. It has no parameters but the identifiers that
occur (`readAll_over`). -/

namespace MarkovElimination

namespace RationalFunction

variable {r s : RationalFunction} {f g : FractionField}

theorem denotes_ofPolynomial {p : Polynomial} {m : MvPolynomial Parameter ℚ}
    (h : p.Represents m) : (ofPolynomial p).Denotes (algebraMap _ _ m) := by
  obtain ⟨hvalid, himage⟩ :=
    hasImage_ofPolynomial (φ := algebraMap _ FractionField) h.wellFormed
  refine ⟨hvalid.wellFormed, ⟨h.inRange, (by decide : (1 : Polynomial).InRange)⟩, ?_⟩
  rw [himage, h.toMv_eq]

/-- Powers in range denote powers. -/
theorem Denotes.pow (hr : r.Denotes f) {n : ℕ}
    (hfits : (r.numerator.powFits n && r.denominator.powFits n) = true) :
    (r.pow n).Denotes (f ^ n) := by
  have hover := (hr.wellFormed.over hr.inRange).pow hfits
  obtain ⟨-, hn, hd⟩ := pow_parts hr.wellFormed n
  refine ⟨hover.wellFormed, hover.inRange, ?_⟩
  rw [← hr.image_eq, image, image, hn, hd, map_pow, map_pow, div_pow]

end RationalFunction

namespace Expression

open RationalFunction (Operation FractionField)

/-! ### Trees -/

/-- An operator between two operands. -/
inductive Operator where
  | plus
  | minus
  | times
  | divide
deriving DecidableEq

namespace Operator

/-- The symbol of an operator. -/
def symbol : Operator → Symbol
  | plus => .plus
  | minus => .minus
  | times => .times
  | divide => .over

/-- The operation on fractions that an operator stands for. -/
def operation : Operator → Operation
  | plus => .add
  | minus => .sub
  | times => .mul
  | divide => .div

/-- Whether an operator can be applied in the range of exponents. A divisor is simplified as
well. -/
def fits : Operator → RationalFunction → RationalFunction → Bool
  | divide, r, s => s.simplifyFits && Operation.div.fits r s
  | op, r, s => op.operation.fits r s

end Operator

/-- **The tree** of an expression. -/
inductive Tree where
  | number (c : ℚ)
  | parameter (name : Parameter)
  | negation (t : Tree)
  | power (t : Tree) (n : ℕ)
  | binary (op : Operator) (left right : Tree)

namespace Tree

/-- The value of a tree in the field of fractions. -/
noncomputable def value : Tree → FractionField
  | number c => algebraMap ℚ _ c
  | parameter name => algebraMap (MvPolynomial Parameter ℚ) _ (.X name)
  | negation t => -t.value
  | power t n => t.value ^ n
  | binary op left right => op.operation.value left.value right.value

/-- No divisor of the tree is zero. -/
def Defined : Tree → Prop
  | number _ | parameter _ => True
  | negation t | power t _ => t.Defined
  | binary op left right =>
    left.Defined ∧ right.Defined ∧ op.operation.Defined left.value right.value

/-- The fraction of a tree, computed without a range of exponents. -/
def fraction : Tree → RationalFunction
  | number c => .const c
  | parameter name => .ofParameter name
  | negation t => -t.fraction
  | power t n => t.fraction.pow n
  | binary op left right => op.operation.result left.fraction right.fraction

/-- Whether the fraction of a tree can be computed in the range of exponents. -/
def fits : Tree → Bool
  | number _ | parameter _ => true
  | negation t => t.fits
  | power t n => t.fits && (t.fraction.numerator.powFits n && t.fraction.denominator.powFits n)
  | binary op left right => left.fits && (right.fits && op.fits left.fraction right.fraction)

end Tree

/-! ### The grammar -/

/-- The constructs of the grammar. -/
inductive Level where
  | expression
  | term
  | unary
  | power
  | atom

/-- **The grammar**: which token lists derive a tree at which level. -/
inductive Derives : Level → List Token → Tree → Prop where
  | number {text : List Char} {c : ℚ} (h : readRational text = .ok c) :
    Derives .atom [.number text] (.number c)
  | parameter (name : List Char) :
    Derives .atom [.identifier name] (.parameter (String.ofList name))
  | parentheses {ts : List Token} {t : Tree} (h : Derives .expression ts t) :
    Derives .atom (.symbol .openParenthesis :: (ts ++ [.symbol .closeParenthesis])) t
  | atom {ts : List Token} {t : Tree} (h : Derives .atom ts t) : Derives .power ts t
  | power {ts : List Token} {t : Tree} {digits : List Char} {n : ℕ} (h : Derives .atom ts t)
      (hn : Text.unsigned? degreeBound digits = some n) :
    Derives .power (ts ++ [.symbol .power, .number digits]) (.power t n)
  | unsigned {ts : List Token} {t : Tree} (h : Derives .power ts t) : Derives .unary ts t
  | minus {ts : List Token} {t : Tree} (h : Derives .unary ts t) :
    Derives .unary (.symbol .minus :: ts) (.negation t)
  | plus {ts : List Token} {t : Tree} (h : Derives .unary ts t) :
    Derives .unary (.symbol .plus :: ts) t
  | factor {ts : List Token} {t : Tree} (h : Derives .unary ts t) : Derives .term ts t
  | product {ts us : List Token} {t u : Tree} (op : Operator) (hop : op ∈ [.times, .divide])
      (h : Derives .term ts t) (h' : Derives .unary us u) :
    Derives .term (ts ++ .symbol op.symbol :: us) (.binary op t u)
  | summand {ts : List Token} {t : Tree} (h : Derives .term ts t) : Derives .expression ts t
  | sum {ts us : List Token} {t u : Tree} (op : Operator) (hop : op ∈ [.plus, .minus])
      (h : Derives .expression ts t) (h' : Derives .term us u) :
    Derives .expression (ts ++ .symbol op.symbol :: us) (.binary op t u)

/-! ### What a tree computes -/

variable {source : List Char} {left right r s : RationalFunction} {f g : FractionField}
  {tokens rest ts us all : List Token} {t u : Tree} {op : Operator}

namespace Operator

/-- The step that a reader takes at an operator. -/
def step (source : List Char) : Operator → RationalFunction → RationalFunction →
    Except ReadError RationalFunction
  | divide, r, s => do
    computed (requireRange s.simplifyFits)
    if s.isZero then throw (.invalid source .divisionByZero)
    computed (r.checkedQuotient s)
  | op, r, s => computed (op.operation.run r s)

theorem fits_operation (h : op.fits r s = true) : op.operation.fits r s = true := by
  cases op with
  | plus | minus | times => exact h
  | divide => exact (Bool.and_eq_true_iff.1 h).2

/-- A step returns its result, or leaves the range of exponents. -/
theorem step_eq (hr : r.Denotes f) (hs : s.Denotes g) (hdef : op.operation.Defined f g) :
    op.step source r s = if op.fits r s then .ok (op.operation.result r s)
      else .error (.fault .degreeOverflow) := by
  have hrun (op : Operation) (hdef : op.Defined f g) :
      computed (op.run r s) = if op.fits r s then .ok (op.result r s)
        else .error (.fault .degreeOverflow) := by
    have hreturns := op.returnsIf_run hr.hasImage hs.hasImage hr.inRange
      (by rwa [hr.image_eq, hs.image_eq])
    cases hfits : op.fits r s with
    | true => rw [hreturns.eq_ok hfits]; rfl
    | false => rw [hreturns.eq_error hfits]; rfl
  cases op with
  | plus | minus | times => exact hrun _ hdef
  | divide =>
    have hzero : s.isZero = false := Bool.eq_false_iff.2 (hs.isZero_iff.not.2 hdef)
    have hquotient := hrun .div hdef
    rw [show Operation.div.run r s = r.checkedQuotient s from
      RationalFunction.divide_eq hzero] at hquotient
    rw [step, hquotient, hzero, fits]
    cases s.simplifyFits <;> rfl

/-- A step that returns has not divided by zero. -/
theorem defined_of_step {v : RationalFunction} (hs : s.Denotes g)
    (h : op.step source r s = .ok v) : op.operation.Defined f g := by
  cases op with
  | plus | minus | times => exact trivial
  | divide =>
    rw [step] at h
    cases hsimplify : s.simplifyFits with
    | false =>
      rw [hsimplify] at h
      cases h
    | true =>
      rw [hsimplify] at h
      change (if s.isZero = true then _ else _) = _ at h
      split at h
      case isTrue => cases h
      case isFalse hzero => exact hs.isZero_iff.not.1 hzero

end Operator

/-- **The fraction of a tree** denotes its value, if it can be computed in range. -/
theorem Tree.denotes (hdef : t.Defined) (hfits : t.fits = true) : t.fraction.Denotes t.value := by
  induction t with
  | number c => exact .const c
  | parameter name => exact RationalFunction.denotes_ofPolynomial (.ofParameter name)
  | negation t ih =>
    have ht := ih hdef hfits
    exact Operation.neg.result_denotes ht ht trivial rfl
  | power t n ih =>
    obtain ⟨ht, hpow⟩ := Bool.and_eq_true_iff.1 hfits
    exact (ih hdef ht).pow hpow
  | binary op left right ihleft ihright =>
    obtain ⟨hl, hfits⟩ := Bool.and_eq_true_iff.1 hfits
    obtain ⟨hr, hop⟩ := Bool.and_eq_true_iff.1 hfits
    obtain ⟨hdefl, hdefr, hdef⟩ := hdef
    exact op.operation.result_denotes (ihleft hdefl hl) (ihright hdefr hr) hdef
      (Operator.fits_operation hop)

/-! ### Reading what the grammar derives -/

/-- What a reader returns for a tree in front of the rest. -/
def Tree.taken (t : Tree) (rest : List Token) : Taken :=
  if t.fits then .ok (t.fraction, rest) else .error (.fault .degreeOverflow)

theorem takeSum_operator (hop : op ∈ [.plus, .minus]) :
    takeSum source left (.symbol op.symbol :: rest) = (do
      let (right, rest') ← takeTerm source rest
      let value ← op.step source left right
      takeSum source value rest') := by
  simp only [List.mem_cons, List.not_mem_nil, or_false] at hop
  rcases hop with rfl | rfl
  · exact takeSum_plus
  · exact takeSum_minus

theorem takeProduct_operator (hop : op ∈ [.times, .divide]) :
    takeProduct source left (.symbol op.symbol :: rest) = (do
      let (right, rest') ← takeUnary source rest
      let value ← op.step source left right
      takeProduct source value rest') := by
  simp only [List.mem_cons, List.not_mem_nil, or_false] at hop
  rcases hop with rfl | rfl
  · exact takeProduct_times
  · refine takeProduct_over.trans (bind_congr fun taken => ?_)
    dsimp only [Operator.step]
    rw [bind_assoc]
    refine bind_congr fun _ => ?_
    split <;> rfl

/-- **What reading takes for a tree**, at each level. A term may be continued by a factor and an
expression by a summand, so their readers go on from the fraction of the tree. -/
def Accepts : Level → List Token → Tree → Prop
  | .atom, ts, t => ∀ source rest,
    Stops [.plus, .minus] (ts ++ rest) ∧ takeAtom source (ts ++ rest) = t.taken rest
  | .power, ts, t | .unary, ts, t => ∀ source rest, Stops [.power] rest →
    takeUnary source (ts ++ rest) = t.taken rest
  | .term, ts, t => ∀ source rest, Stops [.power] rest →
    takeTerm source (ts ++ rest) =
      (do let (value, rest') ← t.taken rest; takeProduct source value rest')
  | .expression, ts, t => ∀ source rest, Stops [.power, .times, .over] rest →
    takeExpression source (ts ++ rest) =
      (do let (value, rest') ← t.taken rest; takeSum source value rest')

/-- A tree that is continued. -/
theorem Tree.taken_bind {k : RationalFunction × List Token → Taken} :
    (t.taken rest >>= k) =
      if t.fits then k (t.fraction, rest) else .error (.fault .degreeOverflow) := by
  rw [taken]
  split <;> rfl

/-- Two operands in a row, and the step at the operator between them. -/
theorem Tree.taken_binary (hdef : (Tree.binary op t u).Defined)
    {k : RationalFunction → List Token → Taken} :
    (if t.fits then
      (do
        let (right, rest') ← u.taken rest
        let value ← op.step source t.fraction right
        k value rest')
      else .error (.fault .degreeOverflow)) =
    (do let (value, rest') ← (Tree.binary op t u).taken rest; k value rest') := by
  obtain ⟨ht, hu, hop⟩ := hdef
  rw [taken_bind, taken_bind, fraction, fits]
  cases htfits : t.fits with
  | false => rfl
  | true =>
    cases hufits : u.fits with
    | false => rfl
    | true =>
      have hstep : op.step source t.fraction u.fraction = _ :=
        Operator.step_eq (denotes ht htfits) (denotes hu hufits) hop
      dsimp only
      rw [hstep]
      cases op.fits t.fraction u.fraction <;> rfl

/-- A term that is followed by no factor. -/
theorem Accepts.takeTerm_eq (h : Accepts .term ts t) (source : List Char)
    (hrest : Stops [.power, .times, .over] rest) : takeTerm source (ts ++ rest) = t.taken rest := by
  rw [h source rest (hrest.mono (by simp)), Tree.taken_bind, Tree.taken]
  exact if_congr Iff.rfl (takeProduct_stop (hrest.mono (by simp))) rfl

/-- An expression that is followed by no summand. -/
theorem Accepts.takeExpression_eq (h : Accepts .expression ts t) (source : List Char)
    (hrest : Stops [.power, .times, .over, .plus, .minus] rest) :
    takeExpression source (ts ++ rest) = t.taken rest := by
  rw [h source rest (hrest.mono (by simp)), Tree.taken_bind, Tree.taken]
  exact if_congr Iff.rfl (takeSum_stop (hrest.mono (by simp))) rfl

/-- **Completeness**: what the grammar derives is read, unless it divides by zero. -/
theorem Derives.accepts {level : Level} (h : Derives level ts t) (hdef : t.Defined) :
    Accepts level ts t := by
  -- One case for each rule: a part is read with what is left of the rule still behind it, and stops
  -- there.
  induction h with
  | number h =>
    intro source rest
    refine ⟨fun s _ => by simp, ?_⟩
    rw [List.singleton_append, takeAtom_number, h]
    rfl
  | parameter name =>
    intro source rest
    refine ⟨fun s _ => by simp, ?_⟩
    rw [List.singleton_append, takeAtom_identifier]
    rfl
  | parentheses h ih =>
    intro source rest
    refine ⟨stops_symbol (by decide), ?_⟩
    rw [List.cons_append, List.append_assoc, List.singleton_append, takeAtom_open,
      (ih hdef).takeExpression_eq source (stops_symbol (by decide)), Tree.taken_bind]
    rfl
  | atom h ih =>
    intro source rest hrest
    obtain ⟨hstop, htake⟩ := ih hdef source rest
    rw [takeUnary_atom (hstop .minus (by simp)) (hstop .plus (by simp)), htake, Tree.taken_bind,
      Tree.taken]
    split
    · exact takePower_stop hrest
    · rfl
  | @power ts t digits n h hn ih =>
    intro source rest hrest
    obtain ⟨hstop, htake⟩ := ih hdef source (.symbol .power :: .number digits :: rest)
    rw [List.append_assoc, List.cons_append, List.singleton_append,
      takeUnary_atom (hstop .minus (by simp)) (hstop .plus (by simp)), htake, Tree.taken_bind,
      Tree.taken, Tree.fits]
    cases t.fits with
    | false => rfl
    | true =>
      dsimp only
      rw [takePower_number hn, RationalFunction.checkedPow]
      cases t.fraction.numerator.powFits n && t.fraction.denominator.powFits n <;> rfl
  | unsigned h ih => exact ih hdef
  | @minus ts t h ih =>
    intro source rest hrest
    rw [List.cons_append, takeUnary_minus, ih hdef source rest hrest, Tree.taken, Tree.taken,
      Tree.fits]
    cases t.fits <;> rfl
  | plus h ih =>
    intro source rest hrest
    rw [List.cons_append, takeUnary_plus]
    exact ih hdef source rest hrest
  | factor h ih =>
    intro source rest hrest
    rw [takeTerm_eq, ih hdef source rest hrest]
  | @product ts us t u op hop h h' ih ih' =>
    intro source rest hrest
    have hstop : Stops [.power] (.symbol op.symbol :: (us ++ rest)) := by
      refine stops_symbol ?_
      cases op <;> decide
    rw [List.append_assoc, List.cons_append, ih hdef.1 source _ hstop, Tree.taken_bind]
    dsimp only
    rw [takeProduct_operator hop, ih' hdef.2.1 source rest hrest, Tree.taken_binary hdef]
  | summand h ih =>
    intro source rest hrest
    rw [takeExpression_eq, (ih hdef).takeTerm_eq source hrest]
  | @sum ts us t u op hop h h' ih ih' =>
    intro source rest hrest
    have hstop : Stops [.power, .times, .over] (.symbol op.symbol :: (us ++ rest)) := by
      refine stops_symbol ?_
      simp only [List.mem_cons, List.not_mem_nil, or_false] at hop
      rcases hop with rfl | rfl <;> decide
    have hright := ih' hdef.2.1
    rw [List.append_assoc, List.cons_append, ih hdef.1 source _ hstop, Tree.taken_bind]
    dsimp only
    rw [takeSum_operator hop, hright.takeTerm_eq source hrest, Tree.taken_binary hdef]

/-! ### Parameters -/

section Parameters

variable {S : Parameter → Prop}

/-- Every identifier among the tokens names a parameter of `S`. -/
def Named (S : Parameter → Prop) (tokens : List Token) : Prop :=
  ∀ name, .identifier name ∈ tokens → S (String.ofList name)

theorem Named.mono (h : Named S ts) (hsub : us ⊆ ts) : Named S us :=
  fun name hname => h name (hsub hname)

/-- The result of an operator has no other parameters than its operands. -/
theorem Operator.over_result (hr : r.Over S) (hs : s.Over S) (hdenotes : s.Denotes g)
    (hdef : op.operation.Defined f g) (hfits : op.fits r s = true) :
    (op.operation.result r s).Over S := by
  have hoperation := fits_operation hfits
  cases op with
  | plus => exact hr.add hs hoperation
  | minus => exact hr.sub hs hoperation
  | times => exact hr.mul hs hoperation
  | divide =>
    have hzero : s.isZero = false := Bool.eq_false_iff.2 (hdenotes.isZero_iff.not.2 hdef)
    exact hr.quotient hs hzero hoperation

theorem Tree.over_binary (hdef : (Tree.binary op t u).Defined)
    (hfits : (Tree.binary op t u).fits = true)
    (ht : t.Defined → t.fits = true → t.fraction.Over S)
    (hu : u.Defined → u.fits = true → u.fraction.Over S) :
    (Tree.binary op t u).fraction.Over S := by
  obtain ⟨htdef, hudef, hop⟩ := hdef
  obtain ⟨htfits, hfits⟩ := Bool.and_eq_true_iff.1 hfits
  obtain ⟨hufits, hopfits⟩ := Bool.and_eq_true_iff.1 hfits
  exact Operator.over_result (ht htdef htfits) (hu hudef hufits) (denotes hudef hufits) hop hopfits

/-- **The fraction of a tree** has no parameters but the identifiers that occur in its tokens. -/
theorem Derives.over {level : Level} (h : Derives level ts t) (hnamed : Named S ts)
    (hdef : t.Defined) (hfits : t.fits = true) : t.fraction.Over S := by
  induction h with
  | number h => exact .of_polynomial (Polynomial.over_const _)
  | parameter name =>
    exact .of_polynomial (Polynomial.over_ofParameter (hnamed name List.mem_cons_self))
  | parentheses h ih => exact ih (hnamed.mono (by simp)) hdef hfits
  | atom h ih | unsigned h ih | factor h ih | summand h ih => exact ih hnamed hdef hfits
  | power h hn ih =>
    obtain ⟨ht, hpow⟩ := Bool.and_eq_true_iff.1 hfits
    exact (ih (hnamed.mono (by simp)) hdef ht).pow hpow
  | minus h ih => exact (ih (hnamed.mono (by simp)) hdef hfits).neg
  | plus h ih => exact ih (hnamed.mono (by simp)) hdef hfits
  | product op hop h h' ih ih' | sum op hop h h' ih ih' =>
    exact Tree.over_binary hdef hfits (ih (hnamed.mono (by simp))) (ih' (hnamed.mono (by simp)))

end Parameters

/-! ### Deriving what is read -/

theorem computed_meets {β : Type} {E : Fault → Prop} {Q : β → Prop} {x : Except Fault β}
    (h : Meets E Q x) : Meets (fun _ => True) Q (computed x) := by
  cases x with
  | ok b => exact h
  | error f => trivial

/-- **The tokens in front of the rest derive a tree** whose fraction is the value. -/
def Means (level : Level) (tokens : List Token) (value : RationalFunction) (rest : List Token) :
    Prop :=
  ∃ ts t, tokens = ts ++ rest ∧ Derives level ts t ∧ t.Defined ∧ t.fits = true ∧
    t.fraction = value

namespace Means

variable {level level' : Level} {rest' : List Token}

/-- A construct of one level as a construct of another one. -/
theorem lift (h : Means level tokens left rest)
    (hlift : ∀ {ts t}, Derives level ts t → Derives level' ts t) :
    Means level' tokens left rest := by
  obtain ⟨ts, t, htokens, ht, hvalue⟩ := h
  exact ⟨ts, t, htokens, hlift ht, hvalue⟩

/-- A construct behind a sign. -/
theorem minus (h : Means .unary tokens left rest) :
    Means .unary (.symbol .minus :: tokens) (-left) rest := by
  obtain ⟨ts, t, rfl, ht, hdef, hfits, rfl⟩ := h
  exact ⟨.symbol .minus :: ts, .negation t, rfl, ht.minus, hdef, hfits, rfl⟩

@[inherit_doc minus]
theorem plus (h : Means .unary tokens left rest) :
    Means .unary (.symbol .plus :: tokens) left rest := by
  obtain ⟨ts, t, rfl, ht, hvalue⟩ := h
  exact ⟨.symbol .plus :: ts, t, rfl, ht.plus, hvalue⟩

theorem parentheses (h : Means .expression tokens left (.symbol .closeParenthesis :: rest)) :
    Means .atom (.symbol .openParenthesis :: tokens) left rest := by
  obtain ⟨ts, t, rfl, ht, hvalue⟩ := h
  refine ⟨_, t, ?_, ht.parentheses, hvalue⟩
  rw [List.cons_append, List.append_assoc, List.singleton_append]

/-- A power that is computed. -/
theorem power {digits : List Char} {n : ℕ}
    (h : Means .atom tokens left (.symbol .power :: .number digits :: rest))
    (hn : Text.unsigned? degreeBound digits = some n) :
    Meets (fun _ => True) (Means .power tokens · rest) (computed (left.checkedPow n)) := by
  obtain ⟨ts, t, rfl, ht, hdef, hfits, rfl⟩ := h
  refine computed_meets (ReturnsIf.meets rfl fun hpow => ?_)
  refine ⟨_, .power t n, ?_, ht.power hn, hdef, Bool.and_eq_true_iff.2 ⟨hfits, hpow⟩, rfl⟩
  rw [List.append_assoc, List.cons_append, List.singleton_append]

/-- **A step at an operator** that returns. -/
theorem step (source : List Char) (op : Operator)
    (h : Means level tokens left (.symbol op.symbol :: rest))
    (h' : Means level' rest right rest')
    (hbinary : ∀ {ts us t u}, Derives level ts t → Derives level' us u →
      Derives level (ts ++ .symbol op.symbol :: us) (.binary op t u)) :
    Meets (fun _ => True) (Means level tokens · rest') (op.step source left right) := by
  obtain ⟨ts, t, rfl, ht, hdef, hfits, rfl⟩ := h
  obtain ⟨us, u, rfl, hu, hdef', hfits', rfl⟩ := h'
  have hleft := Tree.denotes hdef hfits
  have hright := Tree.denotes hdef' hfits'
  cases hstep : op.step source t.fraction u.fraction with
  | error e => trivial
  | ok v =>
    have hop : op.operation.Defined t.value u.value := Operator.defined_of_step hright hstep
    rw [Operator.step_eq hleft hright hop] at hstep
    split at hstep
    case isTrue hopfits =>
      refine ⟨_, .binary op t u, ?_, hbinary ht hu, ⟨hdef, hdef', hop⟩, ?_,
        Except.ok.inj hstep⟩
      · rw [List.append_assoc, List.cons_append]
      · rw [Tree.fits, hfits, hfits', hopfits]
        rfl
    case isFalse => cases hstep

end Means

/-- A step at a bar, followed by another computation. -/
theorem step_divide_meets {β : Type} {E : ReadError → Prop} {Q : RationalFunction → Prop}
    {R : β → Prop} {k : RationalFunction → Except ReadError β}
    (h : Meets E Q (Operator.divide.step source left right)) (hk : ∀ v, Q v → Meets E R (k v)) :
    Meets E R (do
      computed (requireRange right.simplifyFits)
      if right.isZero then throw (.invalid source .divisionByZero)
      let quotient ← computed (left.checkedQuotient right)
      k quotient) := by
  have hbind := h.bind hk
  rw [Operator.step, bind_assoc] at hbind
  cases hsimplify : computed (requireRange right.simplifyFits) with
  | error e =>
    rw [hsimplify] at hbind
    exact hbind
  | ok _ =>
    rw [hsimplify] at hbind
    change Meets E R ((if right.isZero = true then _ else _) >>= k) at hbind
    show Meets E R (if right.isZero = true then _ else _)
    split
    case isTrue hzero =>
      rw [if_pos hzero] at hbind
      exact hbind
    case isFalse hzero =>
      rw [if_neg hzero] at hbind
      exact hbind

theorem readPower_means (h : Means .atom all left tokens) :
    Meets (fun _ => True) (fun r => Means .power all r.value r.rest)
      (readPower source left tokens) := by
  unfold readPower
  split
  · split
    case h_1 n hn => exact (h.power hn).bind fun value hvalue => hvalue
    case h_2 => trivial
  · trivial
  · exact h.lift .atom

-- The readers call each other, so all are treated at once, with their own measures.
mutual

theorem readExpression_means (source : List Char) (tokens : List Token) :
    Meets (fun _ => True) (fun r => Means .expression tokens r.value r.rest)
      (readExpression source tokens) := by
  rw [readExpression]
  refine (readTerm_means source tokens).bind fun r hr => ?_
  have := r.shorter
  exact (readSum_means source r.value r.rest (hr.lift .summand)).bind fun r' hr' => hr'
termination_by (tokens.length, 4)

theorem readSum_means (source : List Char) (left : RationalFunction) (tokens : List Token)
    {all : List Token} (h : Means .expression all left tokens) :
    Meets (fun _ => True) (fun r => Means .expression all r.value r.rest)
      (readSum source left tokens) := by
  unfold readSum
  split
  case h_1 rest =>
    refine (readTerm_means source rest).bind fun r hr => ?_
    have := r.shorter
    have hstep := Means.step source .plus h hr (.sum .plus (by decide))
    refine hstep.bind fun sum hsum => ?_
    exact (readSum_means source sum r.rest hsum).bind fun r' hr' => hr'
  case h_2 rest =>
    refine (readTerm_means source rest).bind fun r hr => ?_
    have := r.shorter
    have hstep := Means.step source .minus h hr (.sum .minus (by decide))
    refine hstep.bind fun difference hdifference => ?_
    exact (readSum_means source difference r.rest hdifference).bind fun r' hr' => hr'
  case h_3 => exact h
termination_by (tokens.length, 0)
decreasing_by all_goals subst_vars; decreasing_with omega

theorem readTerm_means (source : List Char) (tokens : List Token) :
    Meets (fun _ => True) (fun r => Means .term tokens r.value r.rest)
      (readTerm source tokens) := by
  rw [readTerm]
  refine (readUnary_means source tokens).bind fun r hr => ?_
  have := r.shorter
  exact (readProduct_means source r.value r.rest (hr.lift .factor)).bind fun r' hr' => hr'
termination_by (tokens.length, 3)

theorem readProduct_means (source : List Char) (left : RationalFunction) (tokens : List Token)
    {all : List Token} (h : Means .term all left tokens) :
    Meets (fun _ => True) (fun r => Means .term all r.value r.rest)
      (readProduct source left tokens) := by
  unfold readProduct
  split
  case h_1 rest =>
    refine (readUnary_means source rest).bind fun r hr => ?_
    have := r.shorter
    have hstep := Means.step source .times h hr (.product .times (by decide))
    refine hstep.bind fun product hproduct => ?_
    exact (readProduct_means source product r.rest hproduct).bind fun r' hr' => hr'
  case h_2 rest =>
    refine (readUnary_means source rest).bind fun r hr => ?_
    have := r.shorter
    have hstep := Means.step source .divide h hr (.product .divide (by decide))
    refine step_divide_meets hstep fun quotient hquotient => ?_
    exact (readProduct_means source quotient r.rest hquotient).bind fun r' hr' => hr'
  case h_3 => exact h
termination_by (tokens.length, 0)
decreasing_by all_goals subst_vars; decreasing_with omega

theorem readUnary_means (source : List Char) (tokens : List Token) :
    Meets (fun _ => True) (fun r => Means .unary tokens r.value r.rest)
      (readUnary source tokens) := by
  unfold readUnary
  split
  case h_1 rest => exact (readUnary_means source rest).bind fun r hr => hr.minus
  case h_2 rest => exact (readUnary_means source rest).bind fun r hr => hr.plus
  case h_3 =>
    refine (readAtom_means source tokens).bind fun r hr => ?_
    exact (readPower_means hr).bind fun r' hr' => hr'.lift .unsigned
termination_by (tokens.length, 2)
decreasing_by all_goals subst_vars; decreasing_with omega

theorem readAtom_means (source : List Char) (tokens : List Token) :
    Meets (fun _ => True) (fun r => Means .atom tokens r.value r.rest)
      (readAtom source tokens) := by
  unfold readAtom
  split
  case h_1 => trivial
  case h_2 text rest =>
    cases hc : readRational text with
    | error e => trivial
    | ok c => exact ⟨[.number text], .number c, rfl, .number hc, trivial, rfl, rfl⟩
  case h_3 name rest =>
    exact ⟨[.identifier name], .parameter _, rfl, .parameter name, trivial, rfl, rfl⟩
  case h_4 rest =>
    refine (readExpression_means source rest).bind fun r hr => ?_
    obtain ⟨value, rest', hshort⟩ := r
    dsimp only
    split
    · exact hr.parentheses
    · trivial
  case h_5 => trivial
termination_by (tokens.length, 1)
decreasing_by all_goals subst_vars; decreasing_with omega

end

/-! ### Reading all tokens -/

/-- What the grammar derives from all tokens is read, unless it leaves the range of exponents. -/
theorem Derives.readAll_eq (h : Derives .expression tokens t) (hdef : t.Defined) :
    readAll source tokens =
      if t.fits then .ok t.fraction else .error (.fault .degreeOverflow) := by
  have htake := (h.accepts hdef).takeExpression_eq source (stops_nil _)
  rw [List.append_nil] at htake
  rw [Expression.readAll_eq, htake, Tree.taken]
  cases t.fits <;> rfl

/-- What is read from all tokens is derived by the grammar. -/
theorem exists_derives_of_readAll {value : RationalFunction}
    (h : readAll source tokens = .ok value) :
    ∃ t, Derives .expression tokens t ∧ t.Defined ∧ t.fits = true ∧ t.fraction = value := by
  have hmeans : Meets (fun _ => True) (Means .expression tokens · []) (readAll source tokens) := by
    refine (readExpression_means source tokens).bind fun r hr => ?_
    obtain ⟨value, rest, hshort⟩ := r
    dsimp only
    split
    case isTrue hempty => exact List.isEmpty_iff.1 hempty ▸ hr
    case isFalse => trivial
  rw [h] at hmeans
  obtain ⟨ts, t, rfl, ht⟩ := hmeans
  rw [List.append_nil]
  exact ⟨t, ht⟩

/-- **What is read** has no parameters but the identifiers that occur, and is in range. -/
theorem readAll_over {S : Parameter → Prop} (h : Named S tokens) {value : RationalFunction}
    (hread : readAll source tokens = .ok value) : value.Over S := by
  obtain ⟨t, ht, hdef, hfits, rfl⟩ := exists_derives_of_readAll hread
  exact ht.over h hdef hfits

/-- **Reading computes the value of an expression.** A token list is read exactly if the grammar
derives a tree from it that divides by zero nowhere and stays in the range of exponents. What is
returned denotes the value of the tree. A tree that only leaves the range is a fault. -/
theorem readAll_value (source : List Char) (tokens : List Token) :
    ((∃ r, readAll source tokens = .ok r) ↔
      ∃ t, Derives .expression tokens t ∧ t.Defined ∧ t.fits = true) ∧
    ∀ t, Derives .expression tokens t → t.Defined →
      if t.fits then ∃ r, readAll source tokens = .ok r ∧ r.Denotes t.value
      else readAll source tokens = .error (.fault .degreeOverflow) := by
  refine ⟨⟨fun ⟨r, hr⟩ => ?_, fun ⟨t, ht, hdef, hfits⟩ => ?_⟩, fun t ht hdef => ?_⟩
  · obtain ⟨t, ht, hdef, hfits, -⟩ := exists_derives_of_readAll hr
    exact ⟨t, ht, hdef, hfits⟩
  · exact ⟨t.fraction, by rw [ht.readAll_eq hdef, if_pos hfits]⟩
  · rw [ht.readAll_eq hdef]
    split
    case isTrue hfits => exact ⟨t.fraction, rfl, Tree.denotes hdef hfits⟩
    case isFalse => rfl

/-- The tokens of `-q^2/(1-q)`. -/
def ratioTokens : List Token :=
  [.symbol .minus, .identifier ['q'], .symbol .power, .number ['2'], .symbol .over,
    .symbol .openParenthesis, .number ['1'], .symbol .minus, .identifier ['q'],
    .symbol .closeParenthesis]

/-- The tree of `-q^2/(1-q)`. -/
def ratioTree : Tree :=
  .binary .divide (.negation (.power (.parameter "q") 2))
    (.binary .minus (.number 1) (.parameter "q"))

theorem readAll_value_ratio :
    Derives .expression ratioTokens ratioTree ∧ ratioTree.Defined ∧ ratioTree.fits = true ∧
      ∃ r, readAll [] ratioTokens = .ok r ∧ r.Denotes ratioTree.value := by
  have hone : readRational ['1'] = .ok 1 := by
    rw [readRational]
    rfl
  have hnumerator : Derives .unary
      [.symbol .minus, .identifier ['q'], .symbol .power, .number ['2']]
      (.negation (.power (.parameter "q") 2)) :=
    ((Derives.parameter ['q']).power (by decide)).unsigned.minus
  have hdenominator : Derives .expression [.number ['1'], .symbol .minus, .identifier ['q']]
      (.binary .minus (.number 1) (.parameter "q")) :=
    .sum .minus (by decide) (Derives.number hone).atom.unsigned.factor.summand
      (Derives.parameter ['q']).atom.unsigned.factor
  have hderives : Derives .expression ratioTokens ratioTree :=
    (hnumerator.factor.product .divide (by decide) hdenominator.parentheses.atom.unsigned).summand
  have hdivisor := Tree.denotes (t := .binary .minus (.number 1) (.parameter "q"))
    ⟨trivial, trivial, trivial⟩ (by decide)
  have hdefined : ratioTree.Defined :=
    ⟨trivial, ⟨trivial, trivial, trivial⟩,
      hdivisor.isZero_iff.not.1 (ne_true_of_eq_false (by cbv))⟩
  have hfits : ratioTree.fits = true := by cbv
  have hread := (readAll_value [] ratioTokens).2 ratioTree hderives hdefined
  rw [if_pos hfits] at hread
  exact ⟨hderives, hdefined, hfits, hread⟩

/-- The tokens of `((q^16)^16)^ ..`. -/
def iteratedTokens : ℕ → List Token
  | 0 => [.identifier ['q'], .symbol .power, .number ['1', '6']]
  | n + 1 => .symbol .openParenthesis :: (iteratedTokens n ++ [.symbol .closeParenthesis]) ++
    [.symbol .power, .number ['1', '6']]

/-- The tree of `((q^16)^16)^ ..`. -/
def iteratedTree : ℕ → Tree
  | 0 => .power (.parameter "q") 16
  | n + 1 => .power (iteratedTree n) 16

theorem derives_iterated (n : ℕ) : Derives .power (iteratedTokens n) (iteratedTree n) := by
  induction n with
  | zero => exact (Derives.parameter ['q']).power (by decide)
  | succ n ih => exact ih.unsigned.factor.summand.parentheses.power (by decide)

/-- With eight exponents this is an expression without any divisor, but the exponent of its value
`q^4294967296` is out of range. -/
theorem readAll_iterated_overflow :
    Derives .expression (iteratedTokens 7) (iteratedTree 7) ∧ (iteratedTree 7).Defined ∧
      readAll [] (iteratedTokens 7) = .error (.fault .degreeOverflow) := by
  have hderives := (derives_iterated 7).unsigned.factor.summand
  have hfits : (iteratedTree 7).fits = false := by cbv
  refine ⟨hderives, trivial, ?_⟩
  rw [hderives.readAll_eq trivial, hfits]
  rfl

end Expression

end MarkovElimination
