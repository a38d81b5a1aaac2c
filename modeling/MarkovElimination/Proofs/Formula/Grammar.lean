import MarkovElimination.Formula.Reading
import MarkovElimination.Proofs.Outcome

/-! # The grammar of state formulas

The grammar **derives** a formula from a token list (`Derives`). Negation binds tighter than `&`,
and `&` tighter than `|`; both connectives are left-recursive, so they associate to the left. Every
derivation is followed by the readers, whatever comes behind it (`Derives.accepts`), and what the
readers take from the front of a list is derived (`Means`). So a token list is read exactly if the
grammar derives a formula from it, and it derives no other one (`readAll_iff_derives`). -/

namespace MarkovElimination.Formula

/-! ### The grammar -/

/-- The constructs of the grammar. -/
inductive Level where
  | disjunction
  | conjunction
  | operand

/-- **The grammar**: which token lists derive a formula at which level. -/
inductive Derives : Level → List Token → StateFormula → Prop where
  | true : Derives .operand [.name "true".toList] .true
  | false : Derives .operand [.name "false".toList] .false
  | label {name : List Char} (htrue : name ≠ "true".toList) (hfalse : name ≠ "false".toList) :
    Derives .operand [.name name] (.label (String.ofList name))
  | not {ts : List Token} {f : StateFormula} (h : Derives .operand ts f) :
    Derives .operand (.not :: ts) (.not f)
  | parentheses {ts : List Token} {f : StateFormula} (h : Derives .disjunction ts f) :
    Derives .operand (.openParenthesis :: (ts ++ [.closeParenthesis])) f
  | operand {ts : List Token} {f : StateFormula} (h : Derives .operand ts f) :
    Derives .conjunction ts f
  | and {ts us : List Token} {f g : StateFormula} (h : Derives .conjunction ts f)
      (h' : Derives .operand us g) : Derives .conjunction (ts ++ .and :: us) (.and f g)
  | conjunction {ts : List Token} {f : StateFormula} (h : Derives .conjunction ts f) :
    Derives .disjunction ts f
  | or {ts us : List Token} {f g : StateFormula} (h : Derives .disjunction ts f)
      (h' : Derives .conjunction us g) : Derives .disjunction (ts ++ .or :: us) (.or f g)

/-! ### Readers without their proofs -/

variable {source : List Char} {left f g : StateFormula} {tokens rest ts us : List Token}

/-- A formula with the unread rest. -/
abbrev Taken := Except ReadError (StateFormula × List Token)

/-- The formula and the rest that are read. -/
def Read.pair (r : Read tokens) : StateFormula × List Token := (r.formula, r.rest)

@[inherit_doc Read.pair]
def ReadOn.pair (r : ReadOn tokens) : StateFormula × List Token := (r.formula, r.rest)

@[inherit_doc readDisjunction]
def takeDisjunction (tokens : List Token) : Taken := Read.pair <$> readDisjunction tokens

@[inherit_doc readDisjuncts]
def takeDisjuncts (left : StateFormula) (tokens : List Token) : Taken :=
  ReadOn.pair <$> readDisjuncts left tokens

@[inherit_doc readConjunction]
def takeConjunction (tokens : List Token) : Taken := Read.pair <$> readConjunction tokens

@[inherit_doc readConjuncts]
def takeConjuncts (left : StateFormula) (tokens : List Token) : Taken :=
  ReadOn.pair <$> readConjuncts left tokens

@[inherit_doc readOperand]
def takeOperand (tokens : List Token) : Taken := Read.pair <$> readOperand tokens

theorem takeDisjunction_eq : takeDisjunction tokens =
    (do let (first, rest) ← takeConjunction tokens; takeDisjuncts first rest) := by
  rw [takeDisjunction, readDisjunction, takeConjunction]
  simp only [takeDisjuncts, map_eq_pure_bind, bind_assoc, pure_bind]
  rfl

theorem takeDisjuncts_or : takeDisjuncts left (.or :: rest) = (do
    let (right, rest') ← takeConjunction rest
    takeDisjuncts (.or left right) rest') := by
  rw [takeDisjuncts, readDisjuncts, takeConjunction]
  simp only [takeDisjuncts, map_eq_pure_bind, bind_assoc, pure_bind]
  rfl

theorem takeDisjuncts_stop (h : rest.head? ≠ some .or) :
    takeDisjuncts left rest = .ok (left, rest) := by
  rw [takeDisjuncts, readDisjuncts]
  · rfl
  · rintro rest' rfl
    exact h rfl

theorem takeConjunction_eq : takeConjunction tokens =
    (do let (first, rest) ← takeOperand tokens; takeConjuncts first rest) := by
  rw [takeConjunction, readConjunction, takeOperand]
  simp only [takeConjuncts, map_eq_pure_bind, bind_assoc, pure_bind]
  rfl

theorem takeConjuncts_and : takeConjuncts left (.and :: rest) = (do
    let (right, rest') ← takeOperand rest
    takeConjuncts (.and left right) rest') := by
  rw [takeConjuncts, readConjuncts, takeOperand]
  simp only [takeConjuncts, map_eq_pure_bind, bind_assoc, pure_bind]
  rfl

theorem takeConjuncts_stop (h : rest.head? ≠ some .and) :
    takeConjuncts left rest = .ok (left, rest) := by
  rw [takeConjuncts, readConjuncts]
  · rfl
  · rintro rest' rfl
    exact h rfl

theorem takeOperand_not : takeOperand (.not :: rest) =
    (do let (inner, rest') ← takeOperand rest; pure (.not inner, rest')) := by
  rw [takeOperand, readOperand, takeOperand]
  simp only [map_eq_pure_bind, bind_assoc, pure_bind]
  rfl

theorem takeOperand_name {name : List Char} :
    takeOperand (.name name :: rest) = .ok (ofName name, rest) := by
  rw [takeOperand, readOperand]
  rfl

theorem takeOperand_parenthesis
    (h : takeDisjunction rest = .ok (f, .closeParenthesis :: us)) :
    takeOperand (.openParenthesis :: rest) = .ok (f, us) := by
  rw [takeDisjunction] at h
  rw [takeOperand, readOperand]
  cases hread : readDisjunction rest with
  | error e =>
    rw [hread] at h
    cases h
  | ok r =>
    rw [hread] at h
    obtain ⟨formula, rest', hshort⟩ := r
    cases h
    rfl

/-! ### Reading what the grammar derives -/

/-- Names with other characters are other strings. -/
theorem ofList_ne {name : List Char} {text : String} (h : name ≠ text.toList) :
    String.ofList name ≠ text := by
  rintro rfl
  exact h String.toList_ofList.symm

/-- A name that is not reserved is a label. -/
theorem ofName_label {name : List Char} (htrue : name ≠ "true".toList)
    (hfalse : name ≠ "false".toList) : ofName name = .label (String.ofList name) := by
  rw [ofName]
  simp only [if_neg (ofList_ne htrue), if_neg (ofList_ne hfalse)]

/-- **What reading takes for a formula**, at each level. A conjunction may be continued by an
operand and a disjunction by a conjunction, so their readers go on from the formula. -/
def Accepts : Level → List Token → StateFormula → Prop
  | .operand, ts, f => ∀ rest, takeOperand (ts ++ rest) = .ok (f, rest)
  | .conjunction, ts, f => ∀ rest, takeConjunction (ts ++ rest) = takeConjuncts f rest
  | .disjunction, ts, f => ∀ rest, rest.head? ≠ some .and →
    takeDisjunction (ts ++ rest) = takeDisjuncts f rest

/-- A conjunction that is not continued. -/
theorem Accepts.takeConjunction_eq (h : Accepts .conjunction ts f)
    (hrest : rest.head? ≠ some .and) : takeConjunction (ts ++ rest) = .ok (f, rest) := by
  rw [h rest, takeConjuncts_stop hrest]

/-- A disjunction that is not continued. -/
theorem Accepts.takeDisjunction_eq (h : Accepts .disjunction ts f) (hand : rest.head? ≠ some .and)
    (hor : rest.head? ≠ some .or) : takeDisjunction (ts ++ rest) = .ok (f, rest) := by
  rw [h rest hand, takeDisjuncts_stop hor]

/-- **Completeness**: what the grammar derives is read. -/
theorem Derives.accepts {level : Level} (h : Derives level ts f) : Accepts level ts f := by
  induction h with
  | true => exact fun rest => takeOperand_name
  | false => exact fun rest => takeOperand_name
  | label htrue hfalse =>
    intro rest
    rw [List.singleton_append, takeOperand_name, ofName_label htrue hfalse]
  | not h ih =>
    intro rest
    rw [List.cons_append, takeOperand_not, ih rest]
    rfl
  | parentheses h ih =>
    intro rest
    rw [List.cons_append, List.append_assoc]
    exact takeOperand_parenthesis (ih.takeDisjunction_eq (by simp) (by simp))
  | operand h ih =>
    intro rest
    rw [Formula.takeConjunction_eq, ih rest]
    rfl
  | and h h' ih ih' =>
    intro rest
    rw [List.append_assoc, List.cons_append, ih, takeConjuncts_and, ih' rest]
    rfl
  | conjunction h ih =>
    intro rest hrest
    rw [Formula.takeDisjunction_eq, ih.takeConjunction_eq hrest]
    rfl
  | or h h' ih ih' =>
    intro rest hrest
    rw [List.append_assoc, List.cons_append, ih _ (by simp), takeDisjuncts_or,
      ih'.takeConjunction_eq hrest]
    rfl

/-! ### Deriving what is read -/

/-- What a name stands for is derived from it. -/
theorem derives_name (name : List Char) : Derives .operand [.name name] (ofName name) := by
  by_cases htrue : name = "true".toList
  · subst htrue
    exact .true
  · by_cases hfalse : name = "false".toList
    · subst hfalse
      exact .false
    · rw [ofName_label htrue hfalse]
      exact .label htrue hfalse

/-- **Why a token list is refused**: a token of it stands where none of its kind can stand, or a
token is missing. -/
def ReadError.Refuses (source : List Char) (tokens : List Token) : ReadError → Prop
  | .trailingToken token text => token ∈ tokens ∧ text = source
  | .missingParenthesis => .openParenthesis ∈ tokens
  | .unexpectedToken token => token ∈ tokens ∧ token ∈ [.and, .or, .closeParenthesis]
  | .endOfFormula => True
  | .unterminatedLabel _ | .unexpectedCharacter _ _ => False

theorem ReadError.Refuses.mono {e : ReadError} (h : e.Refuses source us) (hsub : us ⊆ tokens) :
    e.Refuses source tokens := by
  cases e with
  | trailingToken token text | unexpectedToken token => exact ⟨hsub h.1, h.2⟩
  | missingParenthesis => exact hsub h
  | endOfFormula => trivial
  | unterminatedLabel text | unexpectedCharacter c text => exact h

/-- **The tokens in front of the rest derive a formula.** -/
def Means (level : Level) (tokens : List Token) (f : StateFormula) (rest : List Token) : Prop :=
  ∃ ts, tokens = ts ++ rest ∧ Derives level ts f

namespace Means

variable {level : Level}

theorem rest_subset (h : Means level tokens f rest) : rest ⊆ tokens := by
  obtain ⟨ts, rfl, -⟩ := h
  exact List.subset_append_right _ _

theorem not (h : Means .operand tokens f rest) : Means .operand (.not :: tokens) (.not f) rest := by
  obtain ⟨ts, rfl, ht⟩ := h
  exact ⟨.not :: ts, rfl, ht.not⟩

theorem parentheses (h : Means .disjunction tokens f (.closeParenthesis :: rest)) :
    Means .operand (.openParenthesis :: tokens) f rest := by
  obtain ⟨ts, rfl, ht⟩ := h
  refine ⟨_, ?_, ht.parentheses⟩
  rw [List.cons_append, List.append_assoc, List.singleton_append]

theorem operand (h : Means .operand tokens f rest) : Means .conjunction tokens f rest := by
  obtain ⟨ts, rfl, ht⟩ := h
  exact ⟨ts, rfl, ht.operand⟩

theorem and (h : Means .conjunction tokens f (.and :: us)) (h' : Means .operand us g rest) :
    Means .conjunction tokens (.and f g) rest := by
  obtain ⟨ts, rfl, ht⟩ := h
  obtain ⟨us, rfl, hu⟩ := h'
  exact ⟨_, by rw [List.append_assoc, List.cons_append], ht.and hu⟩

theorem conjunction (h : Means .conjunction tokens f rest) : Means .disjunction tokens f rest := by
  obtain ⟨ts, rfl, ht⟩ := h
  exact ⟨ts, rfl, ht.conjunction⟩

theorem or (h : Means .disjunction tokens f (.or :: us)) (h' : Means .conjunction us g rest) :
    Means .disjunction tokens (.or f g) rest := by
  obtain ⟨ts, rfl, ht⟩ := h
  obtain ⟨us, rfl, hu⟩ := h'
  exact ⟨_, by rw [List.append_assoc, List.cons_append], ht.or hu⟩

end Means

-- The readers call each other, so all are treated at once, with their own measures.
mutual

theorem readDisjunction_means (source : List Char) (tokens : List Token) :
    Meets (ReadError.Refuses source tokens) (fun r => Means .disjunction tokens r.formula r.rest)
      (readDisjunction tokens) := by
  rw [readDisjunction]
  refine (readConjunction_means source tokens).bind fun r hr => ?_
  have := r.shorter
  exact (readDisjuncts_means source r.formula r.rest hr.conjunction).bind fun r' hr' => hr'
termination_by (tokens.length, 3)

theorem readDisjuncts_means (source : List Char) (left : StateFormula) (tokens : List Token)
    {all : List Token} (h : Means .disjunction all left tokens) :
    Meets (ReadError.Refuses source all) (fun r => Means .disjunction all r.formula r.rest)
      (readDisjuncts left tokens) := by
  unfold readDisjuncts
  split
  case h_1 rest =>
    have hsub : rest ⊆ all := List.Subset.trans (List.subset_cons_self _ _) h.rest_subset
    refine ((readConjunction_means source rest).weaken fun e he => he.mono hsub).bind fun r hr => ?_
    have := r.shorter
    exact (readDisjuncts_means source _ r.rest (h.or hr)).bind fun r' hr' => hr'
  case h_2 => exact h
termination_by (tokens.length, 0)
decreasing_by all_goals subst_vars; decreasing_with omega

theorem readConjunction_means (source : List Char) (tokens : List Token) :
    Meets (ReadError.Refuses source tokens) (fun r => Means .conjunction tokens r.formula r.rest)
      (readConjunction tokens) := by
  rw [readConjunction]
  refine (readOperand_means source tokens).bind fun r hr => ?_
  have := r.shorter
  exact (readConjuncts_means source r.formula r.rest hr.operand).bind fun r' hr' => hr'
termination_by (tokens.length, 2)

theorem readConjuncts_means (source : List Char) (left : StateFormula) (tokens : List Token)
    {all : List Token} (h : Means .conjunction all left tokens) :
    Meets (ReadError.Refuses source all) (fun r => Means .conjunction all r.formula r.rest)
      (readConjuncts left tokens) := by
  unfold readConjuncts
  split
  case h_1 rest =>
    have hsub : rest ⊆ all := List.Subset.trans (List.subset_cons_self _ _) h.rest_subset
    refine ((readOperand_means source rest).weaken fun e he => he.mono hsub).bind fun r hr => ?_
    have := r.shorter
    exact (readConjuncts_means source _ r.rest (h.and hr)).bind fun r' hr' => hr'
  case h_2 => exact h
termination_by (tokens.length, 0)
decreasing_by all_goals subst_vars; decreasing_with omega

theorem readOperand_means (source : List Char) (tokens : List Token) :
    Meets (ReadError.Refuses source tokens) (fun r => Means .operand tokens r.formula r.rest)
      (readOperand tokens) := by
  unfold readOperand
  split
  case h_1 => trivial
  case h_2 rest =>
    have hsub : rest ⊆ .not :: rest := List.subset_cons_self _ _
    exact ((readOperand_means source rest).weaken fun e he => he.mono hsub).bind fun r hr => hr.not
  case h_3 rest =>
    have hsub : rest ⊆ .openParenthesis :: rest := List.subset_cons_self _ _
    refine ((readDisjunction_means source rest).weaken fun e he => he.mono hsub).bind fun r hr => ?_
    obtain ⟨formula, rest', hshort⟩ := r
    dsimp only
    split
    · exact hr.parentheses
    · exact List.mem_cons_self
  case h_4 name rest => exact ⟨[.name name], rfl, derives_name name⟩
  case h_5 token rest hnot hopen hname =>
    refine ⟨List.mem_cons_self, ?_⟩
    cases token <;> simp_all
termination_by (tokens.length, 1)
decreasing_by all_goals subst_vars; decreasing_with omega

end

/-! ### Reading all tokens -/

/-- What the grammar derives from all tokens is read. -/
theorem Derives.readAll_eq (h : Derives .disjunction tokens f) (source : List Char) :
    readAll source tokens = .ok f := by
  have hstop (token : Token) : ([] : List Token).head? ≠ some token := by simp
  have htake := h.accepts.takeDisjunction_eq (hstop .and) (hstop .or)
  rw [List.append_nil, takeDisjunction] at htake
  rw [readAll]
  cases hread : readDisjunction tokens with
  | error e =>
    rw [hread] at htake
    cases htake
  | ok r =>
    rw [hread] at htake
    obtain ⟨formula, rest, hshort⟩ := r
    cases htake
    rfl

/-- What is read from all tokens is derived by the grammar, and other token lists are refused. -/
theorem readAll_meets (source : List Char) (tokens : List Token) :
    Meets (ReadError.Refuses source tokens) (Derives .disjunction tokens)
      (readAll source tokens) := by
  refine (readDisjunction_means source tokens).bind fun r hr => ?_
  obtain ⟨formula, rest, hshort⟩ := r
  dsimp only
  split
  · obtain ⟨ts, htokens, ht⟩ := hr
    rw [htokens, List.append_nil]
    exact ht
  · exact ⟨hr.rest_subset List.mem_cons_self, rfl⟩

/-- What is read from all tokens is derived by the grammar. -/
theorem derives_of_readAll (h : readAll source tokens = .ok f) :
    Derives .disjunction tokens f := by
  have hmeets := readAll_meets source tokens
  rw [h] at hmeets
  exact hmeets

/-- **The reader accepts exactly the grammar.** A token list is read as a formula exactly if the
grammar derives the formula from it. All other token lists are refused, and at most one formula is
derived from a token list. -/
theorem readAll_iff_derives (source : List Char) (tokens : List Token) :
    (∀ f, readAll source tokens = .ok f ↔ Derives .disjunction tokens f) ∧
    ((∀ f, ¬Derives .disjunction tokens f) →
      ∃ e, readAll source tokens = .error e ∧ e.Refuses source tokens) ∧
    ∀ f g, Derives .disjunction tokens f → Derives .disjunction tokens g → f = g := by
  refine ⟨fun f => ⟨derives_of_readAll, fun h => h.readAll_eq source⟩, fun h => ?_,
    fun f g hf hg => ?_⟩
  · have hmeets := readAll_meets source tokens
    cases hread : readAll source tokens with
    | error e =>
      rw [hread] at hmeets
      exact ⟨e, rfl, hmeets⟩
    | ok f =>
      rw [hread] at hmeets
      exact absurd hmeets (h f)
  · have hread := (hf.readAll_eq source).symm.trans (hg.readAll_eq source)
    exact Except.ok.inj hread

/-- The tokens of `a | b & !true`. -/
def precedenceTokens : List Token :=
  [.name ['a'], .or, .name ['b'], .and, .not, .name "true".toList]

/-- `&` binds tighter than `|`, and nothing is derived if the last operand is missing. -/
theorem readAll_iff_derives_precedence :
    readAll [] precedenceTokens = .ok (.or (.label "a") (.and (.label "b") (.not .true))) ∧
      Derives .disjunction precedenceTokens (.or (.label "a") (.and (.label "b") (.not .true))) ∧
      ∃ e, readAll [] precedenceTokens.dropLast = .error e ∧
        e.Refuses [] precedenceTokens.dropLast := by
  have hread : readAll [] precedenceTokens =
      .ok (.or (.label "a") (.and (.label "b") (.not .true))) := by cbv
  have hnone (f : StateFormula) : readAll [] precedenceTokens.dropLast ≠ .ok f := by
    have herror : readAll [] precedenceTokens.dropLast = .error .endOfFormula := by cbv
    rw [herror]
    rintro ⟨⟩
  refine ⟨hread, ((readAll_iff_derives [] precedenceTokens).1 _).1 hread, ?_⟩
  obtain ⟨hiff, hrefused, -⟩ := readAll_iff_derives [] precedenceTokens.dropLast
  exact hrefused fun f hf => hnone f ((hiff f).2 hf)

end MarkovElimination.Formula
