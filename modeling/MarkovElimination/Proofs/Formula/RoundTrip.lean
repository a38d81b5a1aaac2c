import MarkovElimination.Proofs.Formula.Grammar
import MarkovElimination.Proofs.Text

/-! # Printed formulas are read back

A formula is **writable** if its labels hold no quote and are not the names of the constants.
Writable formulas are exactly those that some text is read as (`exists_read_iff_writable`): a name
in quotes ends at the first quote, and `"true"` is the constant. The printed form of a writable
formula spells an operand, so it is read back as this formula, at any depth. -/

namespace MarkovElimination

/-- **A formula with an unambiguous text**: every label is a name that is not reserved. -/
def StateFormula.Writable : StateFormula → Prop
  | .true | .false => True
  | .label name => name ≠ "true" ∧ name ≠ "false" ∧ '"' ∉ name.toList
  | .not inner => inner.Writable
  | .and left right | .or left right => left.Writable ∧ right.Writable

namespace Formula

variable {source name text text' : List Char} {tokens tokens' : List Token} {f g : StateFormula}

/-! ### Spelling -/

/-- The text does not begin with a character that continues a name. -/
def Delimited (text : List Char) : Prop := ∀ c ∈ text.head?, isNameChar c = false

/-- **A text spells tokens**: it is cut into them, whatever delimited text follows. -/
def Spells (text : List Char) (tokens : List Token) : Prop :=
  ∀ source rest, Delimited rest →
    tokenize source (text ++ rest) = (tokenize source rest).map (tokens ++ ·)

/-- The characters that are tokens. -/
def marks : List (Char × Token) :=
  [('!', .not), ('&', .and), ('|', .or), ('(', .openParenthesis), (')', .closeParenthesis)]

theorem delimited_mark {c : Char} {token : Token} (h : (c, token) ∈ marks) (text : List Char) :
    Delimited (c :: text) := by
  have hall : ∀ mark ∈ marks, isNameChar mark.1 = false := by decide +kernel
  simpa [Delimited] using hall (c, token) h

theorem delimited_blank (text : List Char) : Delimited (' ' :: text) := by
  have hblank : isNameChar ' ' = false := by decide +kernel
  simpa [Delimited] using hblank

theorem Delimited.append {rest : List Char} (h : Delimited text) (hrest : Delimited rest) :
    Delimited (text ++ rest) := by
  cases text with
  | nil => exact hrest
  | cons c text => simpa [Delimited] using h

/-- A text that spells tokens has them. -/
theorem Spells.tokenize_eq (h : Spells text tokens) (source : List Char) :
    tokenize source text = .ok tokens := by
  have hnil := h source [] (by simp [Delimited])
  rw [List.append_nil, tokenize] at hnil
  rw [hnil]
  simp [pure, Except.pure, Except.map]

theorem map_append (x : Except ReadError (List Token)) :
    (x.map (tokens' ++ ·)).map (tokens ++ ·) = x.map (tokens ++ tokens' ++ ·) := by
  cases x with
  | error e => rfl
  | ok ts => simp [Except.map]

/-- A text can be followed by one that begins with a delimiter. -/
theorem Spells.append (h : Spells text tokens) (h' : Spells text' tokens')
    (hdelim : Delimited text') : Spells (text ++ text') (tokens ++ tokens') := by
  intro source rest hrest
  rw [List.append_assoc, h source _ (hdelim.append hrest), h' source rest hrest, map_append]

/-- Blanks are skipped. -/
theorem Spells.blank (h : Spells text tokens) : Spells (' ' :: text) tokens := by
  intro source rest hrest
  rw [List.cons_append, tokenize, if_pos (by decide), h source rest hrest]

/-- A character that is a token. -/
theorem Spells.mark {c : Char} {token : Token} (h : Spells text tokens)
    (hmark : (c, token) ∈ marks) : Spells (c :: text) (token :: tokens) := by
  have hblank : ∀ mark ∈ marks, Text.isBlank mark.1 = false := by decide
  have hc := hblank (c, token) hmark
  intro source rest hrest
  have htail : ((tokenize source rest).map (tokens ++ ·)).map ([token] ++ ·) =
      (tokenize source rest).map ([token] ++ tokens ++ ·) := map_append _
  rw [List.cons_append, tokenize, h source rest hrest, if_neg (by simp [hc])]
  simp only [marks, List.mem_cons, Prod.mk.injEq, List.not_mem_nil, or_false] at hmark
  rcases hmark with
    ⟨rfl, rfl⟩ | ⟨rfl, rfl⟩ | ⟨rfl, rfl⟩ | ⟨rfl, rfl⟩ | ⟨rfl, rfl⟩ <;>
      exact htail

theorem spells_mark {c : Char} {token : Token} (hmark : (c, token) ∈ marks) :
    Spells [c] [token] := by
  have hnil : Spells [] [] := by
    intro source rest _
    rw [List.nil_append]
    cases tokenize source rest <;> rfl
  exact hnil.mark hmark

/-- A name in quotes ends at the first quote. -/
theorem spells_quoted (h : '"' ∉ name) : Spells ('"' :: (name ++ ['"'])) [.name name] := by
  intro source rest hrest
  have hsplit : Text.splitOnce (· == '"') (name ++ '"' :: rest) = some (name, rest) := by
    refine Text.splitOnce_append (fun c hc => ?_) (by decide)
    rw [beq_eq_false_iff_ne]
    rintro rfl
    exact h hc
  rw [List.cons_append, List.append_assoc, List.singleton_append, tokenize, if_neg (by decide),
    if_neg (by decide), if_neg (by decide), if_neg (by decide), if_neg (by decide),
    if_neg (by decide), if_pos rfl]
  split
  case h_1 before after hbefore =>
    obtain ⟨rfl, rfl⟩ := Prod.mk.inj (Option.some.inj (hsplit.symm.trans hbefore))
    rfl
  case h_2 hnone =>
    rw [hsplit] at hnone
    cases hnone

/-- A name without quotes ends where no character continues it. -/
theorem spells_word {c : Char} (hblank : Text.isBlank c = false)
    (hplain : c ∉ ['!', '&', '|', '(', ')', '"'])
    (hword : ∀ d ∈ c :: name, isNameChar d = true) :
    Spells (c :: name) [.name (c :: name)] := by
  intro source rest hrest
  obtain ⟨hc, hname⟩ := List.forall_mem_cons.1 hword
  have hhead : rest.takeWhile isNameChar = [] ∧ rest.dropWhile isNameChar = rest := by
    cases rest with
    | nil => exact ⟨rfl, rfl⟩
    | cons d rest =>
      have hd : ¬isNameChar d = true := by simp [hrest d rfl]
      exact ⟨List.takeWhile_cons_of_neg hd, List.dropWhile_cons_of_neg hd⟩
  simp only [List.mem_cons, List.not_mem_nil, or_false, not_or] at hplain
  obtain ⟨hnot, hand, hor, hopen, hclose, hquote⟩ := hplain
  rw [List.cons_append, tokenize, if_neg (by simp [hblank]), if_neg hnot, if_neg hand, if_neg hor,
    if_neg hopen, if_neg hclose, if_neg hquote, if_pos hc, List.takeWhile_append_of_pos hname,
    List.dropWhile_append_of_pos hname, hhead.1, hhead.2, List.append_nil]
  rfl

/-! ### Printing -/

/-- The tokens of a formula: binary connectives stand in parentheses. -/
def tokensOf : StateFormula → List Token
  | .true => [.name "true".toList]
  | .false => [.name "false".toList]
  | .label name => [.name name.toList]
  | .not inner => .not :: tokensOf inner
  | .and left right =>
    .openParenthesis :: (tokensOf left ++ .and :: tokensOf right ++ [.closeParenthesis])
  | .or left right =>
    .openParenthesis :: (tokensOf left ++ .or :: tokensOf right ++ [.closeParenthesis])

/-- Two texts on both sides of a connective, in parentheses. -/
theorem Spells.parentheses {c : Char} {token : Token} (h : Spells text tokens)
    (h' : Spells text' tokens') (hmark : (c, token) ∈ marks) :
    Spells ('(' :: (text ++ ' ' :: c :: ' ' :: text' ++ [')']))
      (.openParenthesis :: (tokens ++ token :: tokens' ++ [.closeParenthesis])) := by
  have hright : Spells (' ' :: c :: ' ' :: text') (token :: tokens') := (h'.blank.mark hmark).blank
  have hclose : (')', Token.closeParenthesis) ∈ marks := by decide
  refine Spells.mark ?_ (by decide)
  exact (h.append hright (delimited_blank _)).append (spells_mark hclose) (delimited_mark hclose _)

/-- **A writable formula spells its tokens.** -/
theorem spells_render (h : f.Writable) : Spells f.render.toList (tokensOf f) := by
  induction f with
  | true =>
    have hword : ∀ d ∈ ['t', 'r', 'u', 'e'], isNameChar d = true := by
      simp [isNameChar, Text.isAlphanumeric]
    exact spells_word (by decide) (by decide) hword
  | false =>
    have hword : ∀ d ∈ ['f', 'a', 'l', 's', 'e'], isNameChar d = true := by
      simp [isNameChar, Text.isAlphanumeric]
    exact spells_word (by decide) (by decide) hword
  | label name =>
    have hquoted := spells_quoted h.2.2
    simpa [StateFormula.render, tokensOf] using hquoted
  | not inner ih =>
    have hnot : ('!', Token.not) ∈ marks := by decide
    have hmark := (ih h).mark hnot
    simpa [StateFormula.render, tokensOf] using hmark
  | and left right ihleft ihright =>
    have hand : ('&', Token.and) ∈ marks := by decide
    have hboth := (ihleft h.1).parentheses (ihright h.2) hand
    simpa [StateFormula.render, tokensOf] using hboth
  | or left right ihleft ihright =>
    have hor : ('|', Token.or) ∈ marks := by decide
    have hboth := (ihleft h.1).parentheses (ihright h.2) hor
    simpa [StateFormula.render, tokensOf] using hboth

/-- **The tokens of a writable formula** are an operand. -/
theorem derives_tokensOf (h : f.Writable) : Derives .operand (tokensOf f) f := by
  induction f with
  | true => exact .true
  | false => exact .false
  | label name =>
    have hne {text : String} (h : name ≠ text) : name.toList ≠ text.toList :=
      fun heq => h (String.toList_injective heq)
    simpa [tokensOf] using Derives.label (hne h.1) (hne h.2.1)
  | not inner ih => exact (ih h).not
  | and left right ihleft ihright =>
    exact ((ihleft h.1).operand.and (ihright h.2)).conjunction.parentheses
  | or left right ihleft ihright =>
    exact ((ihleft h.1).operand.conjunction.or (ihright h.2).operand).parentheses

/-- **A writable formula is read back.** -/
theorem read_render_of_writable (h : f.Writable) : read f.render.toList = .ok f := by
  rw [read, (spells_render h).tokenize_eq]
  exact (derives_tokensOf h).operand.conjunction.readAll_eq _

/-! ### Names that are found -/

/-- **The names of a text hold no quote.** -/
theorem quote_not_mem_of_tokenize (h : tokenize source text = .ok tokens) :
    ∀ name, .name name ∈ tokens → '"' ∉ name := by
  -- a token in front of the others is one more name at most
  have hcons {rest : List Char} {token : Token} {tokens : List Token}
      (ih : ∀ {ts}, tokenize source rest = .ok ts → ∀ name, .name name ∈ ts →
        '"' ∉ name)
      (htoken : ∀ name, token = .name name → '"' ∉ name)
      (h : (tokenize source rest).map (token :: ·) = .ok tokens) :
      ∀ name, .name name ∈ tokens → '"' ∉ name := by
    cases hrest : tokenize source rest with
    | error e =>
      rw [hrest] at h
      cases h
    | ok ts =>
      rw [hrest] at h
      cases h
      intro name hname
      rcases List.mem_cons.1 hname with rfl | hname
      · exact htoken name rfl
      · exact ih hrest name hname
  fun_induction tokenize source text generalizing tokens with
  | case1 =>
    cases h
    simp
  | case2 c rest hblank ih => exact ih h
  | case3 | case4 | case5 | case6 | case7 =>
    rename_i ih
    exact hcons ih (by simp) h
  | case8 rest name after hsplit =>
    rename_i ih
    refine hcons ih ?_ h
    rintro _ ⟨⟩ hquote
    simpa using Text.forall_before_of_splitOnce hsplit '"' hquote
  | case9 => cases h
  | case10 c rest hblank hnot hand hor hopen hclose hquote hc ih =>
    refine hcons ih ?_ h
    rintro _ ⟨⟩ hmem
    have hword : isNameChar '"' = true := by
      rcases List.mem_cons.1 hmem with rfl | hmem
      · exact hc
      · exact List.mem_takeWhile_imp hmem
    have hnone : isNameChar '"' = false := by decide +kernel
    rw [hnone] at hword
    cases hword
  | case11 => cases h

/-- A formula that is derived from names without quotes is writable. -/
theorem Derives.writable {level : Level} (h : Derives level tokens f)
    (hnames : ∀ name, .name name ∈ tokens → '"' ∉ name) : f.Writable := by
  induction h with
  | true | false => trivial
  | label htrue hfalse =>
    refine ⟨ofList_ne htrue, ofList_ne hfalse, ?_⟩
    rw [String.toList_ofList]
    exact hnames _ List.mem_cons_self
  | not h ih => exact ih fun name hname => hnames name (by simp [hname])
  | parentheses h ih => exact ih fun name hname => hnames name (by simp [hname])
  | operand h ih | conjunction h ih => exact ih hnames
  | and h h' ih ih' | or h h' ih ih' =>
    exact ⟨ih fun name hname => hnames name (by simp [hname]),
      ih' fun name hname => hnames name (by simp [hname])⟩

/-- **A formula that is read** is writable. -/
theorem writable_of_read (h : read text = .ok f) : f.Writable := by
  rw [read] at h
  cases htokens : tokenize text text with
  | error e =>
    rw [htokens] at h
    cases h
  | ok tokens =>
    rw [htokens] at h
    exact (derives_of_readAll h).writable (quote_not_mem_of_tokenize htokens)

/-- **The formulas that texts are read as** are the writable ones. -/
theorem exists_read_iff_writable : (∃ text, read text = .ok f) ↔ f.Writable :=
  ⟨fun ⟨_, h⟩ => writable_of_read h, fun h => ⟨_, read_render_of_writable h⟩⟩

/-- **Printed formulas are read back**: whatever text a formula was read from, its printed form is
read as the same formula. -/
theorem read_render (h : read text = .ok f) : read f.render.toList = .ok f :=
  read_render_of_writable (writable_of_read h)

/-- The text `"true"&!a`. -/
def quotedText : List Char := ['"', 't', 'r', 'u', 'e', '"', '&', '!', 'a']

/-- A reserved name loses its quotes in `(true & !"a")`, and another name gets some. -/
theorem read_render_quoted :
    read quotedText = .ok (.and .true (.not (.label "a"))) ∧
      read (StateFormula.and .true (.not (.label "a"))).render.toList =
        .ok (.and .true (.not (.label "a"))) := by
  have hname : Spells ['a'] [.name ['a']] := by
    refine spells_word (by decide) (by decide) ?_
    simp [isNameChar, Text.isAlphanumeric]
  have hand : ('&', Token.and) ∈ marks := by decide
  have hright : Spells ['&', '!', 'a'] [.and, .not, .name ['a']] :=
    (hname.mark (by decide)).mark hand
  have hspells : Spells quotedText [.name ['t', 'r', 'u', 'e'], .and, .not, .name ['a']] :=
    (@spells_quoted ['t', 'r', 'u', 'e'] (by decide)).append hright (delimited_mark hand _)
  have hread : read quotedText = .ok (.and .true (.not (.label "a"))) := by
    rw [read, hspells.tokenize_eq]
    exact (Derives.true.operand.and (derives_name ['a']).not).conjunction.readAll_eq _
  exact ⟨hread, read_render hread⟩

end Formula

end MarkovElimination
