import MarkovElimination.Model.Builder
import MarkovElimination.Text.Blank
import MarkovElimination.Text.Numeral

/-! # Reading model files

A model is written in up to four texts. The **transitions** start with an optional line `dtmc` and a
header, either `STATES n` and `TRANSITIONS m` or one line `n m`; each further line is `source target
value`. The **labels** are declared between `#DECLARATION` and `#END`; each further line is a state
with its labels. **State rewards** are lines `state value`, and **transition rewards** are lines
`source target value`. Empty lines and lines that start with `//` are skipped everywhere. -/

namespace MarkovElimination

/-- The contents of the files of a model. -/
structure ModelTexts where
  transitions : List Char
  labels : List Char
  stateRewards : Option (List Char) := none
  transitionRewards : Option (List Char) := none

namespace ModelTexts

/-- A line with its number, cut into words. -/
structure Line where
  number : Nat
  words : List (List Char)

/-- The lines that are neither empty nor comments. -/
def contentLines (text : List Char) : List Line :=
  (Text.lines text).zipIdx.filterMap fun (line, index) =>
    match Text.trim line with
    | [] => none
    | '/' :: '/' :: _ => none
    | trimmed => some ⟨index + 1, Text.words trimmed⟩

/-- An error in a line. -/
def failAt {β : Type} (number : Nat) (error : LineError) : Except ModelError β :=
  throw (.line number error)

/-- A state index. -/
def readIndex (number : Nat) (token : List Char) : Except ModelError Nat :=
  match Text.unsigned? Text.indexBound token with
  | some n => pure n
  | none => failAt number (.notAnIndex token)

variable {α : Type} [WeightText α]

/-- A value, which may have several words. -/
def readValue (number : Nat) (words : List (List Char)) : Except ModelError α :=
  match WeightText.read (List.intercalate [' '] words) with
  | .ok value => pure value
  | .error (.invalid text reason) => failAt number (.badValue text reason)
  | .error (.fault f) => throw (.fault f)

/-- A line `source target value`. -/
def readTriple (line : Line) : Except ModelError (Nat × Nat × α) :=
  match line.words with
  | source :: target :: value :: more => do
    let s ← readIndex line.number source
    let t ← readIndex line.number target
    let v ← readValue line.number (value :: more)
    pure (s, t, v)
  | _ => failAt line.number .expectedTriple

/-- The first line of a list of lines may only name the kind of model. -/
def skipKind : List Line → List Line
  | ⟨number, [word]⟩ :: rest =>
    if String.ofList (word.map Char.toLower) = "dtmc" then rest else ⟨number, [word]⟩ :: rest
  | lines => lines

/-- The declared numbers of states and transitions. -/
structure Header where
  /-- The line at which a wrong number of transitions is reported. -/
  number : Nat
  states : Nat
  transitions : Nat

/-- The header and the lines behind it. -/
def readHeader (lines : List Line) : Except ModelError (Header × List Line) :=
  match lines with
  | [] => failAt 1 .missingHeader
  | ⟨number, [first, second]⟩ :: rest =>
    if first = "STATES".toList then do
      let states ← readIndex number second
      match rest with
      | ⟨next, [keyword, count]⟩ :: rest =>
        if keyword = "TRANSITIONS".toList then do
          pure (⟨number, states, ← readIndex next count⟩, rest)
        else failAt (number + 1) .missingTransitionCount
      | _ => failAt (number + 1) .missingTransitionCount
    else do
      let states ← readIndex number first
      let transitions ← readIndex number second
      pure (⟨number, states, transitions⟩, rest)
  | ⟨number, _⟩ :: _ => failAt number .badHeader

variable [Weight α]

/-- One transition. -/
def readTransition (b : ChainBuilder α) (line : Line) : Except ModelError (ChainBuilder α) := do
  let (s, t, value) ← readTriple line
  if !(← ChainBuilder.isProbability value) then
    failAt line.number (.notAProbability (WeightText.render value))
  b.addTransition s t value

/-- The text of the transitions. -/
def readTransitions (text : List Char) : Except ModelError (ChainBuilder α) := do
  let (header, lines) ← readHeader (skipKind (contentLines text))
  let b ← lines.foldlM readTransition (← ChainBuilder.new? header.states)
  if lines.length ≠ header.transitions then
    failAt header.number (.transitionCount header.transitions lines.length)
  pure b

/-- The declared labels, and the lines behind their declaration. -/
def readDeclaration (text : List Char) :
    List Line → Except ModelError (List (List Char) × List Line)
  | [] => failAt (Text.lines text).length .missingEnd
  | line :: rest =>
    if line.words = ["#END".toList] then pure ([], rest)
    else do
      let (labels, after) ← readDeclaration text rest
      pure (line.words ++ labels, after)

omit [WeightText α] [Weight α] in
/-- A state with its labels. -/
def readLabelLine (declared : List (List Char)) (b : ChainBuilder α) (line : Line) :
    Except ModelError (ChainBuilder α) :=
  match line.words with
  | [] => pure b
  | token :: labels => do
    let s ← readIndex line.number token
    labels.foldlM (fun b label =>
      if declared.contains label then b.addLabel (String.ofList label) s
      else throw (.undeclaredLabel (String.ofList label))) b

omit [WeightText α] [Weight α] in
/-- The text of the labels. -/
def readLabels (text : List Char) (b : ChainBuilder α) : Except ModelError (ChainBuilder α) := do
  match contentLines text with
  | [] => failAt 1 .missingDeclaration
  | first :: lines =>
    if first.words ≠ ["#DECLARATION".toList] then failAt first.number .expectedDeclaration
    let (declared, lines) ← readDeclaration text lines
    let b := declared.foldl (fun b label => b.declareLabel (String.ofList label)) b
    lines.foldlM (readLabelLine declared) b

/-- The reward of one state. -/
def readStateReward (b : ChainBuilder α) (line : Line) : Except ModelError (ChainBuilder α) :=
  match line.words with
  | token :: value :: more => do
    let s ← readIndex line.number token
    let reward ← readValue line.number (value :: more)
    b.addStateReward s reward
  | _ => failAt line.number .expectedPair

omit [Weight α] in
/-- The reward of one transition. -/
def readTransitionReward (b : ChainBuilder α) (line : Line) :
    Except ModelError (ChainBuilder α) := do
  let (s, t, reward) ← readTriple line
  b.addTransitionReward s t reward

/-- The chain that the texts describe. -/
def read (texts : ModelTexts) : Except ModelError (Chain α) := do
  let b : ChainBuilder α ← readTransitions texts.transitions
  let b ← readLabels texts.labels b
  let b ← (contentLines (texts.stateRewards.getD [])).foldlM readStateReward b
  let b ← (contentLines (texts.transitionRewards.getD [])).foldlM readTransitionReward b
  b.build

end ModelTexts

end MarkovElimination
