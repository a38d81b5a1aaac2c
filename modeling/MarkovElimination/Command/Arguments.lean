import MarkovElimination.Elimination.Config
import MarkovElimination.Text.Blank
import MarkovElimination.Text.Numeral

/-! # Command line arguments

The command takes the file of a model and options. An option is written `--name=value`, a flag
`--name`, and only `-v` has a short form; a bare `--` ends the options. Every option may be given
once. Arguments are read from left to right, and the first that is wrong decides; what is missing or
contradictory is found last. -/

namespace MarkovElimination.Command

/-- The numbers with which a model is read. -/
inductive NumberKind where
  | float
  | exact
  | parametric
deriving DecidableEq

/-- How much is logged. -/
inductive Verbosity where
  | trace
  | debug
  | info
deriving DecidableEq

/-- The options of the command. -/
inductive Setting where
  | target
  | phi
  | condition
  | reward
  | method
  | order
  | maxSccSize
  | entryStatesLast
  | seed
  | values
  | timeout
  | verbose
deriving DecidableEq

/-- The name of an option, without dashes. -/
def Setting.name : Setting → String
  | .target => "target"
  | .phi => "phi"
  | .condition => "condition"
  | .reward => "reward"
  | .method => "method"
  | .order => "order"
  | .maxSccSize => "max-scc-size"
  | .entryStatesLast => "entry-states-last"
  | .seed => "seed"
  | .values => "values"
  | .timeout => "timeout"
  | .verbose => "verbose"

/-- All options. -/
def Setting.all : List Setting :=
  [.target, .phi, .condition, .reward, .method, .order, .maxSccSize, .entryStatesLast, .seed,
    .values, .timeout, .verbose]

/-- The option of a name. -/
def Setting.ofName? (name : List Char) : Option Setting :=
  Setting.all.find? fun setting => setting.name.toList == name

/-- Why the arguments are refused. -/
inductive UsageError where
  /-- There is no such option, or no place for a further argument. -/
  | unexpectedArgument (argument : List Char)
  /-- An option has no value behind an equals sign. -/
  | missingValue (setting : Setting)
  /-- A flag has a value. -/
  | unneededValue (setting : Setting)
  | invalidValue (setting : Setting) (value : List Char)
  | repeated (setting : Setting)
  | conflict (first second : Setting)
  | missingFile
  | missingTarget

/-- The wording of a refusal. -/
def UsageError.message : UsageError → String
  | .unexpectedArgument argument => "unexpected argument '" ++ String.ofList argument ++ "' found"
  | .missingValue setting =>
    "equal sign is needed when assigning values to '--" ++ setting.name ++ "'"
  | .unneededValue setting => "unexpected value for '--" ++ setting.name ++ "' found"
  | .invalidValue setting value =>
    "invalid value '" ++ String.ofList value ++ "' for '--" ++ setting.name ++ "'"
  | .repeated setting => "the argument '--" ++ setting.name ++ "' cannot be used multiple times"
  | .conflict first second =>
    "the argument '--" ++ first.name ++ "' cannot be used with '--" ++ second.name ++ "'"
  | .missingFile => "the required argument '<FILE>' was not provided"
  | .missingTarget => "the required argument '--target' was not provided"

/-- The arguments that have been read so far. -/
structure Draft where
  file : Option (List Char) := none
  target : Option (List Char) := none
  phi : Option (List Char) := none
  condition : Option (List Char) := none
  reward : Option Unit := none
  method : Option EliminationMethod := none
  order : Option EliminationOrder := none
  maxSccSize : Option Nat := none
  entryStatesLast : Option Unit := none
  seed : Option Nat := none
  values : Option NumberKind := none
  timeout : Option Nat := none
  verbose : Option Verbosity := none

/-- What is asked for. -/
structure Arguments where
  /-- A file of the model, or its stem. -/
  file : List Char
  target : List Char
  phi : Option (List Char)
  condition : Option (List Char)
  reward : Bool
  config : EliminationConfig
  values : NumberKind
  /-- The number of seconds after which the check is to be cancelled; zero means never. -/
  timeout : Nat
  verbosity : Option Verbosity

/-- What the arguments ask for. -/
inductive Request where
  | help
  | check (arguments : Arguments)

/-- The values of an option with a fixed choice. -/
def choose {β : Type} (choices : List (String × β)) (value : List Char) : Option β :=
  (choices.find? fun choice => choice.1.toList == value).map (·.2)

/-- The names of the methods. -/
def readMethod : List Char → Option EliminationMethod :=
  choose [("state", .state), ("hybrid", .hybrid)]

/-- The names of the orders. -/
def readOrder : List Char → Option EliminationOrder :=
  choose [("forward", .forward), ("forward-reversed", .forwardReversed), ("backward", .backward),
    ("backward-reversed", .backwardReversed), ("random", .random)]

/-- The names of the kinds of numbers. -/
def readNumberKind : List Char → Option NumberKind :=
  choose [("float", .float), ("exact", .exact), ("parametric", .parametric)]

/-- The names of the verbosities. -/
def readVerbosity : List Char → Option Verbosity :=
  choose [("trace", .trace), ("debug", .debug), ("info", .info)]

/-- The value of an option that is not given yet. -/
def fill {β : Type} (setting : Setting) (current : Option β) (read : List Char → Option β) :
    Option (List Char) → Except UsageError (Option β)
  | none => throw (.missingValue setting)
  | some value =>
    match current, read value with
    | some _, _ => throw (.repeated setting)
    | none, some result => pure (some result)
    | none, none => throw (.invalidValue setting value)

/-- A flag that is not given yet. -/
def raise (setting : Setting) (current : Option Unit) :
    Option (List Char) → Except UsageError (Option Unit)
  | some _ => throw (.unneededValue setting)
  | none => if current.isSome then throw (.repeated setting) else pure (some ())

/-- A natural number of 64 bits. -/
def readNumber : List Char → Option Nat := Text.unsigned? Text.indexBound

/-- One option with its value, if there is an equals sign. -/
def Draft.set (d : Draft) (setting : Setting) (value : Option (List Char)) :
    Except UsageError Draft := do
  match setting with
  | .target => pure { d with target := ← fill setting d.target some value }
  | .phi => pure { d with phi := ← fill setting d.phi some value }
  | .condition => pure { d with condition := ← fill setting d.condition some value }
  | .reward => pure { d with reward := ← raise setting d.reward value }
  | .method => pure { d with method := ← fill setting d.method readMethod value }
  | .order => pure { d with order := ← fill setting d.order readOrder value }
  | .maxSccSize => pure { d with maxSccSize := ← fill setting d.maxSccSize readNumber value }
  | .entryStatesLast => pure { d with entryStatesLast := ← raise setting d.entryStatesLast value }
  | .seed => pure { d with seed := ← fill setting d.seed readNumber value }
  | .values => pure { d with values := ← fill setting d.values readNumberKind value }
  | .timeout => pure { d with timeout := ← fill setting d.timeout readNumber value }
  | .verbose =>
    let level := value.getD "info".toList
    pure { d with verbose := ← fill setting d.verbose readVerbosity (some level) }

/-- An argument that is not an option. -/
def Draft.place (d : Draft) (argument : List Char) : Except UsageError Draft :=
  match d.file with
  | none => pure { d with file := some argument }
  | some _ => throw (.unexpectedArgument argument)

/-- The arguments read so far, or a call for help. -/
inductive Progress where
  | help
  | draft (draft : Draft)

/-- An argument behind two dashes. -/
def Draft.readLong (d : Draft) (text : List Char) : Except UsageError Progress := do
  let (name, value) := match Text.splitOnce (· == '=') text with
    | some (name, value) => (name, some value)
    | none => (text, none)
  match Setting.ofName? name with
  | some setting => pure (.draft (← d.set setting value))
  | none =>
    if name = "help".toList then
      if value.isSome then throw (.unexpectedArgument ('-' :: '-' :: text)) else pure .help
    else throw (.unexpectedArgument ('-' :: '-' :: text))

/-- The letters behind one dash. -/
def Draft.readShort (d : Draft) : List Char → Except UsageError Progress
  | [] => pure (.draft d)
  | 'v' :: '=' :: value => do pure (.draft (← d.set .verbose (some value)))
  | 'v' :: rest => do (← d.set .verbose none).readShort rest
  | 'h' :: _ => pure .help
  | c :: _ => throw (.unexpectedArgument ['-', c])

/-- All arguments from left to right. -/
def Draft.readAll (d : Draft) : List (List Char) → Except UsageError Progress
  | [] => pure (.draft d)
  | ['-', '-'] :: rest => do pure (.draft (← rest.foldlM Draft.place d))
  | ('-' :: '-' :: text) :: rest => do
    match ← d.readLong text with
    | .help => pure .help
    | .draft next => next.readAll rest
  | ('-' :: c :: text) :: rest => do
    match ← d.readShort (c :: text) with
    | .help => pure .help
    | .draft next => next.readAll rest
  | argument :: rest => do (← d.place argument).readAll rest

/-- Options that exclude each other. -/
def Draft.checkConflicts (d : Draft) : Except UsageError Unit := do
  if d.phi.isSome && d.condition.isSome then throw (.conflict .phi .condition)
  if d.phi.isSome && d.reward.isSome then throw (.conflict .phi .reward)
  if d.condition.isSome && d.reward.isSome then throw (.conflict .condition .reward)

/-- The complete arguments, with the values of options that are not given. -/
def Draft.complete (d : Draft) : Except UsageError Arguments := do
  d.checkConflicts
  let some file := d.file | throw .missingFile
  let some target := d.target | throw .missingTarget
  let default : EliminationConfig := {}
  pure {
    file := file
    target := target
    phi := d.phi
    condition := d.condition
    reward := d.reward.isSome
    config := {
      method := d.method.getD default.method
      order := d.order.getD default.order
      maximalSccSize := d.maxSccSize.getD default.maximalSccSize
      entryStatesLast := d.entryStatesLast.isSome
      seed := d.seed.getD default.seed }
    values := d.values.getD .float
    timeout := d.timeout.getD 0
    verbosity := d.verbose }

/-- What a list of arguments asks for. -/
def Request.read (arguments : List (List Char)) : Except UsageError Request := do
  match ← Draft.readAll {} arguments with
  | .help => pure .help
  | .draft d => pure (.check (← d.complete))

end MarkovElimination.Command
