import MarkovElimination.Checking.Property
import MarkovElimination.Command.Arguments
import MarkovElimination.Formula.Reading
import MarkovElimination.Model.Files
import MarkovElimination.Number.Float
import MarkovElimination.RationalFunction.Reading

/-! # Outcome of the command

What the command writes and its exit code, given its arguments and the files that it can see. The
code is `0` for a value, `1` if the property has none, `2` for wrong arguments, and `101` if there
is no property or no model to begin with, or a precondition is broken on the way. -/

namespace MarkovElimination.Command

/-- What a run of the command leaves behind. -/
structure Outcome where
  code : Nat
  stdout : String := ""
  stderr : String := ""
deriving DecidableEq

/-- The exit code of wrong arguments. -/
def usageCode : Nat := 2

/-- The exit code of a run that stops without an answer. -/
def abortCode : Nat := 101

/-- How the command is called. -/
def usage : String := "Usage: markov-elimination [OPTIONS] --target=<TARGET> <FILE>\n"

/-- What the command does and which options it has. -/
def helpText : String :=
  "Check reachability, reward and conditional properties of a DTMC by state elimination\n\n" ++
    usage ++ "\nOptions:\n" ++
    String.join (Setting.all.map fun setting => "      --" ++ setting.name ++ "\n") ++
    "  -h, --help\n"

/-- A formula on the command line that cannot be read. -/
structure BadFormula where
  text : List Char
  error : Formula.ReadError

/-- The wording of an unreadable formula. -/
def BadFormula.message (b : BadFormula) : String :=
  "Invalid state formula `" ++ String.ofList b.text ++ "`: " ++ b.error.message

/-- A formula on the command line. -/
def readFormula (text : List Char) : Except BadFormula StateFormula :=
  match Formula.read text with
  | .ok formula => pure formula
  | .error e => throw ⟨text, e⟩

/-- The property that the arguments ask for. -/
def Arguments.property (a : Arguments) : Except BadFormula Property := do
  let target ← readFormula a.target
  if a.reward then pure (.reward target)
  else
    let path ← match a.phi with
      | some phi => do pure (PathFormula.until (← readFormula phi) target)
      | none => pure (PathFormula.eventually target)
    match a.condition with
    | some condition => do
      pure (.probability (.conditional path (.eventually (← readFormula condition))))
    | none => pure (.probability path)

/-- A number in a field of at least three places. -/
def padPercent (n : Nat) : String :=
  let digits := toString n
  String.ofList (List.replicate (3 - digits.length) ' ') ++ digits

/-- The line of a report, which the next one overwrites until all states are eliminated. -/
def reportText (r : Report) : String :=
  "\rEliminating states: " ++ padPercent (100 * r.eliminated / max r.total 1) ++ "%" ++
    (if r.total ≤ r.eliminated then "\n" else "")

/-- The line of a value. -/
def valueText {α : Type} [WeightText α] (property : Property) (value : CheckValue α) : String :=
  s!"Result for {property.render}: {value.render}\n"

/-- The line of an approximation, if the value is constant. -/
def approximationText : Option Float → String
  | some x => "Approximately: " ++ renderFloat x ++ "\n"
  | none => ""

/-- The line of an account of the work. -/
def statisticsText (s : CheckStatistics) : String :=
  s!"Maybe states: {s.maybeStates}, eliminated states: {s.eliminatedStates}, " ++
    s!"maximal SCC depth: {s.maximalSccDepth}\n"

/-- The outcome of a run that meets a fault after some output. -/
def aborted (stdout stderr : String) (cause : Fault) : Outcome :=
  ⟨abortCode, stdout, stderr ++ (cause.message?).getD "" ++ "\n"⟩

/-- Checks a property of a model. The value is written before its approximation is computed. -/
def checkModel {α : Type} [Weight α] [WeightText α] (config : EliminationConfig)
    (property : Property) (c : Chain α) : Outcome :=
  let loaded :=
    s!"Loaded DTMC with {c.size} states and {c.transitions.entryCount} transitions.\n"
  let (result, monitor) := (c.check config property).run.run {}
  let progress := String.join (monitor.reports.map reportText)
  match result with
  | .ok r =>
    let found := loaded ++ valueText property r.value
    match r.value.checkedFloat with
    | .ok x => ⟨0, found ++ approximationText x ++ statisticsText r.statistics, progress⟩
    | .error cause => aborted found progress cause
  | .error (.fault cause) => aborted loaded progress cause
  | .error e => ⟨1, loaded, progress ++ "Error during model checking: " ++ e.message ++ "\n"⟩

/-- Loads a model with numbers of one kind and checks a property of it. -/
def loadAndCheck (α : Type) [Weight α] [WeightText α] (files : FileSystem) (a : Arguments)
    (property : Property) : Outcome :=
  match files.load (α := α) (modelStem a.file) with
  | .ok c => checkModel a.config property c
  | .error e =>
    ⟨abortCode, "", "Failed to load model " ++ String.ofList a.file ++ ": " ++
      e.message ++ "\n"⟩

/-- The outcome of complete arguments. The property is read before the model. -/
def Arguments.run (files : FileSystem) (a : Arguments) : Outcome :=
  match a.property with
  | .error b => ⟨abortCode, "", b.message ++ "\n"⟩
  | .ok property =>
    match a.values with
    | .float => loadAndCheck Float files a property
    | .exact => loadAndCheck Rat files a property
    | .parametric => loadAndCheck RationalFunction files a property

/-- The outcome of the command. -/
def run (files : FileSystem) (arguments : List (List Char)) : Outcome :=
  match Request.read arguments with
  | .error e => ⟨usageCode, "", "error: " ++ e.message ++ "\n\n" ++ usage⟩
  | .ok .help => ⟨0, helpText, ""⟩
  | .ok (.check a) => a.run files

/-- The files that the command reads. -/
def neededFiles (arguments : List (List Char)) : List (List Char) :=
  match Request.read arguments with
  | .ok (.check a) => modelPaths (modelStem a.file)
  | _ => []

end MarkovElimination.Command
