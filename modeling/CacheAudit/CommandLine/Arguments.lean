import CacheAudit.Decimal.Reading
import CacheAudit.Path

/-!
# Arguments of the command line

Options are written `--name value` or `--name=value`, flags `--name`; two dashes alone end the
options. A value that stands by itself does not begin with a dash. Every option but a repeatable
one is given at most once. Arguments that do not fit give no command at all.
-/

namespace CacheAudit.CommandLine

/-- How an option may be given. -/
inductive OptionKind
  | flag
  | single
  | repeatable
deriving DecidableEq

/-- The options of a command, and the number of arguments besides them. -/
structure Shape where
  options : List (String × OptionKind)
  arguments : Nat

/-- Arguments taken apart: options with their values in the order given, flags without one, and
the arguments besides them. -/
structure Given where
  options : List (String × Option String) := []
  arguments : List String := []

/-- The option that all commands have. -/
def globalOption : String × OptionKind :=
  ("log-format", .single)

/-- The name of an option and the value attached to it, if an argument is one. -/
def option? (argument : String) : Option (String × Option String) :=
  match argument.toList with
  | '-' :: '-' :: body =>
    let name := body.takeWhile (· != '=')
    let value := match body.dropWhile (· != '=') with
      | [] => none
      | _ :: value => some (String.ofList value)
    some (String.ofList name, value)
  | _ => none

/-- Whether an argument cannot stand for a value: it begins with a dash and is longer. -/
def looksLikeOption (argument : String) : Bool :=
  argument.startsWith "-" && argument != "-"

namespace Given

/-- One more option. -/
def addOption (g : Given) (name : String) (value : Option String) : Given :=
  { g with options := g.options ++ [(name, value)] }

/-- One more argument besides the options. -/
def addArgument (g : Given) (argument : String) : Given :=
  { g with arguments := g.arguments ++ [argument] }

/-- Whether an option is given. -/
def has (g : Given) (name : String) : Bool :=
  g.options.any fun o => o.1 == name

/-- The values of an option, in the order given. -/
def values (g : Given) (name : String) : List String :=
  g.options.filterMap fun o => if o.1 = name then o.2 else none

/-- The value of an option that is given at most once. -/
def value? (g : Given) (name : String) : Option String :=
  (g.values name).head?

/-- Takes arguments apart according to a shape. -/
def read? (shape : Shape) (g : Given) : List String → Option Given
  | [] => some g
  | argument :: rest =>
    if argument = "--" then some (rest.foldl addArgument g)
    else match option? argument with
      | none => if looksLikeOption argument then none else read? shape (g.addArgument argument) rest
      | some (name, attached) =>
        match shape.options.find? fun o => o.1 == name with
        | none => none
        | some (_, .flag) =>
          if attached.isSome ∨ g.has name then none else read? shape (g.addOption name none) rest
        | some (_, kind) =>
          if kind = .single ∧ g.has name then none
          else match attached, rest with
            | some value, rest => read? shape (g.addOption name value) rest
            | none, value :: rest =>
              if looksLikeOption value then none else read? shape (g.addOption name value) rest
            | none, [] => none

/-- Takes the arguments of a command apart; it has as many besides the options as its shape says. -/
def ofArguments? (shape : Shape) (arguments : List String) : Option Given :=
  match read? { shape with options := globalOption :: shape.options } {} arguments with
  | some g => if g.arguments.length = shape.arguments then some g else none
  | none => none

end Given

/-- Whether a value chooses a log format. -/
def isLogFormat (value : String) : Bool :=
  value = "human" || value = "json"

/-- A path, which is not empty. -/
def path? (value : String) : Option Path :=
  if value.isEmpty then none else some (.ofString value)

/-- An unsigned integer of 64 bits, with an optional plus sign. -/
def unsigned? (value : String) : Option Nat :=
  let digits := match value.toList with
    | '+' :: rest => rest
    | chars => chars
  (Decimal.natural? digits).filter (· < Nat.pow 2 64)

/-- A machine word. -/
def word? (value : String) : Option UInt64 :=
  (unsigned? value).map UInt64.ofNat

/-- A number. -/
def float? (value : String) : Option Float :=
  Decimal.float? value.toList

/-- The value of an option, if it is given; it must have the right form. -/
def optional? {α : Type} (read : String → Option α) (g : Given) (name : String) :
    Option (Option α) :=
  match g.value? name with
  | none => some none
  | some value => (read value).map some

/-- The value of an option that must be given. -/
def required? {α : Type} (read : String → Option α) (g : Given) (name : String) : Option α :=
  (g.value? name).bind read

/-- The two forms of dataset files. -/
inductive InputFormat
  | csv
  | log
deriving DecidableEq

/-- The form with a given name. -/
def InputFormat.ofName? (s : String) : Option InputFormat :=
  if s = "csv" then some .csv else if s = "log" then some .log else none

/-- What `snapshot capture` is told. -/
structure CaptureCommand where
  root : Path
  out : Option Path
  algorithm : String
  workers : Option Nat

/-- What `snapshot diff` is told. -/
structure DiffCommand where
  before : Path
  after : Path
  json : Bool

/-- What `reconcile` is told. -/
structure ReconcileCommand where
  reference : Path
  candidate : Path
  referenceFormat : InputFormat
  candidateFormat : InputFormat
  marker : String
  excluded : List String
  weights : Bool
  tolerance : Float
  out : Option Path
  stem : String

/-- What `verify` is told. -/
structure VerifyCommand where
  configuration : Path
  root : Option Path
  endpoint : Option String
  graceMs : Option UInt64
  reportDir : Option Path

/-- The commands of the program. -/
inductive Command
  | capture (c : CaptureCommand)
  | diff (c : DiffCommand)
  | reconcile (c : ReconcileCommand)
  | verify (c : VerifyCommand)

namespace Command

/-- The shape of `snapshot capture`. -/
def captureShape : Shape :=
  ⟨[("out", .single), ("algorithm", .single), ("workers", .single)], 1⟩

/-- The shape of `snapshot diff`. -/
def diffShape : Shape :=
  ⟨[("json", .flag)], 2⟩

/-- The shape of `reconcile`. -/
def reconcileShape : Shape :=
  ⟨[("reference", .single), ("candidate", .single), ("reference-format", .single),
    ("candidate-format", .single), ("marker", .single), ("exclude", .repeatable),
    ("weights", .flag), ("tolerance", .single), ("out", .single), ("stem", .single)], 0⟩

/-- The shape of `verify`. -/
def verifyShape : Shape :=
  ⟨[("config", .single), ("root", .single), ("endpoint", .single), ("grace-ms", .single),
    ("report-dir", .single)], 0⟩

/-- The command `snapshot capture`. -/
def capture? (g : Given) : Option Command := do
  return .capture {
    root := ← g.arguments[0]?.bind path?
    out := ← optional? path? g "out"
    algorithm := (g.value? "algorithm").getD "sha256"
    workers := ← optional? unsigned? g "workers" }

/-- The command `snapshot diff`. -/
def diff? (g : Given) : Option Command := do
  return .diff {
    before := ← g.arguments[0]?.bind path?
    after := ← g.arguments[1]?.bind path?
    json := g.has "json" }

/-- The command `reconcile`. A tolerance is of use for weights only. -/
def reconcile? (g : Given) : Option Command := do
  if g.has "tolerance" && !g.has "weights" then none
  return .reconcile {
    reference := ← required? path? g "reference"
    candidate := ← required? path? g "candidate"
    referenceFormat := (← optional? InputFormat.ofName? g "reference-format").getD .csv
    candidateFormat := (← optional? InputFormat.ofName? g "candidate-format").getD .log
    marker := (g.value? "marker").getD "buying"
    excluded := g.values "exclude"
    weights := g.has "weights"
    tolerance := (← optional? float? g "tolerance").getD 0.0
    out := ← optional? path? g "out"
    stem := (g.value? "stem").getD "reconciliation" }

/-- The command `verify`. -/
def verify? (g : Given) : Option Command := do
  return .verify {
    configuration := ← required? path? g "config"
    root := ← optional? path? g "root"
    endpoint := g.value? "endpoint"
    graceMs := ← optional? word? g "grace-ms"
    reportDir := ← optional? path? g "report-dir" }

/-- The arguments of a command, taken apart and given to the reader of that command. -/
def build? (shape : Shape) (read : Given → Option Command) (arguments : List String) :
    Option Command := do
  let g ← Given.ofArguments? shape arguments
  if (g.value? "log-format").all isLogFormat then read g else none

/-- The arguments after a choice of the log format at the beginning. -/
def skipLogFormat? (arguments : List String) : Option (List String) :=
  match arguments with
  | [] => some []
  | argument :: rest =>
    match option? argument with
    | some ("log-format", some value) => if isLogFormat value then some rest else none
    | some ("log-format", none) =>
      match rest with
      | value :: rest => if isLogFormat value then some rest else none
      | [] => none
    | _ => some arguments

/-- The command that arguments call for. -/
def ofArguments? (arguments : List String) : Option Command := do
  match ← skipLogFormat? arguments with
  | "snapshot" :: rest =>
    match ← skipLogFormat? rest with
    | "capture" :: rest => build? captureShape capture? rest
    | "diff" :: rest => build? diffShape diff? rest
    | _ => none
  | "reconcile" :: rest => build? reconcileShape reconcile? rest
  | "verify" :: rest => build? verifyShape verify? rest
  | _ => none

end Command

end CacheAudit.CommandLine
