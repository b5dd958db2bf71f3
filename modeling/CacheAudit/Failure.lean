/-!
# Failures

What every operation of the library answers when it cannot do its work: a kind with a stable
code, and the context in which it arose. `Failure.message` is the detail, `Failure.display` the
whole line that a user sees.
-/

namespace CacheAudit

/-- The classes of failure that a caller can tell apart. -/
inductive FailureKind
  | invalidInput
  | invalidDataset
  | invalidSnapshot
  | configInvalid
  | fileUnreadable
  | setupFailed
  | noArtifactsProduced
  | timeout
  | invocation
  | io
  | serialization
  | internal
deriving DecidableEq, Repr

namespace FailureKind

/-- The code by which reports name the kind. -/
def code : FailureKind → String
  | invalidInput => "ERR_INVALID_INPUT"
  | invalidDataset => "ERR_INVALID_DATASET"
  | invalidSnapshot => "ERR_INVALID_SNAPSHOT"
  | configInvalid => "ERR_CONFIG_INVALID"
  | fileUnreadable => "ERR_FILE_UNREADABLE"
  | setupFailed => "ERR_SETUP_FAILED"
  | noArtifactsProduced => "ERR_NO_ARTIFACTS_PRODUCED"
  | timeout => "ERR_TIMEOUT"
  | invocation => "ERR_INVOCATION"
  | io => "ERR_IO"
  | serialization => "ERR_SERIALIZATION"
  | internal => "ERR_INTERNAL"

/-- The name by which log events name the kind. -/
def name : FailureKind → String
  | invalidInput => "InvalidInput"
  | invalidDataset => "InvalidDataset"
  | invalidSnapshot => "InvalidSnapshot"
  | configInvalid => "ConfigInvalid"
  | fileUnreadable => "FileUnreadable"
  | setupFailed => "SetupFailed"
  | noArtifactsProduced => "NoArtifactsProduced"
  | timeout => "Timeout"
  | invocation => "InvocationError"
  | io => "Io"
  | serialization => "Serialization"
  | internal => "Internal"

/-- All kinds. -/
def all : List FailureKind :=
  [invalidInput, invalidDataset, invalidSnapshot, configInvalid, fileUnreadable, setupFailed,
    noArtifactsProduced, timeout, invocation, io, serialization, internal]

/-- The kind with a given name. -/
def ofName? (s : String) : Option FailureKind :=
  all.find? fun k => k.name == s

/-- A kind is found again by its name. -/
theorem ofName?_name (k : FailureKind) : ofName? k.name = some k := by
  cases k <;> decide

end FailureKind

/-- A failed operation: its kind, the operation's name, the path, dataset key and request it
concerned, a message, and the failure that caused it. -/
structure Failure where
  kind : FailureKind
  op : Option String := none
  path : Option String := none
  key : Option String := none
  requestId : Option String := none
  message : String := ""
  cause : Option Failure := none

namespace Failure

/-- The code of the failure's kind. -/
def code (f : Failure) : String :=
  f.kind.code

/-- The part of the display line that concerns the failure itself and not its cause. -/
def ownDisplay (f : Failure) : String :=
  let given (before : String) (value : Option String) (after : String) : String :=
    match value with
    | some v => before ++ v ++ after
    | none => ""
  "[" ++ f.code ++ "]" ++ given " in operation '" f.op "'" ++
    (if f.message.isEmpty then "" else ": " ++ f.message) ++
    given " (path: " f.path ")" ++ given " (key: " f.key ")" ++
    given " (request_id: " f.requestId ")"

/-- The whole line that a user sees. -/
def display : Failure → String
  | ⟨kind, op, path, key, requestId, message, cause⟩ =>
    ownDisplay ⟨kind, op, path, key, requestId, message, none⟩ ++
      match cause with
      | some c => " caused by " ++ display c
      | none => ""

/-- The number of causes behind a failure. -/
def depth : Failure → Nat
  | ⟨_, _, _, _, _, _, cause⟩ =>
    match cause with
    | some c => depth c + 1
    | none => 0

end Failure

end CacheAudit
