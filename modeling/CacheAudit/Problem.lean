import CacheAudit.Failure

/-!
# Problems of captures, datasets and configurations

The problems that arise inside the library, each with the facts that describe it. A problem has
one wording and becomes a `Failure` of one kind, with the operation and path that it concerns.
-/

namespace CacheAudit

/-- What can be wrong with a file, a capture, a dataset, a configuration or a document. -/
inductive Problem
  | fileUnreadable (path reason : String)
  | rootNotFound (root : String)
  | rootNotDirectory (root : String)
  | captureTimedOut (root : String) (timeoutMs : Nat)
  | algorithmMismatch (before after : String)
  | datasetParse (source : String) (line : Nat) (reason : String)
  | invalidWeight (source : String) (line : Nat) (value : String)
  | configInvalid (reason : String)
  | serialization (message : String)
deriving DecidableEq

namespace Problem

/-- The wording of a problem. -/
def message : Problem → String
  | fileUnreadable path reason => "File unreadable: " ++ path ++ ": " ++ reason
  | rootNotFound root => "Capture root not found: " ++ root
  | rootNotDirectory root => "Capture root is not a directory: " ++ root
  | captureTimedOut root timeoutMs =>
    "Capture of " ++ root ++ " exceeded " ++ toString timeoutMs ++ " ms"
  | algorithmMismatch before after =>
    "Snapshot algorithms differ: before=" ++ before ++ ", after=" ++ after
  | datasetParse source line reason => source ++ ":" ++ toString line ++ ": " ++ reason
  | invalidWeight source line value =>
    source ++ ":" ++ toString line ++ ": invalid weight '" ++ value ++ "'"
  | configInvalid reason => "Invalid configuration: " ++ reason
  | serialization message => "Serialization error: " ++ message

/-- The kind of failure that a problem becomes. -/
def kind : Problem → FailureKind
  | fileUnreadable .. => .fileUnreadable
  | rootNotFound .. | rootNotDirectory .. => .io
  | captureTimedOut .. => .timeout
  | algorithmMismatch .. => .invalidSnapshot
  | datasetParse .. | invalidWeight .. => .invalidDataset
  | configInvalid .. => .configInvalid
  | serialization .. => .serialization

/-- The operation that a problem arises in, where that is known. -/
def op? : Problem → Option String
  | fileUnreadable .. => some "fingerprint"
  | rootNotFound .. | rootNotDirectory .. | captureTimedOut .. => some "capture"
  | algorithmMismatch .. => some "diff"
  | datasetParse .. | invalidWeight .. => some "load_dataset"
  | configInvalid .. | serialization .. => none

/-- The file, directory or source that a problem concerns. -/
def path? : Problem → Option String
  | fileUnreadable path _ => some path
  | rootNotFound root | rootNotDirectory root | captureTimedOut root _ => some root
  | datasetParse source _ _ | invalidWeight source _ _ => some source
  | algorithmMismatch .. | configInvalid .. | serialization .. => none

/-- The failure that reports a problem. -/
def toFailure (p : Problem) : Failure :=
  { kind := p.kind, op := p.op?, path := p.path?, message := p.message }

end Problem

end CacheAudit
