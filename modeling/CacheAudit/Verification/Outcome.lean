import CacheAudit.Snapshot.Difference

/-!
# Outcomes of a verification run

A run ends with a verdict, pass or fail, and a report, or it is aborted in some phase. The
outcome has a document, led by the verdict, and a text for people.
-/

namespace CacheAudit

/-- The phases of a run. -/
inductive Phase
  | clean
  | firstInvocation
  | waitForArtifacts
  | captureBefore
  | secondInvocation
  | captureAfter
  | compare
deriving DecidableEq, Repr

namespace Phase

/-- The name of a phase in reports. -/
def name : Phase → String
  | clean => "clean"
  | firstInvocation => "first_invocation"
  | waitForArtifacts => "wait_for_artifacts"
  | captureBefore => "capture_before"
  | secondInvocation => "second_invocation"
  | captureAfter => "capture_after"
  | compare => "compare"

/-- All phases, in the order of a run. -/
def all : List Phase :=
  [clean, firstInvocation, waitForArtifacts, captureBefore, secondInvocation, captureAfter,
    compare]

/-- The phase with a given name. -/
def ofName? (s : String) : Option Phase :=
  all.find? fun p => p.name == s

/-- A phase is found again by its name. -/
theorem ofName?_name (p : Phase) : ofName? p.name = some p := by
  cases p <;> decide

/-- The document of a phase. -/
def toJson (p : Phase) : Json :=
  .text p.name

/-- The phase that a document describes: its name, or an object with the name over a value that
`blank` accepts. -/
def ofRaw? (blank : Json.Raw → Bool) : Json.Raw → Option Phase
  | .object [(name, v)] => if blank v then (Json.Piece.text? name).bind ofName? else none
  | v => v.text?.bind ofName?

/-- Whether a document is `null`. -/
def isNull : Json.Raw → Bool
  | .null => true
  | _ => false

/-- Whether a document is `null` or an object without fields. -/
def isNullOrEmpty : Json.Raw → Bool
  | .null | .object [] => true
  | _ => false

end Phase

/-- What a run with a verdict reports. -/
structure VerificationReport where
  runId : String
  root : String
  firstRequestId : String
  secondRequestId : String
  startedAt : Timestamp
  finishedAt : Timestamp
  beforeFiles : List String
  afterFiles : List String
  diff : SnapshotDiff
  warnings : List String
  inconclusive : Bool
deriving DecidableEq

namespace VerificationReport

/-- The fields of the document of a report. -/
def fields (r : VerificationReport) : List (String × Json) :=
  [("run_id", .text r.runId), ("root", .text r.root),
    ("first_request_id", .text r.firstRequestId), ("second_request_id", .text r.secondRequestId),
    ("started_at", .text r.startedAt.text), ("finished_at", .text r.finishedAt.text),
    ("before_files", .texts r.beforeFiles), ("after_files", .texts r.afterFiles),
    ("diff", r.diff.toJson), ("warnings", .texts r.warnings),
    ("inconclusive", .bool r.inconclusive)]

/-- The report that a document describes. -/
def ofRaw? (v : Json.Raw) : Option VerificationReport :=
  match v.record? ["run_id", "root", "first_request_id", "second_request_id", "started_at",
    "finished_at", "before_files", "after_files", "diff", "warnings", "inconclusive"] 0 with
  | some [runId, root, firstRequestId, secondRequestId, startedAt, finishedAt, beforeFiles,
      afterFiles, diff, warnings, inconclusive] => do
    let runId ← Json.Raw.required? Json.Raw.text? runId
    let root ← Json.Raw.required? Json.Raw.text? root
    let firstRequestId ← Json.Raw.required? Json.Raw.text? firstRequestId
    let secondRequestId ← Json.Raw.required? Json.Raw.text? secondRequestId
    let startedAt ← Json.Raw.required? Json.Raw.moment? startedAt
    let finishedAt ← Json.Raw.required? Json.Raw.moment? finishedAt
    let beforeFiles ← Json.Raw.required? (Json.Raw.list? Json.Raw.text?) beforeFiles
    let afterFiles ← Json.Raw.required? (Json.Raw.list? Json.Raw.text?) afterFiles
    let diff ← Json.Raw.required? SnapshotDiff.ofRaw? diff
    let warnings ← Json.Raw.required? (Json.Raw.list? Json.Raw.text?) warnings
    let inconclusive ← Json.Raw.required? Json.Raw.bool? inconclusive
    return { runId, root, firstRequestId, secondRequestId, startedAt, finishedAt, beforeFiles,
             afterFiles, diff, warnings, inconclusive }
  | _ => none

end VerificationReport

/-- What a run without a verdict reports. -/
structure AbortedRun where
  runId : String
  root : String
  phase : Phase
  errorCode : String
  message : String
  requestId : Option String
  startedAt : Timestamp
  finishedAt : Timestamp
deriving DecidableEq

namespace AbortedRun

/-- The fields of the document of an aborted run. -/
def fields (a : AbortedRun) : List (String × Json) :=
  [("run_id", .text a.runId), ("root", .text a.root), ("phase", a.phase.toJson),
    ("error_code", .text a.errorCode), ("message", .text a.message),
    ("request_id", .optional .text a.requestId), ("started_at", .text a.startedAt.text),
    ("finished_at", .text a.finishedAt.text)]

/-- The aborted run that a document describes. -/
def ofRaw? (v : Json.Raw) : Option AbortedRun :=
  match v.record? ["run_id", "root", "phase", "error_code", "message", "request_id",
    "started_at", "finished_at"] 0 with
  | some [runId, root, phase, errorCode, message, requestId, startedAt, finishedAt] => do
    let runId ← Json.Raw.required? Json.Raw.text? runId
    let root ← Json.Raw.required? Json.Raw.text? root
    let phase ← Json.Raw.required? (Phase.ofRaw? Phase.isNullOrEmpty) phase
    let errorCode ← Json.Raw.required? Json.Raw.text? errorCode
    let message ← Json.Raw.required? Json.Raw.text? message
    let requestId ← Json.Raw.absent? Json.Raw.text? requestId
    let startedAt ← Json.Raw.required? Json.Raw.moment? startedAt
    let finishedAt ← Json.Raw.required? Json.Raw.moment? finishedAt
    return { runId, root, phase, errorCode, message, requestId, startedAt, finishedAt }
  | _ => none

end AbortedRun

/-- How a run ended. -/
inductive Outcome
  | pass (report : VerificationReport)
  | fail (report : VerificationReport)
  | aborted (run : AbortedRun)
deriving DecidableEq

namespace Outcome

/-- The name of the verdict. -/
def verdict : Outcome → String
  | pass _ => "pass"
  | fail _ => "fail"
  | aborted _ => "aborted"

/-- The verdict as it stands at the head of the text. -/
def headline : Outcome → String
  | pass _ => "PASS"
  | fail _ => "FAIL"
  | aborted _ => "ABORTED"

/-- Whether the run passed. -/
def isPass : Outcome → Bool
  | pass _ => true
  | _ => false

/-- The exit code that tells a caller of the verdict. -/
def exitCode : Outcome → Nat
  | pass _ => 0
  | fail _ => 1
  | aborted _ => 2

/-- The report of a run with a verdict. -/
def report? : Outcome → Option VerificationReport
  | pass r | fail r => some r
  | aborted _ => none

/-- The run's id. -/
def runId : Outcome → String
  | pass r | fail r => r.runId
  | aborted a => a.runId

/-- The document of an outcome, led by the verdict. -/
def toJson (o : Outcome) : Json :=
  .object (("verdict", .text o.verdict) :: match o with
    | pass r | fail r => r.fields
    | aborted a => a.fields)

/-- The outcome with a verdict that the other fields of a document describe. -/
def ofVerdict? (verdict : String) (rest : Json.Raw) : Option Outcome :=
  if verdict = "pass" then (VerificationReport.ofRaw? rest).map .pass
  else if verdict = "fail" then (VerificationReport.ofRaw? rest).map .fail
  else if verdict = "aborted" then (AbortedRun.ofRaw? rest).map .aborted
  else none

/-- Whether a field of a document is the verdict. -/
def isVerdict (f : List Json.Piece × Json.Raw) : Bool :=
  Json.Piece.text? f.1 = some "verdict"

/-- The outcome that a document describes: an object whose every part has a value, with one
verdict among its fields. -/
def ofRaw? (v : Json.Raw) : Option Outcome :=
  match v, v.freeForm? with
  | .object fields, some _ =>
    match fields.filter isVerdict with
    | [(_, verdict)] =>
      verdict.text?.bind fun s => ofVerdict? s (.object (fields.filter fun f => !isVerdict f))
    | _ => none
  | _, _ => none

/-- The text of a report. -/
def reportText (r : VerificationReport) : String :=
  "Root: " ++ r.root ++ "\nRequests: first=" ++ r.firstRequestId ++ " second=" ++
    r.secondRequestId ++ "\nFiles before: " ++ toString r.beforeFiles.length ++ ", after: " ++
    toString r.afterFiles.length ++ "\n\n" ++ r.diff.summary ++
    (if r.warnings.isEmpty then ""
      else "\n### Warnings\n\n" ++ String.join (r.warnings.map fun w => "- " ++ w ++ "\n")) ++
    (if r.inconclusive then
      "\nInconclusive: every removed path was unreadable during capture_after.\n" else "")

/-- The text of an aborted run. -/
def abortedText (a : AbortedRun) : String :=
  "Root: " ++ a.root ++ "\nPhase: " ++ a.phase.name ++ "\nError: " ++ a.message ++ "\n" ++
    match a.requestId with
    | some id => "Request: " ++ id ++ "\n"
    | none => ""

/-- The outcome as text for people. -/
def summary (o : Outcome) : String :=
  "Verdict: " ++ o.headline ++ "\nRun: " ++ o.runId ++ "\n" ++ match o with
    | pass r | fail r => reportText r
    | aborted a => abortedText a

end Outcome

end CacheAudit
