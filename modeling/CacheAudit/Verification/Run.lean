import CacheAudit.Verification.Service
import CacheAudit.Verification.Outcome
import CacheAudit.Capture.Steps

/-!
# Verification runs

A run empties its root, sends the first workload, waits, captures a snapshot, sends the second
workload, waits, captures again and compares. It passes when nothing that the first snapshot
recorded has changed or disappeared. The first step that fails aborts the run; nothing is tried
twice. In the end the root is removed if the plan says so.

A run advances by steps, each of which reads and changes the disk at once, so that several runs
on one disk are interleavings of their steps.
-/

namespace CacheAudit

/-- What a run is carried out with besides its plan: the service under test, the fingerprinter of
a capture given the keys for which earlier captures called theirs, what each step of the run meets,
the ids, and the times at which the run begins and ends. -/
structure Setting where
  service : Service
  fingerprinter : List (List String) → Fingerprinter
  around : Nat → Surroundings := fun _ => {}
  runId : String
  firstId : String
  secondId : String
  startedAt : Timestamp := .epoch
  finishedAt : Timestamp := .epoch

/-- What a run does next, with what it knows by then. -/
inductive Stage
  | clean
  | invokeFirst
  | waitFirst
  | captureBefore
  | invokeSecond (before : Snapshot)
  | waitSecond (before : Snapshot)
  | captureAfter (before : Snapshot)
  | compare (before after : Snapshot)
  | tearDown (outcome : Outcome)
  | finished (outcome : Outcome)
  | crashed

/-- One thing that a run did, and what came of it. A capture keeps the disk it was made of. -/
inductive Deed
  | clean (result : Except Failure Unit)
  | invoke (request : Request) (reply : Reply)
  | wait (grace : Duration)
  | capture (disk : Disk) (captured : Captured)
  | compare (result : Except Failure SnapshotDiff)

namespace Deed

/-- The request that a deed sent. -/
def request? : Deed → Option Request
  | invoke request _ => some request
  | _ => none

/-- The keys for which a deed called the fingerprinter, sorted, since the calls of the workers of a
capture come in any order. -/
def given? : Deed → Option (List String)
  | capture _ captured =>
    some ((captured.given.map Capture.FoundFile.key).mergeSort fun k k' => decide (k ≤ k'))
  | _ => none

end Deed

/-- A run under way: its next stage and what it did so far. -/
structure Run where
  stage : Stage := .clean
  deeds : List Deed := []

namespace Run

/-- The run with one more deed done. -/
def did (r : Run) (deed : Deed) : Run :=
  { r with deeds := r.deeds ++ [deed] }

/-- The requests that a run sent, in their order. -/
def requests (r : Run) : List Request :=
  r.deeds.filterMap Deed.request?

/-- The keys for which each capture of a run called the fingerprinter. -/
def given (r : Run) : List (List String) :=
  r.deeds.filterMap Deed.given?

/-- The failure of a root that cannot be emptied. -/
def cleanFailure (root : Path) (e : SystemError) : Failure :=
  { kind := .io, op := some "clean", path := some root.display, message := e.message }

/-- Empties a root. -/
def emptyRoot (files : FileAccess) (d : Disk) (root : Path) : Disk × Except Failure Unit :=
  let (d, removed) := match files.follow d root with
    | .ok _ => files.removeTree d root
    | .error _ => (d, .ok ())
  match removed with
  | .error e => (d, .error (cleanFailure root e))
  | .ok () =>
    match files.createDirectories d root with
    | (d, .ok ()) => (d, .ok ())
    | (d, .error e) => (d, .error (cleanFailure root e))

/-- What stands at a root is removed with everything below it; a root that leads nowhere is left
alone. -/
inductive Wipes (files : FileAccess) (root : Path) (d : Disk) :
    Disk → Except SystemError Unit → Prop
  | removed {place : Location × Entry} (h : files.follow d root = .ok place) :
    Wipes files root d (files.removeTree d root).1 (files.removeTree d root).2
  | absent {e : SystemError} (h : files.follow d root = .error e) : Wipes files root d d (.ok ())

/-- A root is wiped and made anew as a directory; the first of the two that fails is why it cannot
be emptied. -/
inductive Empties (files : FileAccess) (root : Path) (d : Disk) : Disk → Except Failure Unit → Prop
  | stuck {d' : Disk} {e : SystemError} (h : Wipes files root d d' (.error e)) :
    Empties files root d d' (.error (cleanFailure root e))
  | unmade {d' d'' : Disk} {e : SystemError} (h : Wipes files root d d' (.ok ()))
    (hmade : files.createDirectories d' root = (d'', .error e)) :
    Empties files root d d'' (.error (cleanFailure root e))
  | emptied {d' d'' : Disk} (h : Wipes files root d d' (.ok ()))
    (hmade : files.createDirectories d' root = (d'', .ok ())) :
    Empties files root d d'' (.ok ())

theorem empties_emptyRoot (files : FileAccess) (root : Path) (d : Disk) :
    Empties files root d (emptyRoot files d root).1 (emptyRoot files d root).2 := by
  obtain ⟨d', removed, hwipes, hwiped⟩ : ∃ d' removed, Wipes files root d d' removed ∧
      (match files.follow d root with
        | .ok _ => files.removeTree d root
        | .error _ => (d, .ok ())) = (d', removed) := by
    cases hfollow : files.follow d root with
    | ok place => exact ⟨_, _, .removed hfollow, rfl⟩
    | error e => exact ⟨_, _, .absent hfollow, rfl⟩
  rw [emptyRoot, hwiped]
  cases removed with
  | error e => exact .stuck hwipes
  | ok u =>
    rcases hmade : files.createDirectories d' root with ⟨d'', made⟩
    dsimp only
    rw [hmade]
    cases made with
    | ok u => exact .emptied hwipes hmade
    | error e => exact .unmade hwipes hmade

/-- What the answer to a request means: success, or a failure that carries the request's id. -/
def judge (timeout : Duration) (id : String) (answer : Answer) (elapsedNs : Nat) :
    Except Failure Unit :=
  let report (kind : FailureKind) (message : String) : Failure :=
    { kind := kind, op := some "invoke", requestId := some id, message := message }
  match answer with
  | .failed f => .error { f with requestId := some id }
  | .crashed => .ok ()
  | .response status success =>
    if timeout.nanos < elapsedNs then
      .error (report .timeout ("invocation took " ++ toString (elapsedNs / 1000000) ++
        " ms, limit " ++ toString timeout.millis ++ " ms"))
    else if success then .ok ()
    else
      .error (report .setupFailed
        ("system under test answered with status " ++ toString status))

/-- The failure of a run whose first workload left no files. -/
def noArtifacts (plan : Plan) (firstId : String) : Failure :=
  { kind := .noArtifactsProduced, op := some "capture_before", path := some plan.root.display
    requestId := some firstId, message := "first invocation left no files under the root" }

/-- A failed comparison says nothing when nothing changed and every path that disappeared could
not be read during the second capture. -/
def isInconclusive (diff : SnapshotDiff) (after : Snapshot) : Bool :=
  diff.violatesIsolation && diff.changed.isEmpty &&
    diff.removed.all fun p => after.unreadable.contains p

/-- A warning for each path that either capture could not read. -/
def warnings (before after : Snapshot) : List String :=
  (before.unreadable.toList.map fun p => "unreadable during capture_before: " ++ p) ++
    after.unreadable.toList.map fun p => "unreadable during capture_after: " ++ p

/-- The outcome of a run with two snapshots and their difference. -/
def verdict (plan : Plan) (s : Setting) (before after : Snapshot) (diff : SnapshotDiff) :
    Outcome :=
  let report : VerificationReport := {
    runId := s.runId
    root := plan.root.display
    firstRequestId := s.firstId
    secondRequestId := s.secondId
    startedAt := s.startedAt
    finishedAt := s.finishedAt
    beforeFiles := before.paths
    afterFiles := after.paths
    diff := diff
    warnings := warnings before after
    inconclusive := isInconclusive diff after }
  if diff.violatesIsolation then .fail report else .pass report

/-- The outcome of a run that failed in a phase. -/
def abortedOutcome (plan : Plan) (s : Setting) (phase : Phase) (f : Failure) : Outcome :=
  .aborted {
    runId := s.runId
    root := plan.root.display
    phase := phase
    errorCode := f.code
    message := f.display
    requestId := f.requestId
    startedAt := s.startedAt
    finishedAt := s.finishedAt }

/-- The name of the operation in the journal. -/
def op : String := "verify_isolation"

/-- Ends a run that failed in a phase. -/
def abort (plan : Plan) (s : Setting) (phase : Phase) (f : Failure) (r : Run) : Logged Run := do
  Logged.record (.failing op f.kind [("run_id", s.runId), ("phase", phase.name)])
  return { r with stage := .tearDown (abortedOutcome plan s phase f) }

/-- What a run meets at its next step. -/
def surroundings (r : Run) (s : Setting) : Surroundings :=
  s.around r.deeds.length

/-- Sends a workload and goes on to a stage if it is answered in time and with success. -/
def invoke (plan : Plan) (s : Setting) (d : Disk) (phase : Phase) (payload : Json) (id : String)
    (next : Stage) (r : Run) : Logged (Run × Disk) := do
  let request := plan.request payload id
  let reply := s.service request plan.invocationTimeout d
  reply.events.forM Logged.record
  let r := r.did (.invoke request reply)
  match reply.answer with
  | .crashed => return ({ r with stage := .crashed }, reply.disk)
  | answer =>
    match judge plan.invocationTimeout id answer reply.elapsedNs with
    | .ok () => return ({ r with stage := next }, reply.disk)
    | .error f => return (← abort plan s phase f r, reply.disk)

/-- Gives the service time to finish its files. -/
def wait (plan : Plan) (next : Stage) (r : Run) : Logged Run := do
  if plan.gracePeriod.nanos ≠ 0 then
    Logged.record { level := .debug, op := op
                    fields := [("phase", Phase.waitForArtifacts.name),
                      .count "grace_ms" plan.gracePeriod.millisWord.toNat] }
  return { r.did (.wait plan.gracePeriod) with stage := next }

/-- The limits of the captures of a plan. -/
def limits (plan : Plan) : CaptureLimits :=
  ⟨plan.workers, some plan.captureTimeout⟩

/-- Captures a snapshot of the root. -/
def takeSnapshot (plan : Plan) (s : Setting) (d : Disk) (r : Run) : Logged Captured :=
  capture d (s.fingerprinter r.given) (limits plan) (r.surroundings s) plan.root

/-- What a capture means for the run that took it. -/
def settle (plan : Plan) (s : Setting) (d : Disk) (captured : Captured) (r : Run) :
    Logged Run :=
  let taken := r.did (.capture d captured)
  match r.stage, captured.snapshot with
  | .captureBefore, .error (.failed f) => abort plan s .captureBefore f taken
  | .captureBefore, .ok before =>
    if before.isEmpty then abort plan s .captureBefore (noArtifacts plan s.firstId) taken
    else return { taken with stage := .invokeSecond before }
  | .captureAfter _, .error (.failed f) => abort plan s .captureAfter f taken
  | .captureAfter before, .ok after => return { taken with stage := .compare before after }
  | .captureBefore, .error .crashed | .captureAfter _, .error .crashed =>
    return { taken with stage := .crashed }
  | _, _ => return r

/-- The next step of a run: what it does to the run, to the disk and to the journal. -/
def step (plan : Plan) (s : Setting) (r : Run) (d : Disk) : Logged (Run × Disk) := do
  match r.stage with
  | .clean => do
    Logged.record (.starting op [("run_id", s.runId), ("root", plan.root.display)])
    let (d, result) := emptyRoot (r.surroundings s).files d plan.root
    let r := r.did (.clean result)
    match result with
    | .ok () => return ({ r with stage := .invokeFirst }, d)
    | .error f => return (← abort plan s .clean f r, d)
  | .invokeFirst => invoke plan s d .firstInvocation plan.firstPayload s.firstId .waitFirst r
  | .waitFirst => return (← wait plan .captureBefore r, d)
  | .captureBefore | .captureAfter _ => do
    let captured ← takeSnapshot plan s d r
    return (← settle plan s d captured r, d)
  | .invokeSecond before =>
    invoke plan s d .secondInvocation plan.secondPayload s.secondId (.waitSecond before) r
  | .waitSecond before => return (← wait plan (.captureAfter before) r, d)
  | .compare before after => do
    let result ← before.diff after
    let r := r.did (.compare result)
    match result with
    | .error f => return (← abort plan s .compare f r, d)
    | .ok diff => return ({ r with stage := .tearDown (verdict plan s before after diff) }, d)
  | .tearDown outcome => do
    let (d, removed) :=
      if plan.cleanupOnExit then (r.surroundings s).files.removeTree d plan.root else (d, .ok ())
    if let .error e := removed then
      Logged.record { level := .warn, op := op
                      fields := [("root", plan.root.display),
                        ("message", "teardown failed: " ++ e.message)] }
    Logged.record (.ending op [("run_id", s.runId), ("verdict", outcome.verdict)])
    return ({ r with stage := .finished outcome }, d)
  | .finished _ | .crashed => return (r, d)

/-- The outcome of a run that is over; a run that crashed has none. -/
def outcome? (r : Run) : Option Outcome :=
  match r.stage with
  | .finished o => some o
  | _ => none

/-- Whether a run is over. -/
def isOver (r : Run) : Bool :=
  match r.stage with
  | .finished _ | .crashed => true
  | _ => false

/-- The number of steps after which every run is over. -/
def length : Nat := 9

/-- A number of steps of a run. -/
def advance (plan : Plan) (s : Setting) : Nat → Run → Disk → Logged (Run × Disk)
  | 0, r, d => return (r, d)
  | n + 1, r, d => do
    let (r, d) ← step plan s r d
    advance plan s n r d

end Run

/-- Carries out a verification run from beginning to end. -/
def Plan.verify (plan : Plan) (s : Setting) (d : Disk) : Logged (Run × Disk) :=
  Run.advance plan s Run.length {} d

end CacheAudit
