import CacheAudit.Verification.Run

/-!
# Several runs at once

Runs with roots apart from each other can be carried out side by side. A schedule says whose step
comes next; whatever the schedule leaves open is finished in the order of the plans. Within a
capture, the walk and the examination of each file are steps of their own. Roots are compared as
places, without looking at the disk: no root may be, or lie below, another.
-/

namespace CacheAudit

/-- A plan with what it is carried out with. -/
structure Scenario where
  plan : Plan
  setting : Setting

/-- How several runs end: with an outcome for each, with a failure, or by crashing the caller. -/
inductive ScenariosResult
  | outcomes (list : List Outcome)
  | failed (f : Failure)
  | crashed

/-- Whether a run takes a capture next. -/
def Stage.isCapture : Stage → Bool
  | captureBefore | captureAfter _ => true
  | _ => false

/-- A run among others: where it stands, and the capture that it has begun. -/
structure Member where
  run : Run := {}
  capturing : Option Capture.Progress := none

namespace Member

/-- The run goes on with the capture that it took. -/
def conclude (plan : Plan) (s : Setting) (d : Disk) (captured : Captured) (r : Run) :
    Logged Member := do
  Capture.reportEnd plan.root captured
  return { run := ← r.settle plan s d captured }

/-- The next step of a run, that of its capture while it has one under way. -/
def step (plan : Plan) (s : Setting) (m : Member) (d : Disk) : Logged (Member × Disk) :=
  let fp := s.fingerprinter m.run.given
  let around := m.run.surroundings s
  match m.capturing with
  | some p =>
    if p.pending.isEmpty then do
      let captured ← p.finish d fp (Run.limits plan) around plan.root
      return (← conclude plan s d captured m.run, d)
    else return ({ m with capturing := some (p.take d fp (Run.limits plan) around) }, d)
  | none =>
    if m.run.stage.isCapture then do
      match ← Capture.start d (Run.limits plan) around plan.root with
      | .error h => return (← conclude plan s d ⟨.error h, []⟩ m.run, d)
      | .ok p => return ({ m with capturing := some p }, d)
    else do
      let (r, d) ← m.run.step plan s d
      return ({ run := r }, d)

/-- A number of steps of a run. -/
def advance (plan : Plan) (s : Setting) : Nat → Member → Disk → Logged (Member × Disk)
  | 0, m, d => return (m, d)
  | n + 1, m, d => do
    let (m, d) ← step plan s m d
    advance plan s n m d

/-- The number of steps that end the capture under way. -/
def left (m : Member) : Nat :=
  match m.capturing with
  | some p => p.pending.length + 1
  | none => 0

/-- A step of a run together with the rest of the capture that it leaves under way. -/
def round (plan : Plan) (s : Setting) (m : Member) (d : Disk) : Logged (Member × Disk) := do
  let (m, d) ← step plan s m d
  advance plan s m.left m d

end Member

namespace Scenarios

/-- Whether one of two places is, or lies below, the other. -/
def overlap (a b : Location) : Bool :=
  a.isWithin b || b.isWithin a

/-- The first pair of overlapping places, in the order of the list. -/
def firstOverlap? : List Location → Option (Location × Location)
  | [] => none
  | a :: rest =>
    match rest.find? (overlap a) with
    | some b => some (a, b)
    | none => firstOverlap? rest

/-- Accepts plans whose roots are apart from each other. -/
def checkDisjoint (cwd : Location) (plans : List Plan) : Except Failure Unit :=
  match firstOverlap? (plans.map fun p => Location.ofPath cwd p.root) with
  | none => .ok ()
  | some (a, b) =>
    .error { kind := .invalidInput, op := some "run_scenarios", path := some a.path.display
             message := "root overlaps with " ++ b.path.display }

/-- Something that a run does. -/
abbrev Doing := Plan → Setting → Member → Disk → Logged (Member × Disk)

/-- Run number `i` does something. -/
def doOne (doing : Doing) (scenarios : List Scenario) (i : Nat) (members : List Member)
    (d : Disk) : Logged (List Member × Disk) :=
  match scenarios[i]?, members[i]? with
  | some s, some m => do
    let (m, d) ← doing s.plan s.setting m d
    return (members.set i m, d)
  | _, _ => return (members, d)

/-- The runs that a schedule names do something, in its order. -/
def follow (doing : Doing) (scenarios : List Scenario) :
    List Nat → List Member → Disk → Logged (List Member × Disk)
  | [], members, d => return (members, d)
  | i :: schedule, members, d => do
    let (members, d) ← doOne doing scenarios i members d
    follow doing scenarios schedule members d

/-- The rounds that finish all runs, one run after the other. -/
def remaining (n : Nat) : List Nat :=
  (List.range n).flatMap fun i => List.replicate Run.length i

/-- What the runs come to once all are over. A run that crashed makes a failure of the whole; the
crash of a second one, whose end nobody waits for, crashes the caller. -/
def conclude (runs : List Run) : ScenariosResult :=
  let crashes := (runs.filter fun r => r.outcome?.isNone).length
  if crashes = 0 then .outcomes (runs.filterMap Run.outcome?)
  else if crashes = 1 then
    .failed { kind := .internal, op := some "run_scenarios"
              message := "scenario thread panicked" }
  else .crashed

end Scenarios

/-- Carries out several runs, their steps in the order of a schedule and then the rest of each.
Answers how they end, the runs themselves, and the disk. -/
def interleave (scenarios : List Scenario) (schedule : List Nat) (d : Disk) :
    Logged (ScenariosResult × List Run × Disk) := do
  Logged.record (.starting "run_scenarios" [.count "scenario_count" scenarios.length])
  match Scenarios.checkDisjoint d.cwd (scenarios.map Scenario.plan) with
  | .error f => return (.failed f, [], d)
  | .ok () => do
    let members := scenarios.map fun _ => ({} : Member)
    let (members, d) ← Scenarios.follow Member.step scenarios schedule members d
    let (members, d) ←
      Scenarios.follow Member.round scenarios (Scenarios.remaining scenarios.length) members d
    let runs := members.map Member.run
    let result := Scenarios.conclude runs
    if let .outcomes list := result then
      Logged.record (.ending "run_scenarios"
        [.count "passed" (list.filter Outcome.isPass).length])
    return (result, runs, d)

end CacheAudit
