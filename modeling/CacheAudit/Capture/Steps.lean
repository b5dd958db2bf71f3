import CacheAudit.Capture.Basic

/-!
# Captures

The walk of a capture is one step, and so is the visit of a worker to each file, whose result goes
into the slot of that file. A last step puts the results together. What others do to the disk
between two steps is met by the second; a capture at one go is all steps on one disk.
-/

namespace CacheAudit

namespace Capture

/-- A capture under way: what its walk brought to light, the numbers of the files that are still to
be visited, in their order, the results so far, and the files for which the fingerprinter was
called. -/
structure Progress where
  found : Survey
  pending : List Nat
  slots : List (Option FileResult)
  given : List FoundFile := []

variable (d : Disk) (fp : Fingerprinter) (limits : CaptureLimits) (around : Surroundings)
  (root : Path)

/-- Finds the files among the items of a walk and has workers for them. -/
def explore (items : List WalkItem) : Logged (Except (Halt Failure) Progress) := do
  let clock := around.clock
  if !canTell limits clock then return .error .crashed
  let found ← survey (fun i => isLate limits clock (clock.atItem i)) 0 items
  if found.late then return .error (.failed (lateFailure root limits))
  match around.pool (max limits.workers 1) with
  | .error message => return .error (.failed (poolFailure message))
  | .ok () =>
    let n := found.files.length
    return .ok { found, pending := around.finishing.order n, slots := List.replicate n none }

/-- The first step: demands a directory and walks it. -/
def start : Logged (Except (Halt Failure) Progress) := do
  Logged.record (.starting "capture" [("root", root.display), .count "workers" limits.workers])
  match requireRoot around.files d root with
  | .error f => return .error (.failed f)
  | .ok () => explore limits around root (around.files.walk d root)

namespace Progress

/-- A worker visits file number `i`: if it does not come too late, it calls the fingerprinter. -/
def visit (p : Progress) (i : Nat) : Progress :=
  match p.found.files[i]? with
  | none => p
  | some file =>
    if isLate limits around.clock (around.clock.atFile i) then
      { p with slots := p.slots.set i (some .late) }
    else
      { p with slots := p.slots.set i (some (examine d fp file)), given := p.given ++ [file] }

/-- The next file is visited. -/
def take (p : Progress) : Progress :=
  match p.pending with
  | [] => p
  | i :: rest => visit d fp limits around { p with pending := rest } i

/-- All files that are left are visited. -/
def takeAll (p : Progress) : Progress :=
  p.pending.foldl (visit d fp limits around) { p with pending := [] }

/-- The last step: puts the results together. -/
def finish (p : Progress) : Logged Captured := do
  let late := lateFailure root limits
  if isLate limits around.clock around.clock.atEnd then return ⟨.error (.failed late), p.given⟩
  let collected ← collect late (p.slots.filterMap id)
  return ⟨Halt.lift <| collected.map fun (records, keys) =>
    .ofRecords root.display d.now fp.algorithm records (p.found.unreadable ++ keys), p.given⟩

end Progress

/-- Records how a capture ended; one that crashed leaves no trace. -/
def reportEnd (captured : Captured) : Logged Unit :=
  match captured.snapshot with
  | .ok s => Logged.record (.ending "capture" [("root", root.display), .count "file_count" s.size,
      .count "unreadable_count" s.unreadable.size])
  | .error (.failed f) => Logged.record (.failing "capture" f.kind [("root", root.display)])
  | .error .crashed => return ()

end Capture

/-- Captures a snapshot of the tree below a root and records that in the journal. -/
def capture (d : Disk) (fp : Fingerprinter) (limits : CaptureLimits) (around : Surroundings)
    (root : Path) : Logged Captured := do
  let captured ← match ← Capture.start d limits around root with
    | .error h => pure ⟨.error h, []⟩
    | .ok p => (p.takeAll d fp limits around).finish d fp limits around root
  Capture.reportEnd root captured
  return captured

end CacheAudit
