import CacheAudit.Disk.Access
import CacheAudit.Duration
import CacheAudit.Problem
import CacheAudit.Journal
import CacheAudit.Snapshot.Basic
import CacheAudit.Digest.Fingerprint

/-!
# Parts of a capture

A capture walks the tree below a root, takes the fingerprint of every regular file, and puts the
records into a snapshot. Files and directories that cannot be read are left out and listed as
unreadable; any other failure ends the capture. A deadline is checked before each item of the
walk, before each file and at the end, so a capture that runs late gives no snapshot at all. A
deadline that the clock cannot tell crashes the capture.
-/

namespace CacheAudit

/-- How file contents are identified: the algorithm's name and the record of the file at a path,
filed under a key. -/
structure Fingerprinter where
  algorithm : String
  fingerprint : Disk → Path → String → Except Failure FileRecord

/-- How many workers a capture has and how long it may take. -/
structure CaptureLimits where
  workers : Nat
  timeout : Option Duration := none

/-- The clock, in nanoseconds, as a capture reads it: at the start, before each item of the walk,
before each file, and at the end. -/
structure Readings where
  started : Nat := 0
  atItem : Nat → Nat := fun _ => 0
  atFile : Nat → Nat := fun _ => 0
  atEnd : Nat := 0

/-- The order in which the workers of a capture finish its files: every file once, in any order. -/
structure FinishingOrder where
  order : Nat → List Nat
  complete : ∀ n, (order n).Perm (List.range n)

/-- The files finish in the order in which the walk found them. -/
def FinishingOrder.inTurn : FinishingOrder :=
  ⟨List.range, fun _ => .refl _⟩

/-- What a capture meets: the clock, the order in which its workers finish, the operations of the
file system, and whether so many workers can be had, or why not. -/
structure Surroundings where
  clock : Readings := {}
  finishing : FinishingOrder := .inTurn
  files : FileAccess := {}
  pool : Nat → Except String Unit := fun _ => .ok ()

/-- A regular file that a walk found: its path and its key. -/
structure Capture.FoundFile where
  path : Path
  key : String
deriving DecidableEq

/-- What a capture answers, and the files for which the fingerprinter was called, in the order of
the calls. -/
structure Captured where
  snapshot : Except (Halt Failure) Snapshot
  given : List Capture.FoundFile

namespace Capture

/-- What became of a file. -/
inductive FileResult
  | recorded (r : FileRecord)
  | unreadable (key : String) (f : Failure)
  | failed (f : Failure)
  | late

/-- The first moment that the clock cannot tell, since it counts seconds in 63 bits. -/
def clockEnd : Nat := UInt64.size / 2 * 1000000000

/-- Whether the clock can tell the deadline, if there is one. -/
def canTell (limits : CaptureLimits) (clock : Readings) : Bool :=
  limits.timeout.all fun t => clock.started + t.nanos < clockEnd

/-- Whether a reading of the clock is at or past the deadline. -/
def isLate (limits : CaptureLimits) (clock : Readings) (reading : Nat) : Bool :=
  limits.timeout.any fun t => clock.started + t.nanos ≤ reading

/-- The failure of a capture that runs late. -/
def lateFailure (root : Path) (limits : CaptureLimits) : Failure :=
  (Problem.captureTimedOut root.display
    ((limits.timeout.map Duration.millisWord).getD 0).toNat).toFailure

/-- The failure of a capture that cannot have its workers. -/
def poolFailure (message : String) : Failure :=
  { kind := .internal, op := some "capture"
    message := "failed to build worker pool: " ++ message }

/-- Demands that a root is a directory. -/
def requireRoot (files : FileAccess) (d : Disk) (root : Path) : Except Failure Unit :=
  match files.follow d root with
  | .ok (_, .directory) => .ok ()
  | .ok _ => .error (Problem.rootNotDirectory root.display).toFailure
  | .error .noEntry => .error (Problem.rootNotFound root.display).toFailure
  | .error e =>
    .error { kind := .io, op := some "capture", path := some root.display, message := e.message }

/-- A warning about a file or directory that is left out. -/
def warning (key : String) (code message : String) : Event :=
  { level := .warn, op := "capture"
    fields := [("path", key), ("err.code", code), ("message", message)] }

/-- What a walk brought to light: files and unreadable keys, or nothing if it ran late. -/
structure Survey where
  files : List FoundFile
  unreadable : List String
  late : Bool

/-- Goes through the items of a walk from number `i` on. -/
def survey (late : Nat → Bool) (i : Nat) : List WalkItem → Logged Survey
  | [] => return ⟨[], [], false⟩
  | item :: rest =>
    if late i then return ⟨[], [], true⟩
    else match item with
      | .file path names => do
        let s ← survey late (i + 1) rest
        return { s with files := ⟨path, WalkItem.key names⟩ :: s.files }
      | .other => survey late (i + 1) rest
      | .failed place e => do
        let key := WalkItem.key ((place.map Prod.snd).getD [])
        Logged.record (warning key FailureKind.fileUnreadable.code
          ("skipping unreadable entry: " ++ WalkItem.failureText place e))
        let s ← survey late (i + 1) rest
        return if key.isEmpty then s else { s with unreadable := key :: s.unreadable }

/-- Takes the fingerprint of a file. -/
def examine (d : Disk) (fp : Fingerprinter) (file : FoundFile) : FileResult :=
  match fp.fingerprint d file.path file.key with
  | .ok r => .recorded r
  | .error f => if f.kind = .fileUnreadable then .unreadable file.key f else .failed f

/-- Goes through the results of the files in the order of the walk, up to the first that ends
the capture. Answers the records and the keys of the unreadable files. -/
def collect (whenLate : Failure) :
    List FileResult → Logged (Except Failure (List FileRecord × List String))
  | [] => return .ok ([], [])
  | .recorded r :: rest => do
    return (← collect whenLate rest).map fun (records, keys) => (r :: records, keys)
  | .unreadable key f :: rest => do
    Logged.record (warning key f.code ("omitting unreadable file: " ++ f.message))
    return (← collect whenLate rest).map fun (records, keys) => (records, key :: keys)
  | .failed f :: _ => return .error f
  | .late :: _ => return .error whenLate

end Capture

/-- The fingerprinter of an algorithm. -/
def Algorithm.fingerprinter (a : Algorithm) : Fingerprinter :=
  ⟨a.name, a.fingerprint⟩

end CacheAudit
