import CacheAudit.Configuration.Toml
import CacheAudit.Disk.Basic
import CacheAudit.Digest.Fingerprint
import CacheAudit.Verification.Plan

/-!
# Configurations of verification runs

A configuration names the root to watch, the endpoint of the service under test and the files of
the two workloads; everything else has a default. It is read from a settings file, whose
directory is where relative paths start, and becomes a plan once it is found acceptable.
-/

namespace CacheAudit

/-- The settings of a verification run. Without a number of workers there is one for each
processor. -/
structure Configuration where
  root : Path
  endpoint : String
  period : String := "5000"
  endDate : String := "2024-09-30"
  firstPayload : Path
  secondPayload : Path
  gracePeriodMs : UInt64 := 5000
  invocationTimeoutMs : UInt64 := 60000
  captureTimeoutMs : UInt64 := 60000
  workers : Option Nat := none
  algorithm : String := "sha256"
  cleanupOnExit : Bool := false
  reportDir : Option Path := none
deriving DecidableEq

namespace Configuration

open Toml (Scalar)

/-- The keys of a settings file. -/
def keys : List String :=
  ["root", "endpoint", "period", "end_date", "first_payload", "second_payload",
    "grace_period_ms", "invocation_timeout_ms", "capture_timeout_ms", "workers", "algorithm",
    "cleanup_on_exit", "report_dir"]

/-- A setting that is a text. -/
def text? : Scalar → Option String
  | .text s => some s
  | _ => none

/-- A setting that is a natural number. -/
def natural? : Scalar → Option Nat
  | .integer n => if 0 ≤ n then some n.toNat else none
  | _ => none

/-- A setting that is a machine word. -/
def word? (s : Scalar) : Option UInt64 :=
  ((natural? s).filter (· < UInt64.size)).map UInt64.ofNat

/-- A setting that is a truth value. -/
def flag? : Scalar → Option Bool
  | .bool b => some b
  | _ => none

/-- A setting that is a path. -/
def path? (s : Scalar) : Option Path :=
  (text? s).map Path.ofString

/-- The value of a setting, if it is given; it must have the right form. -/
def given? {α : Type} (read : Scalar → Option α) (settings : List (String × Scalar))
    (key : String) : Option (Option α) :=
  match settings.find? fun s => s.1 == key with
  | some (_, v) => (read v).map some
  | none => some none

/-- The configuration that settings describe. -/
def ofSettings? (settings : List (String × Scalar)) : Option Configuration := do
  if settings.any fun s => !keys.contains s.1 then none
  return {
    root := ← ← given? path? settings "root"
    endpoint := ← ← given? text? settings "endpoint"
    period := (← given? text? settings "period").getD "5000"
    endDate := (← given? text? settings "end_date").getD "2024-09-30"
    firstPayload := ← ← given? path? settings "first_payload"
    secondPayload := ← ← given? path? settings "second_payload"
    gracePeriodMs := (← given? word? settings "grace_period_ms").getD 5000
    invocationTimeoutMs := (← given? word? settings "invocation_timeout_ms").getD 60000
    captureTimeoutMs := (← given? word? settings "capture_timeout_ms").getD 60000
    workers := ← given? natural? settings "workers"
    algorithm := (← given? text? settings "algorithm").getD "sha256"
    cleanupOnExit := (← given? flag? settings "cleanup_on_exit").getD false
    reportDir := ← given? path? settings "report_dir" }

/-- The configuration that a settings file describes. -/
def ofText (text : String) : Except Failure Configuration :=
  match (Toml.settings? text).bind ofSettings? with
  | some c => .ok c
  | none => .error { kind := .configInvalid, op := some "load_config" }

/-- The configuration with its relative paths starting in a directory. -/
def resolveIn (c : Configuration) (base : Path) : Configuration :=
  { c with
    root := base.join c.root
    firstPayload := base.join c.firstPayload
    secondPayload := base.join c.secondPayload
    reportDir := c.reportDir.map base.join }

/-- The text of a file, or why it cannot be read. -/
def textAt (d : Disk) (path : Path) : Except String String :=
  match d.read path with
  | .error e => .error e.message
  | .ok bytes =>
    match Text.Utf8.toString? bytes with
    | some s => .ok s
    | none => .error "stream did not contain valid UTF-8"

/-- The failure to read a file. -/
def unreadText (op : String) (path : Path) (message : String) : Failure :=
  { kind := .io, op := some op, path := some path.display, message := message }

/-- The configuration in a file; relative paths start in the directory of the file. -/
def load (d : Disk) (path : Path) : Except Failure Configuration :=
  match textAt d path with
  | .error m => .error (unreadText "load_config" path m)
  | .ok text =>
    match ofText text with
    | .error f => .error { f with path := some path.display }
    | .ok c =>
      match path.parent? with
      | some base => .ok (c.resolveIn base)
      | none => .ok c

/-- The digest that a configuration asks for. -/
def algorithm? (c : Configuration) : Except Failure Algorithm :=
  match Algorithm.ofName? c.algorithm with
  | some a => .ok a
  | none =>
    .error (Problem.configInvalid
      ("algorithm must be sha256 or sha512, got '" ++ c.algorithm ++ "'")).toFailure

/-- Whether a text holds nothing but blanks. -/
def isBlankText (s : String) : Bool :=
  (Text.trim s.toList).isEmpty

/-- Accepts a configuration that a run can be carried out with, and otherwise names the first
setting that stands in the way. -/
def validate (c : Configuration) : Except Failure Unit :=
  let invalid (reason : String) : Except Failure Unit :=
    .error (Problem.configInvalid reason).toFailure
  if isBlankText c.endpoint then invalid "endpoint must not be empty"
  else if c.root.bytes.isEmpty then invalid "root must not be empty"
  else if c.invocationTimeoutMs = 0 then
    invalid "invocation_timeout_ms must be greater than zero"
  else if c.captureTimeoutMs = 0 then invalid "capture_timeout_ms must be greater than zero"
  else if c.workers = some 0 then invalid "workers must be at least 1"
  else if c.invocationTimeoutMs < c.gracePeriodMs then
    invalid "grace_period_ms must not exceed invocation_timeout_ms"
  else c.algorithm?.map fun _ => ()

/-- The workload in a file. -/
def payload (d : Disk) (path : Path) : Except Failure Json :=
  match textAt d path with
  | .error m => .error (unreadText "read_payload" path m)
  | .ok text =>
    match (Json.ofString? text).bind Json.Raw.freeForm? with
    | some v => .ok v
    | none =>
      .error { kind := .serialization, op := some "read_payload", path := some path.display }

/-- The plan of the run that a configuration describes, for a machine with the given number of
processors. -/
def toPlan (c : Configuration) (d : Disk) (processors : Nat) : Except Failure Plan := do
  c.validate
  return {
    root := c.root
    firstPayload := ← payload d c.firstPayload
    secondPayload := ← payload d c.secondPayload
    period := c.period
    endDate := c.endDate
    gracePeriod := .ofMillis c.gracePeriodMs
    invocationTimeout := .ofMillis c.invocationTimeoutMs
    captureTimeout := .ofMillis c.captureTimeoutMs
    workers := c.workers.getD processors
    cleanupOnExit := c.cleanupOnExit }

end Configuration

end CacheAudit
