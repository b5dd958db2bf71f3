import CacheAudit.CommandLine.Arguments
import CacheAudit.Configuration.Basic
import CacheAudit.Dataset.Loading
import CacheAudit.Storage.Report
import CacheAudit.Storage.SnapshotFile
import CacheAudit.Verification.Endpoint
import CacheAudit.Verification.Run

/-!
# Carrying out commands

A command works on a disk and answers with what it prints, what it complains about and an exit
code: zero for agreement, one for a finding, two for a failure that left no verdict. A command that
crashes has a code of its own.
-/

namespace CacheAudit.CommandLine

/-- What a command needs besides the disk: the number of processors, and the ids and times of a
verification run. -/
structure Machine where
  processors : Nat
  runId : String
  firstId : String
  secondId : String
  now : Timestamp

/-- What a command leaves behind: the disk, its output, the lines it complains with, and its exit
code. -/
structure Completion where
  disk : Disk
  output : String := ""
  messages : List String := []
  exitCode : Nat

/-- A command that fails with a message. -/
def failing (d : Disk) (message : String) : Completion :=
  { disk := d, messages := ["Error: " ++ message], exitCode := 2 }

/-- A command that comes to no result. -/
def halting (d : Disk) : Halt Failure → Completion
  | .failed f => failing d f.display
  | .crashed => { disk := d, exitCode := 101 }

/-- A command that fails after it has printed and complained. -/
def Completion.andFail (c : Completion) (f : Failure) : Completion :=
  { c with messages := c.messages ++ ["Error: " ++ f.display], exitCode := 2 }

/-- The report of `snapshot capture` on the file that it wrote. -/
def captureText (s : Snapshot) (out : Path) : String :=
  "Snapshot captured:\n  root: " ++ s.root ++ "\n  files: " ++ toString s.size ++
    "\n  unreadable: " ++ toString s.unreadable.size ++ "\n  algorithm: " ++ s.algorithm ++
    "\n  out: " ++ out.display ++ "\n"

/-- Captures a snapshot and prints or keeps it. -/
def runCapture (m : Machine) (d : Disk) (c : CaptureCommand) : Completion :=
  match Algorithm.ofName? c.algorithm with
  | none =>
    failing d ("Unknown algorithm '" ++ c.algorithm ++ "' (use sha256 or sha512)")
  | some a =>
    if c.workers = some 0 then failing d "--workers must be at least 1"
    else
      let limits : CaptureLimits := { workers := c.workers.getD m.processors }
      match (capture d a.fingerprinter limits {} c.root).value.snapshot with
      | .error h => halting d h
      | .ok s =>
        let warned : Completion :=
          { disk := d, exitCode := 0
            messages := s.unreadable.toList.map fun p => "warning: unreadable, omitted: " ++ p }
        match c.out with
        | none => { warned with output := s.toJson.pretty ++ "\n" }
        | some out =>
          match s.save d out with
          | (d, .ok ()) => { warned with disk := d, output := captureText s out }
          | (d, .error f) => { warned with disk := d }.andFail f

/-- Compares two kept snapshots. -/
def runDiff (d : Disk) (c : DiffCommand) : Completion :=
  let compared : Except Failure SnapshotDiff := do
    let before ← Snapshot.load d c.before
    let after ← Snapshot.load d c.after
    (before.diff after).value
  match compared with
  | .error f => failing d f.display
  | .ok diff =>
    { disk := d
      output := if c.json then diff.toJson.pretty ++ "\n" else diff.summary
      exitCode := if diff.violatesIsolation then 1 else 0 }

/-- The table settings of a command. -/
def ReconcileCommand.table (c : ReconcileCommand) : Dataset.Table :=
  { excluded := .ofList c.excluded }

/-- The log settings of a command. -/
def ReconcileCommand.lineLog (c : ReconcileCommand) : Dataset.LineLog :=
  { marker := some c.marker, excluded := .ofList c.excluded }

/-- Loads the members in a file of a given form. -/
def ReconcileCommand.keyedAt (c : ReconcileCommand) (d : Disk) (path : Path)
    (format : InputFormat) (label : String) : Except (Halt Failure) KeyedDataset :=
  match format with
  | .csv => (c.table.keyedAt d path label).value
  | .log => (c.lineLog.keyedAt d path label).value

/-- Loads the weights in a file of a given form. -/
def ReconcileCommand.weightedAt (c : ReconcileCommand) (d : Disk) (path : Path)
    (format : InputFormat) (label : String) : Except (Halt Failure) WeightedDataset :=
  match format with
  | .csv => (c.table.weightedAt d path label).value
  | .log => (c.lineLog.weightedAt d path label).value

/-- Prints a comparison and keeps its report if a directory is given for it. -/
def finishReconcile (d : Disk) (out : Option Path) (report : Report) (agrees : Bool) :
    Completion :=
  let printed : Completion :=
    { disk := d, output := report.text, exitCode := if agrees then 0 else 1 }
  match out with
  | none => printed
  | some dir =>
    match (report.write d dir).value with
    | (d, .ok _) => { printed with disk := d }
    | (d, .error f) => { printed with disk := d }.andFail f

/-- Compares two dataset files. -/
def runReconcile (d : Disk) (c : ReconcileCommand) : Completion :=
  if c.weights then
    let loaded : Except (Halt Failure) (WeightedDataset × WeightedDataset) := do
      return (← c.weightedAt d c.reference c.referenceFormat "reference",
        ← c.weightedAt d c.candidate c.candidateFormat "candidate")
    match loaded with
    | .error h => halting d h
    | .ok (reference, candidate) =>
      let report := (reconcileWeights reference candidate c.tolerance).value
      finishReconcile d c.out (.ofWeights c.stem report) report.mismatches.isEmpty
  else
    let loaded : Except (Halt Failure) (KeyedDataset × KeyedDataset) := do
      return (← c.keyedAt d c.reference c.referenceFormat "reference",
        ← c.keyedAt d c.candidate c.candidateFormat "candidate")
    match loaded with
    | .error h => halting d h
    | .ok (reference, candidate) =>
      let report := (reconcile reference candidate).value
      finishReconcile d c.out (.ofReconciliation c.stem report) (report.mismatchCount == 0)

/-- The configuration of a command: the one in its file with the settings it overrides. -/
def VerifyCommand.configured (c : VerifyCommand) (d : Disk) : Except Failure Configuration :=
  (Configuration.load d c.configuration).map fun found =>
    { found with
      root := c.root.getD found.root
      endpoint := c.endpoint.getD found.endpoint
      gracePeriodMs := c.graceMs.getD found.gracePeriodMs
      reportDir := c.reportDir <|> found.reportDir }

/-- Prints the outcome of a run and keeps its report if a directory is given for it. The verdict
decides the exit code even if the report cannot be written. -/
def finishVerify (d : Disk) (reportDir : Option Path) (o : Outcome) : Completion :=
  let printed : Completion := { disk := d, output := o.summary, exitCode := o.exitCode }
  match reportDir with
  | none => printed
  | some dir =>
    match ((Report.ofOutcome o).write d dir).value with
    | (d, .ok paths) =>
      { printed with disk := d
                     output := o.summary ++ "Report: " ++ paths.json.display ++ "\n" }
    | (d, .error f) =>
      { printed with disk := d
                     messages := ["Warning: report not written: " ++ f.display] }

/-- Carries out a verification run. -/
def runVerify (m : Machine) (d : Disk) (c : VerifyCommand) : Completion :=
  let prepared : Except Failure (Configuration × Plan × Algorithm) := do
    let configuration ← c.configured d
    let plan ← configuration.toPlan d m.processors
    return (configuration, plan, ← configuration.algorithm?)
  match prepared with
  | .error f => failing d f.display
  | .ok (configuration, plan, a) =>
    let setting : Setting :=
      { service := Endpoint.service configuration.endpoint
        fingerprinter := fun _ => a.fingerprinter
        runId := m.runId, firstId := m.firstId, secondId := m.secondId
        startedAt := m.now, finishedAt := m.now }
    let (run, d) := (plan.verify setting d).value
    match run.outcome? with
    | some o => finishVerify d configuration.reportDir o
    | none => halting d .crashed

/-- Carries out a command. -/
def Command.run (m : Machine) (d : Disk) : Command → Completion
  | .capture c => runCapture m d c
  | .diff c => runDiff d c
  | .reconcile c => runReconcile d c
  | .verify c => runVerify m d c

end CacheAudit.CommandLine
