import CacheAudit.Storage.Replace
import CacheAudit.Reconciliation.TextLog
import CacheAudit.Verification.Outcome

/-!
# Report files

A report is a pair of files in one directory under one stem: an indented JSON document for
programs and a text for people. The document is written first.
-/

namespace CacheAudit

/-- The paths of a report's two files. -/
structure ReportFiles where
  json : Path
  text : Path
deriving DecidableEq

/-- What a report consists of: the stem of its file names, the ending of the text file's name,
the document and the text. -/
structure Report where
  stem : String
  textEnding : String
  document : Json
  text : String

namespace Report

/-- The paths of a report in a directory. -/
def paths (r : Report) (dir : Path) : ReportFiles where
  json := dir.join (.ofString (r.stem ++ ".json"))
  text := dir.join (.ofString (r.stem ++ "." ++ r.textEnding))

/-- The report on two keyed datasets. -/
def ofReconciliation (stem : String) (r : Reconciliation) : Report :=
  ⟨stem, "diff.log", r.toJson, r.textLog⟩

/-- The report on two weighted datasets. -/
def ofWeights (stem : String) (r : WeightReconciliation) : Report :=
  ⟨stem, "diff.log", r.toJson, r.textLog⟩

/-- The report on a verification run. -/
def ofOutcome (o : Outcome) : Report :=
  ⟨"verification", "txt", o.toJson, o.summary⟩

/-- Writes the two files of a report, up to the first failure. -/
def writeFiles (r : Report) (d : Disk) (dir : Path) : Disk × Except Failure ReportFiles :=
  let paths := r.paths dir
  match d.replace paths.json (Text.Utf8.ofString r.document.pretty) with
  | (d, .error f) => (d, .error f)
  | (d, .ok ()) =>
    match d.replace paths.text (Text.Utf8.ofString r.text) with
    | (d, .error f) => (d, .error f)
    | (d, .ok ()) => (d, .ok paths)

/-- Writes a report and records that in the journal. A failure leaves the record open. -/
def write (r : Report) (d : Disk) (dir : Path) :
    Logged (Disk × Except Failure ReportFiles) := do
  Logged.record (.starting "write_report" [("dir", dir.display), ("stem", r.stem)])
  let (d, written) := r.writeFiles d dir
  match written with
  | .error f => return (d, .error f)
  | .ok paths => do
    Logged.record (.ending "write_report" [("stem", r.stem)])
    return (d, .ok paths)

end Report

end CacheAudit
