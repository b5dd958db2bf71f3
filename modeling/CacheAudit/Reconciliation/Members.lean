import CacheAudit.Dataset.Keyed
import CacheAudit.Journal
import CacheAudit.Decimal.Fixed

/-!
# Reconciling members

Two keyed datasets are compared key by key. For a key on both sides the report says which
members the candidate lacks, which it has in addition, and what share of all members that is.
Keys on one side only are listed apart, so no key is dropped.
-/

namespace CacheAudit

/-- The comparison of one key that both sides have. -/
structure KeyComparison where
  key : String
  reference : StringSet
  candidate : StringSet
  missing : StringSet
  extra : StringSet
  percentDifference : Option Float

namespace KeyComparison

/-- Compares the members of one key. The share is that of the members on one side only among
the members of either side, and there is none when no side has members. -/
def of (key : String) (reference candidate : StringSet) : KeyComparison :=
  let missing := reference.difference candidate
  let extra := candidate.difference reference
  let union := (reference.union candidate).size
  { key, reference, candidate, missing, extra
    percentDifference :=
      if union = 0 then none else some (Decimal.percentage (missing.size + extra.size) union) }

/-- Whether both sides have the same members. -/
def isMatch (c : KeyComparison) : Bool :=
  c.missing.isEmpty && c.extra.isEmpty

/-- The document of a comparison. -/
def toJson (c : KeyComparison) : Json :=
  .object [
    ("key", .text c.key),
    ("reference", .texts c.reference.toList),
    ("candidate", .texts c.candidate.toList),
    ("missing", .texts c.missing.toList),
    ("extra", .texts c.extra.toList),
    ("percent_difference", .optional .real c.percentDifference)]

/-- The comparison that a document describes. -/
def ofRaw? (v : Json.Raw) : Option KeyComparison :=
  match v.record?
    ["key", "reference", "candidate", "missing", "extra", "percent_difference"] 0 with
  | some [key, reference, candidate, missing, extra, percentDifference] => do
    let key ← Json.Raw.required? Json.Raw.text? key
    let reference ← Json.Raw.required? Json.Raw.set? reference
    let candidate ← Json.Raw.required? Json.Raw.set? candidate
    let missing ← Json.Raw.required? Json.Raw.set? missing
    let extra ← Json.Raw.required? Json.Raw.set? extra
    let percentDifference ← Json.Raw.absent? Json.Raw.float? percentDifference
    return { key, reference, candidate, missing, extra, percentDifference }
  | _ => none

end KeyComparison

/-- The comparison of two keyed datasets. -/
structure Reconciliation where
  referenceLabel : String
  candidateLabel : String
  records : List KeyComparison
  referenceOnlyKeys : List String
  candidateOnlyKeys : List String

/-- The line that sums up a comparison: shared keys, mismatching keys and their share. -/
def reconciliationSummary (shared mismatched : Nat) (percentage : Option Float) : String :=
  "Total Same Keys: " ++ toString shared ++ ", Total Mismatched Keys: " ++ toString mismatched ++
    ", Percentage: " ++ (percentage.map Decimal.hundredths).getD "N/A"

namespace Reconciliation

/-- Compares two keyed datasets; keys come in ascending order. -/
def of (reference candidate : KeyedDataset) : Reconciliation where
  referenceLabel := reference.label
  candidateLabel := candidate.label
  records := reference.entries.entries.filterMap fun e =>
    (candidate.get? e.1).map (KeyComparison.of e.1 e.2)
  referenceOnlyKeys := reference.keys.filter fun k => (candidate.get? k).isNone
  candidateOnlyKeys := candidate.keys.filter fun k => (reference.get? k).isNone

/-- The comparisons of the keys whose members differ. -/
def mismatches (r : Reconciliation) : List KeyComparison :=
  r.records.filter fun c => !c.isMatch

/-- The number of keys that both sides have. -/
def sharedCount (r : Reconciliation) : Nat :=
  r.records.length

/-- The number of keys whose members agree. -/
def matchingCount (r : Reconciliation) : Nat :=
  (r.records.filter KeyComparison.isMatch).length

/-- The number of keys whose members differ. -/
def mismatchCount (r : Reconciliation) : Nat :=
  r.sharedCount - r.matchingCount

/-- The share of mismatching keys among the shared ones; none when no key is shared. -/
def mismatchPercentage (r : Reconciliation) : Option Float :=
  if r.records.isEmpty then none else some (Decimal.percentage r.mismatchCount r.sharedCount)

/-- The report in one line. -/
def summaryLine (r : Reconciliation) : String :=
  reconciliationSummary r.sharedCount r.mismatchCount r.mismatchPercentage

/-- The document of a report. -/
def toJson (r : Reconciliation) : Json :=
  .object [
    ("reference_label", .text r.referenceLabel),
    ("candidate_label", .text r.candidateLabel),
    ("records", .array (r.records.map KeyComparison.toJson)),
    ("reference_only_keys", .texts r.referenceOnlyKeys),
    ("candidate_only_keys", .texts r.candidateOnlyKeys)]

/-- The report that a document describes. -/
def ofRaw? (v : Json.Raw) : Option Reconciliation :=
  match v.record? ["reference_label", "candidate_label", "records", "reference_only_keys",
    "candidate_only_keys"] 0 with
  | some [referenceLabel, candidateLabel, records, referenceOnlyKeys, candidateOnlyKeys] => do
    let referenceLabel ← Json.Raw.required? Json.Raw.text? referenceLabel
    let candidateLabel ← Json.Raw.required? Json.Raw.text? candidateLabel
    let records ← Json.Raw.required? (Json.Raw.list? KeyComparison.ofRaw?) records
    let referenceOnlyKeys ←
      Json.Raw.required? (Json.Raw.list? Json.Raw.text?) referenceOnlyKeys
    let candidateOnlyKeys ←
      Json.Raw.required? (Json.Raw.list? Json.Raw.text?) candidateOnlyKeys
    return { referenceLabel, candidateLabel, records, referenceOnlyKeys, candidateOnlyKeys }
  | _ => none

end Reconciliation

/-- Compares two keyed datasets and records that in the journal. -/
def reconcile (reference candidate : KeyedDataset) : Logged Reconciliation := do
  Logged.record (.starting "reconcile" [("reference", reference.label),
    ("candidate", candidate.label), .count "key_count" reference.size])
  let report := Reconciliation.of reference candidate
  Logged.record (.ending "reconcile" [.count "shared" report.sharedCount,
    .count "mismatched" report.mismatchCount])
  return report

end CacheAudit
