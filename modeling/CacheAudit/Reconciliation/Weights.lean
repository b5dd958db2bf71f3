import CacheAudit.Reconciliation.Members
import CacheAudit.Dataset.Weighted

/-!
# Reconciling weights

Two weighted datasets are compared key by key and member by member. A member differs when one
side lacks it, or when the two weights are further apart than the tolerance.
-/

namespace CacheAudit

/-- A member whose weight differs; a side that lacks the member has no weight. -/
structure WeightDelta where
  member : String
  reference : Option Float
  candidate : Option Float

/-- A shared key with its differing members. -/
structure WeightMismatch where
  key : String
  deltas : List WeightDelta

/-- The comparison of two weighted datasets. -/
structure WeightReconciliation where
  referenceLabel : String
  candidateLabel : String
  tolerance : Float
  sharedKeys : Nat
  mismatches : List WeightMismatch
  referenceOnlyKeys : List String
  candidateOnlyKeys : List String

namespace WeightDelta

/-- Whether two weights of a member differ. -/
def differs (tolerance : Float) : Option Float → Option Float → Bool
  | some r, some c => (r - c).abs > tolerance
  | _, _ => true

/-- The differing members of a key in ascending order. -/
def between (tolerance : Float) (reference candidate : StringMap Float) : List WeightDelta :=
  let members := (reference.keySet.union candidate.keySet).toList
  members.filterMap fun member =>
    let r := reference.get? member
    let c := candidate.get? member
    if differs tolerance r c then some ⟨member, r, c⟩ else none

/-- The document of a delta. -/
def toJson (d : WeightDelta) : Json :=
  .object [
    ("member", .text d.member),
    ("reference", .optional .real d.reference),
    ("candidate", .optional .real d.candidate)]

/-- The delta that a document describes. -/
def ofRaw? (v : Json.Raw) : Option WeightDelta :=
  match v.record? ["member", "reference", "candidate"] 0 with
  | some [member, reference, candidate] => do
    let member ← Json.Raw.required? Json.Raw.text? member
    let reference ← Json.Raw.absent? Json.Raw.float? reference
    let candidate ← Json.Raw.absent? Json.Raw.float? candidate
    return { member, reference, candidate }
  | _ => none

end WeightDelta

namespace WeightMismatch

/-- The document of a mismatch. -/
def toJson (m : WeightMismatch) : Json :=
  .object [("key", .text m.key), ("deltas", .array (m.deltas.map WeightDelta.toJson))]

/-- The mismatch that a document describes. -/
def ofRaw? (v : Json.Raw) : Option WeightMismatch :=
  match v.record? ["key", "deltas"] 0 with
  | some [key, deltas] => do
    let key ← Json.Raw.required? Json.Raw.text? key
    let deltas ← Json.Raw.required? (Json.Raw.list? WeightDelta.ofRaw?) deltas
    return { key, deltas }
  | _ => none

end WeightMismatch

namespace WeightReconciliation

/-- The pairs of weights of the keys that both sides have, in ascending order of the keys. -/
def shared (reference candidate : WeightedDataset) :
    List (String × StringMap Float × StringMap Float) :=
  reference.entries.entries.filterMap fun e => (candidate.get? e.1).map fun c => (e.1, e.2, c)

/-- Compares two weighted datasets; keys come in ascending order. -/
def of (reference candidate : WeightedDataset) (tolerance : Float) : WeightReconciliation where
  referenceLabel := reference.label
  candidateLabel := candidate.label
  tolerance := tolerance
  sharedKeys := (shared reference candidate).length
  mismatches := (shared reference candidate).filterMap fun (key, r, c) =>
    let deltas := WeightDelta.between tolerance r c
    if deltas.isEmpty then none else some ⟨key, deltas⟩
  referenceOnlyKeys := reference.keys.filter fun k => (candidate.get? k).isNone
  candidateOnlyKeys := candidate.keys.filter fun k => (reference.get? k).isNone

/-- The share of mismatching keys among the shared ones; none when no key is shared. -/
def mismatchPercentage (r : WeightReconciliation) : Option Float :=
  if r.sharedKeys = 0 then none else some (Decimal.percentage r.mismatches.length r.sharedKeys)

/-- The report in one line. -/
def summaryLine (r : WeightReconciliation) : String :=
  reconciliationSummary r.sharedKeys r.mismatches.length r.mismatchPercentage

/-- The document of a report. -/
def toJson (r : WeightReconciliation) : Json :=
  .object [
    ("reference_label", .text r.referenceLabel),
    ("candidate_label", .text r.candidateLabel),
    ("tolerance", .real r.tolerance),
    ("shared_keys", .nat r.sharedKeys),
    ("mismatches", .array (r.mismatches.map WeightMismatch.toJson)),
    ("reference_only_keys", .texts r.referenceOnlyKeys),
    ("candidate_only_keys", .texts r.candidateOnlyKeys)]

/-- The report that a document describes. -/
def ofRaw? (v : Json.Raw) : Option WeightReconciliation :=
  match v.record? ["reference_label", "candidate_label", "tolerance", "shared_keys",
    "mismatches", "reference_only_keys", "candidate_only_keys"] 0 with
  | some [referenceLabel, candidateLabel, tolerance, sharedKeys, mismatches,
      referenceOnlyKeys, candidateOnlyKeys] => do
    let referenceLabel ← Json.Raw.required? Json.Raw.text? referenceLabel
    let candidateLabel ← Json.Raw.required? Json.Raw.text? candidateLabel
    let tolerance ← Json.Raw.required? Json.Raw.float? tolerance
    let sharedKeys ← Json.Raw.required? Json.Raw.unsigned? sharedKeys
    let mismatches ← Json.Raw.required? (Json.Raw.list? WeightMismatch.ofRaw?) mismatches
    let referenceOnlyKeys ←
      Json.Raw.required? (Json.Raw.list? Json.Raw.text?) referenceOnlyKeys
    let candidateOnlyKeys ←
      Json.Raw.required? (Json.Raw.list? Json.Raw.text?) candidateOnlyKeys
    return { referenceLabel, candidateLabel, tolerance, sharedKeys, mismatches,
             referenceOnlyKeys, candidateOnlyKeys }
  | _ => none

end WeightReconciliation

/-- Compares two weighted datasets and records that in the journal. -/
def reconcileWeights (reference candidate : WeightedDataset) (tolerance : Float) :
    Logged WeightReconciliation := do
  Logged.record (.starting "reconcile_weights"
    [("reference", reference.label), ("candidate", candidate.label)])
  let report := WeightReconciliation.of reference candidate tolerance
  Logged.record (.ending "reconcile_weights" [.count "shared" report.sharedKeys,
    .count "mismatched" report.mismatches.length])
  return report

end CacheAudit
