import CacheAudit.Proofs.Decimal.AbsoluteDifference
import CacheAudit.Proofs.Reconciliation.Partition
import CacheAudit.Reconciliation.Weights

/-!
# Reconciling the other way round

Both comparisons walk the reference and look its keys up in the candidate. What they find for the
shared keys is the join of two maps, and the join of two maps in ascending order does not depend on
which of them is walked. The rest of a report is symmetric key by key, down to the distance of two
weights.
-/

namespace CacheAudit

namespace StringMap

variable {α β : Type}

/-- The pairs of values of the keys that two maps share, in ascending order of the keys. -/
def join (m : StringMap α) (n : StringMap β) : List (String × α × β) :=
  m.entries.filterMap fun e => (n.get? e.1).map fun v => (e.1, e.2, v)

/-- A joined entry with its two values exchanged. -/
def exchange (e : String × α × β) : String × β × α :=
  (e.1, e.2.2, e.2.1)

theorem mem_join {m : StringMap α} {n : StringMap β} {k : String} {a : α} {b : β} :
    (k, a, b) ∈ join m n ↔ m.get? k = some a ∧ n.get? k = some b := by
  rw [join, List.mem_filterMap, get?_eq_some_iff]
  constructor
  · rintro ⟨⟨k', a'⟩, hmem, hfound⟩
    obtain ⟨b', hb, heq⟩ := Option.map_eq_some_iff.1 hfound
    cases heq
    exact ⟨hmem, hb⟩
  · rintro ⟨ha, hb⟩
    exact ⟨(k, a), ha, by simp [hb]⟩

theorem join_ascending (m : StringMap α) (n : StringMap β) :
    (join m n).Pairwise fun e f => e.1 < f.1 := by
  refine List.Pairwise.filterMap _ ?_ (List.pairwise_map.1 m.ascending)
  intro e f hlt e' he f' hf
  obtain ⟨_, -, rfl⟩ := Option.map_eq_some_iff.1 he
  obtain ⟨_, -, rfl⟩ := Option.map_eq_some_iff.1 hf
  exact hlt

/-- Walking the other map finds the same keys in the same order. -/
theorem join_comm (m : StringMap α) (n : StringMap β) : join m n = (join n m).map exchange := by
  have hasc := join_ascending m n
  have hasc' : ((join n m).map exchange).Pairwise fun e f => e.1 < f.1 :=
    List.pairwise_map.2 (join_ascending n m)
  have hnodup {es : List (String × α × β)} (hes : es.Pairwise fun e f => e.1 < f.1) : es.Nodup := by
    refine hes.imp ?_
    rintro e _ hlt rfl
    exact String.lt_irrefl e.1 hlt
  have hperm : (join m n).Perm ((join n m).map exchange) := by
    rw [List.perm_ext_iff_of_nodup (hnodup hasc) (hnodup hasc')]
    rintro ⟨k, a, b⟩
    have hmap : (k, a, b) ∈ (join n m).map exchange ↔ (k, b, a) ∈ join n m := by
      simp [exchange, and_comm, and_assoc]
    rw [hmap, mem_join, mem_join, and_comm]
  exact hperm.eq_of_pairwise
    (fun e f _ _ hef hfe => absurd (String.lt_trans hef hfe) (String.lt_irrefl e.1)) hasc hasc'

end StringMap

namespace StringSet

theorem union_comm (s t : StringSet) : s.union t = t.union s :=
  ext fun x => by rw [mem_union, mem_union, or_comm]

end StringSet

namespace KeyComparison

/-- The comparison with its two sides exchanged. -/
def mirror (c : KeyComparison) : KeyComparison where
  key := c.key
  reference := c.candidate
  candidate := c.reference
  missing := c.extra
  extra := c.missing
  percentDifference := c.percentDifference

theorem of_swap (key : String) (s t : StringSet) : of key t s = (of key s t).mirror := by
  simp only [of, mirror, StringSet.union_comm t s, Nat.add_comm (t.difference s).size]

@[simp] theorem isMatch_mirror (c : KeyComparison) : c.mirror.isMatch = c.isMatch :=
  Bool.and_comm ..

end KeyComparison

namespace Reconciliation

/-- The report with its two sides exchanged. -/
def mirror (r : Reconciliation) : Reconciliation where
  referenceLabel := r.candidateLabel
  candidateLabel := r.referenceLabel
  records := r.records.map KeyComparison.mirror
  referenceOnlyKeys := r.candidateOnlyKeys
  candidateOnlyKeys := r.referenceOnlyKeys

theorem records_of (reference candidate : KeyedDataset) :
    (of reference candidate).records =
      (reference.entries.join candidate.entries).map fun e => .of e.1 e.2.1 e.2.2 := by
  rw [StringMap.join, List.map_filterMap]
  simp only [Option.map_map]
  rfl

theorem of_swap (reference candidate : KeyedDataset) :
    of candidate reference = (of reference candidate).mirror := by
  have hrecords : (of candidate reference).records = (of reference candidate).mirror.records := by
    rw [records_of, StringMap.join_comm, mirror, records_of, List.map_map, List.map_map]
    exact List.map_congr_left fun e _ => KeyComparison.of_swap e.1 e.2.1 e.2.2
  exact congrArg (fun records => { (of candidate reference) with records }) hrecords

variable (r : Reconciliation)

theorem sharedCount_mirror : r.mirror.sharedCount = r.sharedCount :=
  List.length_map ..

theorem matchingCount_mirror : r.mirror.matchingCount = r.matchingCount := by
  have hmatch : KeyComparison.isMatch ∘ KeyComparison.mirror = KeyComparison.isMatch :=
    funext KeyComparison.isMatch_mirror
  rw [matchingCount, mirror, List.filter_map, List.length_map, hmatch, matchingCount]

theorem mismatchCount_mirror : r.mirror.mismatchCount = r.mismatchCount := by
  rw [mismatchCount, sharedCount_mirror, matchingCount_mirror, mismatchCount]

theorem mismatchPercentage_mirror : r.mirror.mismatchPercentage = r.mismatchPercentage := by
  have hempty : r.mirror.records.isEmpty = r.records.isEmpty := List.isEmpty_map
  rw [mismatchPercentage, hempty, mismatchCount_mirror, sharedCount_mirror, mismatchPercentage]

theorem summaryLine_mirror : r.mirror.summaryLine = r.summaryLine := by
  rw [summaryLine, sharedCount_mirror, mismatchCount_mirror, mismatchPercentage_mirror, summaryLine]

/-- One report is the other with the two sides exchanged, and sums up the same. -/
structure Mirrors (r s : Reconciliation) : Prop where
  eq_mirror : r = s.mirror
  keys_eq : r.records.map KeyComparison.key = s.records.map KeyComparison.key
  percents_eq : r.records.map KeyComparison.percentDifference =
    s.records.map KeyComparison.percentDifference
  matches_eq : r.records.map KeyComparison.isMatch = s.records.map KeyComparison.isMatch
  sharedCount_eq : r.sharedCount = s.sharedCount
  matchingCount_eq : r.matchingCount = s.matchingCount
  mismatchCount_eq : r.mismatchCount = s.mismatchCount
  mismatchPercentage_eq : r.mismatchPercentage = s.mismatchPercentage
  summaryLine_eq : r.summaryLine = s.summaryLine

theorem mirrors_mirror : r.mirror.Mirrors r where
  eq_mirror := rfl
  keys_eq := List.map_map ..
  percents_eq := List.map_map ..
  matches_eq := by
    rw [mirror, List.map_map]
    exact List.map_congr_left fun c _ => c.isMatch_mirror
  sharedCount_eq := r.sharedCount_mirror
  matchingCount_eq := r.matchingCount_mirror
  mismatchCount_eq := r.mismatchCount_mirror
  mismatchPercentage_eq := r.mismatchPercentage_mirror
  summaryLine_eq := r.summaryLine_mirror

end Reconciliation

namespace WeightDelta

/-- The delta with its two weights exchanged. -/
def mirror (d : WeightDelta) : WeightDelta :=
  ⟨d.member, d.candidate, d.reference⟩

theorem differs_comm (tolerance : Float) (r c : Option Float) :
    differs tolerance r c = differs tolerance c r := by
  cases r with
  | none => cases c <;> rfl
  | some r => cases c with
    | none => rfl
    | some c => rw [differs, differs, Decimal.abs_sub_comm]

theorem between_swap (tolerance : Float) (r c : StringMap Float) :
    between tolerance c r = (between tolerance r c).map mirror := by
  simp only [between, List.map_filterMap, StringSet.union_comm c.keySet]
  refine List.filterMap_congr fun member _ => ?_
  rw [differs_comm]
  split <;> rfl

end WeightDelta

namespace WeightMismatch

/-- The mismatch with the two weights of each member exchanged. -/
def mirror (m : WeightMismatch) : WeightMismatch :=
  ⟨m.key, m.deltas.map WeightDelta.mirror⟩

end WeightMismatch

namespace WeightReconciliation

/-- The report with its two sides exchanged. -/
def mirror (r : WeightReconciliation) : WeightReconciliation where
  referenceLabel := r.candidateLabel
  candidateLabel := r.referenceLabel
  tolerance := r.tolerance
  sharedKeys := r.sharedKeys
  mismatches := r.mismatches.map WeightMismatch.mirror
  referenceOnlyKeys := r.candidateOnlyKeys
  candidateOnlyKeys := r.referenceOnlyKeys

/-- The mismatch of a shared key, if there is one. -/
def mismatch? (tolerance : Float) (e : String × StringMap Float × StringMap Float) :
    Option WeightMismatch :=
  let deltas := WeightDelta.between tolerance e.2.1 e.2.2
  if deltas.isEmpty then none else some ⟨e.1, deltas⟩

theorem mismatch?_exchange (tolerance : Float) (e : String × StringMap Float × StringMap Float) :
    mismatch? tolerance (StringMap.exchange e) =
      (mismatch? tolerance e).map WeightMismatch.mirror := by
  simp only [mismatch?, StringMap.exchange, WeightDelta.between_swap tolerance e.2.1,
    List.isEmpty_map]
  split <;> rfl

theorem of_swap (reference candidate : WeightedDataset) (tolerance : Float) :
    of candidate reference tolerance = (of reference candidate tolerance).mirror := by
  have hshared :
      shared candidate reference = (shared reference candidate).map StringMap.exchange :=
    StringMap.join_comm candidate.entries reference.entries
  have hcount : (of candidate reference tolerance).sharedKeys =
      (of reference candidate tolerance).sharedKeys := by
    show (shared candidate reference).length = (shared reference candidate).length
    rw [hshared, List.length_map]
  have hmismatches : (of candidate reference tolerance).mismatches =
      (of reference candidate tolerance).mismatches.map .mirror := by
    show (shared candidate reference).filterMap (mismatch? tolerance) =
      ((shared reference candidate).filterMap (mismatch? tolerance)).map .mirror
    rw [hshared, List.filterMap_map, List.map_filterMap]
    exact List.filterMap_congr fun e _ => mismatch?_exchange tolerance e
  rw [mirror, ← hcount, ← hmismatches]
  rfl

variable (r : WeightReconciliation)

theorem summaryLine_mirror : r.mirror.summaryLine = r.summaryLine := by
  simp only [summaryLine, mismatchPercentage, mirror, List.length_map]

/-- One report is the other with the two sides exchanged, and sums up the same. -/
structure Mirrors (r s : WeightReconciliation) : Prop where
  eq_mirror : r = s.mirror
  sharedKeys_eq : r.sharedKeys = s.sharedKeys
  keys_eq : r.mismatches.map WeightMismatch.key = s.mismatches.map WeightMismatch.key
  members_eq : r.mismatches.map (fun m => m.deltas.map WeightDelta.member) =
    s.mismatches.map fun m => m.deltas.map WeightDelta.member
  summaryLine_eq : r.summaryLine = s.summaryLine

theorem mirrors_mirror : r.mirror.Mirrors r where
  eq_mirror := rfl
  sharedKeys_eq := rfl
  keys_eq := List.map_map ..
  members_eq := by
    rw [mirror, List.map_map]
    exact List.map_congr_left fun m _ => List.map_map ..
  summaryLine_eq := r.summaryLine_mirror

end WeightReconciliation

/-- Exchanging the two sides mirrors the report of either comparison. The keys, the shares and the
verdicts stay as they are and in their order, what belongs to one side moves to the other, and the
counts and the summary line stay the same. -/
theorem reconcilers_mirror (reference candidate : KeyedDataset)
    (weightedReference weightedCandidate : WeightedDataset) (tolerance : Float) :
    (reconcile candidate reference).value.Mirrors (reconcile reference candidate).value ∧
      (reconcileWeights weightedCandidate weightedReference tolerance).value.Mirrors
        (reconcileWeights weightedReference weightedCandidate tolerance).value := by
  constructor
  · show (Reconciliation.of candidate reference).Mirrors (Reconciliation.of reference candidate)
    rw [Reconciliation.of_swap]
    exact Reconciliation.mirrors_mirror _
  · show (WeightReconciliation.of weightedCandidate weightedReference tolerance).Mirrors
      (WeightReconciliation.of weightedReference weightedCandidate tolerance)
    rw [WeightReconciliation.of_swap]
    exact WeightReconciliation.mirrors_mirror _

end CacheAudit
