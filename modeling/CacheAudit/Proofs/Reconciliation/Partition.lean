import CacheAudit.Proofs.Ordered.Finite
import CacheAudit.Proofs.Snapshot.Difference
import CacheAudit.Reconciliation.Members

/-!
# A reconciliation accounts for every key and every member

The records and the two lists of one-sided keys come from separate passes over the datasets. They
are shown to be one partition of all keys, in order and without a key dropped, and each record to
be the comparison of its two sets as sets: keys without members are no exception.
-/

namespace CacheAudit

open SnapshotDiff (AscendsInBytes ascendsInBytes_of_pairwise nodup_of_ascending)

namespace KeyComparison

/-- The comparison says of its two sets what set algebra says of them. -/
structure IsExact (c : KeyComparison) : Prop where
  missing_eq : c.missing.toFinset = c.reference.toFinset \ c.candidate.toFinset
  extra_eq : c.extra.toFinset = c.candidate.toFinset \ c.reference.toFinset
  /-- The members are those on either side alone and those on both. -/
  sizes : c.missing.size + c.extra.size + (c.reference.toFinset ∩ c.candidate.toFinset).card =
    (c.reference.toFinset ∪ c.candidate.toFinset).card
  percent_none_iff : c.percentDifference = none ↔ c.reference = ∅ ∧ c.candidate = ∅
  /-- The share is computed from the exact sizes and rounded once. -/
  percent_eq : ¬(c.reference = ∅ ∧ c.candidate = ∅) →
    c.percentDifference = some (Decimal.roundHundredths
      (Decimal.ofNat (c.missing.size + c.extra.size) /
        Decimal.ofNat (c.reference.toFinset ∪ c.candidate.toFinset).card * 100.0))
  isMatch_iff : c.isMatch = true ↔ c.reference = c.candidate

theorem union_eq_empty_iff {s t : StringSet} : s.union t = ∅ ↔ s = ∅ ∧ t = ∅ := by
  rw [← StringSet.size_eq_zero_iff, ← StringSet.size_eq_zero_iff, ← StringSet.size_eq_zero_iff,
    ← StringSet.card_toFinset, ← StringSet.card_toFinset, ← StringSet.card_toFinset,
    StringSet.toFinset_union]
  simp [Finset.union_eq_empty]

/-- Two sets are equal when neither has a member that the other lacks. -/
theorem isMatch_of (key : String) (s t : StringSet) : (of key s t).isMatch = true ↔ s = t := by
  have hempty : (of key s t).isMatch = true ↔ s.difference t = ∅ ∧ t.difference s = ∅ := by
    rw [isMatch, Bool.and_eq_true, StringSet.isEmpty_iff, StringSet.isEmpty_iff]
    rfl
  rw [hempty]
  constructor
  · rintro ⟨hmissing, hextra⟩
    refine StringSet.ext fun x => ⟨fun hs => ?_, fun ht => ?_⟩
    · by_contra ht
      have hx : x ∈ s.difference t := StringSet.mem_difference.2 ⟨hs, ht⟩
      exact List.not_mem_nil (hmissing ▸ hx)
    · by_contra hs
      have hx : x ∈ t.difference s := StringSet.mem_difference.2 ⟨ht, hs⟩
      exact List.not_mem_nil (hextra ▸ hx)
  · rintro rfl
    have hself : s.difference s = ∅ :=
      StringSet.ext fun x => by
        rw [StringSet.mem_difference]
        exact ⟨fun h => absurd h.1 h.2, fun h => absurd h List.not_mem_nil⟩
    exact ⟨hself, hself⟩

theorem sizes_of (s t : StringSet) :
    (s.difference t).size + (t.difference s).size + (s.toFinset ∩ t.toFinset).card =
      (s.toFinset ∪ t.toFinset).card := by
  rw [← StringSet.card_toFinset, ← StringSet.card_toFinset, StringSet.toFinset_difference,
    StringSet.toFinset_difference]
  have hs := Finset.card_sdiff_add_card_inter s.toFinset t.toFinset
  have hunion := Finset.card_sdiff_add_card t.toFinset s.toFinset
  rw [Finset.union_comm] at hunion
  omega

theorem isExact_of (key : String) (s t : StringSet) : (of key s t).IsExact where
  missing_eq := StringSet.toFinset_difference s t
  extra_eq := StringSet.toFinset_difference t s
  sizes := sizes_of s t
  percent_none_iff := by
    rw [← union_eq_empty_iff, ← StringSet.size_eq_zero_iff]
    simp [of]
  percent_eq := by
    intro hne
    have hsize : (s.union t).size ≠ 0 := fun h =>
      hne (union_eq_empty_iff.1 (StringSet.size_eq_zero_iff.1 h))
    show (if (s.union t).size = 0 then none else _) = _
    rw [if_neg hsize, Decimal.percentage, ← StringSet.toFinset_union, StringSet.card_toFinset]
    rfl
  isMatch_iff := isMatch_of key s t

end KeyComparison

namespace Reconciliation

/-- The report has every key of either dataset in the one place where it belongs. -/
structure Accounts (r : Reconciliation) (reference candidate : KeyedDataset) : Prop where
  /-- There is one record for each shared key, in the order of the keys' bytes. -/
  records_ascend : AscendsInBytes (r.records.map KeyComparison.key)
  mem_records : ∀ k, k ∈ r.records.map KeyComparison.key ↔ k ∈ reference.keys ∧ k ∈ candidate.keys
  /-- A record compares the sets that the two datasets have under its key. -/
  of_record : ∀ c ∈ r.records, reference.get? c.key = some c.reference ∧
    candidate.get? c.key = some c.candidate ∧ c.IsExact
  referenceOnly_ascend : AscendsInBytes r.referenceOnlyKeys
  mem_referenceOnly : ∀ k, k ∈ r.referenceOnlyKeys ↔ k ∈ reference.keys ∧ k ∉ candidate.keys
  candidateOnly_ascend : AscendsInBytes r.candidateOnlyKeys
  mem_candidateOnly : ∀ k, k ∈ r.candidateOnlyKeys ↔ k ∈ candidate.keys ∧ k ∉ reference.keys
  /-- The three groups are disjoint and together they have all keys. -/
  partition :
    let groups := r.records.map KeyComparison.key ++ r.referenceOnlyKeys ++ r.candidateOnlyKeys
    groups.Nodup ∧ groups.toFinset = reference.keys.toFinset ∪ candidate.keys.toFinset
  counts : r.matchingCount + r.mismatchCount = r.sharedCount
  mismatchCount_eq : r.mismatchCount = r.mismatches.length
  mismatches_eq : r.mismatches = r.records.filter fun c => decide (c.reference ≠ c.candidate)

variable (reference candidate : KeyedDataset)

theorem isSome_get? {d : KeyedDataset} {k : String} : (d.get? k).isSome = true ↔ k ∈ d.keys :=
  StringMap.mem_keys.symm

theorem isNone_get? {d : KeyedDataset} {k : String} : (d.get? k).isNone = true ↔ k ∉ d.keys := by
  rw [← isSome_get?, Option.isNone_iff_eq_none, Option.not_isSome_iff_eq_none]

/-- The records follow the reference: its keys, those that the candidate lacks left out. -/
theorem keys_records : (of reference candidate).records.map KeyComparison.key =
    reference.keys.filter fun k => (candidate.get? k).isSome := by
  show (reference.entries.entries.filterMap _).map _ = (reference.entries.entries.map _).filter _
  induction reference.entries.entries with
  | nil => rfl
  | cons e rest ih => cases h : candidate.get? e.1 <;> simp [h, ih, KeyComparison.of]

theorem of_mem_records {c : KeyComparison} (hc : c ∈ (of reference candidate).records) :
    reference.get? c.key = some c.reference ∧ candidate.get? c.key = some c.candidate ∧
      c.IsExact := by
  obtain ⟨⟨k, s⟩, hmem, heq⟩ := List.mem_filterMap.1 hc
  obtain ⟨t, ht, rfl⟩ := Option.map_eq_some_iff.1 heq
  exact ⟨StringMap.get?_eq_some_iff.2 hmem, ht, KeyComparison.isExact_of k s t⟩

/-- A record is a match or a mismatch. -/
theorem length_mismatches_add (r : Reconciliation) :
    r.matchingCount + r.mismatches.length = r.sharedCount := by
  have h := List.length_eq_length_filter_add (l := r.records) KeyComparison.isMatch
  exact h.symm

theorem accounts_of : (of reference candidate).Accounts reference candidate := by
  have hrecords : ∀ k, k ∈ (of reference candidate).records.map KeyComparison.key ↔
      k ∈ reference.keys ∧ k ∈ candidate.keys := fun k => by
    rw [keys_records, List.mem_filter, isSome_get?]
  have hreference : ∀ k, k ∈ (of reference candidate).referenceOnlyKeys ↔
      k ∈ reference.keys ∧ k ∉ candidate.keys := fun k => by
    rw [← isNone_get?]
    exact List.mem_filter
  have hcandidate : ∀ k, k ∈ (of reference candidate).candidateOnlyKeys ↔
      k ∈ candidate.keys ∧ k ∉ reference.keys := fun k => by
    rw [← isNone_get?]
    exact List.mem_filter
  have hsorted : ((of reference candidate).records.map KeyComparison.key).Pairwise (· < ·) := by
    rw [keys_records]
    exact reference.entries.ascending.filter _
  have hreferenceSorted : (of reference candidate).referenceOnlyKeys.Pairwise (· < ·) :=
    reference.entries.ascending.filter _
  have hcandidateSorted : (of reference candidate).candidateOnlyKeys.Pairwise (· < ·) :=
    candidate.entries.ascending.filter _
  have hlength := length_mismatches_add (of reference candidate)
  refine ⟨ascendsInBytes_of_pairwise hsorted, hrecords,
    fun c hc => of_mem_records reference candidate hc,
    ascendsInBytes_of_pairwise hreferenceSorted, hreference,
    ascendsInBytes_of_pairwise hcandidateSorted, hcandidate, ⟨?_, ?_⟩, ?_, ?_, ?_⟩
  · -- a key of two groups would be in a dataset and not in it
    refine ((nodup_of_ascending hsorted).append (nodup_of_ascending hreferenceSorted) ?_).append
      (nodup_of_ascending hcandidateSorted) ?_
    · intro k hk hk'
      exact ((hreference k).1 hk').2 ((hrecords k).1 hk).2
    · intro k hk hk'
      rcases List.mem_append.1 hk with hk | hk
      · exact ((hcandidate k).1 hk').2 ((hrecords k).1 hk).1
      · exact ((hcandidate k).1 hk').2 ((hreference k).1 hk).1
  · ext k
    simp only [List.mem_toFinset, List.mem_append, Finset.mem_union, hrecords, hreference,
      hcandidate]
    tauto
  · rw [mismatchCount]
    omega
  · rw [mismatchCount]
    omega
  · refine List.filter_congr fun c hc => ?_
    have hmatch := (of_mem_records reference candidate hc).2.2.isMatch_iff
    by_cases heq : c.reference = c.candidate
    · simp [heq, hmatch.2 heq]
    · simp [heq, mt hmatch.1 heq]

end Reconciliation

/-- A reconciliation has one record for each shared key and each one-sided key in its list, all in
ascending order: the groups partition the keys of both datasets. Each record compares its two sets
exactly, and the mismatches are the records with different sets. -/
theorem reconcile_accounts_for_all (reference candidate : KeyedDataset) :
    (reconcile reference candidate).value.Accounts reference candidate :=
  Reconciliation.accounts_of reference candidate

end CacheAudit
