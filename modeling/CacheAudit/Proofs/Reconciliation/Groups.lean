import CacheAudit.Proofs.Dataset.Loaders
import CacheAudit.Proofs.Disk.Lookup
import CacheAudit.Proofs.Reconciliation.Mirror

/-!
# The keys that a comparison of weights accounts for

Members and weights of the same two sources are compared by two reports, each of which puts the keys
it knows into three groups. The groups of one report are those of the other exactly when every key
of either source has a member: a key without members is known to the plain loaders only.
-/

namespace CacheAudit

open Dataset (Source Table)

/-! ### Three groups of keys -/

/-- Ascending lists with the same strings are equal. -/
theorem eq_of_ascending {xs ys : List String} (hx : xs.Pairwise (· < ·)) (hy : ys.Pairwise (· < ·))
    (h : ∀ x, x ∈ xs ↔ x ∈ ys) : xs = ys :=
  congrArg StringSet.toList (StringSet.ext (s := ⟨xs, hx⟩) (t := ⟨ys, hy⟩) h)

/-- The strings of one list that another one has. -/
def common (xs ys : List String) : List String :=
  xs.filter (· ∈ ys)

/-- The strings of one list that another one lacks. -/
def without (xs ys : List String) : List String :=
  xs.filter (· ∉ ys)

/-- What two lists of keys have in common and what each of them has alone tells them apart from
all others. -/
theorem groups_eq_iff {xs ys xs' ys' : List String} (hx : xs.Pairwise (· < ·))
    (hy : ys.Pairwise (· < ·)) (hx' : xs'.Pairwise (· < ·)) (hy' : ys'.Pairwise (· < ·)) :
    (common xs ys = common xs' ys' ∧ without xs ys = without xs' ys' ∧
      without ys xs = without ys' xs') ↔ xs = xs' ∧ ys = ys' := by
  constructor
  · rintro ⟨hcommon, hleft, hright⟩
    have hcommon : ∀ k, k ∈ xs ∧ k ∈ ys ↔ k ∈ xs' ∧ k ∈ ys' := fun k => by
      simpa [common] using congrArg (k ∈ ·) hcommon
    have hleft : ∀ k, k ∈ xs ∧ k ∉ ys ↔ k ∈ xs' ∧ k ∉ ys' := fun k => by
      simpa [without] using congrArg (k ∈ ·) hleft
    have hright : ∀ k, k ∈ ys ∧ k ∉ xs ↔ k ∈ ys' ∧ k ∉ xs' := fun k => by
      simpa [without] using congrArg (k ∈ ·) hright
    refine ⟨eq_of_ascending hx hx' fun k => ?_, eq_of_ascending hy hy' fun k => ?_⟩
    · have h₁ := hcommon k
      have h₂ := hleft k
      tauto
    · have h₁ := hcommon k
      have h₂ := hright k
      tauto
  · rintro ⟨rfl, rfl⟩
    exact ⟨rfl, rfl, rfl⟩

namespace StringMap

variable {α β : Type}

theorem filter_isNone (m : StringMap α) (n : StringMap β) :
    (m.keys.filter fun k => (n.get? k).isNone) = without m.keys n.keys := by
  refine List.filter_congr fun k _ => ?_
  rw [Bool.eq_iff_iff, Option.isNone_iff_eq_none, decide_eq_true_eq, get?_eq_none_iff]

theorem keys_join (m : StringMap α) (n : StringMap β) :
    (join m n).map Prod.fst = common m.keys n.keys := by
  refine eq_of_ascending (List.pairwise_map.2 (join_ascending m n)) (m.ascending.filter _) ?_
  intro k
  simp only [common, List.mem_filter, decide_eq_true_eq, mem_keys, Option.isSome_iff_exists,
    List.mem_map, Prod.exists, exists_and_right, exists_eq_right, mem_join]
  exact exists_and_exists_comm.symm

end StringMap

/-! ### The groups of the two reports -/

/-- A comparison of weights accounts for the same keys as a comparison of members, group by
group. -/
structure SameGroups (reference candidate : KeyedDataset)
    (weightedReference weightedCandidate : WeightedDataset) (tolerance : Float) : Prop where
  shared : (WeightReconciliation.shared weightedReference weightedCandidate).map Prod.fst =
    (reconcile reference candidate).value.records.map KeyComparison.key
  sharedCount : (reconcileWeights weightedReference weightedCandidate tolerance).value.sharedKeys =
    (reconcile reference candidate).value.sharedCount
  referenceOnly :
    (reconcileWeights weightedReference weightedCandidate tolerance).value.referenceOnlyKeys =
      (reconcile reference candidate).value.referenceOnlyKeys
  candidateOnly :
    (reconcileWeights weightedReference weightedCandidate tolerance).value.candidateOnlyKeys =
      (reconcile reference candidate).value.candidateOnlyKeys

section Groups

variable {reference candidate : KeyedDataset}
  {weightedReference weightedCandidate : WeightedDataset} {tolerance : Float}

/-- The groups of both reports depend on the keys alone. -/
theorem sameGroups_iff :
    SameGroups reference candidate weightedReference weightedCandidate tolerance ↔
      weightedReference.keys = reference.keys ∧ weightedCandidate.keys = candidate.keys := by
  have hshared : (WeightReconciliation.shared weightedReference weightedCandidate).map Prod.fst =
      common weightedReference.keys weightedCandidate.keys := StringMap.keys_join ..
  have hrecords : (reconcile reference candidate).value.records.map KeyComparison.key =
      common reference.keys candidate.keys := by
    show (Reconciliation.of reference candidate).records.map _ = _
    rw [Reconciliation.records_of, List.map_map]
    exact StringMap.keys_join ..
  have hone (x y : KeyedDataset) : (x.keys.filter fun k => (y.get? k).isNone) =
      without x.keys y.keys := StringMap.filter_isNone ..
  have hone' (x y : WeightedDataset) : (x.keys.filter fun k => (y.get? k).isNone) =
      without x.keys y.keys := StringMap.filter_isNone ..
  refine Iff.trans ?_ (groups_eq_iff weightedReference.entries.ascending
    weightedCandidate.entries.ascending reference.entries.ascending candidate.entries.ascending)
  constructor
  · rintro ⟨hs, -, hr, hc⟩
    exact ⟨hshared.symm.trans (hs.trans hrecords), (hone' ..).symm.trans (hr.trans (hone ..)),
      (hone' ..).symm.trans (hc.trans (hone ..))⟩
  · rintro ⟨hs, hr, hc⟩
    have hs := hshared.trans (hs.trans hrecords.symm)
    refine ⟨hs, ?_, (hone' ..).trans (hr.trans (hone ..).symm),
      (hone' ..).trans (hc.trans (hone ..).symm)⟩
    have hlength := congrArg List.length hs
    rw [List.length_map, List.length_map] at hlength
    exact hlength

/-- A weighted dataset has all keys of its keyed one exactly when these have members. -/
theorem WeightedDataset.Follows.keys_eq_iff {w : WeightedDataset} {k : KeyedDataset}
    (h : w.Follows k) : w.keys = k.keys ↔ ∀ key, k.get? key ≠ some ∅ := by
  have hkeyed {key : String} : key ∈ k.keys ↔ ∃ s, k.get? key = some s :=
    StringMap.mem_keys.trans Option.isSome_iff_exists
  constructor
  · intro heq key hempty
    obtain ⟨s, hs, hne⟩ := h.mem_keys.1 (heq ▸ hkeyed.2 ⟨∅, hempty⟩)
    cases hempty.symm.trans hs
    exact hne rfl
  · intro hall
    refine eq_of_ascending w.entries.ascending k.entries.ascending fun key => ?_
    show key ∈ w.keys ↔ key ∈ k.keys
    rw [h.mem_keys, hkeyed]
    refine ⟨fun ⟨s, hs, _⟩ => ⟨s, hs⟩, fun ⟨s, hs⟩ => ⟨s, hs, ?_⟩⟩
    rintro rfl
    exact hall key hs

end Groups

/-- Of two sources that can be read with and without weights, the weighted dataset has just those
keys that have members. So the comparison of the weights accounts for the same keys as that of the
members, group by group, exactly when every key of both sources has a member. -/
theorem weights_account_for_keys_with_members {d : Disk} {source source' : Source}
    {path path' : Path} {label label' : String} {reference candidate : KeyedDataset}
    {weightedReference weightedCandidate : WeightedDataset}
    (hreference : source.keyedAt d path label = .ok reference)
    (hweightedReference : source.weightedAt d path label = .ok weightedReference)
    (hcandidate : source'.keyedAt d path' label' = .ok candidate)
    (hweightedCandidate : source'.weightedAt d path' label' = .ok weightedCandidate)
    (tolerance : Float) :
    (∀ key, key ∈ weightedReference.keys ↔ ∃ s, reference.get? key = some s ∧ s ≠ ∅) ∧
    (∀ key, key ∈ weightedCandidate.keys ↔ ∃ s, candidate.get? key = some s ∧ s ≠ ∅) ∧
    (SameGroups reference candidate weightedReference weightedCandidate tolerance ↔
      (∀ key, reference.get? key ≠ some ∅) ∧ ∀ key, candidate.get? key ≠ some ∅) := by
  have hleft := source.follows_weightedAt hreference hweightedReference
  have hright := source'.follows_weightedAt hcandidate hweightedCandidate
  refine ⟨fun _ => hleft.mem_keys, fun _ => hright.mem_keys, ?_⟩
  rw [sameGroups_iff, hleft.keys_eq_iff, hright.keys_eq_iff]

theorem Dataset.content_of_lone (bytes : Bytes) :
    Dataset.content { entries := [([[99]], .file bytes .epoch)] } ⟨[99]⟩ = .ok bytes := by
  have hsteps : Disk.strictSteps ⟨[99]⟩ = [[99]] := by decide
  rw [Dataset.content, Disk.read_eq (by decide)]
  simp +decide [hsteps, Disk.lookup, Disk.entry?]

/-- A table with one row and one member, which has a weight. -/
theorem weights_account_for_weighted_row :
    let d : Disk := { entries :=
      [([[99]], .file (Text.Utf8.ofString "Date,Cash,AAPL\n2024-01-02,0,25%\n") .epoch)] }
    let source : Source := .table {}
    ∃ k w, (source.keyedAt d ⟨[99]⟩ "reference" = .ok k ∧
        source.weightedAt d ⟨[99]⟩ "reference" = .ok w) ∧
      SameGroups k k w w 0.0 ∧ w.keys = ["2024-01-02"] := by
  intro d source
  have hrows : ({} : Table).rows (Path.display ⟨[99]⟩)
      (Text.Utf8.ofString "Date,Cash,AAPL\n2024-01-02,0,25%\n") =
        .ok [⟨2, "2024-01-02", [("AAPL", "25%")]⟩] := by decide +kernel
  have hcontent := Dataset.content_of_lone
    (Text.Utf8.ofString "Date,Cash,AAPL\n2024-01-02,0,25%\n")
  have hweight : Dataset.weight? "25%".toList = some 25.0 := by decide +kernel
  let k : KeyedDataset := ⟨"reference", ⟨[("2024-01-02", .singleton "AAPL")], by simp⟩⟩
  let w := (WeightedDataset.empty "reference").add "2024-01-02" "AAPL" 25.0
  have hk : source.keyedAt d ⟨[99]⟩ "reference" = .ok k :=
    Dataset.load_eq_ok_iff.2 ⟨_, hcontent, Halt.lift_eq_ok_iff.2 (by decide +kernel)⟩
  have hw : source.weightedAt d ⟨[99]⟩ "reference" = .ok w := by
    refine Dataset.load_eq_ok_iff.2 ⟨_, hcontent, Halt.lift_eq_ok_iff.2 ?_⟩
    have hcell : Table.addCell (Path.display ⟨[99]⟩) ⟨2, "2024-01-02", [("AAPL", "25%")]⟩
        (.empty "reference") ("AAPL", "25%") = .ok w := by
      rw [Table.addCell, hweight]
    rw [Table.weighted, hrows]
    simp only [bind, Except.bind, List.foldlM_cons, List.foldlM_nil, hcell, pure, Except.pure]
  have hmembers : ∀ key, k.get? key ≠ some ∅ := by
    intro key hkey
    have hentry := StringMap.get?_eq_some_iff.1 hkey
    simp [k, StringSet.singleton] at hentry
    cases hentry.2
  obtain ⟨-, -, hgroups⟩ := weights_account_for_keys_with_members hk hw hk hw 0.0
  exact ⟨k, w, ⟨hk, hw⟩, hgroups.2 ⟨hmembers, hmembers⟩, rfl⟩

/-- A table whose one row has no member: compared with itself, its key is a shared one as long as
no weights are asked for. -/
theorem weights_lose_row_without_members :
    let d : Disk := { entries :=
      [([[99]], .file (Text.Utf8.ofString "Date,Cash,AAPL\n2024-01-03,0,-\n") .epoch)] }
    let source : Source := .table {}
    ∃ k w, (source.keyedAt d ⟨[99]⟩ "reference" = .ok k ∧
        source.weightedAt d ⟨[99]⟩ "reference" = .ok w) ∧
      (reconcile k k).value.records.map KeyComparison.key = ["2024-01-03"] ∧
      WeightReconciliation.shared w w = [] ∧ ¬SameGroups k k w w 0.0 := by
  intro d source
  have hrows : ({} : Table).rows (Path.display ⟨[99]⟩)
      (Text.Utf8.ofString "Date,Cash,AAPL\n2024-01-03,0,-\n") =
        .ok [⟨2, "2024-01-03", []⟩] := by decide +kernel
  have hcontent := Dataset.content_of_lone
    (Text.Utf8.ofString "Date,Cash,AAPL\n2024-01-03,0,-\n")
  have hk : source.keyedAt d ⟨[99]⟩ "reference" =
      .ok ⟨"reference", ⟨[("2024-01-03", ∅)], by simp⟩⟩ :=
    Dataset.load_eq_ok_iff.2 ⟨_, hcontent, Halt.lift_eq_ok_iff.2 (by decide +kernel)⟩
  have hw : source.weightedAt d ⟨[99]⟩ "reference" = .ok ⟨"reference", ∅⟩ := by
    refine Dataset.load_eq_ok_iff.2 ⟨_, hcontent, Halt.lift_eq_ok_iff.2 ?_⟩
    rw [Table.weighted, hrows]
    rfl
  refine ⟨_, _, ⟨hk, hw⟩, by decide +kernel, rfl, ?_⟩
  intro h
  have hkeys := (sameGroups_iff.1 h).1
  cases hkeys

end CacheAudit
