import CacheAudit.Proofs.Reconciliation.FiniteWeights
import CacheAudit.Proofs.Reconciliation.Groups

/-!
# Weights compared and members compared

Dropping the weights of two datasets leaves two keyed ones, which have their own comparison. It
finds the same keys on both sides and on one side as the comparison of the weights. A record of the
former says which members are on one side only; these have a delta whatever they weigh, and of the
members on both sides just those have one whose weights are too far apart.
-/

namespace CacheAudit

open SnapshotDiff (AscendsInBytes ascendsInBytes_of_pairwise)

/-! ### Deltas of one key -/

namespace WeightDelta

variable {tolerance : Float} {r c : StringMap Float}

theorem mem_between_iff {d : WeightDelta} :
    d ∈ between tolerance r c ↔ (d.member ∈ r.keySet ∨ d.member ∈ c.keySet) ∧
      d.reference = r.get? d.member ∧ d.candidate = c.get? d.member ∧
        differs tolerance d.reference d.candidate = true := by
  constructor
  · intro h
    obtain ⟨hreference, hcandidate⟩ := weights_of_mem_between h
    obtain ⟨member, hmember, hd⟩ := List.mem_filterMap.1 h
    dsimp only at hd
    split at hd
    · rename_i hdiffers
      cases hd
      exact ⟨StringSet.mem_union.1 hmember, hreference, hcandidate, hdiffers⟩
    · cases hd
  · rintro ⟨hmember, hreference, hcandidate, hdiffers⟩
    refine List.mem_filterMap.2 ⟨d.member, StringSet.mem_union.2 hmember, ?_⟩
    dsimp only
    rw [← hreference, ← hcandidate, if_pos hdiffers]

/-- The deltas come in the order of their members, each of which has one at most. -/
theorem between_ascending (tolerance : Float) (r c : StringMap Float) :
    ((between tolerance r c).map member).Pairwise (· < ·) := by
  refine List.pairwise_map.2 (List.Pairwise.filterMap _ ?_ (r.keySet.union c.keySet).ascending)
  intro member member' hlt d hd d' hd'
  dsimp only at hd hd'
  split at hd <;> cases hd
  split at hd' <;> cases hd'
  exact hlt

end WeightDelta

/-- The deltas of a shared key are what the comparison of its members and the weights of these
call for. -/
structure KeyComparison.Weighs (c : KeyComparison) (reference candidate : WeightedDataset)
    (tolerance : Float) (deltas : List WeightDelta) : Prop where
  /-- The members ascend in their bytes, so none has two deltas. -/
  ascends : AscendsInBytes (deltas.map WeightDelta.member)
  of_missing : ∀ m ∈ c.missing, ∃ x, reference.weight? c.key m = some x ∧
    ⟨m, some x, none⟩ ∈ deltas
  of_extra : ∀ m ∈ c.extra, ∃ y, candidate.weight? c.key m = some y ∧
    ⟨m, none, some y⟩ ∈ deltas
  of_common : ∀ m, m ∈ c.reference → m ∈ c.candidate → ∃ x y,
    reference.weight? c.key m = some x ∧ candidate.weight? c.key m = some y ∧
      (⟨m, some x, some y⟩ ∈ deltas ↔ (x - y).abs > tolerance)
  /-- There are no other deltas. -/
  kinds : ∀ d ∈ deltas, (d.member ∈ c.missing ∧ d.candidate = none) ∨
    (d.member ∈ c.extra ∧ d.reference = none) ∨
    (d.member ∈ c.reference ∧ d.member ∈ c.candidate ∧
      ∃ x y, d.reference = some x ∧ d.candidate = some y)

/-- The comparison of a key's members, taken from the weights of these, and the deltas of its
weights. -/
theorem KeyComparison.weighs_between {reference candidate : WeightedDataset} {key : String}
    {r c : StringMap Float} (hr : reference.get? key = some r) (hc : candidate.get? key = some c)
    (tolerance : Float) : (of key r.keySet c.keySet).Weighs reference candidate tolerance
      (WeightDelta.between tolerance r c) := by
  have hreference (m : String) : reference.weight? key m = r.get? m := by
    rw [WeightedDataset.weight?, hr, Option.bind_some]
  have hcandidate (m : String) : candidate.weight? key m = c.get? m := by
    rw [WeightedDataset.weight?, hc, Option.bind_some]
  have hweighed {weights : StringMap Float} {m : String} (hm : m ∈ weights.keySet) :
      ∃ x, weights.get? m = some x := Option.isSome_iff_exists.1 (StringMap.mem_keys.1 hm)
  have hlacks {weights : StringMap Float} {m : String} (hm : m ∉ weights.keySet) :
      weights.get? m = none := StringMap.get?_eq_none_iff.2 hm
  refine ⟨ascendsInBytes_of_pairwise (WeightDelta.between_ascending tolerance r c), ?missing,
    ?extra, ?common, ?kinds⟩
  case missing =>
    intro m hm
    obtain ⟨hleft, hright⟩ := StringSet.mem_difference.1 hm
    obtain ⟨x, hx⟩ := hweighed hleft
    refine ⟨x, (hreference m).trans hx, ?_⟩
    exact WeightDelta.mem_between_iff.2 ⟨.inl hleft, hx.symm, (hlacks hright).symm, rfl⟩
  case extra =>
    intro m hm
    obtain ⟨hright, hleft⟩ := StringSet.mem_difference.1 hm
    obtain ⟨y, hy⟩ := hweighed hright
    refine ⟨y, (hcandidate m).trans hy, ?_⟩
    exact WeightDelta.mem_between_iff.2 ⟨.inr hright, (hlacks hleft).symm, hy.symm, rfl⟩
  case common =>
    intro m hleft hright
    obtain ⟨x, hx⟩ := hweighed hleft
    obtain ⟨y, hy⟩ := hweighed hright
    refine ⟨x, y, (hreference m).trans hx, (hcandidate m).trans hy, ?_⟩
    rw [WeightDelta.mem_between_iff]
    constructor
    · rintro ⟨-, -, -, hdiffers⟩
      exact of_decide_eq_true hdiffers
    · intro happart
      exact ⟨.inl hleft, hx.symm, hy.symm, decide_eq_true happart⟩
  case kinds =>
    intro d hd
    obtain ⟨hmember, hdreference, hdcandidate, -⟩ := WeightDelta.mem_between_iff.1 hd
    by_cases hleft : d.member ∈ r.keySet
    · by_cases hright : d.member ∈ c.keySet
      · obtain ⟨x, hx⟩ := hweighed hleft
        obtain ⟨y, hy⟩ := hweighed hright
        exact .inr (.inr ⟨hleft, hright, x, y, hdreference.trans hx, hdcandidate.trans hy⟩)
      · have hmissing : d.member ∈ r.keySet.difference c.keySet :=
          StringSet.mem_difference.2 ⟨hleft, hright⟩
        exact .inl ⟨hmissing, hdcandidate.trans (hlacks hright)⟩
    · have hright := hmember.resolve_left hleft
      have hextra : d.member ∈ c.keySet.difference r.keySet :=
        StringSet.mem_difference.2 ⟨hright, hleft⟩
      exact .inr (.inl ⟨hextra, hdreference.trans (hlacks hleft)⟩)

/-- A key with a member on one side only has a delta. -/
theorem KeyComparison.Weighs.ne_nil {c : KeyComparison} {reference candidate : WeightedDataset}
    {tolerance : Float} {deltas : List WeightDelta}
    (h : c.Weighs reference candidate tolerance deltas) (hc : c.isMatch = false) :
    deltas ≠ [] := by
  rw [isMatch, Bool.and_eq_false_iff] at hc
  rcases hc with hmissing | hextra
  · obtain ⟨m, hm⟩ := List.isEmpty_eq_false_iff_exists_mem.1 hmissing
    obtain ⟨x, -, hdelta⟩ := h.of_missing m hm
    exact List.ne_nil_of_mem hdelta
  · obtain ⟨m, hm⟩ := List.isEmpty_eq_false_iff_exists_mem.1 hextra
    obtain ⟨y, -, hdelta⟩ := h.of_extra m hm
    exact List.ne_nil_of_mem hdelta

/-! ### The two reports -/

theorem StringMap.join_mapValues {α β α' β' : Type} (f : α → α') (g : β → β') (m : StringMap α)
    (n : StringMap β) :
    join (m.mapValues f) (n.mapValues g) = (join m n).map fun e => (e.1, f e.2.1, g e.2.2) := by
  have hlookup (k : String) : (n.mapValues g).get? k = (n.get? k).map g :=
    get?_mapValues n g k
  simp only [join, mapValues, List.filterMap_map, List.map_filterMap, Option.map_map]
  refine List.filterMap_congr fun e _ => ?_
  have hvalue := hlookup e.1
  simp only [mapValues] at hvalue
  simp only [Function.comp_apply, hvalue, Option.map_map]
  rfl

namespace WeightedDataset

variable (reference candidate : WeightedDataset) (tolerance : Float)

theorem keys_toKeyed (d : WeightedDataset) : d.toKeyed.keys = d.keys := by
  simp [toKeyed, KeyedDataset.keys, keys, StringMap.keys, StringMap.mapValues]

/-- The records of the members are comparisons of the pairs of weights of the shared keys. -/
theorem records_toKeyed : (reconcile reference.toKeyed candidate.toKeyed).value.records =
    (WeightReconciliation.shared reference candidate).map fun e =>
      .of e.1 e.2.1.keySet e.2.2.keySet := by
  show (Reconciliation.of reference.toKeyed candidate.toKeyed).records = _
  rw [Reconciliation.records_of, toKeyed, toKeyed, StringMap.join_mapValues, List.map_map]
  rfl

theorem sameGroups_toKeyed :
    SameGroups reference.toKeyed candidate.toKeyed reference candidate tolerance :=
  sameGroups_iff.2 ⟨reference.keys_toKeyed.symm, candidate.keys_toKeyed.symm⟩

end WeightedDataset

namespace WeightReconciliation

variable {reference candidate : WeightedDataset} {tolerance : Float}

/-- A report on weights agrees with one on the members that have them. -/
structure Agrees (report : WeightReconciliation) (members : Reconciliation)
    (reference candidate : WeightedDataset) (tolerance : Float) : Prop where
  shared_eq : report.sharedKeys = members.records.length
  referenceOnly_eq : report.referenceOnlyKeys = members.referenceOnlyKeys
  candidateOnly_eq : report.candidateOnlyKeys = members.candidateOnlyKeys
  /-- The deltas of a shared key are those that its record and the weights call for, and the key is
  listed with them, once, if and only if there are any. -/
  of_record : ∀ c ∈ members.records, ∃ deltas, c.Weighs reference candidate tolerance deltas ∧
    ∀ m, m ∈ report.mismatches ∧ m.key = c.key ↔ deltas ≠ [] ∧ m = ⟨c.key, deltas⟩
  mismatches_ascend : AscendsInBytes (report.mismatches.map WeightMismatch.key)
  keys_shared : ∀ m ∈ report.mismatches, ∃ c ∈ members.records, c.key = m.key
  /-- A key whose members differ is one whose weights differ. -/
  of_mismatch : ∀ c ∈ members.mismatches, ∃ m ∈ report.mismatches, m.key = c.key

/-- The mismatch of a shared key lists its deltas, unless there are none. -/
theorem mem_mismatches_of_key {key : String} {r c : StringMap Float}
    (hr : reference.get? key = some r) (hc : candidate.get? key = some c) (m : WeightMismatch) :
    m ∈ (of reference candidate tolerance).mismatches ∧ m.key = key ↔
      WeightDelta.between tolerance r c ≠ [] ∧ m = ⟨key, WeightDelta.between tolerance r c⟩ := by
  rw [mem_mismatches]
  constructor
  · rintro ⟨⟨hne, r', c', hr', hc', hdeltas⟩, rfl⟩
    cases hr.symm.trans hr'
    cases hc.symm.trans hc'
    rw [← hdeltas]
    exact ⟨hne, rfl⟩
  · rintro ⟨hne, rfl⟩
    exact ⟨⟨hne, r, c, hr, hc, rfl⟩, rfl⟩

theorem mismatches_ascending :
    ((of reference candidate tolerance).mismatches.map WeightMismatch.key).Pairwise (· < ·) := by
  show (((StringMap.join reference.entries candidate.entries).filterMap
    (mismatch? tolerance)).map WeightMismatch.key).Pairwise (· < ·)
  refine List.pairwise_map.2 (List.Pairwise.filterMap _ ?_ (StringMap.join_ascending ..))
  intro e f hlt m hm m' hm'
  simp only [mismatch?] at hm hm'
  split at hm <;> cases hm
  split at hm' <;> cases hm'
  exact hlt

/-- The comparison of two weighted datasets agrees, for every tolerance, with that of their members:
it knows the same keys on both sides and on one side, has a delta for every member on one side only
and for every member on both sides whose weights are too far apart, in the order of the members and
for no other, and lists the keys that have deltas in their order. -/
theorem agrees_with_members (reference candidate : WeightedDataset) (tolerance : Float) :
    (reconcileWeights reference candidate tolerance).value.Agrees
      (reconcile reference.toKeyed candidate.toKeyed).value reference candidate tolerance := by
  have hgroups := WeightedDataset.sameGroups_toKeyed reference candidate tolerance
  have hrecord (c : KeyComparison)
      (hc : c ∈ (reconcile reference.toKeyed candidate.toKeyed).value.records) :
      ∃ r s, reference.get? c.key = some r ∧ candidate.get? c.key = some s ∧
        c.Weighs reference candidate tolerance (WeightDelta.between tolerance r s) := by
    rw [WeightedDataset.records_toKeyed] at hc
    obtain ⟨⟨key, r, s⟩, hshared, rfl⟩ := List.mem_map.1 hc
    obtain ⟨hr, hs⟩ := StringMap.mem_join.1 hshared
    exact ⟨r, s, hr, hs, KeyComparison.weighs_between hr hs tolerance⟩
  refine ⟨hgroups.sharedCount, hgroups.referenceOnly, hgroups.candidateOnly, ?record,
    ascendsInBytes_of_pairwise mismatches_ascending, ?shared, ?mismatch⟩
  case record =>
    intro c hc
    obtain ⟨r, s, hr, hs, hweighs⟩ := hrecord c hc
    exact ⟨_, hweighs, mem_mismatches_of_key hr hs⟩
  case shared =>
    intro m hm
    obtain ⟨-, r, s, hr, hs, -⟩ := mem_mismatches.1 hm
    rw [WeightedDataset.records_toKeyed]
    exact ⟨_, List.mem_map_of_mem (StringMap.mem_join.2 ⟨hr, hs⟩), rfl⟩
  case mismatch =>
    intro c hc
    obtain ⟨hmem, hdiffer⟩ := List.mem_filter.1 hc
    obtain ⟨r, s, hr, hs, hweighs⟩ := hrecord c hmem
    have hne := hweighs.ne_nil (by simpa using hdiffer)
    exact ⟨_, (mem_mismatches_of_key hr hs _).2 ⟨hne, rfl⟩⟩

end WeightReconciliation

end CacheAudit
