import CacheAudit.Proofs.Decimal.Percentage
import CacheAudit.Proofs.Reconciliation.Partition
import CacheAudit.Reconciliation.Weights

/-!
# The percentages of a reconciliation

A comparison states the share of the members on one side only, and a report the share of the keys
that differ. Both are parts of a whole, counted exactly, so both are the exact percentage rounded
once, apart from those that lie halfway between two numbers with two decimals: there the errors of
the steps before decide, and some percentages are rounded down.
-/

namespace CacheAudit

open Decimal

/-- A report states the percentage that `part` is of `whole`. -/
def States (stated : Option Float) (part whole : Nat) : Prop :=
  ∃ x, stated = some x ∧ IsPercentage x part whole

theorem states_percentage {part whole : Nat} (hle : part ≤ whole) (hpos : 0 < whole)
    (hlt : whole < 2 ^ 53) : States (some (percentage part whole)) part whole :=
  ⟨_, rfl, isPercentage hle hpos hlt⟩

namespace KeyComparison

/-- The members on one side only are counted on each side. -/
theorem sizes_sdiff (s t : StringSet) : (s.difference t).size + (t.difference s).size =
    (s.toFinset \ t.toFinset).card + (t.toFinset \ s.toFinset).card := by
  rw [← StringSet.card_toFinset, ← StringSet.card_toFinset, StringSet.toFinset_difference,
    StringSet.toFinset_difference]

theorem percentDifference_of (key : String) {s t : StringSet} (h : ¬(s = ∅ ∧ t = ∅)) :
    (of key s t).percentDifference =
      some (percentage ((s.toFinset \ t.toFinset).card + (t.toFinset \ s.toFinset).card)
        (s.toFinset ∪ t.toFinset).card) := by
  rw [(isExact_of key s t).percent_eq h, ← sizes_sdiff]
  rfl

end KeyComparison

theorem Reconciliation.mismatchCount_eq_length (r : Reconciliation) :
    r.mismatchCount = r.mismatches.length := by
  have hlength := r.length_mismatches_add
  rw [mismatchCount]
  omega

/-- There is at most one mismatch for each shared key. -/
theorem WeightReconciliation.length_mismatches_le (reference candidate : WeightedDataset)
    (tolerance : Float) :
    (of reference candidate tolerance).mismatches.length ≤
      (of reference candidate tolerance).sharedKeys :=
  List.length_filterMap_le ..

/-- The share of the members on one side only among all members of a key, and that of the keys that
differ among the shared ones, are each stated when there are any members or shared keys. What is
stated is the double nearest to the exact percentage, rounded to two decimals, if and only if that
percentage does not lie halfway between two numbers with two decimals, or lies at one of the halves
that go up. These are the same for every size, so there are ten thousand halves to look at; all that
go down belong to multiples of 160. -/
theorem percentages_exact_unless_halfway (key : String) (s t : StringSet) (r : Reconciliation)
    (reference candidate : WeightedDataset) (tolerance : Float) :
    let w := (reconcileWeights reference candidate tolerance).value
    (¬(s = ∅ ∧ t = ∅) → (s.toFinset ∪ t.toFinset).card < 2 ^ 53 →
      States (KeyComparison.of key s t).percentDifference
        ((s.toFinset \ t.toFinset).card + (t.toFinset \ s.toFinset).card)
        (s.toFinset ∪ t.toFinset).card) ∧
    (r.records ≠ [] → r.records.length < 2 ^ 53 →
      States r.mismatchPercentage r.mismatches.length r.records.length) ∧
    (w.sharedKeys ≠ 0 → w.sharedKeys < 2 ^ 53 →
      States w.mismatchPercentage w.mismatches.length w.sharedKeys) := by
  intro w
  refine ⟨?members, ?keys, ?weights⟩
  case members =>
    intro hne hlt
    rw [KeyComparison.percentDifference_of key hne]
    have hsizes := KeyComparison.sizes_of s t
    rw [KeyComparison.sizes_sdiff] at hsizes
    refine states_percentage (by omega) ?_ hlt
    rw [← StringSet.toFinset_union, StringSet.card_toFinset]
    exact Nat.pos_of_ne_zero fun hzero =>
      hne (KeyComparison.union_eq_empty_iff.1 (StringSet.size_eq_zero_iff.1 hzero))
  case keys =>
    intro hne hlt
    have hempty : r.records.isEmpty = false := by simpa using hne
    rw [Reconciliation.mismatchPercentage, hempty, if_neg Bool.false_ne_true,
      r.mismatchCount_eq_length]
    exact states_percentage (List.length_filter_le ..) (List.length_pos_iff.2 hne) hlt
  case weights =>
    intro hne hlt
    rw [WeightReconciliation.mismatchPercentage, if_neg hne]
    exact states_percentage (WeightReconciliation.length_mismatches_le ..)
      (Nat.pos_of_ne_zero hne) hlt

/-- One member of three is on one side only, one key of two differs, and no weight does. -/
theorem percentages_exact_of_thirds :
    (∃ x, (KeyComparison.of "k" (.ofList ["a", "b", "c"]) (.ofList ["a", "b"])).percentDifference =
      some x ∧ IsNearest x (3333 / 100)) ∧
    (∃ x, Reconciliation.mismatchPercentage
      ⟨"r", "c", [.of "j" (.ofList ["a"]) ∅, .of "k" ∅ ∅], [], []⟩ = some x ∧
        IsNearest x (5000 / 100)) ∧
    (∃ x, (reconcileWeights ⟨"r", .ofList [("k", ∅)]⟩ ⟨"c", .ofList [("k", ∅)]⟩
      0.0).value.mismatchPercentage = some x ∧ IsNearest x (0 / 100)) := by
  obtain ⟨hmembers, hkeys, hweights⟩ :=
    percentages_exact_unless_halfway "k" (.ofList ["a", "b", "c"]) (.ofList ["a", "b"])
      ⟨"r", "c", [.of "j" (.ofList ["a"]) ∅, .of "k" ∅ ∅], [], []⟩
      ⟨"r", .ofList [("k", ∅)]⟩ ⟨"c", .ofList [("k", ∅)]⟩ 0.0
  refine ⟨?members, ?keys, ?weights⟩
  case members =>
    obtain ⟨x, hx, hpercentage⟩ : States _ 1 3 := hmembers (by decide) (by decide)
    have hnearest := hpercentage.isNearest_of_not_dvd (by decide) (by decide)
    have hexact : exactPercentage 1 3 = 3333 / 100 := by norm_num [exactPercentage, round_eq]
    exact ⟨x, hx, hexact ▸ hnearest⟩
  case keys =>
    obtain ⟨x, hx, hpercentage⟩ : States _ 1 2 := hkeys (by decide) (by decide)
    have hnearest := hpercentage.isNearest_of_not_dvd (by decide) (by decide)
    have hexact : exactPercentage 1 2 = 5000 / 100 := by norm_num [exactPercentage, round_eq]
    exact ⟨x, hx, hexact ▸ hnearest⟩
  case weights =>
    obtain ⟨x, hx, hpercentage⟩ : States _ 0 1 := hweights (by decide) (by decide)
    have hnearest := hpercentage.isNearest_of_not_dvd (by decide) (by decide)
    have hexact : exactPercentage 0 1 = 0 / 100 := by norm_num [exactPercentage, round_eq]
    exact ⟨x, hx, hexact ▸ hnearest⟩

/-- The set of the numerals below `n`. -/
def numerals (n : Nat) : StringSet :=
  .ofList ((List.range n).map Nat.repr)

theorem toFinset_numerals (n : Nat) : (numerals n).toFinset = (Finset.range n).image Nat.repr := by
  ext x
  simp [numerals]

theorem card_numerals (n : Nat) : (numerals n).toFinset.card = n := by
  have hread : Function.LeftInverse (fun s : String => Nat.ofDigitChars 10 s.toList 0) Nat.repr :=
    fun n => by simp [Nat.repr, Nat.ofDigitChars_toDigits]
  rw [toFinset_numerals, Finset.card_image_of_injective _ hread.injective, Finset.card_range]

theorem numerals_subset {m n : Nat} (h : m ≤ n) :
    (numerals m).toFinset ⊆ (numerals n).toFinset := by
  rw [toFinset_numerals, toFinset_numerals]
  exact Finset.image_subset_image (Finset.range_subset_range.2 h)

/-- When 23 of 160 members are on one side only, or 23 of 160 keys differ, the exact percentage is
14.375, and halves go up. What is stated is 14.37, since the product with a hundred twice over
comes out a little below 1437.5. -/
theorem percentage_of_halfway_goes_down :
    let s := numerals 160
    let t := numerals 137
    ((s.toFinset \ t.toFinset).card + (t.toFinset \ s.toFinset).card = 23 ∧
      (s.toFinset ∪ t.toFinset).card = 160 ∧
      (KeyComparison.of "k" s t).percentDifference = some 14.37) ∧
    Reconciliation.mismatchPercentage ⟨"r", "c", (List.range 160).map fun i =>
      .of i.repr (.ofList ["a"]) (if i < 137 then .ofList ["a"] else ∅), [], []⟩ = some 14.37 ∧
    exactPercentage 23 160 = 1438 / 100 ∧ ¬IsNearest 14.37 (exactPercentage 23 160) := by
  intro s t
  have hsubset : t.toFinset ⊆ s.toFinset := numerals_subset (by decide)
  have hpart : (s.toFinset \ t.toFinset).card + (t.toFinset \ s.toFinset).card = 23 := by
    rw [Finset.card_sdiff_of_subset hsubset, Finset.sdiff_eq_empty_iff_subset.2 hsubset,
      card_numerals, card_numerals, Finset.card_empty]
  have hwhole : (s.toFinset ∪ t.toFinset).card = 160 := by
    rw [Finset.union_eq_left.2 hsubset, card_numerals]
  have hne : ¬(s = ∅ ∧ t = ∅) := fun h => by
    rw [h.1, h.2] at hwhole
    exact absurd hwhole (by decide)
  have hstated : percentage 23 160 = 14.37 := by decide +kernel
  have hexact : exactPercentage 23 160 = 1438 / 100 := by norm_num [exactPercentage, round_eq]
  refine ⟨⟨hpart, hwhole, ?_⟩, ?_, hexact, ?_⟩
  · rw [KeyComparison.percentDifference_of "k" hne, hpart, hwhole, hstated]
  · decide +kernel
  · intro hnearest
    have hlow : value 14.37 = 8089590830664253 / 2 ^ 49 := by
      have hform : Exact.ofFloat 14.37 = .finite false 8089590830664253 (-49) := by decide +kernel
      rw [value_unsigned hform]
      norm_num
    have hhigh : value 14.38 = 8095220330198467 / 2 ^ 49 := by
      have hform : Exact.ofFloat 14.38 = .finite false 8095220330198467 (-49) := by decide +kernel
      rw [value_unsigned hform]
      norm_num
    have hfar := hnearest.2 14.38 (by decide +kernel) (by rw [hlow, hhigh]; norm_num)
    rw [hexact, hlow, hhigh] at hfar
    norm_num at hfar

end CacheAudit
