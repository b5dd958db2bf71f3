import CacheAudit.Proofs.Dataset.WeightSums
import CacheAudit.Proofs.Reconciliation.Mirror

/-!
# Weight reports of finite weights

A report writes a missing weight as `null`, and so it writes a weight that is not finite. The
difference of two infinities is no number, which exceeds no tolerance. As long as no sum of weights
overflows neither happens: then `null` stands for a missing member, and two weights count as equal
only when their difference is a number within the tolerance.
-/

namespace CacheAudit

open Dataset (Content)

/-! ### How a weight is written -/

namespace Decimal

theorem exists_mark_mem_layout (digits : List Char) (e : Int) :
    '.' ∈ layout digits e ∨ 'e' ∈ layout digits e := by
  unfold layout
  split
  · split <;> simp
  · by_cases he : e < 0 <;> simp [he]

/-- A magnitude is written with a decimal point or an exponent. -/
theorem exists_mark_mem_magnitudeText (m : Nat) (q : Int) :
    '.' ∈ magnitudeText m q ∨ 'e' ∈ magnitudeText m q := by
  unfold magnitudeText
  split
  · simp
  · exact exists_mark_mem_layout ..

theorem exists_mark_mem_realText {x : Float} (h : x.isFinite = true) :
    '.' ∈ Json.realText x ∨ 'e' ∈ Json.realText x := by
  have hfinite := isFinite_iff.1 h
  unfold Json.realText text
  cases hx : Exact.ofFloat x with
  | finite negative m q =>
    have hmark := exists_mark_mem_magnitudeText m q
    cases negative <;> simpa using hmark
  | _ =>
    rw [hx] at hfinite
    exact hfinite.elim

end Decimal

/-- A weight that is finite or missing is written as `null` just when it is missing. -/
theorem Json.compact_optional_real_eq_null_iff {weight : Option Float}
    (h : ∀ x, weight = some x → x.isFinite = true) :
    (optional .real weight).compact = "null" ↔ weight = none := by
  cases weight with
  | none => exact iff_of_true rfl rfl
  | some x =>
    refine iff_of_false ?_ (Option.some_ne_none x)
    intro heq
    have hchars : realText x = ['n', 'u', 'l', 'l'] := String.ofList_injective heq
    have hmark := Decimal.exists_mark_mem_realText (h x rfl)
    rw [hchars] at hmark
    simp at hmark

/-! ### What a report has -/

namespace WeightDelta

variable {tolerance : Float} {r c : StringMap Float} {member : String}

/-- A delta has the weights of its member on both sides. -/
theorem weights_of_mem_between {d : WeightDelta} (h : d ∈ between tolerance r c) :
    d.reference = r.get? d.member ∧ d.candidate = c.get? d.member := by
  obtain ⟨member, -, hd⟩ := List.mem_filterMap.1 h
  dsimp only at hd
  split at hd
  · cases hd
    exact ⟨rfl, rfl⟩
  · cases hd

/-- A member of the reference that differs has a delta. -/
theorem mem_between {x : Float} (hx : r.get? member = some x)
    (hdiffers : differs tolerance (some x) (c.get? member) = true) :
    ⟨member, some x, c.get? member⟩ ∈ between tolerance r c := by
  have hmember : member ∈ r.keySet := StringMap.mem_keys.2 (hx ▸ rfl)
  have hunion : member ∈ r.keySet.union c.keySet := StringSet.mem_union.2 (.inl hmember)
  refine List.mem_filterMap.2 ⟨member, hunion, ?_⟩
  dsimp only
  rw [hx, if_pos hdiffers]

end WeightDelta

namespace WeightReconciliation

variable {reference candidate : WeightedDataset} {tolerance : Float}

/-- What a report says of two datasets can be taken at its word. -/
structure Truthful (report : WeightReconciliation) (reference candidate : WeightedDataset) :
    Prop where
  /-- A side of a delta is written as `null` just when the member is missing there. -/
  null_iff : ∀ m ∈ report.mismatches, ∀ d ∈ m.deltas, ∃ left right,
    d.toJson = .object [("member", .text d.member), ("reference", left), ("candidate", right)] ∧
      (left.compact = "null" ↔ reference.weight? m.key d.member = none) ∧
      (right.compact = "null" ↔ candidate.weight? m.key d.member = none)
  /-- Two weights of a member that no delta tells apart differ by a number within the tolerance. -/
  equal : ∀ key member x y, reference.weight? key member = some x →
    candidate.weight? key member = some y →
      (∀ m ∈ report.mismatches, m.key = key → ∀ d ∈ m.deltas, d.member ≠ member) →
        (x - y).isNaN = false ∧ ¬(x - y).abs > report.tolerance

/-- A mismatch is a shared key with the deltas of its two sides, if there are any. -/
theorem mem_mismatches {m : WeightMismatch} :
    m ∈ (of reference candidate tolerance).mismatches ↔ m.deltas ≠ [] ∧
      ∃ r c, reference.get? m.key = some r ∧ candidate.get? m.key = some c ∧
        m.deltas = WeightDelta.between tolerance r c := by
  show m ∈ (StringMap.join reference.entries candidate.entries).filterMap (mismatch? tolerance) ↔ _
  rw [List.mem_filterMap]
  constructor
  · rintro ⟨⟨key, r, c⟩, hshared, hm⟩
    obtain ⟨hr, hc⟩ := StringMap.mem_join.1 hshared
    unfold mismatch? at hm
    dsimp only at hm
    split at hm
    · cases hm
    · rename_i hdeltas
      cases hm
      exact ⟨mt List.isEmpty_iff.2 hdeltas, r, c, hr, hc, rfl⟩
  · rintro ⟨hdeltas, r, c, hr, hc, heq⟩
    refine ⟨(m.key, r, c), StringMap.mem_join.2 ⟨hr, hc⟩, ?_⟩
    unfold mismatch?
    dsimp only
    rw [← heq, if_neg (mt List.isEmpty_iff.1 hdeltas)]

/-- A delta has the weights that the two datasets store. -/
theorem weights_of_delta {m : WeightMismatch} {d : WeightDelta}
    (hm : m ∈ (of reference candidate tolerance).mismatches) (hd : d ∈ m.deltas) :
    d.reference = reference.weight? m.key d.member ∧
      d.candidate = candidate.weight? m.key d.member := by
  obtain ⟨-, r, c, hr, hc, hdeltas⟩ := mem_mismatches.1 hm
  rw [hdeltas] at hd
  obtain ⟨hreference, hcandidate⟩ := WeightDelta.weights_of_mem_between hd
  rw [WeightedDataset.weight?, WeightedDataset.weight?, hr, hc]
  exact ⟨hreference, hcandidate⟩

/-- Two weights of a member that are not within the tolerance make a delta. -/
theorem exists_delta {key member : String} {x y : Float}
    (hx : reference.weight? key member = some x) (hy : candidate.weight? key member = some y)
    (hdiffers : (x - y).abs > tolerance) :
    ∃ m ∈ (of reference candidate tolerance).mismatches, m.key = key ∧
      ∃ d ∈ m.deltas, d.member = member := by
  obtain ⟨r, hr, hrx⟩ := Option.bind_eq_some_iff.1 hx
  obtain ⟨c, hc, hcy⟩ := Option.bind_eq_some_iff.1 hy
  have hdelta : ⟨member, some x, c.get? member⟩ ∈ WeightDelta.between tolerance r c := by
    apply WeightDelta.mem_between hrx
    rw [hcy]
    exact decide_eq_true hdiffers
  have hmismatch : ⟨key, WeightDelta.between tolerance r c⟩ ∈
      (of reference candidate tolerance).mismatches :=
    mem_mismatches.2 ⟨List.ne_nil_of_mem hdelta, r, c, hr, hc, rfl⟩
  exact ⟨_, hmismatch, rfl, _, hdelta, rfl⟩

theorem truthful_of (hreference : reference.AllFinite) (hcandidate : candidate.AllFinite) :
    (of reference candidate tolerance).Truthful reference candidate where
  null_iff := by
    intro m hm d hd
    obtain ⟨hleft, hright⟩ := weights_of_delta hm hd
    refine ⟨_, _, rfl, ?_, ?_⟩
    · rw [hleft]
      exact Json.compact_optional_real_eq_null_iff (hreference m.key d.member)
    · rw [hright]
      exact Json.compact_optional_real_eq_null_iff (hcandidate m.key d.member)
  equal := by
    intro key member x y hx hy hequal
    refine ⟨Decimal.isNaN_sub (hreference key member x hx) (hcandidate key member y hy), ?_⟩
    intro hdiffers
    obtain ⟨m, hm, hkey, d, hd, hmember⟩ := exists_delta hx hy hdiffers
    exact hequal m hm hkey d hd hmember

end WeightReconciliation

/-- The weights of a table or a log that is accepted are finite exactly when no sum of them
overflows on the way. In a report on two datasets without overflow, `null` stands for a missing
member only, and weights count as equal only when their difference is a number within the
tolerance. -/
theorem weights_stay_numbers_without_overflow {left right : Content}
    {name name' label label' : String} {reference candidate : WeightedDataset}
    (hreference : left.weighted name label = .ok reference)
    (hcandidate : right.weighted name' label' = .ok candidate) :
    (reference.AllFinite ↔ left.NoOverflow name) ∧
    (candidate.AllFinite ↔ right.NoOverflow name') ∧
    (left.NoOverflow name → right.NoOverflow name' → ∀ tolerance,
      (reconcileWeights reference candidate tolerance).value.Truthful reference candidate) := by
  have hleft := left.allFinite_iff hreference
  have hright := right.allFinite_iff hcandidate
  refine ⟨hleft, hright, ?_⟩
  intro hreferenceBounded hcandidateBounded tolerance
  exact WeightReconciliation.truthful_of (hleft.2 hreferenceBounded) (hright.2 hcandidateBounded)

/-- A table that weighs a member twice, and one that weighs it once. -/
theorem weights_stay_numbers_in_two_rows :
    let left : Content := .table {} (Text.Utf8.ofString "Date,Cash,A\nd,0,1.5\nd,0,2\n")
    let right : Content := .table {} (Text.Utf8.ofString "Date,Cash,A\nd,0,3\n")
    ∃ reference candidate, (left.weighted "r" "reference" = .ok reference ∧
        right.weighted "c" "candidate" = .ok candidate) ∧
      (left.NoOverflow "r" ∧ right.NoOverflow "c") ∧
      reference.weight? "d" "A" = some (0.0 + 1.5 + 2.0) ∧
      (reconcileWeights reference candidate 0.01).value.Truthful reference candidate := by
  intro left right
  have hrows : ({} : Dataset.Table).rows "r" (Text.Utf8.ofString "Date,Cash,A\nd,0,1.5\nd,0,2\n") =
      .ok [⟨2, "d", [("A", "1.5")]⟩, ⟨3, "d", [("A", "2")]⟩] := by decide +kernel
  have hrow : ({} : Dataset.Table).rows "c" (Text.Utf8.ofString "Date,Cash,A\nd,0,3\n") =
      .ok [⟨2, "d", [("A", "3")]⟩] := by decide +kernel
  have hweight : Dataset.weight? "1.5".toList = some 1.5 ∧ Dataset.weight? "2".toList = some 2.0 ∧
      Dataset.weight? "3".toList = some 3.0 := by decide +kernel
  let reference := ((WeightedDataset.empty "reference").add "d" "A" 1.5).add "d" "A" 2.0
  let candidate := (WeightedDataset.empty "candidate").add "d" "A" 3.0
  have hreference : left.weighted "r" "reference" = .ok reference := by
    simp only [left, Content.weighted, Dataset.Table.weighted, hrows, Halt.lift, bind, Except.bind,
      List.foldlM_cons, List.foldlM_nil, Dataset.Table.addCell, hweight, pure, Except.pure,
      reference]
  have hcandidate : right.weighted "c" "candidate" = .ok candidate := by
    simp only [right, Content.weighted, Dataset.Table.weighted, hrow, Halt.lift, bind, Except.bind,
      List.foldlM_cons, List.foldlM_nil, Dataset.Table.addCell, hweight, pure, Except.pure,
      candidate]
  have hsums : (0.0 + 1.5 : Float).isFinite = true ∧ (0.0 + 1.5 + 2.0 : Float).isFinite = true ∧
      (0.0 + 3.0 : Float).isFinite = true := by decide +kernel
  have hreferenceFinite : reference.AllFinite :=
    ((WeightedDataset.allFinite_empty _).add hsums.1).add hsums.2.1
  have hcandidateFinite : candidate.AllFinite :=
    (WeightedDataset.allFinite_empty _).add hsums.2.2
  obtain ⟨hleft, hright, hreport⟩ := weights_stay_numbers_without_overflow hreference hcandidate
  have hleftBounded := hleft.1 hreferenceFinite
  have hrightBounded := hright.1 hcandidateFinite
  exact ⟨reference, candidate, ⟨hreference, hcandidate⟩, ⟨hleftBounded, hrightBounded⟩, rfl,
    hreport hleftBounded hrightBounded 0.01⟩

/-- The weights of the first table come to one of them, but overflow on the way, and those of the
second overflow too. A report takes the two sums for equal, and writes either as it writes that the
member is missing. -/
theorem weights_overflow_unnoticed :
    let left : Content :=
      .table {} (Text.Utf8.ofString "Date,Cash,A\nd,0,1.7e308\nd,0,1.7e308\nd,0,-1.7e308\n")
    let right : Content :=
      .table {} (Text.Utf8.ofString "Date,Cash,A\nd,0,1.7e308\nd,0,1.7e308\n")
    let small : Content := .table {} (Text.Utf8.ofString "Date,Cash,A\nd,0,1\n")
    ∃ reference candidate other, (left.weighted "r" "reference" = .ok reference ∧
        right.weighted "c" "candidate" = .ok candidate ∧ small.weighted "c" "other" = .ok other) ∧
      (∃ x, reference.weight? "d" "A" = some x ∧ x.isFinite = false) ∧
      (reconcileWeights reference candidate 0.01).value.mismatches = [] ∧
      ∃ m ∈ (reconcileWeights reference other 0.01).value.mismatches, ∃ d ∈ m.deltas, ∃ v v',
        d.toJson = .object [("member", .text d.member), ("reference", v), ("candidate", v')] ∧
          v.compact = "null" ∧ reference.weight? m.key d.member ≠ none := by
  intro left right small
  have hrows : ({} : Dataset.Table).rows "r"
      (Text.Utf8.ofString "Date,Cash,A\nd,0,1.7e308\nd,0,1.7e308\nd,0,-1.7e308\n") =
        .ok [⟨2, "d", [("A", "1.7e308")]⟩, ⟨3, "d", [("A", "1.7e308")]⟩,
          ⟨4, "d", [("A", "-1.7e308")]⟩] := by decide +kernel
  have hrows' : ({} : Dataset.Table).rows "c"
      (Text.Utf8.ofString "Date,Cash,A\nd,0,1.7e308\nd,0,1.7e308\n") =
        .ok [⟨2, "d", [("A", "1.7e308")]⟩, ⟨3, "d", [("A", "1.7e308")]⟩] := by decide +kernel
  have hrow : ({} : Dataset.Table).rows "c" (Text.Utf8.ofString "Date,Cash,A\nd,0,1\n") =
      .ok [⟨2, "d", [("A", "1")]⟩] := by decide +kernel
  have hweight : Dataset.weight? "1.7e308".toList = some 1.7e308 ∧
      Dataset.weight? "-1.7e308".toList = some (-1.7e308) ∧
      Dataset.weight? "1".toList = some 1.0 := by decide +kernel
  let candidate := ((WeightedDataset.empty "candidate").add "d" "A" 1.7e308).add "d" "A" 1.7e308
  let reference := (((WeightedDataset.empty "reference").add "d" "A" 1.7e308).add "d" "A"
    1.7e308).add "d" "A" (-1.7e308)
  let other := (WeightedDataset.empty "other").add "d" "A" 1.0
  have hreference : left.weighted "r" "reference" = .ok reference := by
    simp only [left, Content.weighted, Dataset.Table.weighted, hrows, Halt.lift, bind, Except.bind,
      List.foldlM_cons, List.foldlM_nil, Dataset.Table.addCell, hweight, pure, Except.pure,
      reference]
  have hcandidate : right.weighted "c" "candidate" = .ok candidate := by
    simp only [right, Content.weighted, Dataset.Table.weighted, hrows', Halt.lift, bind,
      Except.bind, List.foldlM_cons, List.foldlM_nil, Dataset.Table.addCell, hweight, pure,
      Except.pure, candidate]
  have hother : small.weighted "c" "other" = .ok other := by
    simp only [small, Content.weighted, Dataset.Table.weighted, hrow, Halt.lift, bind, Except.bind,
      List.foldlM_cons, List.foldlM_nil, Dataset.Table.addCell, hweight, pure, Except.pure,
      other]
  let sum : Float := 0.0 + 1.7e308 + 1.7e308 + -1.7e308
  have hsum : reference.weight? "d" "A" = some sum := rfl
  have hone : other.weight? "d" "A" = some (0.0 + 1.0) := rfl
  have hinfinite : sum.isFinite = false ∧ (sum - (0.0 + 1.0)).abs > 0.01 := by decide +kernel
  have hequal : (reconcileWeights reference candidate 0.01).value.mismatches = [] := by
    apply List.isEmpty_iff.1
    decide +kernel
  have hnull : (Json.real sum).compact = "null" := by decide +kernel
  obtain ⟨m, hm, hkey, d, hd, hmember⟩ :=
    WeightReconciliation.exists_delta hsum hone hinfinite.2
  have hweights := (WeightReconciliation.weights_of_delta hm hd).1
  rw [hkey, hmember, hsum] at hweights
  refine ⟨reference, candidate, other, ⟨hreference, hcandidate, hother⟩,
    ⟨sum, hsum, hinfinite.1⟩, hequal, m, hm, d, hd, _, _, rfl, ?_, ?_⟩
  · rw [hweights]
    exact hnull
  · rw [hkey, hmember, hsum]
    exact Option.some_ne_none sum

end CacheAudit
