import CacheAudit.Proofs.Verification.Interleaving

/-!
# Which roots may be watched at once

A path leads, part by part, to one place. Plans are accepted exactly when no two of these places
are, or lie below, one another. Otherwise the failure names the first two in the order of the plans,
and nothing is done.
-/

namespace CacheAudit

open Disk (Apart)

/-! ### Places part by part -/

namespace Location

/-- The place that one part of a path leads to from another place. -/
def enter (here : Location) (part : Bytes) : Location :=
  if part = [] ∨ part = Path.dot then here
  else if part = Path.dotDot then here.dropLast
  else here ++ [part]

/-- The place that a path leads to part by part, from the root or from the current directory. -/
def resolved (cwd : Location) (p : Path) : Location :=
  p.parts.foldl enter (if p.isAbsolute then [] else cwd)

theorem follow_eq_foldl (here : Location) (parts : List Bytes) :
    follow here (parts.filterMap Path.component?) = parts.foldl enter here := by
  induction parts generalizing here with
  | nil => rfl
  | cons part rest ih =>
    rw [List.foldl_cons, ← ih, enter]
    by_cases hpart : part = [] ∨ part = Path.dot
    · rw [if_pos hpart, List.filterMap_cons_none (by rw [Path.component?, if_pos hpart])]
    rw [if_neg hpart]
    by_cases hdots : part = Path.dotDot
    · rw [if_pos hdots, List.filterMap_cons_some (b := .up)
        (by rw [Path.component?, if_neg hpart, if_pos hdots]), follow]
    · rw [if_neg hdots, List.filterMap_cons_some (b := .name part)
        (by rw [Path.component?, if_neg hpart, if_neg hdots]), follow]

/-- The place read off the components of a path is the one that its parts lead to. -/
theorem ofPath_eq_resolved (cwd : Location) (p : Path) : ofPath cwd p = resolved cwd p := by
  rw [ofPath_eq_follow, follow_eq_foldl, resolved]

end Location

/-! ### The first overlap -/

namespace Scenarios

/-- The first two places of a list that are not apart, the one at `i` before the one at `j`. Pairs
are ordered by their first place and then by their second. -/
structure IsFirstOverlap (places : List Location) (i j : Nat) (a b : Location) : Prop where
  ordered : i < j
  first : places[i]? = some a
  second : places[j]? = some b
  overlapping : ¬Apart a b
  least : ∀ i' j' a' b', i' < j' → places[i']? = some a' → places[j']? = some b' →
    ¬Apart a' b' → i < i' ∨ i = i' ∧ j ≤ j'

variable {places : List Location} {a b : Location} {i j : Nat}

/-- There is one first overlap. -/
theorem IsFirstOverlap.unique {i' j' : Nat} {a' b' : Location}
    (h : IsFirstOverlap places i j a b) (h' : IsFirstOverlap places i' j' a' b') :
    (a, b) = (a', b') := by
  have hle := h.least i' j' a' b' h'.ordered h'.first h'.second h'.overlapping
  have hge := h'.least i j a b h.ordered h.first h.second h.overlapping
  obtain ⟨rfl, rfl⟩ : i = i' ∧ j = j' := by omega
  cases h.first.symm.trans h'.first
  cases h.second.symm.trans h'.second
  rfl

theorem IsFirstOverlap.not_pairwise (h : IsFirstOverlap places i j a b) :
    ¬places.Pairwise Apart := by
  intro hpairwise
  obtain ⟨hi, rfl⟩ := List.getElem?_eq_some_iff.1 h.first
  obtain ⟨hj, rfl⟩ := List.getElem?_eq_some_iff.1 h.second
  exact h.overlapping (List.pairwise_iff_getElem.1 hpairwise i j hi hj h.ordered)

theorem overlap_iff : overlap a b = true ↔ ¬Apart a b := by
  rw [← not_overlap_iff, Bool.not_eq_false]

/-- A place overlaps the first later one that the search finds. -/
theorem isFirstOverlap_of_find {rest : List Location} (h : rest.find? (overlap a) = some b) :
    ∃ j, IsFirstOverlap (a :: rest) 0 j a b := by
  obtain ⟨hoverlap, k, hk, rfl, hbefore⟩ := List.find?_eq_some_iff_getElem.1 h
  refine ⟨k + 1, by omega, rfl, List.getElem?_eq_getElem hk, overlap_iff.1 hoverlap, ?_⟩
  intro i' j' a' b' hlt hfirst hsecond hoverlapping
  rcases i' with _ | i'
  · right
    refine ⟨rfl, Nat.le_of_not_lt fun hearlier => ?_⟩
    obtain ⟨j', rfl⟩ := Nat.exists_eq_succ_of_ne_zero (by omega : j' ≠ 0)
    cases hfirst
    obtain ⟨hj', rfl⟩ := List.getElem?_eq_some_iff.1 hsecond
    have hnot := hbefore j' (by omega)
    rw [List.getElem_cons_succ] at hoverlapping
    rw [overlap_iff.2 hoverlapping] at hnot
    cases hnot
  · left
    omega

/-- A place that overlaps none of the later ones leaves the first overlap to them. -/
theorem IsFirstOverlap.cons {rest : List Location} (h : IsFirstOverlap rest i j a b)
    {c : Location} (hc : ∀ b ∈ rest, Apart c b) :
    IsFirstOverlap (c :: rest) (i + 1) (j + 1) a b := by
  refine ⟨by have := h.ordered; omega, h.first, h.second, h.overlapping, ?_⟩
  intro i' j' a' b' hlt hfirst hsecond hoverlapping
  obtain ⟨j', rfl⟩ := Nat.exists_eq_succ_of_ne_zero (by omega : j' ≠ 0)
  rcases i' with _ | i'
  · cases hfirst
    exact absurd (hc b' (List.mem_of_getElem? hsecond)) hoverlapping
  · have hleast := h.least i' j' a' b' (by omega) hfirst hsecond hoverlapping
    omega

/-- What the search answers is the first overlap. -/
theorem isFirstOverlap_of_search (h : firstOverlap? places = some (a, b)) :
    ∃ i j, IsFirstOverlap places i j a b := by
  induction places with
  | nil => cases h
  | cons c rest ih =>
    rw [firstOverlap?] at h
    split at h
    · rename_i hfind
      cases h
      exact ⟨0, isFirstOverlap_of_find hfind⟩
    · rename_i hnone
      obtain ⟨i, j, hfirst⟩ := ih h
      refine ⟨i + 1, j + 1, hfirst.cons fun b hb => ?_⟩
      rw [← not_overlap_iff]
      simpa using List.find?_eq_none.1 hnone b hb

theorem firstOverlap?_eq_none_iff : firstOverlap? places = none ↔ places.Pairwise Apart := by
  refine ⟨pairwise_apart, fun hpairwise => ?_⟩
  cases hsearch : firstOverlap? places with
  | none => rfl
  | some pair =>
    obtain ⟨i, j, hfirst⟩ := isFirstOverlap_of_search hsearch
    exact absurd hpairwise hfirst.not_pairwise

theorem firstOverlap?_eq_some_iff :
    firstOverlap? places = some (a, b) ↔ ∃ i j, IsFirstOverlap places i j a b := by
  refine ⟨isFirstOverlap_of_search, fun ⟨i, j, hfirst⟩ => ?_⟩
  cases hsearch : firstOverlap? places with
  | none => exact absurd (pairwise_apart hsearch) hfirst.not_pairwise
  | some pair =>
    obtain ⟨i', j', hfirst'⟩ := isFirstOverlap_of_search hsearch
    rw [hfirst.unique hfirst']

/-! ### Plans -/

/-- The places of the roots of plans. -/
def rootPlaces (cwd : Location) (scenarios : List Scenario) : List Location :=
  scenarios.map fun s => Location.resolved cwd s.plan.root

/-- The failure that names two overlapping places. -/
def overlapping (a b : Location) : Failure where
  kind := .invalidInput
  op := some "run_scenarios"
  path := some a.path.display
  message := "root overlaps with " ++ b.path.display

theorem checkDisjoint_eq (cwd : Location) (scenarios : List Scenario) :
    checkDisjoint cwd (scenarios.map Scenario.plan) =
      match firstOverlap? (rootPlaces cwd scenarios) with
      | none => .ok ()
      | some (a, b) => .error (overlapping a b) := by
  have hplaces : (scenarios.map Scenario.plan).map (fun p => Location.ofPath cwd p.root) =
      rootPlaces cwd scenarios := by
    rw [List.map_map, rootPlaces]
    exact List.map_congr_left fun s _ => Location.ofPath_eq_resolved cwd s.plan.root
  rw [checkDisjoint, hplaces]
  rfl

theorem interleave_of_rejected {scenarios : List Scenario} {schedule : List Nat} {d : Disk}
    {f : Failure} (h : checkDisjoint d.cwd (scenarios.map Scenario.plan) = .error f) :
    interleave scenarios schedule d = ⟨(.failed f, [], d),
      [.starting "run_scenarios" [.count "scenario_count" scenarios.length]]⟩ := by
  rw [interleave, h]
  rfl

/-- Plans are accepted exactly when their roots are apart from each other. They are rejected exactly
when two roots overlap, with a failure that names the first two; then nothing is logged but the
start, no run begins and the disk is left as it was. -/
theorem checkDisjoint_iff_apart (scenarios : List Scenario) (schedule : List Nat) (d : Disk) :
    (checkDisjoint d.cwd (scenarios.map Scenario.plan) = .ok () ↔
      (rootPlaces d.cwd scenarios).Pairwise Apart) ∧
    (∀ f, checkDisjoint d.cwd (scenarios.map Scenario.plan) = .error f ↔
      ∃ i j a b, IsFirstOverlap (rootPlaces d.cwd scenarios) i j a b ∧ f = overlapping a b) ∧
    (∀ f, checkDisjoint d.cwd (scenarios.map Scenario.plan) = .error f →
      interleave scenarios schedule d = ⟨(.failed f, [], d),
        [.starting "run_scenarios" [.count "scenario_count" scenarios.length]]⟩) := by
  refine ⟨?_, fun f => ?_, fun f => interleave_of_rejected⟩
  · rw [checkDisjoint_eq, ← firstOverlap?_eq_none_iff]
    cases firstOverlap? (rootPlaces d.cwd scenarios) <;> simp
  · rw [checkDisjoint_eq]
    cases hsearch : firstOverlap? (rootPlaces d.cwd scenarios) with
    | none =>
      refine iff_of_false (by simp) fun ⟨i, j, a, b, hfirst, _⟩ => ?_
      exact hfirst.not_pairwise (pairwise_apart hsearch)
    | some pair =>
      obtain ⟨a, b⟩ := pair
      simp only [Except.error.injEq]
      refine ⟨fun heq => ?_, fun ⟨i, j, a', b', hfirst, hf⟩ => ?_⟩
      · obtain ⟨i, j, hfirst⟩ := isFirstOverlap_of_search hsearch
        exact ⟨i, j, a, b, hfirst, heq.symm⟩
      · have hsame := firstOverlap?_eq_some_iff.2 ⟨i, j, hfirst⟩
        rw [hsearch] at hsame
        cases hsame
        exact hf.symm

/-- In the directory `w`, a root `./x/..//a/c/d/` lies below the root `a/c`, and both are apart from
`/a/c`. -/
theorem rejected_respelled :
    let d : Disk := { cwd := [[119]] }
    let scenarios : List Scenario :=
      [.serving "/a/c" .idle, .serving "a/c" .idle, .serving "./x/..//a/c/d/" .idle]
    let f := overlapping [[119], [97], [99]] [[119], [97], [99], [100]]
    checkDisjoint d.cwd (scenarios.map Scenario.plan) = .error f ∧
      interleave scenarios [0, 1, 2] d =
        ⟨(.failed f, [], d), [.starting "run_scenarios" [.count "scenario_count" 3]]⟩ := by
  intro d scenarios f
  have hsearch : firstOverlap? (rootPlaces d.cwd scenarios) =
      some ([[119], [97], [99]], [[119], [97], [99], [100]]) := by cbv
  obtain ⟨i, j, hfirst⟩ := isFirstOverlap_of_search hsearch
  obtain ⟨-, hrejected, huntouched⟩ := checkDisjoint_iff_apart scenarios [0, 1, 2] d
  have hcheck := (hrejected f).2 ⟨i, j, _, _, hfirst, rfl⟩
  exact ⟨hcheck, huntouched f hcheck⟩

end Scenarios

end CacheAudit
