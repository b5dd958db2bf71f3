import CacheAudit.Proofs.Capture.Contents

/-!
# What a deadline can do to a capture

The clock is read before each item of the walk, before each file and once more after all workers
are done. A file whose turn comes late is left out by its worker, and the results before it may
still end the capture with a failure of their own. But a clock does not run backwards, so the last
reading is late as soon as any is, and it is looked at before the results are. A fingerprinter may
have a timeout of its own, which the capture passes on like any other failure.
-/

namespace CacheAudit

namespace Capture

variable {d : Disk} {fp : Fingerprinter} {limits : CaptureLimits} {around : Surroundings}
  {root : Path} {items : List WalkItem} {turns : List Nat}

/-- The regular files that a capture finds below its root. -/
def foundFiles (d : Disk) (around : Surroundings) (root : Path) : List FoundFile :=
  (around.files.walk d root).filterMap WalkItem.found?

/-- The readings of the clock in the order in which a capture takes them, if its workers come to
the files by the given turns. A capture whose root is no directory takes none, and one that cannot
have its workers takes none but those of the walk. -/
def readings (d : Disk) (limits : CaptureLimits) (around : Surroundings) (root : Path)
    (turns : List Nat) : List Nat :=
  match requireRoot around.files d root with
  | .error _ => []
  | .ok () =>
    (List.range (around.files.walk d root).length).map around.clock.atItem ++
      match around.pool (max limits.workers 1) with
      | .error _ => []
      | .ok () => turns.map around.clock.atFile ++ [around.clock.atEnd]

/-- Some reading that a capture takes is at or past the deadline. -/
def RunsLate (d : Disk) (limits : CaptureLimits) (around : Surroundings) (root : Path)
    (turns : List Nat) : Prop :=
  ∃ reading ∈ readings d limits around root turns, isLate limits around.clock reading = true

/-- What a deadline may do to a capture: all or nothing. -/
structure KeepsDeadline (d : Disk) (fp : Fingerprinter) (limits : CaptureLimits)
    (around : Surroundings) (root : Path) (turns : List Nat) : Prop where
  of_late : RunsLate d limits around root turns →
    (capture d fp limits around root).value.snapshot =
      .error (.failed (lateFailure root limits))
  of_not_late : ¬RunsLate d limits around root turns →
    (capture d fp limits around root).value.snapshot =
      (capture d fp { limits with timeout := none } around root).value.snapshot
  /-- A timeout has no other cause than a late reading, unless there is one without a deadline. -/
  timeout_iff : (∃ f, f.kind = .timeout ∧
      (capture d fp limits around root).value.snapshot = .error (.failed f)) ↔
    RunsLate d limits around root turns ∨ ∃ f, f.kind = .timeout ∧
      (capture d fp { limits with timeout := none } around root).value.snapshot =
        .error (.failed f)
  /-- A timeout without a deadline is what the fingerprinter answered for a file. -/
  reported : ∀ f, f.kind = .timeout →
    (capture d fp { limits with timeout := none } around root).value.snapshot =
      .error (.failed f) →
    ∃ file ∈ foundFiles d around root, fp.fingerprint d file.path file.key = .error f
  /-- A snapshot is made of all files, for each of which the fingerprinter was called once. -/
  given_perm : ∀ s, (capture d fp limits around root).value.snapshot = .ok s →
    (capture d fp limits around root).value.given.Perm (foundFiles d around root)

/-! ### Late readings -/

theorem isLate_mono {clock : Readings} {reading later : Nat} (hle : reading ≤ later)
    (h : isLate limits clock reading = true) : isLate limits clock later = true := by
  obtain ⟨t, hdeadline, hreached⟩ := (Option.any_eq_true ..).1 h
  rw [decide_eq_true_eq] at hreached
  apply (Option.any_eq_true ..).2
  refine ⟨t, hdeadline, ?_⟩
  rw [decide_eq_true_eq]
  omega

/-- A capture whose root is no directory reads no clock. -/
theorem not_runsLate_of_error {f : Failure} (hroot : requireRoot around.files d root = .error f) :
    ¬RunsLate d limits around root turns := by
  rintro ⟨reading, hmem, -⟩
  simp [readings, hroot] at hmem

/-- A capture that cannot have its workers is late if one of the items of its walk comes late. -/
theorem runsLate_iff_of_no_workers {message : String}
    (hroot : requireRoot around.files d root = .ok ())
    (hpool : around.pool (max limits.workers 1) = .error message) :
    RunsLate d limits around root turns ↔ ∃ k < (around.files.walk d root).length,
      isLate limits around.clock (around.clock.atItem k) = true := by
  simp only [RunsLate, readings, hroot, hpool, List.append_nil, List.mem_map, List.mem_range,
    exists_exists_and_eq_and]

theorem runsLate_iff (hroot : requireRoot around.files d root = .ok ())
    (hpool : around.pool (max limits.workers 1) = .ok ())
    (hturns : turns.Perm (List.range (foundFiles d around root).length)) :
    RunsLate d limits around root turns ↔
      (∃ k < (around.files.walk d root).length,
        isLate limits around.clock (around.clock.atItem k) = true) ∨
      (∃ k < (foundFiles d around root).length,
        isLate limits around.clock (around.clock.atFile k) = true) ∨
      isLate limits around.clock around.clock.atEnd = true := by
  have hturn (k : Nat) : k ∈ turns ↔ k < (foundFiles d around root).length :=
    hturns.mem_iff.trans List.mem_range
  simp only [RunsLate, readings, hroot, hpool, List.mem_append, List.mem_map, List.mem_range,
    hturn, List.mem_singleton, or_and_right, exists_or, exists_exists_and_eq_and, exists_eq_left]

/-- A clock that does not run backwards is late at the end if it was when a file's turn came. -/
theorem atEnd_of_atFile (hroot : requireRoot around.files d root = .ok ())
    (hpool : around.pool (max limits.workers 1) = .ok ())
    (hclock : (readings d limits around root turns).Pairwise (· ≤ ·)) {k : Nat} (hk : k ∈ turns)
    (hlate : isLate limits around.clock (around.clock.atFile k) = true) :
    isLate limits around.clock around.clock.atEnd = true := by
  simp only [readings, hroot, hpool] at hclock
  obtain ⟨-, hrest, -⟩ := List.pairwise_append.1 hclock
  obtain ⟨-, -, hlast⟩ := List.pairwise_append.1 hrest
  have hle : around.clock.atFile k ≤ around.clock.atEnd :=
    hlast _ (List.mem_map_of_mem hk) _ (List.mem_singleton_self _)
  exact isLate_mono hle hlate

/-! ### What the capture does about them -/

/-- A late item of the walk is the end of the capture. -/
theorem ofItems_of_late_item (htell : canTell limits around.clock = true) {k : Nat}
    (hk : k < items.length)
    (hlate : isLate limits around.clock (around.clock.atItem k) = true) :
    (ofItems d fp limits around root items).snapshot =
      .error (.failed (lateFailure root limits)) := by
  have hsurvey : (survey (fun i => isLate limits around.clock (around.clock.atItem i)) 0
      items).value.late = true :=
    late_survey_iff.2 ⟨k, hk, (Nat.zero_add k).symm ▸ hlate⟩
  rw [ofItems, value_explore, htell]
  dsimp only
  rw [hsurvey]
  rfl

/-- A capture that visits its files and is late at the end fails for that. -/
theorem ofItems_of_late_end (htell : canTell limits around.clock = true)
    (hpool : around.pool (max limits.workers 1) = .ok ())
    (hitem : ∀ k < items.length, isLate limits around.clock (around.clock.atItem k) = false)
    (hend : isLate limits around.clock around.clock.atEnd = true) :
    (ofItems d fp limits around root items).snapshot =
      .error (.failed (lateFailure root limits)) := by
  rw [ofItems_of_explored (explore_of_not_late htell hpool hitem)]
  dsimp only
  rw [if_pos hend]

/-- When nothing is late, the fingerprinter is called for every file once. -/
theorem given_ofItems (htell : canTell limits around.clock = true)
    (hpool : around.pool (max limits.workers 1) = .ok ())
    (hitem : ∀ k < items.length, isLate limits around.clock (around.clock.atItem k) = false)
    (hfile : ∀ k < (items.filterMap WalkItem.found?).length,
      isLate limits around.clock (around.clock.atFile k) = false)
    (hend : isLate limits around.clock around.clock.atEnd = false) :
    (ofItems d fp limits around root items).given.Perm (items.filterMap WalkItem.found?) := by
  rw [ofItems_of_explored (explore_of_not_late htell hpool hitem)]
  dsimp only
  rw [hend, if_neg Bool.false_ne_true]
  exact calls_of_not_late around.finishing hfile

/-- A capture without a deadline gives what its walk determines, however long it takes, if it can
have its workers. -/
theorem ofItems_without_deadline (hpool : around.pool (max limits.workers 1) = .ok ()) :
    (ofItems d fp { limits with timeout := none } around root items).snapshot =
      Halt.lift (untimed d fp root items) :=
  ofItems_of_unhindered (unhindered_of_no_deadline rfl hpool)

theorem ofItems_without_workers {message : String}
    (hpool : around.pool (max limits.workers 1) = .error message) :
    (ofItems d fp { limits with timeout := none } around root items).snapshot =
      .error (.failed (poolFailure message)) :=
  ofItems_of_no_workers (canTell_of_no_deadline rfl _) hpool
    fun _ _ => isLate_of_no_deadline rfl _ _

/-- A timeout of a capture without a deadline is what the fingerprinter answered for a file. -/
theorem exists_file_of_timeout {f : Failure} (hkind : f.kind = .timeout)
    (h : (capture d fp { limits with timeout := none } around root).value.snapshot =
      .error (.failed f)) :
    ∃ file ∈ foundFiles d around root, fp.fingerprint d file.path file.key = .error f := by
  cases hroot : requireRoot around.files d root with
  | error g =>
    rw [value_capture_of_error hroot] at h
    cases h
    cases hkind.symm.trans (kind_of_requireRoot hroot)
  | ok u =>
    rw [value_capture_of_root hroot] at h
    cases hpool : around.pool (max limits.workers 1) with
    | error message =>
      rw [ofItems_without_workers hpool] at h
      cases h
      cases hkind
    | ok u =>
      rw [ofItems_without_deadline hpool, Halt.lift_eq_failed_iff] at h
      unfold untimed at h
      dsimp only at h
      split at h
      · rename_i g hfailure
        cases h
        obtain ⟨file, hmem, hfile⟩ := List.exists_of_findSome?_eq_some hfailure
        exact ⟨file, hmem, (FoundFile.failure?_eq_some.1 hfile).1⟩
      · cases h

/-- Wherever a clock that does not run backwards is late, the capture fails for it. -/
theorem RunsLate.snapshot_eq (h : RunsLate d limits around root turns) (fp : Fingerprinter)
    (htell : canTell limits around.clock = true)
    (hturns : turns.Perm (List.range (foundFiles d around root).length))
    (hclock : (readings d limits around root turns).Pairwise (· ≤ ·)) :
    (capture d fp limits around root).value.snapshot =
      .error (.failed (lateFailure root limits)) := by
  cases hroot : requireRoot around.files d root with
  | error f => exact absurd h (not_runsLate_of_error hroot)
  | ok u =>
    rw [value_capture_of_root hroot]
    by_cases hitem : ∃ k < (around.files.walk d root).length,
        isLate limits around.clock (around.clock.atItem k) = true
    · obtain ⟨k, hk, hlate⟩ := hitem
      exact ofItems_of_late_item htell hk hlate
    cases hpool : around.pool (max limits.workers 1) with
    | error message => exact absurd ((runsLate_iff_of_no_workers hroot hpool).1 h) hitem
    | ok u =>
      have hend : isLate limits around.clock around.clock.atEnd = true := by
        rcases ((runsLate_iff hroot hpool hturns).1 h).resolve_left hitem with
          ⟨k, hk, hfile⟩ | hend
        · exact atEnd_of_atFile hroot hpool hclock (hturns.mem_iff.2 (List.mem_range.2 hk)) hfile
        · exact hend
      simp only [not_exists, not_and, Bool.not_eq_true] at hitem
      exact ofItems_of_late_end htell hpool hitem hend

/-- A capture none of whose readings is late answers what it answers without a deadline, and has
called the fingerprinter for every file of a snapshot once. -/
theorem capture_of_not_late (h : ¬RunsLate d limits around root turns) (fp : Fingerprinter)
    (htell : canTell limits around.clock = true)
    (hturns : turns.Perm (List.range (foundFiles d around root).length)) :
    (capture d fp limits around root).value.snapshot =
        (capture d fp { limits with timeout := none } around root).value.snapshot ∧
      ∀ s, (capture d fp limits around root).value.snapshot = .ok s →
        (capture d fp limits around root).value.given.Perm (foundFiles d around root) := by
  cases hroot : requireRoot around.files d root with
  | error f =>
    rw [value_capture_of_error hroot, value_capture_of_error hroot]
    refine ⟨rfl, fun s hs => ?_⟩
    cases hs
  | ok u =>
    rw [value_capture_of_root hroot, value_capture_of_root hroot]
    cases hpool : around.pool (max limits.workers 1) with
    | error message =>
      rw [runsLate_iff_of_no_workers hroot hpool] at h
      simp only [not_exists, not_and, Bool.not_eq_true] at h
      rw [ofItems_of_no_workers htell hpool h, ofItems_without_workers hpool]
      refine ⟨rfl, fun s hs => ?_⟩
      cases hs
    | ok u =>
      rw [runsLate_iff hroot hpool hturns] at h
      simp only [not_or, not_exists, not_and, Bool.not_eq_true] at h
      obtain ⟨hitem, hfile, hend⟩ := h
      rw [ofItems_of_not_late htell hpool hitem hfile hend, ofItems_without_deadline hpool]
      exact ⟨rfl, fun _ _ => given_ofItems htell hpool hitem hfile hend⟩

end Capture

open Capture (RunsLate)

/-- A deadline never gives part of a snapshot. Whatever the tree, the fingerprinter, the number of
workers, the turns at which they come to the files and the deadline, as long as the clock can tell
the deadline and does not run backwards: a capture that takes a late reading has the failure of
running late for its answer, any other answers what it answers without a deadline, and the
fingerprinter has been called for all files of a snapshot, once for each. A capture that is not late
ends with a timeout only if the fingerprinter answered it for a file. -/
theorem capture_keepsDeadline (d : Disk) (fp : Fingerprinter) (limits : CaptureLimits)
    (around : Surroundings) (root : Path) {turns : List Nat}
    (htell : Capture.canTell limits around.clock = true)
    (hturns : turns.Perm (List.range (Capture.foundFiles d around root).length))
    (hclock : (Capture.readings d limits around root turns).Pairwise (· ≤ ·)) :
    Capture.KeepsDeadline d fp limits around root turns := by
  have hlate (h : RunsLate d limits around root turns) := h.snapshot_eq fp htell hturns hclock
  have hpunctual (h : ¬RunsLate d limits around root turns) :=
    Capture.capture_of_not_late h fp htell hturns
  refine ⟨hlate, fun h => (hpunctual h).1, ⟨?_, ?_⟩,
    fun f hkind hf => Capture.exists_file_of_timeout hkind hf, fun s hs => ?_⟩
  · rintro ⟨f, hkind, hf⟩
    by_cases h : RunsLate d limits around root turns
    · exact .inl h
    · exact .inr ⟨f, hkind, (hpunctual h).1 ▸ hf⟩
  · rintro (h | ⟨f, hkind, hf⟩)
    · exact ⟨_, Capture.kind_lateFailure root limits, hlate h⟩
    · by_cases h : RunsLate d limits around root turns
      · exact ⟨_, Capture.kind_lateFailure root limits, hlate h⟩
      · exact ⟨f, hkind, (hpunctual h).1 ▸ hf⟩
  · have h : ¬RunsLate d limits around root turns := by
      intro h
      rw [hlate h] at hs
      cases hs
    exact (hpunctual h).2 s hs

/-- Two workers come to the second file first; the capture that has a tenth of a second is late when
the files are done, though each of them was begun in time. -/
theorem capture_keepsDeadline_of_slow_file :
    let d : Disk := { entries := [([[99]], .directory), ([[99], [97]], .file [65] .epoch),
      ([[99], [98]], .file [66] .epoch)] }
    let root : Path := ⟨[99]⟩
    let fp := Algorithm.sha256.fingerprinter
    let limits : CaptureLimits := ⟨2, some (.ofMillis 100)⟩
    let around : Surroundings := { clock := {
      atItem := id, atFile := fun i => 1000 - i, atEnd := 400000000 } }
    (Capture.canTell limits around.clock = true ∧
      [1, 0].Perm (List.range (Capture.foundFiles d around root).length) ∧
      (Capture.readings d limits around root [1, 0]).Pairwise (· ≤ ·)) ∧
    Capture.KeepsDeadline d fp limits around root [1, 0] ∧
    (capture d fp limits around root).value.snapshot =
      .error (.failed (Capture.lateFailure root limits)) := by
  intro d root fp limits around
  have hwalk : around.files.walk d root = [.other, .file ⟨[99, 47, 97]⟩ [[97]],
      .file ⟨[99, 47, 98]⟩ [[98]]] := by cbv
  have hfound : (Capture.foundFiles d around root).length = 2 := by
    rw [Capture.foundFiles, hwalk]
    rfl
  have hreadings :
      Capture.readings d limits around root [1, 0] = [0, 1, 2, 999, 1000, 400000000] := by
    cbv
  have hturns : [1, 0].Perm (List.range (Capture.foundFiles d around root).length) := by
    rw [hfound]
    decide
  have hclock : (Capture.readings d limits around root [1, 0]).Pairwise (· ≤ ·) := by
    rw [hreadings]
    decide
  have htell : Capture.canTell limits around.clock = true := by decide
  have hkeeps := capture_keepsDeadline d fp limits around root htell hturns hclock
  have hlate : RunsLate d limits around root [1, 0] := by
    refine ⟨400000000, ?_, by decide⟩
    rw [hreadings]
    decide
  exact ⟨⟨htell, hturns, hclock⟩, hkeeps, hkeeps.of_late hlate⟩

/-- A capture that has a minute and comes to its only file at once ends with the timeout that the
fingerprinter answers for that file. A capture whose deadline the clock cannot tell crashes. -/
theorem capture_passes_on_timeout :
    let d : Disk := { entries := [([[99]], .directory), ([[99], [97]], .file [65] .epoch)] }
    let root : Path := ⟨[99]⟩
    let fp : Fingerprinter := ⟨"sha256", fun _ _ key => .error {
      kind := .timeout, op := some "fingerprint", path := some key, message := "slow disk" }⟩
    let limits : CaptureLimits := ⟨2, some (.ofMillis 60000)⟩
    (Capture.canTell limits {} = true ∧
      [0].Perm (List.range (Capture.foundFiles d {} root).length) ∧
      (Capture.readings d limits {} root [0]).Pairwise (· ≤ ·)) ∧
    (¬RunsLate d limits {} root [0] ∧ ∃ f, f.kind = .timeout ∧
      (capture d fp limits {} root).value.snapshot = .error (.failed f)) ∧
    (capture d fp ⟨2, some .max⟩ {} root).value.snapshot = .error .crashed := by
  intro d root fp limits
  have hwalk : ({} : FileAccess).walk d root = [.other, .file ⟨[99, 47, 97]⟩ [[97]]] := by cbv
  have hfound : (Capture.foundFiles d {} root).length = 1 := by
    rw [Capture.foundFiles, hwalk]
    rfl
  have hreadings : Capture.readings d limits {} root [0] = [0, 0, 0, 0] := by cbv
  have htell : Capture.canTell limits {} = true := by decide
  have hturns : [0].Perm (List.range (Capture.foundFiles d {} root).length) := by
    rw [hfound]
    decide
  have hclock : (Capture.readings d limits {} root [0]).Pairwise (· ≤ ·) := by
    rw [hreadings]
    decide
  have hnot : ¬RunsLate d limits {} root [0] := by
    rintro ⟨reading, hmem, hlate⟩
    rw [hreadings] at hmem
    obtain rfl : reading = 0 := by simpa using hmem
    cases hlate
  have hroot : Capture.requireRoot {} d root = .ok () := by cbv
  let slow : Failure :=
    { kind := .timeout, op := some "fingerprint", path := some "a", message := "slow disk" }
  have huntimed : Capture.untimed d fp root (({} : FileAccess).walk d root) = .error slow := by
    rw [hwalk]
    rfl
  refine ⟨⟨htell, hturns, hclock⟩, ⟨hnot, slow, rfl, ?_⟩, ?_⟩
  · rw [(Capture.capture_of_not_late hnot fp htell hturns).1, value_capture_of_root hroot,
      Capture.ofItems_without_deadline rfl, huntimed]
    rfl
  · exact capture_eq_crashed_iff.2 ⟨hroot, by decide⟩

end CacheAudit
