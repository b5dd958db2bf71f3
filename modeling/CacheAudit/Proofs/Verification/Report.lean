import CacheAudit.Proofs.Verification.Inconclusive

/-!
# The fields of a report agree

The file lists of a report come from two snapshots, its difference from their merge, and its flag
from a test of its own. They are shown to describe one pair of sets: the difference takes the first
list to the second, its counts add up, and the verdict and the flag follow from it. The two ids are
those of the requests that the run really sent.
-/

namespace CacheAudit

open SnapshotDiff (AscendsInBytes ascendsInBytes_of_pairwise)

/-! ### Two snapshots and their difference -/

namespace SnapshotDiff

variable (before after : Snapshot)

theorem ascendsInBytes_paths (s : Snapshot) : AscendsInBytes s.paths :=
  ascendsInBytes_of_pairwise s.entries.ascending

/-- The number of paths on one side, if those are the shared ones and some others. -/
theorem length_side {paths rest : List String} (hpaths : paths.Pairwise (· < ·))
    (hrest : rest.Pairwise (· < ·))
    (hmem : ∀ p, p ∈ paths ↔ (p ∈ before.paths ∧ p ∈ after.paths) ∨ p ∈ rest)
    (hout : ∀ p ∈ rest, ¬(p ∈ before.paths ∧ p ∈ after.paths)) :
    paths.length = (between before after).unchanged + (between before after).changed.length +
      rest.length := by
  have hagree := nodup_of_ascending (agreeing_ascending before after)
  have hchanged := nodup_of_ascending (changed_ascending before after)
  have hshared {p : String} (h : p ∈ (between before after).changed) :
      p ∈ before.paths ∧ p ∈ after.paths := mem_paths_of_differsAt (mem_changed.1 h)
  have hnodup : (agreeing before after ++ ((between before after).changed ++ rest)).Nodup := by
    refine hagree.append (hchanged.append (nodup_of_ascending hrest) ?_) ?_
    · exact fun p hc hr => hout p hr (hshared hc)
    · intro p hp hother
      have hagrees := mem_agreeing.1 hp
      rcases List.mem_append.1 hother with hc | hr
      · exact not_differsAt_of_agreesAt hagrees (mem_changed.1 hc)
      · exact hout p hr (mem_paths_of_agreesAt hagrees)
  have hperm : paths.Perm (agreeing before after ++ ((between before after).changed ++ rest)) := by
    refine (List.perm_ext_iff_of_nodup (nodup_of_ascending hpaths) hnodup).2 fun p => ?_
    rw [hmem, List.mem_append, List.mem_append, mem_agreeing]
    constructor
    · rintro (⟨hb, ha⟩ | hr)
      · exact (agreesAt_or_differsAt hb ha).imp_right fun h => .inl (mem_changed.2 h)
      · exact .inr (.inr hr)
    · rintro (h | h | h)
      · exact .inl (mem_paths_of_agreesAt h)
      · exact .inl (hshared h)
      · exact .inr h
  rw [hperm.length_eq, unchanged_eq_length, List.length_append, List.length_append, Nat.add_assoc]

/-- The paths of the first snapshot are those that stayed, changed or disappeared. -/
theorem length_paths_before : before.paths.length = (between before after).unchanged +
    (between before after).changed.length + (between before after).removed.length := by
  refine length_side before after before.entries.ascending (removed_ascending before after)
    (fun p => ?_) fun p hp h => (mem_removed.1 hp).2 h.2
  rw [mem_removed]
  tauto

/-- The paths of the second snapshot are those that stayed, changed or appeared. -/
theorem length_paths_after : after.paths.length = (between before after).unchanged +
    (between before after).changed.length + (between before after).added.length := by
  refine length_side before after after.entries.ascending (added_ascending before after)
    (fun p => ?_) fun p hp h => (mem_added.1 hp).2 h.1
  rw [mem_added]
  tauto

/-- The second list of paths is the first with what disappeared taken out and what appeared put
in. -/
theorem toFinset_paths_after : after.paths.toFinset =
    (before.paths.toFinset \ (between before after).removed.toFinset) ∪
      (between before after).added.toFinset := by
  ext p
  simp only [List.mem_toFinset, Finset.mem_union, Finset.mem_sdiff, mem_removed, mem_added]
  tauto

theorem violatesIsolation_iff (diff : SnapshotDiff) :
    diff.violatesIsolation = true ↔ diff.changed ≠ [] ∨ diff.removed ≠ [] := by
  cases hchanged : diff.changed <;> cases hremoved : diff.removed <;>
    simp [violatesIsolation, hchanged, hremoved]

end SnapshotDiff

/-! ### The report of a run -/

/-- The fields of a report fit together, and fit the outcome that carries it. -/
structure VerificationReport.Consistent (report : VerificationReport) (outcome : Outcome) :
    Prop where
  before_nonempty : report.beforeFiles ≠ []
  before_ascends : AscendsInBytes report.beforeFiles
  after_ascends : AscendsInBytes report.afterFiles
  /-- The difference takes the first list of files to the second. -/
  after_eq : report.afterFiles.toFinset =
    (report.beforeFiles.toFinset \ report.diff.removed.toFinset) ∪ report.diff.added.toFinset
  removed_subset : report.diff.removed ⊆ report.beforeFiles
  removed_disjoint : report.diff.removed.Disjoint report.afterFiles
  added_subset : report.diff.added ⊆ report.afterFiles
  added_disjoint : report.diff.added.Disjoint report.beforeFiles
  changed_subset_before : report.diff.changed ⊆ report.beforeFiles
  changed_subset_after : report.diff.changed ⊆ report.afterFiles
  before_count : report.beforeFiles.length =
    report.diff.unchanged + report.diff.changed.length + report.diff.removed.length
  after_count : report.afterFiles.length =
    report.diff.unchanged + report.diff.changed.length + report.diff.added.length
  fail_iff : outcome = .fail report ↔ report.diff.changed ≠ [] ∨ report.diff.removed ≠ []
  pass_iff : outcome = .pass report ↔ report.diff.changed = [] ∧ report.diff.removed = []
  /-- Only a failure for want of files is called inconclusive. -/
  inconclusive : report.inconclusive = true → outcome = .fail report ∧ report.diff.changed = []

section Runs

variable {plan : Plan} {s : Setting} {d d' : Disk} {before after : Snapshot} {moves : List Move}
  {outcome : Outcome} {report : VerificationReport}

/-- The report of a verdict on two snapshots is consistent if the first of them has files. -/
theorem Run.consistent_verdict (hsome : before.isEmpty = false)
    (hverdict : outcome = verdict plan s before after (.between before after))
    (hreport : outcome.report? = some report) : report.Consistent outcome := by
  have hfields : report.beforeFiles = before.paths ∧ report.afterFiles = after.paths ∧
      report.diff = .between before after ∧
      report.inconclusive = isInconclusive report.diff after := by
    rw [hverdict, verdict] at hreport
    split at hreport <;> cases hreport <;> exact ⟨rfl, rfl, rfl, rfl⟩
  obtain ⟨hbefore, hafter, hdiff, hflag⟩ := hfields
  have hfail : outcome = .fail report ↔ report.diff.violatesIsolation = true := by
    rw [hverdict, verdict] at hreport ⊢
    rw [hdiff]
    split at hreport <;> cases hreport <;> simp_all
  have hpass : outcome = .pass report ↔ outcome ≠ .fail report := by
    cases outcome <;> simp_all [Outcome.report?]
  rw [SnapshotDiff.violatesIsolation_iff] at hfail
  exact {
    before_nonempty := by
      rw [hbefore]
      intro hnil
      have hentries : before.entries.entries = [] := List.map_eq_nil_iff.1 hnil
      rw [Snapshot.isEmpty, StringMap.isEmpty, hentries] at hsome
      cases hsome
    before_ascends := hbefore ▸ SnapshotDiff.ascendsInBytes_paths before
    after_ascends := hafter ▸ SnapshotDiff.ascendsInBytes_paths after
    after_eq := by
      rw [hbefore, hafter, hdiff]
      exact SnapshotDiff.toFinset_paths_after before after
    removed_subset := by
      rw [hbefore, hdiff]
      exact fun p hp => (SnapshotDiff.mem_removed.1 hp).1
    removed_disjoint := by
      rw [hafter, hdiff]
      exact fun p hp => (SnapshotDiff.mem_removed.1 hp).2
    added_subset := by
      rw [hafter, hdiff]
      exact fun p hp => (SnapshotDiff.mem_added.1 hp).1
    added_disjoint := by
      rw [hbefore, hdiff]
      exact fun p hp => (SnapshotDiff.mem_added.1 hp).2
    changed_subset_before := by
      rw [hbefore, hdiff]
      exact fun p hp => (SnapshotDiff.mem_paths_of_differsAt (SnapshotDiff.mem_changed.1 hp)).1
    changed_subset_after := by
      rw [hafter, hdiff]
      exact fun p hp => (SnapshotDiff.mem_paths_of_differsAt (SnapshotDiff.mem_changed.1 hp)).2
    before_count := by rw [hbefore, hdiff, SnapshotDiff.length_paths_before before after]
    after_count := by rw [hafter, hdiff, SnapshotDiff.length_paths_after before after]
    fail_iff := hfail
    pass_iff := by rw [hpass, ne_eq, hfail, not_or, not_not, not_not]
    inconclusive := by
      intro hinconclusive
      obtain ⟨hchanged, hremoved, -⟩ := Run.isInconclusive_iff.1 (hflag ▸ hinconclusive)
      exact ⟨hfail.2 (.inr hremoved), hchanged⟩ }

/-- The first snapshot of a run with a report has files: without them the capture would have
failed. -/
theorem Account.first_snapshot_of_report (haccount : Account plan s d moves outcome)
    (hreport : outcome.report? = some report) (htaken : snapshots moves = [before, after]) :
    before.isEmpty = false := by
  have hfine := haccount.fine_of_report hreport
  obtain ⟨d', hplayed⟩ := haccount.played
  obtain ⟨deed₁, deed₂, d₁, d₂, given₁, given₂, hmem, hdeed₁, -, -, hsnapshots⟩ :=
    hplayed.captures_of_course (haccount.verdict hfine).1
  have hfirst : deed₁.snapshot? = some before := by
    rw [htaken] at hsnapshots
    cases hx : deed₁.snapshot? <;> cases hy : deed₂.snapshot? <;> simp_all
  have hgood := hfine _ hmem
  rw [hdeed₁, Deed.snapshot?_capture] at hfirst
  rw [Move.errorCode?, hdeed₁, Deed.errorCode?, hfirst] at hgood
  simpa using hgood

/-- The request that an action sends. -/
def Action.request? : Action → Option Request
  | .invoke request => some request
  | _ => none

/-- The requests that were sent in moves are those that their actions ask for. -/
theorem Played.requests (h : Played plan s d moves d') :
    (moves.map Move.deed).filterMap Deed.request? =
      (moves.map Move.action).filterMap Action.request? := by
  induction h with
  | none => rfl
  | @next moves d' d'' m _ hm ih =>
    have hlast : m.deed.request? = m.action.request? := by
      obtain ⟨phase, action, deed⟩ := m
      cases hm <;> rfl
    simp only [List.map_append, List.filterMap_append, ih, List.map_cons, List.map_nil,
      List.filterMap_cons, List.filterMap_nil, hlast]

/-- A run with a report has sent the two requests of its plan, in their order. -/
theorem Account.requests_of_report (haccount : Account plan s d moves outcome)
    (hreport : outcome.report? = some report) :
    (moves.map Move.deed).filterMap Deed.request? =
      [plan.request plan.firstPayload s.firstId, plan.request plan.secondPayload s.secondId] := by
  obtain ⟨d', hplayed⟩ := haccount.played
  obtain ⟨hcourse, -⟩ := haccount.verdict (haccount.fine_of_report hreport)
  have hactions : moves.map Move.action = (plan.course s).map Prod.snd := by
    rw [← hcourse, List.map_map]
    rfl
  rw [hplayed.requests, hactions]
  rfl

/-- Whenever a run ends with a report, the fields of the report agree with one another and with the
verdict. Its two ids are those of the two requests that the run sent, in their order. -/
theorem Plan.report_is_consistent (plan : Plan) (s : Setting) (d : Disk)
    (houtcome : (plan.verify s d).value.1.outcome? = some outcome)
    (hreport : outcome.report? = some report) :
    report.Consistent outcome ∧ (plan.verify s d).value.1.requests =
      [plan.request plan.firstPayload report.firstRequestId,
        plan.request plan.secondPayload report.secondRequestId] := by
  obtain ⟨moves, before, after, hdeeds, haccount, htaken, hverdict⟩ :=
    Plan.account_of_report houtcome hreport
  have hsome := haccount.first_snapshot_of_report hreport (hdeeds ▸ htaken)
  have hids : report.firstRequestId = s.firstId ∧ report.secondRequestId = s.secondId := by
    rw [hverdict, Run.verdict] at hreport
    split at hreport <;> cases hreport <;> exact ⟨rfl, rfl⟩
  refine ⟨Run.consistent_verdict hsome hverdict hreport, ?_⟩
  rw [Run.requests, hdeeds, haccount.requests_of_report hreport, hids.1, hids.2]

/-- The report of a run that fails because its one file cannot be read again. -/
theorem Plan.report_is_consistent_unreadable :
    let run := (ofNested.verify (.blockedAt .nested [[100], [97]]) {}).value.1
    ∃ outcome report, (run.outcome? = some outcome ∧ outcome.report? = some report) ∧
      report.Consistent outcome ∧ run.requests =
        [ofNested.request .null report.firstRequestId,
          ofNested.request .null report.secondRequestId] := by
  intro run
  obtain ⟨before, after, report, -, houtcome, -⟩ :=
    Plan.ofNested_fails [[100], [97]] (by decide) (by decide)
  exact ⟨.fail report, report, ⟨houtcome, rfl⟩, ofNested.report_is_consistent _ {} houtcome rfl⟩

end Runs

end CacheAudit
