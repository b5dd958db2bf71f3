import CacheAudit.Proofs.Verification.Soundness

/-!
# When a failed comparison says nothing

A failure is called inconclusive when nothing changed and every path that disappeared is among those
that the second capture could not read. A file below a directory that the walk could not look into
has disappeared as well, but only the directory is recorded as unreadable. So whatever is called
inconclusive is owed to what could not be read, and the converse holds as long as no path that
disappeared lies below a place at which the walk failed.
-/

namespace CacheAudit

open Capture
open WalkItem (key)

/-- Whether one key lies below another. -/
def Below (p q : String) : Prop :=
  q.toList ++ ['/'] <+: p.toList

instance (p q : String) : Decidable (Below p q) :=
  inferInstanceAs (Decidable (_ <+: _))

/-- A path could not be read when a snapshot of the tree below `l` was taken: it is listed as
unreadable, or it lies below a directory that is. -/
def Snapshot.LeavesOut (s : Snapshot) (d : Disk) (l : Location) (p : String) : Prop :=
  p ∈ s.unreadable ∨ ∃ names, d.entry? (l ++ names) = some .directory ∧
    key names ∈ s.unreadable ∧ Below p (key names)

/-- A difference is owed only to what could not be read when the second snapshot was taken. -/
structure Snapshot.Excuses (after : Snapshot) (d : Disk) (l : Location) (diff : SnapshotDiff) :
    Prop where
  unchanged : diff.changed = []
  some_removed : diff.removed ≠ []
  unread : ∀ p ∈ diff.removed, after.LeavesOut d l p

theorem Run.isInconclusive_iff {diff : SnapshotDiff} {after : Snapshot} :
    isInconclusive diff after = true ↔
      diff.changed = [] ∧ diff.removed ≠ [] ∧ ∀ p ∈ diff.removed, p ∈ after.unreadable := by
  unfold isInconclusive SnapshotDiff.violatesIsolation
  cases hchanged : diff.changed <;> cases hremoved : diff.removed <;> simp

/-- A verdict has a report, and is a failure when the difference violates the isolation. -/
theorem Run.exists_report_verdict (plan : Plan) (s : Setting) (before after : Snapshot)
    (diff : SnapshotDiff) :
    ∃ report, (verdict plan s before after diff).report? = some report ∧ report.diff = diff ∧
      report.inconclusive = isInconclusive diff after ∧
      (diff.violatesIsolation = true → verdict plan s before after diff = .fail report) := by
  unfold verdict
  by_cases hviolates : diff.violatesIsolation = true
  · rw [if_pos hviolates]
    exact ⟨_, rfl, rfl, rfl, fun _ => rfl⟩
  · rw [if_neg hviolates]
    exact ⟨_, rfl, rfl, rfl, fun h => absurd h hviolates⟩

theorem SnapshotDiff.violatesIsolation_of_removed {diff : SnapshotDiff} (h : diff.removed ≠ []) :
    diff.violatesIsolation = true := by
  simp [violatesIsolation, h]

/-! ### What a report judges -/

section Runs

variable {plan : Plan} {s : Setting} {d d' : Disk} {r : Run}

/-- The outcome of a run that is over, if it has a report, is the verdict on the two snapshots that
were taken. -/
def Run.Judged (plan : Plan) (s : Setting) (r : Run) : Prop :=
  match r.stage with
  | .tearDown outcome | .finished outcome => ∀ report, outcome.report? = some report →
    ∃ before after, r.deeds.filterMap Deed.snapshot? = [before, after] ∧
      outcome = verdict plan s before after (.between before after)
  | _ => True

theorem Run.judged_abort (plan : Plan) (s : Setting) (phase : Phase) (f : Failure) (r : Run) :
    (abort plan s phase f r).value.Judged plan s := by
  rintro report ⟨⟩

theorem Run.judged_invoke {phase : Phase} {payload : Json} {id : String} {next : Stage}
    (hnext : ∀ deeds, Judged plan s ⟨next, deeds⟩) :
    (invoke plan s d phase payload id next r).value.1.Judged plan s := by
  by_cases hanswer :
      (s.service (plan.request payload id) plan.invocationTimeout d).answer = .crashed
  · simp [invoke, hanswer, Judged]
  · rw [value_invoke rfl hanswer]
    split
    · exact hnext _
    · exact judged_abort plan s phase _ _

/-- A step of a run does not settle on an outcome that its snapshots do not bear out. -/
theorem Run.judged_step (hsame : r.ComparesAlike) (haccount : r.Accounted plan s d d')
    (h : r.Judged plan s) : (step plan s r d').value.1.Judged plan s := by
  cases hstage : r.stage with
  | clean =>
    simp only [step, hstage, Logged.value_bind]
    cases (emptyRoot (r.surroundings s).files d' plan.root).2 with
    | ok _ => trivial
    | error f => exact judged_abort plan s .clean f _
  | invokeFirst =>
    simp only [step, hstage]
    exact judged_invoke fun _ => trivial
  | waitFirst =>
    simp only [step, hstage, Logged.value_bind, Logged.value_pure, value_wait]
    trivial
  | captureBefore =>
    simp only [step, settle, hstage, Logged.value_bind]
    cases (takeSnapshot plan s d' r).value.snapshot with
    | error halt =>
      cases halt with
      | failed f => exact judged_abort plan s .captureBefore f _
      | crashed => trivial
    | ok before =>
      cases hempty : before.isEmpty with
      | true =>
        simp only [hempty, if_true]
        exact judged_abort plan s .captureBefore _ _
      | false =>
        simp only [hempty, Bool.false_eq_true, if_false]
        trivial
  | invokeSecond before =>
    simp only [step, hstage]
    exact judged_invoke fun _ => trivial
  | waitSecond before =>
    simp only [step, hstage, Logged.value_bind, Logged.value_pure, value_wait]
    trivial
  | captureAfter before =>
    simp only [step, settle, hstage, Logged.value_bind]
    cases (takeSnapshot plan s d' r).value.snapshot with
    | error halt =>
      cases halt with
      | failed f => exact judged_abort plan s .captureAfter f _
      | crashed => trivial
    | ok after => trivial
  | compare before after =>
    obtain ⟨moves, hdeeds, htells⟩ := haccount
    rw [hstage] at htells
    have htaken : r.deeds.filterMap Deed.snapshot? = [before, after] := hdeeds ▸ htells.taken
    rw [value_step_compare hstage (hsame _ _ hstage)]
    rintro report -
    refine ⟨before, after, ?_, rfl⟩
    simp [did, htaken, Deed.snapshot?]
  | tearDown outcome =>
    obtain ⟨d'', hvalue⟩ := value_tearDown plan s d' hstage
    rw [hvalue]
    unfold Judged at h
    rw [hstage] at h
    exact h
  | finished outcome =>
    simp only [step, hstage, Logged.value_pure]
    exact h
  | crashed =>
    simp only [step, hstage, Logged.value_pure]
    exact h

/-- Whether a run is over without a report. -/
def Run.Unreported (r : Run) : Prop :=
  ∃ outcome, (r.stage = .tearDown outcome ∨ r.stage = .finished outcome) ∧ outcome.report? = none

theorem Run.unreported_step (h : r.Unreported) : (step plan s r d).value.1.Unreported := by
  obtain ⟨outcome, hstage | hstage, hnone⟩ := h
  · obtain ⟨d', hvalue⟩ := value_tearDown plan s d hstage
    rw [hvalue]
    exact ⟨outcome, .inr rfl, hnone⟩
  · simp only [step, hstage, Logged.value_pure]
    exact ⟨outcome, .inr hstage, hnone⟩

/-- Snapshots of two algorithms are not compared: the run is aborted. -/
theorem Run.unreported_compare (h : ¬r.ComparesAlike) :
    (step plan s r d).value.1.Unreported := by
  simp only [ComparesAlike, not_forall] at h
  obtain ⟨before, after, hstage, hdiffer⟩ := h
  simp only [step, hstage, Logged.value_bind, Snapshot.value_diff, if_neg hdiffer]
  exact ⟨_, .inl rfl, rfl⟩

/-- A run that may still come to a report has accounted for its moves, and what it has settled on is
the verdict on its snapshots. -/
def Run.Told (plan : Plan) (s : Setting) (d : Disk) (r : Run) (d' : Disk) : Prop :=
  r.Accounted plan s d d' ∧ r.Judged plan s ∨ r.Unreported

theorem Run.told_step (h : r.Told plan s d d') :
    (step plan s r d').value.1.Told plan s d (step plan s r d').value.2 := by
  rcases h with ⟨haccount, hjudged⟩ | hunreported
  · by_cases hsame : r.ComparesAlike
    · exact .inl ⟨(proceeds_step hsame haccount).accounted, judged_step hsame haccount hjudged⟩
    · exact .inr (unreported_compare hsame)
  · exact .inr (unreported_step hunreported)

theorem Run.told_advance (n : Nat) (h : r.Told plan s d d') :
    (advance plan s n r d').value.1.Told plan s d (advance plan s n r d').value.2 := by
  induction n generalizing r d' with
  | zero => exact h
  | succ n ih => exact ih (told_step h)

/-- The outcome of a run with a report is accounted for, and is the verdict on its snapshots. -/
theorem Plan.account_of_report {outcome : Outcome} {report : VerificationReport}
    (houtcome : (plan.verify s d).value.1.outcome? = some outcome)
    (hreport : outcome.report? = some report) :
    ∃ moves before after, (plan.verify s d).value.1.deeds = moves.map Move.deed ∧
      Account plan s d moves outcome ∧
      (plan.verify s d).value.1.deeds.filterMap Deed.snapshot? = [before, after] ∧
      outcome = Run.verdict plan s before after (.between before after) := by
  have hstart : Run.Accounted plan s d {} d := by
    exact ⟨[], rfl, rfl, .none, List.forall_mem_nil _, List.forall_mem_nil _, rfl⟩
  have htold : (plan.verify s d).value.1.Told plan s d (plan.verify s d).value.2 :=
    Run.told_advance Run.length (.inl ⟨hstart, trivial⟩)
  have hstage : (plan.verify s d).value.1.stage = .finished outcome := by
    unfold Run.outcome? at houtcome
    split at houtcome
    · rename_i hstage
      cases houtcome
      exact hstage
    · cases houtcome
  rcases htold with ⟨⟨moves, hdeeds, htells⟩, hjudged⟩ | ⟨outcome', hstage', hnone⟩
  · unfold Run.Judged at hjudged
    rw [hstage] at htells hjudged
    obtain ⟨before, after, htaken, hverdict⟩ := hjudged report hreport
    exact ⟨moves, before, after, hdeeds, htells, htaken, hverdict⟩
  · rw [hstage] at hstage'
    rcases hstage' with h | h <;> cases h
    rw [hnone] at hreport
    cases hreport

/-! ### What is called inconclusive -/

/-- A path that is left out because of a place above it lies below a place at which the walk failed,
unless its text has a U+FFFD. -/
theorem Snapshot.exists_failed_of_leavesOut {after : Snapshot} {fp : Fingerprinter} {root : Path}
    {l : Location} {items : List WalkItem} (htaken : after.TakenOf d fp root l items) {p : String}
    (htext : Text.Utf8.replacement ∉ p.toList) (hout : after.LeavesOut d l p)
    (hread : p ∉ after.unreadable) :
    ∃ path names e, .failed (some (path, names)) e ∈ items ∧ Below p (key names) := by
  obtain ⟨names, hdirectory, hunreadable, hbelow⟩ := hout.resolve_left hread
  rcases (mem_unreadable htaken.result).1 hunreadable with
    ⟨place, e, hitem, hne, hkey⟩ | ⟨path, names', f, hitem, hkey, -⟩
  · cases place with
    | none => exact absurd hkey hne
    | some place => exact ⟨place.1, place.2, e, hitem, hkey ▸ hbelow⟩
  · -- no file has the key of a directory when the key is plain text
    obtain ⟨-, -, content, modified, hfile⟩ := htaken.lists.files _ _ hitem
    have hplain : Text.Utf8.replacement ∉ (key names).toList := fun hmem =>
      htext (hbelow.subset (List.mem_append_left _ hmem))
    have hsame := WalkItem.eq_of_key_eq (htaken.tree.proper_of_entry? hdirectory)
      (htaken.tree.proper_of_entry? hfile) hplain hkey
    rw [← hsame, hdirectory] at hfile
    cases hfile

/-- A run with a report is called inconclusive exactly when nothing changed, something disappeared,
and all of that is listed as unreadable by the second capture. It has failed then, and only for want
of files or directories that could not be read. Every such failure is called inconclusive, unless a
path that disappeared lies below a place at which the second walk failed, or has a U+FFFD in it. -/
theorem Plan.inconclusive_of_report (plan : Plan) (s : Setting) (d : Disk) {outcome : Outcome}
    {report : VerificationReport}
    (houtcome : (plan.verify s d).value.1.outcome? = some outcome)
    (hreport : outcome.report? = some report) :
    ∃ d₁ d₂ given limits before after, (plan.verify s d).value.1.captured = [d₁, d₂] ∧
      (plan.verify s d).value.1.deeds.filterMap Deed.snapshot? = [before, after] ∧
      (capture d₂ (s.fingerprinter given) limits (s.around 6) plan.root).value.snapshot =
        .ok after ∧
      report.diff = .between before after ∧
      (report.inconclusive = true ↔ report.diff.changed = [] ∧ report.diff.removed ≠ [] ∧
        ∀ p ∈ report.diff.removed, p ∈ after.unreadable) ∧
      ∀ l, d₂.follow plan.root = .ok (l, .directory) →
        (report.inconclusive = true → outcome = .fail report ∧ after.Excuses d₂ l report.diff) ∧
        (d₂.IsTree → (s.around 6).files.Truthful d₂ plan.root →
          (∀ p ∈ report.diff.removed, Text.Utf8.replacement ∉ p.toList ∧
            ∀ path names e, .failed (some (path, names)) e ∈ (s.around 6).files.walk d₂ plan.root →
              ¬Below p (key names)) →
          (report.inconclusive = true ↔ after.Excuses d₂ l report.diff)) := by
  obtain ⟨moves, before, after, hdeeds, haccount, htaken, hverdict⟩ :=
    Plan.account_of_report houtcome hreport
  obtain ⟨d₁, d₂, -, given, limits, before', after', hcaptured, htaken', -, hafter, -, -⟩ :=
    haccount.captures_of_report hdeeds hreport
  cases htaken.symm.trans htaken'
  obtain ⟨report', hreport', hdiff, hinconclusive, hfails⟩ :=
    Run.exists_report_verdict plan s before after (.between before after)
  rw [← hverdict] at hreport' hfails
  cases hreport'.symm.trans hreport
  have hflag : report.inconclusive = true ↔ report.diff.changed = [] ∧
      report.diff.removed ≠ [] ∧ ∀ p ∈ report.diff.removed, p ∈ after.unreadable := by
    rw [hinconclusive, ← hdiff, Run.isInconclusive_iff]
  refine ⟨d₁, d₂, given, limits, before, after, hcaptured, htaken, hafter, hdiff, hflag, ?_⟩
  intro l hleads
  have hexcuses : report.inconclusive = true → after.Excuses d₂ l report.diff := fun h => by
    obtain ⟨hchanged, hremoved, hall⟩ := hflag.1 h
    exact ⟨hchanged, hremoved, fun p hp => .inl (hall p hp)⟩
  refine ⟨fun h => ⟨?_, hexcuses h⟩, fun htree haround hclear => ⟨hexcuses, fun h => ?_⟩⟩
  · refine hfails (SnapshotDiff.violatesIsolation_of_removed ?_)
    rw [← hdiff]
    exact (hflag.1 h).2.1
  · obtain ⟨l', htakenOf⟩ := exists_takenOf_of_capture htree haround hafter
    cases hleads.symm.trans htakenOf.leads
    refine hflag.2 ⟨h.unchanged, h.some_removed, fun p hp => ?_⟩
    by_contra hread
    obtain ⟨path, names, e, hitem, hbelow⟩ :=
      Snapshot.exists_failed_of_leavesOut htakenOf (hclear p hp).1 (h.unread p hp) hread
    exact (hclear p hp).2 path names e hitem hbelow

end Runs

/-! ### Runs whose second walk is blocked -/

/-- A run in which nothing fails has taken its two snapshots. -/
theorem Plan.Succeeds.taken {plan : Plan} {s : Setting} {d d₀ d₁ d₂ : Disk}
    {before after : Snapshot} (h : plan.Succeeds s d d₀ d₁ d₂ before after) :
    (plan.verify s d).value.1.deeds.filterMap Deed.snapshot? = [before, after] := by
  obtain ⟨report, hreport, -⟩ :=
    Run.exists_report_verdict plan s before after (.between before after)
  obtain ⟨moves, -, -, hdeeds, haccount, -, -⟩ := Plan.account_of_report h.outcome.2 hreport
  obtain ⟨d₁', d₂', given₁, given₂, limits, before', after', hcaptured, htaken, hbefore, hafter,
    -⟩ := haccount.captures_of_report hdeeds hreport
  cases h.outcome.1.symm.trans hcaptured
  have hsame₁ := (capture_eq_ok (h.captureBefore given₁)).2
  have hsame₂ := (capture_eq_ok (h.captureAfter given₂)).2
  cases hsame₁.symm.trans (capture_eq_ok hbefore).2
  cases hsame₂.symm.trans (capture_eq_ok hafter).2
  exact htaken

/-- A service that leaves one disk after both requests, and a second walk that sees nothing of it
but a place that it cannot look into. -/
def Setting.blockedAt (d : Disk) (names : List Bytes) : Setting :=
  { Setting.leaving .sha256 d d with
    around := fun i => if i = 6 then
      { files := { visits := fun _ root =>
          [.other, .failed (some (root.descend names)) (.other 13 "Permission denied")] } }
    else {} }

/-- What the second walk comes across. -/
theorem Setting.walk_blockedAt (d d' : Disk) (root : Path) {names : List Bytes}
    (hnames : ∀ n ∈ names, ProperName n) :
    ((Setting.blockedAt d names).around 6).files.walk d' root =
      [.other, .failed (some (root.descend names, names)) (.other 13 "Permission denied")] := by
  simp [blockedAt, FileAccess.walk, Visit.item, Path.namesBelow_descend root hnames]

/-- All files of the disk disappear from the second snapshot of such a run, and the blocked place is
all that is listed as unreadable, if it has a key. -/
theorem Plan.blockedAt_outcome {plan : Plan} {d d' d₀ : Disk} {l : Location} {names : List Bytes}
    {files : List (List Bytes × Bytes)} (hclean : Run.emptyRoot {} d' plan.root = (d₀, .ok ()))
    (htime : Unhindered (Run.limits plan) {}) (hroot : d.follow plan.root = .ok (l, .directory))
    (hfinds : d.Finds plan.root files) (hsome : files ≠ [])
    (hnames : ∀ n ∈ names, ProperName n) :
    ∃ before after,
      (plan.verify (.blockedAt d names) d').value.1.captured = [d, d] ∧
      (plan.verify (.blockedAt d names) d').value.1.outcome? =
        some (Run.verdict plan (.blockedAt d names) before after (.between before after)) ∧
      (plan.verify (.blockedAt d names) d').value.1.deeds.filterMap Deed.snapshot? =
        [before, after] ∧
      (∀ k, k ∈ before.paths ↔ ∃ f ∈ files, k = key f.1) ∧ after.paths = [] ∧
      ∀ k, k ∈ after.unreadable ↔ k ≠ "" ∧ k = key names := by
  obtain ⟨before, hbefore, -⟩ := (hfinds.allRecorded .sha256).exists_untimed plan.root
  have hblocked : ∃ after, untimed d Algorithm.sha256.fingerprinter plan.root [.other,
      .failed (some (plan.root.descend names, names)) (.other 13 "Permission denied")] =
        .ok after := by
    refine ⟨_, untimed_eq_ok_iff.2 ⟨?_, rfl⟩⟩
    intro path names' hitem
    simp at hitem
  obtain ⟨after, hafter⟩ := hblocked
  have hfiles : Algorithm.sha256.fingerprinter.FilesUnderKey :=
    Algorithm.sha256.digestsBy.filesUnderKey
  have hpaths : ∀ k, k ∈ before.paths ↔ ∃ f ∈ files, k = key f.1 := by
    intro k
    rw [Snapshot.mem_paths]
    constructor
    · rintro ⟨r, hr⟩
      obtain ⟨path, names', hitem, rfl, -⟩ := exists_file_of_get? hbefore hfiles hr
      obtain ⟨f, hf, -, rfl⟩ := hfinds.exists_of_file hitem
      exact ⟨f, hf, rfl⟩
    · rintro ⟨f, hf, rfl⟩
      obtain ⟨r, hr⟩ := (hfinds.allRecorded .sha256).exists_record (hfinds.file_mem hf)
      exact exists_get?_of_file hbefore hfiles (hfinds.file_mem hf) hr
  have hsucceeds : plan.Succeeds (.blockedAt d names) d' d₀ d d before after := by
    refine ⟨hclean, ⟨⟨200, rfl⟩, Nat.zero_le _, rfl⟩, fun given => ?_, ?_,
      ⟨⟨200, rfl⟩, Nat.zero_le _, rfl⟩, fun given => ?_⟩
    · exact (capture_of_unhindered htime (requireRoot_of_follow hroot)).trans
        (congrArg Halt.lift hbefore)
    · obtain ⟨f, hf⟩ := List.exists_mem_of_ne_nil files hsome
      obtain ⟨r, hr⟩ := Snapshot.mem_paths.1 ((hpaths _).2 ⟨f, hf, rfl⟩)
      exact Snapshot.isEmpty_of_get? hr
    · have hblocked : Unhindered (Run.limits plan) ((Setting.blockedAt d names).around 6) :=
        ⟨htime.told, htime.staffed, htime.atItem, htime.atFile, htime.atEnd⟩
      refine (capture_of_unhindered hblocked (requireRoot_of_follow hroot)).trans ?_
      rw [Setting.walk_blockedAt d d plan.root hnames]
      exact congrArg Halt.lift hafter
  have htaken := hsucceeds.taken
  refine ⟨before, after, hsucceeds.outcome.1, hsucceeds.outcome.2, htaken, hpaths, ?_, fun k => ?_⟩
  · rw [List.eq_nil_iff_forall_not_mem]
    intro k hk
    obtain ⟨r, hr⟩ := Snapshot.mem_paths.1 hk
    obtain ⟨path, names', hitem, -⟩ := exists_file_of_get? hafter hfiles hr
    simp at hitem
  · rw [mem_unreadable hafter]
    constructor
    · rintro (⟨place, e, hitem, hne, rfl⟩ | ⟨path, names', f, hitem, -⟩)
      · simp only [List.mem_cons, reduceCtorEq, WalkItem.failed.injEq, List.not_mem_nil, or_false,
          false_or] at hitem
        rw [hitem.1] at hne ⊢
        exact ⟨hne, rfl⟩
      · simp at hitem
    · rintro ⟨hne, rfl⟩
      exact .inl ⟨_, _, List.mem_cons_of_mem _ List.mem_cons_self, hne, rfl⟩

/-- A disk with one file, in the directory `d` of the root `c`. -/
def Disk.nested : Disk where
  entries := [([[99]], .directory), ([[99], [100]], .directory),
    ([[99], [100], [97]], .file [65] .epoch)]

/-- A plan for the root `c`. -/
def Plan.ofNested : Plan :=
  ⟨⟨[99]⟩, .null, .null, "", "", .ofMillis 0, .ofMillis 1000, .ofMillis 1000, 1, false⟩

theorem Disk.isTree_nested : Disk.nested.IsTree := by decide

theorem Disk.follow_nested : Disk.nested.follow Plan.ofNested.root = .ok ([[99]], .directory) := by
  cbv

theorem Run.emptyRoot_nested : emptyRoot {} {} Plan.ofNested.root =
    ({ entries := [([[99]], .directory)] }, .ok ()) := by
  cbv

theorem Disk.walk_nested : Disk.nested.walk Plan.ofNested.root =
    [.other, .other, .file ⟨[99, 47, 100, 47, 97]⟩ [[100], [97]]] := by
  cbv

theorem Disk.finds_nested : Disk.nested.Finds Plan.ofNested.root [([[100], [97]], [65])] := by
  refine ⟨isTree_nested, by rw [walk_nested]; decide, by rw [walk_nested]; decide, ?_⟩
  rw [List.forall_mem_singleton]
  cbv

theorem Disk.eq_of_isFile_nested {names : List Bytes} (h : Disk.nested.IsFile ([[99]] ++ names)) :
    names = [[100], [97]] := by
  obtain ⟨content, modified, hentry⟩ := h
  have hmem := Disk.mem_entries (by simp) hentry
  simp only [Disk.nested, List.cons_append, List.nil_append, List.mem_cons, Prod.mk.injEq,
    List.cons.injEq, true_and, reduceCtorEq, and_false, List.not_mem_nil, or_false,
    false_or] at hmem
  exact hmem.1

/-- A walk that is blocked at the directory or at the file tells the truth about the disk. -/
theorem Setting.truthful_blockedAt {names : List Bytes} {e : Entry}
    (hnames : names <+: [[100], [97]]) (he : Disk.nested.entry? ([[99]] ++ names) = some e)
    (i : Nat) :
    ((Setting.blockedAt .nested names).around i).files.Truthful .nested Plan.ofNested.root := by
  by_cases hi : i = 6
  · subst hi
    refine ⟨rfl, fun l hl => ?_⟩
    cases Disk.follow_nested.symm.trans hl
    rw [walk_blockedAt _ _ _ (Disk.isTree_nested.proper_of_entry? he)]
    refine ⟨?_, ?_, ?_⟩
    · intro path names' hitem
      simp at hitem
    · intro path names' e' hitem
      simp only [List.mem_cons, reduceCtorEq, WalkItem.failed.injEq, Option.some.injEq,
        Prod.mk.injEq, List.not_mem_nil, or_false, false_or] at hitem
      obtain ⟨⟨-, rfl⟩, -⟩ := hitem
      exact ⟨.inr ⟨e, he⟩, by simp⟩
    · intro names' _ hfile
      rw [Disk.eq_of_isFile_nested hfile]
      refine .inr ⟨_, _, List.mem_cons_of_mem _ List.mem_cons_self, ?_⟩
      rintro path above heq
      cases heq
      exact hnames
  · simp only [blockedAt, if_neg hi]
    exact FileAccess.truthful Disk.isTree_nested _

/-- The run fails for want of the one file, and the blocked place is listed as unreadable, if it has
a key. -/
theorem Plan.ofNested_judged (names : List Bytes) (hnames : ∀ n ∈ names, ProperName n) :
    ∃ before after report,
      (ofNested.verify (.blockedAt .nested names) {}).value.1.captured = [.nested, .nested] ∧
      (ofNested.verify (.blockedAt .nested names) {}).value.1.outcome? = some (.fail report) ∧
      (ofNested.verify (.blockedAt .nested names) {}).value.1.deeds.filterMap Deed.snapshot? =
        [before, after] ∧
      report.diff.changed = [] ∧ (∀ p, p ∈ report.diff.removed ↔ p = "d/a") ∧
      report.inconclusive = Run.isInconclusive report.diff after ∧
      ∀ k, k ∈ after.unreadable ↔ k ≠ "" ∧ k = key names := by
  obtain ⟨before, after, hcaptured, houtcome, htaken, hbefore, hafter, hunreadable⟩ :=
    Plan.blockedAt_outcome Run.emptyRoot_nested (unhindered_of_still (by decide) (by decide))
      Disk.follow_nested Disk.finds_nested (by decide) hnames
  have hfile : key [[100], [97]] = "d/a" := by decide
  have hremoved : ∀ p, p ∈ (SnapshotDiff.between before after).removed ↔ p = "d/a" := by
    intro p
    rw [SnapshotDiff.mem_removed, hbefore, hafter]
    simp [hfile]
  have hchanged : (SnapshotDiff.between before after).changed = [] := by
    rw [List.eq_nil_iff_forall_not_mem]
    intro p hp
    have hpaths := (SnapshotDiff.mem_paths_of_differsAt (SnapshotDiff.mem_changed.1 hp)).2
    rw [hafter] at hpaths
    cases hpaths
  obtain ⟨report, -, hdiff, hinconclusive, hfails⟩ := Run.exists_report_verdict ofNested
    (.blockedAt .nested names) before after (.between before after)
  rw [hfails (SnapshotDiff.violatesIsolation_of_removed
    (List.ne_nil_of_mem ((hremoved "d/a").2 rfl)))] at houtcome
  rw [← hdiff] at hchanged hremoved hinconclusive
  exact ⟨before, after, report, hcaptured, houtcome, htaken, hchanged, hremoved, hinconclusive,
    hunreadable⟩

/-- The run fails for want of the one file, and the blocked place is listed as unreadable. -/
theorem Plan.ofNested_fails (names : List Bytes) (hnames : ∀ n ∈ names, ProperName n)
    (hkey : key names ≠ "") :
    ∃ before after report,
      (ofNested.verify (.blockedAt .nested names) {}).value.1.captured = [.nested, .nested] ∧
      (ofNested.verify (.blockedAt .nested names) {}).value.1.outcome? = some (.fail report) ∧
      (ofNested.verify (.blockedAt .nested names) {}).value.1.deeds.filterMap Deed.snapshot? =
        [before, after] ∧
      report.diff.changed = [] ∧ (∀ p, p ∈ report.diff.removed ↔ p = "d/a") ∧
      report.inconclusive = Run.isInconclusive report.diff after ∧
      ∀ k, k ∈ after.unreadable ↔ k = key names := by
  obtain ⟨before, after, report, hcaptured, houtcome, htaken, hchanged, hremoved, hflag,
    hunreadable⟩ := Plan.ofNested_judged names hnames
  refine ⟨before, after, report, hcaptured, houtcome, htaken, hchanged, hremoved, hflag,
    fun k => (hunreadable k).trans (and_iff_right_of_imp ?_)⟩
  rintro rfl
  exact hkey

/-- The second walk cannot look at a file: the failure is called inconclusive. -/
theorem Plan.unreadable_file_is_inconclusive :
    let s : Setting := .blockedAt .nested [[100], [97]]
    ∃ report, ((ofNested.verify s {}).value.1.outcome? = some (.fail report) ∧
        (Outcome.fail report).report? = some report ∧ Disk.nested.IsTree ∧
        (s.around 6).files.Truthful .nested ofNested.root) ∧
      report.inconclusive = true ∧
      ∃ after : Snapshot, after.Excuses .nested [[99]] report.diff := by
  intro s
  have hkey : key [[100], [97]] = "d/a" := by decide
  obtain ⟨before, after, report, hcaptured, houtcome, htaken, hchanged, hremoved, -,
    hunreadable⟩ := Plan.ofNested_fails [[100], [97]] (by decide) (by decide)
  have htruthful : (s.around 6).files.Truthful .nested ofNested.root :=
    Setting.truthful_blockedAt (e := .file [65] .epoch) (List.prefix_refl _) rfl 6
  obtain ⟨d₁, d₂, given, limits, before', after', hcaptured', htaken', -, -, hflag, hexcuses⟩ :=
    ofNested.inconclusive_of_report s {} houtcome rfl
  cases hcaptured.symm.trans hcaptured'
  cases htaken.symm.trans htaken'
  obtain ⟨-, hexact⟩ := hexcuses [[99]] Disk.follow_nested
  have hinconclusive : report.inconclusive = true := by
    refine hflag.2 ⟨hchanged, List.ne_nil_of_mem ((hremoved _).2 rfl), fun p hp => ?_⟩
    rw [hunreadable, hkey]
    exact (hremoved p).1 hp
  have hclear : ∀ p ∈ report.diff.removed, Text.Utf8.replacement ∉ p.toList ∧
      ∀ path names e,
        .failed (some (path, names)) e ∈ (s.around 6).files.walk .nested ofNested.root →
          ¬Below p (key names) := by
    intro p hp
    cases (hremoved p).1 hp
    refine ⟨by decide, fun path names e hitem => ?_⟩
    rw [Setting.walk_blockedAt _ _ _ (by decide)] at hitem
    simp only [List.mem_cons, reduceCtorEq, WalkItem.failed.injEq, Option.some.injEq,
      Prod.mk.injEq, List.not_mem_nil, or_false, false_or] at hitem
    rw [hitem.1.2]
    decide
  exact ⟨report, ⟨houtcome, rfl, Disk.isTree_nested, htruthful⟩, hinconclusive, after,
    (hexact Disk.isTree_nested htruthful hclear).1 hinconclusive⟩

/-- The second walk cannot look into a directory: the one file below it is as little a finding, but
the failure counts as conclusive. -/
theorem Plan.unreadable_directory_is_conclusive :
    let s : Setting := .blockedAt .nested [[100]]
    (s.Identifies "sha256" ∧ (ofNested.verify s {}).value.1.captured = [.nested, .nested] ∧
      Disk.nested.IsTree ∧ (∀ i, (s.around i).files.Truthful .nested ofNested.root) ∧
      Disk.nested.follow ofNested.root = .ok ([[99]], .directory)) ∧
    ∃ report before after, (ofNested.verify s {}).value.1.outcome? = some (.fail report) ∧
      (ofNested.verify s {}).value.1.deeds.filterMap Deed.snapshot? = [before, after] ∧
      after.Excuses .nested [[99]] report.diff ∧ report.inconclusive = false := by
  intro s
  have hkey : key [[100]] = "d" := by decide
  obtain ⟨before, after, report, hcaptured, houtcome, htaken, hchanged, hremoved, hflag,
    hunreadable⟩ := Plan.ofNested_fails [[100]] (by decide) (by decide)
  have htruthful : ∀ i, (s.around i).files.Truthful .nested ofNested.root :=
    Setting.truthful_blockedAt (e := .directory) (by decide) rfl
  refine ⟨⟨fun _ => rfl, hcaptured, Disk.isTree_nested, htruthful, Disk.follow_nested⟩, report,
    before, after, houtcome, htaken, ⟨hchanged, List.ne_nil_of_mem ((hremoved _).2 rfl), ?_⟩, ?_⟩
  · intro p hp
    cases (hremoved p).1 hp
    exact .inr ⟨[[100]], rfl, (hunreadable _).2 rfl, by decide⟩
  · rw [hflag, Bool.eq_false_iff]
    intro hinconclusive
    have hread := (Run.isInconclusive_iff.1 hinconclusive).2.2 "d/a" ((hremoved _).2 rfl)
    rw [hunreadable, hkey] at hread
    exact absurd hread (by decide)

end CacheAudit
