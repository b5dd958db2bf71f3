import CacheAudit.Proofs.Verification.Inconclusive
import CacheAudit.Proofs.Verification.Members

/-!
# What a report tells of what could not be read

A capture leaves out files that cannot be read and places that the walk cannot look into, and lists
their keys as unreadable. A report has a warning for each. Only a failure at the root itself, or at
no known place, has no key: it leaves no trace in the snapshot and none in the report.
-/

namespace CacheAudit

open Capture
open WalkItem (key)

/-- What a capture could not read: the place at which its walk failed, if that is known, or a file.
Places are given by the names that lead to them from the root. -/
inductive Capture.Misses (d : Disk) (fp : Fingerprinter) (items : List WalkItem) :
    Option (List Bytes) → Prop
  | walk {place : Option (Path × List Bytes)} {e : SystemError} (h : .failed place e ∈ items) :
    Misses d fp items (place.map Prod.snd)
  | file {path : Path} {names : List Bytes} {f : Failure} (h : .file path names ∈ items)
    (hf : fp.fingerprint d path (key names) = .error f) (hkind : f.kind = .fileUnreadable) :
    Misses d fp items (some names)

/-- Everything that a capture missed is told of by its key, except for what has none: the root
itself and what is at no known place. -/
def Capture.Tells (d : Disk) (fp : Fingerprinter) (items : List WalkItem) (told : String → Prop) :
    Prop :=
  ∀ place, Misses d fp items place →
    (∃ names, place = some names ∧ told (key names)) ∨ key (place.getD []) = ""

variable {d : Disk} {fp : Fingerprinter} {limits : CaptureLimits} {around : Surroundings}
  {root : Path} {items : List WalkItem} {snapshot : Snapshot}

theorem Capture.Tells.mono {told told' : String → Prop} (h : Tells d fp items told)
    (hmono : ∀ k, told k → told' k) : Tells d fp items told' := by
  intro place hmiss
  rcases h place hmiss with ⟨names, hplace, htold⟩ | hkeyless
  · exact .inl ⟨names, hplace, hmono _ htold⟩
  · exact .inr hkeyless

/-- A snapshot tells what its capture missed. -/
theorem Capture.tells_unreadable (h : untimed d fp root items = .ok snapshot) :
    Tells d fp items (· ∈ snapshot.unreadable) := by
  intro place hmiss
  cases hmiss with
  | @walk place e hitem =>
    by_cases hkey : key ((place.map Prod.snd).getD []) = ""
    · exact .inr hkey
    cases place with
    | none => exact absurd rfl hkey
    | some place =>
      exact .inl ⟨place.2, rfl, (mem_unreadable h).2 (.inl ⟨_, e, hitem, hkey, rfl⟩)⟩
  | @file path names f hitem hf hkind =>
    exact .inl ⟨names, rfl, (mem_unreadable h).2 (.inr ⟨path, names, f, hitem, rfl, hf⟩)⟩

/-- What a snapshot lists was missed. -/
theorem Capture.misses_of_unreadable (h : untimed d fp root items = .ok snapshot) {k : String}
    (hk : k ∈ snapshot.unreadable) : ∃ names, k = key names ∧ Misses d fp items (some names) := by
  rcases (mem_unreadable h).1 hk with ⟨place, e, hitem, hne, rfl⟩ | ⟨path, names, f, hitem, rfl, hf⟩
  · cases place with
    | none => exact absurd rfl hne
    | some place => exact ⟨place.2, rfl, .walk hitem⟩
  · exact ⟨names, rfl, .file hitem hf ((untimed_eq_ok_iff.1 h).1 path names hitem f hf)⟩

/-- What was unreadable for the first or the second snapshot is warned of. -/
theorem Run.mem_warnings {before after : Snapshot} {k : String} :
    (k ∈ before.unreadable →
        "unreadable during capture_before: " ++ k ∈ warnings before after) ∧
      (k ∈ after.unreadable →
        "unreadable during capture_after: " ++ k ∈ warnings before after) := by
  refine ⟨fun h => List.mem_append_left _ ?_, fun h => List.mem_append_right _ ?_⟩
  · exact List.mem_map_of_mem (StringSet.mem_toList.2 h)
  · exact List.mem_map_of_mem (StringSet.mem_toList.2 h)

/-- A run whose second walk is blocked at a place misses that place alone, and its report has the
warning for it, if it has a key, and no other. -/
theorem Plan.ofNested_warns (names : List Bytes) (hnames : ∀ n ∈ names, ProperName n) :
    let s : Setting := .blockedAt .nested names
    ∃ report after given limits, (ofNested.verify s {}).value.1.outcome? = some (.fail report) ∧
      (∃ before, (ofNested.verify s {}).value.1.deeds.filterMap Deed.snapshot? = [before, after]) ∧
      (capture .nested (s.fingerprinter given) limits (s.around 6) ofNested.root).value.snapshot =
        .ok after ∧
      Misses .nested (s.fingerprinter given) ((s.around 6).files.walk .nested ofNested.root)
        (some names) ∧
      (∀ k, k ∈ after.unreadable ↔ k ≠ "" ∧ k = key names) ∧
      (∀ w, w ∈ report.warnings ↔ key names ≠ "" ∧
        w = "unreadable during capture_after: " ++ key names) ∧
      report.inconclusive = Run.isInconclusive report.diff after ∧ "d/a" ∈ report.diff.removed := by
  intro s
  obtain ⟨before, after, report, hcaptured, houtcome, htaken, -, hremoved, hflag, hunreadable⟩ :=
    Plan.ofNested_judged names hnames
  obtain ⟨moves, -, -, hdeeds, haccount, -, -⟩ := Plan.account_of_report houtcome rfl
  obtain ⟨d₁, d₂, given₁, given₂, limits, before', after', hcaptured', htaken', hbefore, hafter, -,
    hwarnings⟩ := haccount.captures_of_report hdeeds rfl
  cases hcaptured.symm.trans hcaptured'
  cases htaken.symm.trans htaken'
  -- the first capture reads everything
  obtain ⟨before', hbefore', hread⟩ :=
    (Disk.finds_nested.allRecorded .sha256).exists_untimed ofNested.root
  cases (capture_eq_ok hbefore).2.symm.trans hbefore'
  have hmiss : Misses .nested (s.fingerprinter given₂)
      ((s.around 6).files.walk .nested ofNested.root) (some names) := by
    rw [Setting.walk_blockedAt _ _ _ hnames]
    exact .walk (List.mem_cons_of_mem _ List.mem_cons_self)
  refine ⟨report, after, given₂, limits, houtcome, ⟨before, htaken⟩, hafter, hmiss, hunreadable,
    fun w => ?_, hflag, (hremoved _).2 rfl⟩
  have hnone : before.unreadable.toList = [] :=
    List.eq_nil_iff_forall_not_mem.2 fun k hk => hread k (StringSet.mem_toList.1 hk)
  rw [hwarnings, Run.warnings, hnone, List.map_nil, List.nil_append, List.mem_map]
  constructor
  · rintro ⟨k, hk, rfl⟩
    obtain ⟨hne, rfl⟩ := (hunreadable k).1 (StringSet.mem_toList.1 hk)
    exact ⟨hne, rfl⟩
  · rintro ⟨hne, rfl⟩
    exact ⟨_, StringSet.mem_toList.2 ((hunreadable _).2 ⟨hne, rfl⟩), rfl⟩

/-- A snapshot lists what its capture missed, except for the root itself and what is at no known
place, and nothing else. The report of a run that used the snapshot has a warning for each. -/
theorem Plan.omissions_are_told
    (h : (capture d fp limits around root).value.snapshot = .ok snapshot) :
    Tells d fp (around.files.walk d root) (· ∈ snapshot.unreadable) ∧
    (∀ k ∈ snapshot.unreadable, ∃ names, k = key names ∧
      Misses d fp (around.files.walk d root) (some names)) ∧
    ∀ (plan : Plan) (s : Setting) (start : Disk) (outcome : Outcome) (report : VerificationReport),
      (plan.verify s start).value.1.outcome? = some outcome → outcome.report? = some report →
      ∃ before after,
        (plan.verify s start).value.1.deeds.filterMap Deed.snapshot? = [before, after] ∧
        (before = snapshot → Tells d fp (around.files.walk d root)
          (fun k => "unreadable during capture_before: " ++ k ∈ report.warnings)) ∧
        (after = snapshot → Tells d fp (around.files.walk d root)
          (fun k => "unreadable during capture_after: " ++ k ∈ report.warnings)) := by
  have huntimed := (capture_eq_ok h).2
  have htells := tells_unreadable huntimed
  refine ⟨htells, fun k => misses_of_unreadable huntimed, ?_⟩
  intro plan s start outcome report houtcome hreport
  obtain ⟨moves, before, after, hdeeds, haccount, htaken, -⟩ :=
    Plan.account_of_report houtcome hreport
  obtain ⟨before', after', htaken', -, -, -, hwarnings⟩ := haccount.report report hreport
  rw [snapshots, ← hdeeds, htaken] at htaken'
  cases htaken'
  refine ⟨before, after, htaken, ?_, ?_⟩
  · rintro rfl
    rw [hwarnings]
    exact htells.mono fun k => Run.mem_warnings.1
  · rintro rfl
    rw [hwarnings]
    exact htells.mono fun k => Run.mem_warnings.2

/-- The second walk cannot look at a file, so the report warns of it. -/
theorem Plan.omitted_file_is_told :
    let s : Setting := .blockedAt .nested [[100], [97]]
    ∃ report after given limits, (ofNested.verify s {}).value.1.outcome? = some (.fail report) ∧
      (Outcome.fail report).report? = some report ∧
      (capture .nested (s.fingerprinter given) limits (s.around 6) ofNested.root).value.snapshot =
        .ok after ∧
      "d/a" ∈ after.unreadable ∧ "unreadable during capture_after: d/a" ∈ report.warnings := by
  intro s
  have hkey : key [[100], [97]] = "d/a" := by decide
  obtain ⟨report, after, given, limits, houtcome, ⟨before, htaken⟩, hafter, hmiss, -⟩ :=
    Plan.ofNested_warns [[100], [97]] (by decide)
  obtain ⟨hlists, -, hreports⟩ := Plan.omissions_are_told hafter
  have hlisted := hlists _ hmiss
  obtain ⟨before', after', htaken', -, hwarned⟩ := hreports _ _ _ _ _ houtcome rfl
  cases htaken.symm.trans htaken'
  have htold := hwarned rfl _ hmiss
  simp only [Option.some.injEq, exists_eq_left', Option.getD_some, hkey] at hlisted htold
  exact ⟨report, after, given, limits, houtcome, rfl, hafter, hlisted.resolve_right (by decide),
    htold.resolve_right (by decide)⟩

/-- A service that leaves a file, and a fingerprinter that cannot read any. -/
def Setting.unread (d : Disk) : Setting :=
  { Setting.leaving .sha256 d d with
    fingerprinter := fun _ => ⟨"sha256", fun _ _ _ => .error { kind := .fileUnreadable }⟩ }

/-- The second walk cannot look into the root itself: the run fails for good without a warning.
A run whose first capture cannot read the only file is aborted without one. -/
theorem Plan.omissions_untold :
    (let s : Setting := .blockedAt .nested []
      ∃ report after given limits, (ofNested.verify s {}).value.1.outcome? = some (.fail report) ∧
        (capture .nested (s.fingerprinter given) limits (s.around 6) ofNested.root).value.snapshot =
          .ok after ∧
        Misses .nested (s.fingerprinter given) ((s.around 6).files.walk .nested ofNested.root)
          (some []) ∧
        (∀ k, k ∉ after.unreadable) ∧ report.warnings = [] ∧ report.inconclusive = false) ∧
    let s : Setting := .unread .nested
    ∃ before limits run, (ofNested.verify s {}).value.1.outcome? = some (.aborted run) ∧
      (capture .nested (s.fingerprinter []) limits (s.around 3) ofNested.root).value.snapshot =
        .ok before ∧
      "d/a" ∈ before.unreadable ∧ run.errorCode = "ERR_NO_ARTIFACTS_PRODUCED" ∧
      (Outcome.aborted run).report? = none := by
  have hroot : requireRoot {} .nested Plan.ofNested.root = .ok () :=
    requireRoot_of_follow Disk.follow_nested
  refine ⟨?_, ?_⟩
  · intro s
    obtain ⟨report, after, given, limits, houtcome, -, hafter, hmiss, hunreadable, hwarnings, hflag,
      hremoved⟩ := Plan.ofNested_warns [] (by decide)
    have hnothing : ∀ k, k ∉ after.unreadable := by
      intro k hk
      obtain ⟨hne, rfl⟩ := (hunreadable k).1 hk
      exact hne rfl
    refine ⟨report, after, given, limits, houtcome, hafter, hmiss, hnothing, ?_, ?_⟩
    · exact List.eq_nil_iff_forall_not_mem.2 fun w hw => ((hwarnings w).1 hw).1 rfl
    · rw [hflag, Bool.eq_false_iff]
      exact fun h => hnothing _ ((Run.isInconclusive_iff.1 h).2.2 _ hremoved)
  · intro s
    have huntimed : untimed .nested (s.fingerprinter []) ofNested.root
        (({} : FileAccess).walk .nested ofNested.root) =
          .ok (.ofRecords ofNested.root.display .epoch "sha256" [] [key [[100], [97]]]) := by
      rw [FileAccess.walk_default Disk.isTree_nested, Disk.walk_nested]
      rfl
    have hbefore (given : List (List String)) : (capture .nested (s.fingerprinter given)
        ⟨1, some (.ofMillis 1000)⟩ {} ofNested.root).value.snapshot =
          .ok (.ofRecords ofNested.root.display .epoch "sha256" [] [key [[100], [97]]]) :=
      (capture_of_unhindered (unhindered_of_still (by decide) (by decide)) hroot).trans
        (congrArg Halt.lift huntimed)
    have haborted : (ofNested.verify s {}).value.1.outcome? = some (Run.abortedOutcome ofNested s
        .captureBefore (Run.noArtifacts ofNested s.firstId)) :=
      Run.aborted_of_isEmpty Run.emptyRoot_nested ⟨⟨200, rfl⟩, Nat.zero_le _, rfl⟩ hbefore rfl
    refine ⟨_, _, _, haborted, hbefore [], ?_, rfl, rfl⟩
    rw [Snapshot.ofRecords, StringSet.mem_ofList]
    decide

end CacheAudit
