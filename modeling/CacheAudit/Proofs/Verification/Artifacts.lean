import CacheAudit.Proofs.Verification.Omissions

/-!
# Runs that are said to have left no files

A run is aborted after its first capture if the snapshot has no records. The abortion says that the
first workload left no files. That is so when there were none; but files that were there and that
the capture could not read, or could not get at, have no records either.
-/

namespace CacheAudit

open Capture
open WalkItem (key)

/-! ### Snapshots without records -/

/-- A file that a walk came upon and whose fingerprint was taken. -/
def Capture.Reads (d : Disk) (fp : Fingerprinter) (items : List WalkItem) (names : List Bytes) :
    Prop :=
  ∃ path r, .file path names ∈ items ∧ fp.fingerprint d path (key names) = .ok r

section Snapshots

variable {d : Disk} {fp : Fingerprinter} {root : Path} {l : Location} {items : List WalkItem}
  {snapshot : Snapshot}

theorem Snapshot.isEmpty_ofRecords_iff {label algorithm : String} {capturedAt : Timestamp}
    {records : List FileRecord} {unreadable : List String} :
    (ofRecords label capturedAt algorithm records unreadable).isEmpty = true ↔ records = [] := by
  constructor
  · intro hempty
    by_contra hne
    obtain ⟨r, hr⟩ := List.exists_mem_of_ne_nil records hne
    obtain ⟨w, hw⟩ := StringMap.exists_get?_ofList
      (List.mem_map_of_mem (f := fun r : FileRecord => (r.path, r)) hr)
    have hget : (ofRecords label capturedAt algorithm records unreadable).get? r.path = some w := hw
    rw [Snapshot.isEmpty_of_get? hget] at hempty
    cases hempty
  · rintro rfl
    rfl

/-- A snapshot is empty when no file of the walk was read. -/
theorem Capture.isEmpty_iff (h : untimed d fp root items = .ok snapshot) :
    snapshot.isEmpty = true ↔ ∀ names, ¬Reads d fp items names := by
  obtain ⟨-, rfl⟩ := untimed_eq_ok_iff.1 h
  rw [Snapshot.isEmpty_ofRecords_iff, List.eq_nil_iff_forall_not_mem]
  simp only [mem_records, Reads]
  constructor
  · rintro hnone names ⟨path, r, hitem, hr⟩
    exact hnone r ⟨path, names, hitem, hr⟩
  · rintro hnone r ⟨path, names, hitem, hr⟩
    exact hnone names ⟨path, r, hitem, hr⟩

/-- A file that was not read is one that the capture missed, or lies below a place that it
missed. -/
theorem Snapshot.TakenOf.exists_miss (h : snapshot.TakenOf d fp root l items) {names : List Bytes}
    (hne : names ≠ []) (hfile : d.IsFile (l ++ names)) (hunread : ¬Reads d fp items names) :
    ∃ place, Misses d fp items place ∧ ∀ above, place = some above → above <+: names := by
  rcases h.lists.complete names hne hfile with hitem | ⟨place, e, hitem, hhides⟩
  · cases hresult : fp.fingerprint d (root.descend names) (key names) with
    | ok r => exact absurd ⟨_, r, hitem, hresult⟩ hunread
    | error f =>
      have hkind := (untimed_eq_ok_iff.1 h.result).1 _ _ hitem f hresult
      refine ⟨some names, .file hitem hresult hkind, ?_⟩
      rintro above ⟨⟩
      exact List.prefix_refl names
  · refine ⟨place.map Prod.snd, .walk hitem, fun above habove => ?_⟩
    obtain ⟨⟨path, above'⟩, rfl, rfl⟩ := Option.map_eq_some_iff.1 habove
    exact hhides path above' rfl

end Snapshots

/-! ### Runs and their first capture -/

/-- A run comes to its first capture, of the disk `d₁`: the root could be emptied, and the service
answered the first request with success and in time. -/
def Plan.Leaves (plan : Plan) (s : Setting) (d d₁ : Disk) : Prop :=
  ∃ d₀, Run.emptyRoot (s.around 0).files d plan.root = (d₀, .ok ()) ∧
    (s.service (plan.request plan.firstPayload s.firstId) plan.invocationTimeout d₀).Succeeds
      plan.invocationTimeout d₁

/-- What the first capture of a run answers if it is made of a given disk. -/
def Plan.firstCapture (plan : Plan) (s : Setting) (d₁ : Disk) :
    Except (Halt Failure) Snapshot :=
  (capture d₁ (s.fingerprinter []) (Run.limits plan) (s.around 3) plan.root).value.snapshot

/-- What the walk of the first capture of a run comes upon on a given disk. -/
def Plan.firstWalk (plan : Plan) (s : Setting) (d₁ : Disk) : List WalkItem :=
  (s.around 3).files.walk d₁ plan.root

/-- The outcome is not that of a run that was aborted at its first capture. -/
def Outcome.Acquits (outcome : Outcome) : Prop :=
  ∀ run, outcome = .aborted run → run.phase ≠ .captureBefore

/-- A run at this stage is not going to be aborted at its first capture. -/
def Stage.Acquits : Stage → Prop
  | .clean | .invokeFirst | .waitFirst | .captureBefore => False
  | .tearDown outcome | .finished outcome => outcome.Acquits
  | _ => True

section Runs

variable {plan : Plan} {s : Setting} {d d₁ : Disk} {r : Run}

theorem Outcome.acquits_abortedOutcome (plan : Plan) (s : Setting) {phase : Phase}
    (hphase : phase ≠ .captureBefore) (f : Failure) :
    (Run.abortedOutcome plan s phase f).Acquits := by
  rintro run ⟨⟩
  exact hphase

theorem Outcome.acquits_verdict (before after : Snapshot) (diff : SnapshotDiff) :
    (Run.verdict plan s before after diff).Acquits := by
  intro run hrun
  rw [Run.verdict] at hrun
  split at hrun <;> cases hrun

/-- A response counts as an answer only if it is a success and in time. -/
theorem Run.judge_response_eq_ok {timeout : Duration} {status elapsedNs : Nat} {id : String}
    {success : Bool}
    (h : judge timeout id (.response status success) elapsedNs = .ok ()) :
    success = true ∧ elapsedNs ≤ timeout.nanos := by
  obtain ⟨late, refused, -, -, -, -, hjudge⟩ :=
    judge_response timeout id status success elapsedNs
  rw [hjudge] at h
  split at h
  · cases h
  · rename_i htime
    split at h
    · rename_i hsuccess
      exact ⟨hsuccess, Nat.le_of_not_lt htime⟩
    · cases h

/-- A reply leads on if it is a success, and otherwise to an end in the phase of its request. -/
theorem Run.afterReply_cases (plan : Plan) (s : Setting) (phase : Phase) (id : String)
    (next : Stage) (reply : Reply) :
    reply.Succeeds plan.invocationTimeout reply.disk ∧
        afterReply plan s phase id next reply = next ∨
      (phase ≠ .captureBefore → (afterReply plan s phase id next reply).Acquits) := by
  rw [afterReply]
  cases hjudge : judge plan.invocationTimeout id reply.answer reply.elapsedNs with
  | error f =>
    cases hanswer : reply.answer with
    | crashed => exact .inr fun _ => trivial
    | failed g => exact .inr fun hphase => Outcome.acquits_abortedOutcome plan s hphase f
    | response status success =>
      exact .inr fun hphase => Outcome.acquits_abortedOutcome plan s hphase f
  | ok u =>
    cases hanswer : reply.answer with
    | crashed => exact .inr fun _ => trivial
    | failed g =>
      rw [hanswer] at hjudge
      cases hjudge
    | response status success =>
      rw [hanswer] at hjudge
      obtain ⟨rfl, hintime⟩ := judge_response_eq_ok hjudge
      exact .inl ⟨⟨⟨status, hanswer⟩, hintime, rfl⟩, rfl⟩

/-- Once a run is past its first capture, no step blames that. -/
theorem Run.acquits_step (h : r.stage.Acquits) : (step plan s r d).value.1.stage.Acquits := by
  obtain ⟨stage, deeds⟩ := r
  cases stage with
  | clean => exact h.elim
  | invokeFirst => exact h.elim
  | waitFirst => exact h.elim
  | captureBefore => exact h.elim
  | invokeSecond before =>
    simp only [step, value_invoke_eq]
    rcases afterReply_cases plan s .secondInvocation s.secondId (.waitSecond before)
      (s.service (plan.request plan.secondPayload s.secondId) plan.invocationTimeout d) with
      ⟨-, hnext⟩ | hacquits
    · rw [hnext]
      trivial
    · exact hacquits (by decide)
  | waitSecond before =>
    simp only [step, Logged.value_bind, value_wait, Logged.value_pure]
    trivial
  | captureAfter before =>
    simp only [step, settle, Logged.value_bind]
    cases (takeSnapshot plan s d ⟨.captureAfter before, deeds⟩).value.snapshot with
    | error halt =>
      have hphase : Phase.captureAfter ≠ .captureBefore := by decide
      cases halt with
      | failed f => exact Outcome.acquits_abortedOutcome plan s hphase f
      | crashed => trivial
    | ok after => trivial
  | compare before after =>
    simp only [step, Logged.value_bind]
    cases (before.diff after).value with
    | error f =>
      have hphase : Phase.compare ≠ .captureBefore := by decide
      exact Outcome.acquits_abortedOutcome plan s hphase f
    | ok diff => exact Outcome.acquits_verdict before after diff
  | tearDown outcome =>
    obtain ⟨d', hvalue⟩ := value_tearDown plan s d (r := ⟨.tearDown outcome, deeds⟩) rfl
    rw [hvalue]
    exact h
  | finished outcome => exact h
  | crashed => exact h

theorem Run.acquits_advance {n m : Nat} (hle : n ≤ m)
    (h : (advance plan s n r d).value.1.stage.Acquits) :
    (advance plan s m r d).value.1.stage.Acquits := by
  induction m, hle using Nat.le_induction with
  | base => exact h
  | succ m _ ih =>
    rw [value_advance_succ]
    exact acquits_step ih

theorem Run.acquits_verify {n : Nat} (hn : n ≤ length)
    (h : (advance plan s n {} d).value.1.stage.Acquits) :
    (plan.verify s d).value.1.stage.Acquits :=
  acquits_advance hn h

theorem Run.acquits_of_outcome {outcome : Outcome} (h : r.stage.Acquits)
    (houtcome : r.outcome? = some outcome) : outcome.Acquits := by
  obtain ⟨stage, deeds⟩ := r
  cases stage <;> cases houtcome
  exact h

/-- The stage to which the first capture leads. -/
def Plan.afterCapture (plan : Plan) (s : Setting) : Except (Halt Failure) Snapshot → Stage
  | .error (.failed f) => .tearDown (Run.abortedOutcome plan s .captureBefore f)
  | .error .crashed => .crashed
  | .ok before =>
    if before.isEmpty then
      .tearDown (Run.abortedOutcome plan s .captureBefore (Run.noArtifacts plan s.firstId))
    else .invokeSecond before

/-- A run that comes to its first capture goes on as that turned out. -/
theorem Plan.Leaves.stage_eq (h : plan.Leaves s d d₁) :
    (Run.advance plan s 4 {} d).value.1.stage =
      plan.afterCapture s (plan.firstCapture s d₁) := by
  obtain ⟨d₀, hclean, hfirst⟩ := h
  obtain ⟨r, hvalue, hstage, hmade, hcaptured⟩ := Plan.reaches_captureBefore hclean hfirst
  -- no capture was made before, so the fingerprinter is that of a first capture
  have hgiven : r.given = [] := by
    refine List.filterMap_eq_nil_iff.2 fun deed hdeed => ?_
    have hnone := List.filterMap_eq_nil_iff.1 hcaptured deed hdeed
    cases deed <;> first | rfl | cases hnone
  have hsnapshot : (Run.takeSnapshot plan s d₁ r).value.snapshot = plan.firstCapture s d₁ := by
    rw [Run.takeSnapshot, Run.surroundings, hmade, hgiven]
    rfl
  rw [Run.value_advance_succ, hvalue, Run.value_step_of_isCapture plan s d₁ (by rw [hstage]; rfl)]
  simp only [Run.settle, hstage, hsnapshot]
  cases plan.firstCapture s d₁ with
  | error halt => cases halt <;> rfl
  | ok before =>
    dsimp only [Plan.afterCapture]
    split <;> rfl

/-- A run whose root cannot be emptied ends with that. -/
theorem Run.stage_step_clean {d₀ : Disk} {f : Failure} (hstage : r.stage = .clean)
    (h : emptyRoot (s.around r.deeds.length).files d plan.root = (d₀, .error f)) :
    (step plan s r d).value.1.stage = .tearDown (abortedOutcome plan s .clean f) := by
  simp only [step, hstage, surroundings, Logged.value_bind, h]
  rfl

/-- A run that does not come to its first capture is not aborted there. -/
theorem Plan.acquits_of_not_leaves (h : ∀ d₁, ¬plan.Leaves s d d₁) :
    (plan.verify s d).value.1.stage.Acquits := by
  rcases hclean : Run.emptyRoot (s.around 0).files d plan.root with ⟨d₀, result⟩
  cases result with
  | error f =>
    have hphase : Phase.clean ≠ .captureBefore := by decide
    have hstep : (Run.advance plan s 1 {} d).value.1.stage =
        .tearDown (Run.abortedOutcome plan s .clean f) := by
      rw [Run.value_advance_succ]
      exact Run.stage_step_clean (r := {}) rfl hclean
    refine Run.acquits_verify (n := 1) (by decide) ?_
    rw [hstep]
    exact Outcome.acquits_abortedOutcome plan s hphase f
  | ok u =>
    have hstep : (Run.advance plan s 1 {} d).value = (⟨.invokeFirst, [.clean (.ok ())]⟩, d₀) := by
      rw [Run.value_advance_succ]
      exact Run.value_step_clean (r := {}) rfl hclean
    refine Run.acquits_verify (n := 2) (by decide) ?_
    rw [Run.value_advance_succ, hstep]
    simp only [Run.step, Run.value_invoke_eq]
    rcases Run.afterReply_cases plan s .firstInvocation s.firstId .waitFirst
      (s.service (plan.request plan.firstPayload s.firstId) plan.invocationTimeout d₀) with
        ⟨hsucceeds, -⟩ | hacquits
    · exact absurd ⟨d₀, hclean, hsucceeds⟩ (h _)
    · exact hacquits (by decide)

/-- A run that comes to its first capture is aborted there only if that capture says so. -/
theorem Plan.Leaves.afterCapture_eq (h : plan.Leaves s d d₁) {run : AbortedRun}
    (houtcome : (plan.verify s d).value.1.outcome? = some (.aborted run))
    (hphase : run.phase = .captureBefore) :
    plan.afterCapture s (plan.firstCapture s d₁) = .tearDown (.aborted run) := by
  have hcases : (∃ outcome, plan.afterCapture s (plan.firstCapture s d₁) = .tearDown outcome) ∨
      (plan.afterCapture s (plan.firstCapture s d₁)).Acquits := by
    unfold Plan.afterCapture
    split
    · exact .inl ⟨_, rfl⟩
    · exact .inr trivial
    · split
      · exact .inl ⟨_, rfl⟩
      · exact .inr trivial
  rcases hcases with ⟨outcome, hstage⟩ | hacquits
  · have hsame := Run.outcome_of_tearDown (h.stage_eq.trans hstage)
    rw [hstage]
    cases houtcome.symm.trans hsame
    rfl
  · rw [← h.stage_eq] at hacquits
    have hlater := Run.acquits_verify (n := 4) (by decide) hacquits
    exact absurd hphase (Run.acquits_of_outcome hlater houtcome run rfl)

theorem Plan.Leaves.unique {d₁' : Disk} (h : plan.Leaves s d d₁) (h' : plan.Leaves s d d₁') :
    d₁ = d₁' := by
  obtain ⟨d₀, hclean, hfirst⟩ := h
  obtain ⟨d₀', hclean', hfirst'⟩ := h'
  cases hclean.symm.trans hclean'
  exact hfirst.disk.symm.trans hfirst'.disk

/-! ### The report that there are no files -/

/-- A run says, at its first capture, that the first workload left no files. -/
def Plan.ReportsNoArtifacts (plan : Plan) (s : Setting) (d : Disk) : Prop :=
  ∃ run, (plan.verify s d).value.1.outcome? = some (.aborted run) ∧ run.phase = .captureBefore ∧
    run.errorCode = FailureKind.noArtifactsProduced.code

/-- A fingerprinter fails for reasons of its own: what the run says of it, that there are no files,
is not for the fingerprinter to say. -/
def Fingerprinter.Candid (fp : Fingerprinter) : Prop :=
  ∀ d path key f, fp.fingerprint d path key = .error f → f.kind ≠ .noArtifactsProduced

theorem Algorithm.candid (a : Algorithm) : a.fingerprinter.Candid := by
  intro d path key f hf heq
  cases (Algorithm.fingerprint_eq_error hf).symm.trans heq

theorem FailureKind.eq_noArtifactsProduced {kind : FailureKind}
    (h : kind.code = noArtifactsProduced.code) : kind = .noArtifactsProduced := by
  cases kind <;> first | rfl | exact absurd h (by decide)

theorem Plan.kind_of_firstCapture {f : Failure} (hcandid : (s.fingerprinter []).Candid)
    (h : plan.firstCapture s d₁ = .error (.failed f)) : f.kind ≠ .noArtifactsProduced := by
  rcases capture_eq_error h with hroot | rfl | ⟨message, -, rfl⟩ | ⟨file, -, hfile⟩
  · rw [kind_of_requireRoot hroot]
    exact nofun
  · rw [kind_lateFailure]
    exact nofun
  · exact nofun
  · exact hcandid _ _ _ _ hfile

/-- A run whose first snapshot has no records is aborted for that. -/
theorem Plan.Leaves.outcome_of_isEmpty {snapshot : Snapshot} (h : plan.Leaves s d d₁)
    (hcapture : plan.firstCapture s d₁ = .ok snapshot) (hempty : snapshot.isEmpty = true) :
    (plan.verify s d).value.1.outcome? =
      some (Run.abortedOutcome plan s .captureBefore (Run.noArtifacts plan s.firstId)) := by
  have hstage := h.stage_eq
  rw [hcapture, Plan.afterCapture, if_pos hempty] at hstage
  exact Run.outcome_of_tearDown hstage

/-- A run says that there are no files when its first snapshot has no records. -/
theorem Plan.reportsNoArtifacts_iff_isEmpty (hcandid : (s.fingerprinter []).Candid) :
    plan.ReportsNoArtifacts s d ↔ ∃ d₁ snapshot, plan.Leaves s d d₁ ∧
      plan.firstCapture s d₁ = .ok snapshot ∧ snapshot.isEmpty = true := by
  constructor
  · rintro ⟨run, houtcome, hphase, hcode⟩
    by_cases hleaves : ∃ d₁, plan.Leaves s d d₁
    · obtain ⟨d₁, hleaves⟩ := hleaves
      have hafter := hleaves.afterCapture_eq houtcome hphase
      cases hcapture : plan.firstCapture s d₁ with
      | error halt =>
        rw [hcapture] at hafter
        cases halt <;> cases hafter
        exact absurd (FailureKind.eq_noArtifactsProduced hcode)
          (Plan.kind_of_firstCapture hcandid hcapture)
      | ok snapshot =>
        rw [hcapture, Plan.afterCapture] at hafter
        split at hafter
        · rename_i hempty
          exact ⟨d₁, snapshot, hleaves, hcapture, hempty⟩
        · cases hafter
    · have hacquits := Plan.acquits_of_not_leaves (not_exists.1 hleaves)
      exact absurd hphase (Run.acquits_of_outcome hacquits houtcome run rfl)
  · rintro ⟨d₁, snapshot, hleaves, hcapture, hempty⟩
    exact ⟨_, hleaves.outcome_of_isEmpty hcapture hempty, rfl, rfl⟩

/-- The first capture of a tree whose file operations tell the truth has no records when no file
below the root was read. -/
theorem Plan.isEmpty_firstCapture_iff {l : Location} {snapshot : Snapshot}
    (htaken : snapshot.TakenOf d₁ (s.fingerprinter []) plan.root l (plan.firstWalk s d₁)) :
    snapshot.isEmpty = true ↔ ∀ names, names ≠ [] → d₁.IsFile (l ++ names) →
      ¬Reads d₁ (s.fingerprinter []) (plan.firstWalk s d₁) names := by
  rw [Capture.isEmpty_iff htaken.result]
  refine ⟨fun hnone names _ _ => hnone names, fun hnone names hreads => ?_⟩
  obtain ⟨path, r, hitem, hr⟩ := hreads
  obtain ⟨-, hne, hfile⟩ := htaken.lists.files path names hitem
  exact hnone names hne hfile ⟨path, r, hitem, hr⟩

section Trees

variable (hcandid : (s.fingerprinter []).Candid) (hdisk : ∀ d₁, plan.Leaves s d d₁ →
  d₁.IsTree ∧ (s.around 3).files.Truthful d₁ plan.root)

include hdisk

theorem Plan.Leaves.exists_takenOf {snapshot : Snapshot} (h : plan.Leaves s d d₁)
    (hcapture : plan.firstCapture s d₁ = .ok snapshot) :
    ∃ l, snapshot.TakenOf d₁ (s.fingerprinter []) plan.root l (plan.firstWalk s d₁) := by
  obtain ⟨htree, haround⟩ := hdisk d₁ h
  exact exists_takenOf_of_capture htree haround hcapture

include hcandid

theorem Plan.reportsNoArtifacts_iff : plan.ReportsNoArtifacts s d ↔
    ∃ d₁ l snapshot, plan.Leaves s d d₁ ∧ d₁.follow plan.root = .ok (l, .directory) ∧
      plan.firstCapture s d₁ = .ok snapshot ∧ ∀ names, names ≠ [] → d₁.IsFile (l ++ names) →
        ¬Reads d₁ (s.fingerprinter []) (plan.firstWalk s d₁) names := by
  rw [Plan.reportsNoArtifacts_iff_isEmpty hcandid]
  constructor
  · rintro ⟨d₁, snapshot, hleaves, hcapture, hempty⟩
    obtain ⟨l, htaken⟩ := hleaves.exists_takenOf hdisk hcapture
    exact ⟨d₁, l, snapshot, hleaves, htaken.leads, hcapture,
      (Plan.isEmpty_firstCapture_iff htaken).1 hempty⟩
  · rintro ⟨d₁, l, snapshot, hleaves, hleads, hcapture, hunread⟩
    obtain ⟨l', htaken⟩ := hleaves.exists_takenOf hdisk hcapture
    cases hleads.symm.trans htaken.leads
    exact ⟨d₁, snapshot, hleaves, hcapture, (Plan.isEmpty_firstCapture_iff htaken).2 hunread⟩

/-- If a run says that there are no files, its first capture missed all that there were. -/
theorem Plan.ReportsNoArtifacts.missed (h : plan.ReportsNoArtifacts s d) {l : Location}
    (hleaves : plan.Leaves s d d₁) (hleads : d₁.follow plan.root = .ok (l, .directory)) :
    (∃ snapshot, plan.firstCapture s d₁ = .ok snapshot) ∧
      ∀ names, names ≠ [] → d₁.IsFile (l ++ names) →
        ∃ place, Misses d₁ (s.fingerprinter []) (plan.firstWalk s d₁) place ∧
          ∀ above, place = some above → above <+: names := by
  obtain ⟨d₁', l', snapshot, hleaves', hleads', hcapture, hunread⟩ :=
    (Plan.reportsNoArtifacts_iff hcandid hdisk).1 h
  cases hleaves.unique hleaves'
  cases hleads.symm.trans hleads'
  obtain ⟨l', htaken⟩ := hleaves.exists_takenOf hdisk hcapture
  cases hleads.symm.trans htaken.leads
  exact ⟨⟨snapshot, hcapture⟩, fun names hne hfile =>
    htaken.exists_miss hne hfile (hunread names hne hfile)⟩

end Trees

end Runs

/-- A run says that its first workload left no files exactly when its first capture succeeds and no
regular file below the root was read. If there are files all the same, each of them was missed by
the capture, or lies below a place that was. So a run whose first capture misses nothing says it
exactly when that capture succeeds and there is no regular file. -/
theorem Plan.reports_no_artifacts (plan : Plan) (s : Setting) (d : Disk)
    (hcandid : (s.fingerprinter []).Candid) (hdisk : ∀ d₁, plan.Leaves s d d₁ →
      d₁.IsTree ∧ (s.around 3).files.Truthful d₁ plan.root) :
    (plan.ReportsNoArtifacts s d → (plan.verify s d).value.1.outcome? =
      some (Run.abortedOutcome plan s .captureBefore (Run.noArtifacts plan s.firstId))) ∧
    (plan.ReportsNoArtifacts s d ↔ ∃ d₁ l snapshot, plan.Leaves s d d₁ ∧
      d₁.follow plan.root = .ok (l, .directory) ∧ plan.firstCapture s d₁ = .ok snapshot ∧
      ∀ names, names ≠ [] → d₁.IsFile (l ++ names) →
        ¬Reads d₁ (s.fingerprinter []) (plan.firstWalk s d₁) names) ∧
    ∀ d₁ l, plan.Leaves s d d₁ → d₁.follow plan.root = .ok (l, .directory) →
      (plan.ReportsNoArtifacts s d → ∀ names, names ≠ [] → d₁.IsFile (l ++ names) →
        ∃ place, Misses d₁ (s.fingerprinter []) (plan.firstWalk s d₁) place ∧
          ∀ above, place = some above → above <+: names) ∧
      ((∀ place, ¬Misses d₁ (s.fingerprinter []) (plan.firstWalk s d₁) place) →
        (plan.ReportsNoArtifacts s d ↔ (∃ snapshot, plan.firstCapture s d₁ = .ok snapshot) ∧
          ∀ names, names ≠ [] → ¬d₁.IsFile (l ++ names))) := by
  refine ⟨fun h => ?_, Plan.reportsNoArtifacts_iff hcandid hdisk, fun d₁ l hleaves hleads =>
    ⟨fun h => (h.missed hcandid hdisk hleaves hleads).2, fun hmiss => ⟨fun h => ?_, ?_⟩⟩⟩
  · obtain ⟨d₁, snapshot, hleaves, hcapture, hempty⟩ :=
      (Plan.reportsNoArtifacts_iff_isEmpty hcandid).1 h
    exact hleaves.outcome_of_isEmpty hcapture hempty
  · obtain ⟨hcapture, hall⟩ := h.missed hcandid hdisk hleaves hleads
    refine ⟨hcapture, fun names hne hfile => ?_⟩
    obtain ⟨place, hplace, -⟩ := hall names hne hfile
    exact hmiss place hplace
  · rintro ⟨⟨snapshot, hcapture⟩, hnone⟩
    refine (Plan.reportsNoArtifacts_iff hcandid hdisk).2 ⟨d₁, l, snapshot, hleaves, hleads,
      hcapture, ?_⟩
    intro names hne hfile
    exact absurd hfile (hnone names hne)

/-- A service that leaves no files behind. -/
theorem Plan.reports_no_artifacts_of_none :
    let d₁ : Disk := { entries := [([[99]], .directory)] }
    let s : Setting := .leaving .sha256 d₁ d₁
    ((s.fingerprinter []).Candid ∧ ∀ d₁, ofNested.Leaves s {} d₁ →
      d₁.IsTree ∧ (s.around 3).files.Truthful d₁ ofNested.root) ∧
    ofNested.ReportsNoArtifacts s {} := by
  intro d₁ s
  have hcandid : (s.fingerprinter []).Candid := Algorithm.sha256.candid
  have hleaves : ofNested.Leaves s {} d₁ :=
    ⟨_, Run.emptyRoot_nested, ⟨⟨200, rfl⟩, Nat.zero_le _, rfl⟩⟩
  have hdisk : ∀ d₁, ofNested.Leaves s {} d₁ →
      d₁.IsTree ∧ (s.around 3).files.Truthful d₁ ofNested.root := by
    intro d₁' hleaves'
    cases hleaves.unique hleaves'
    have htree : d₁.IsTree := by decide
    exact ⟨htree, FileAccess.truthful htree _⟩
  have hleads : d₁.follow ofNested.root = .ok ([[99]], .directory) := by cbv
  have hwalk : ofNested.firstWalk s d₁ = [.other] := by cbv
  have hmiss : ∀ place, ¬Misses d₁ (s.fingerprinter []) (ofNested.firstWalk s d₁) place := by
    rw [hwalk]
    rintro place (hitem | hitem) <;> simp at hitem
  have hcapture : ∃ snapshot, ofNested.firstCapture s d₁ = .ok snapshot := by
    refine ⟨_, (capture_of_unhindered (unhindered_of_still (by decide) (by decide))
      (requireRoot_of_follow hleads)).trans
        (congrArg Halt.lift (untimed_eq_ok_iff.2 ⟨?_, rfl⟩))⟩
    exact Algorithm.sha256.bearable _ _
  have hnone : ∀ names, names ≠ [] → ¬d₁.IsFile ([[99]] ++ names) := by
    rintro names hne ⟨content, modified, hentry⟩
    have hmem := Disk.mem_entries (by simp) hentry
    simp [d₁] at hmem
  obtain ⟨-, -, hreports⟩ := ofNested.reports_no_artifacts s {} hcandid hdisk
  exact ⟨⟨hcandid, hdisk⟩, ((hreports d₁ _ hleaves hleads).2 hmiss).2 ⟨hcapture, hnone⟩⟩

/-- A service that leaves a file which cannot be read: the capture succeeds and lists the file as
unreadable, and the run says that there are no files. -/
theorem Plan.reports_no_artifacts_of_unread :
    let s : Setting := .unread .nested
    ofNested.ReportsNoArtifacts s {} ∧ ofNested.Leaves s {} .nested ∧
      Disk.nested.follow ofNested.root = .ok ([[99]], .directory) ∧
      Disk.nested.IsFile ([[99]] ++ [[100], [97]]) ∧
      ∃ snapshot, ofNested.firstCapture s .nested = .ok snapshot ∧ "d/a" ∈ snapshot.unreadable := by
  intro s
  have hleaves : ofNested.Leaves s {} .nested :=
    ⟨_, Run.emptyRoot_nested, ⟨⟨200, rfl⟩, Nat.zero_le _, rfl⟩⟩
  have hcandid : (s.fingerprinter []).Candid := by
    rintro d path key f ⟨⟩
    exact nofun
  have huntimed : untimed .nested (s.fingerprinter []) ofNested.root
      (({} : FileAccess).walk .nested ofNested.root) =
        .ok (.ofRecords ofNested.root.display .epoch "sha256" [] [key [[100], [97]]]) := by
    rw [FileAccess.walk_default Disk.isTree_nested, Disk.walk_nested]
    rfl
  have hcapture : ofNested.firstCapture s .nested =
      .ok (.ofRecords ofNested.root.display .epoch "sha256" [] [key [[100], [97]]]) :=
    (capture_of_unhindered (unhindered_of_still (by decide) (by decide))
      (requireRoot_of_follow Disk.follow_nested)).trans (congrArg Halt.lift huntimed)
  refine ⟨(Plan.reportsNoArtifacts_iff_isEmpty hcandid).2 ⟨_, _, hleaves, hcapture, rfl⟩, hleaves,
    Disk.follow_nested, ⟨_, _, rfl⟩, _, hcapture, ?_⟩
  rw [Snapshot.ofRecords, StringSet.mem_ofList]
  decide

end CacheAudit
