import CacheAudit.Proofs.Disk.Blocked
import CacheAudit.Proofs.Verification.Interleaving

/-!
# What a root held before a run

Emptying a root leaves the same disk whatever the root held, provided the root stands at one place
all along. From then on a run is the same on every disk that was the same elsewhere, whatever ids
and times it is carried out with. A root that leads through a missing directory and up again is made
without being emptied, so what it held decides the verdict.
-/

namespace CacheAudit

/-! ### Ids and times -/

/-- A service that does the same whatever the id of the request. -/
def Service.IgnoresIds (service : Service) : Prop :=
  ∀ request id timeout d,
    let reply := service request timeout d
    let reply' := service { request with id := id } timeout d
    reply'.answer = reply.answer ∧ reply'.elapsedNs = reply.elapsedNs ∧ reply'.disk = reply.disk

/-- Settings that differ in nothing but ids and times and the order in which workers finish. -/
structure Setting.Renamed (s t : Setting) : Prop where
  service : t.service = s.service
  fingerprinter : t.fingerprinter = s.fingerprinter
  clock : ∀ i, (t.around i).clock = (s.around i).clock
  files : ∀ i, (t.around i).files = (s.around i).files
  pool : ∀ i, (t.around i).pool = (s.around i).pool

/-- Failures that differ in nothing but the id of the request they concern. -/
structure Failure.Renamed (f g : Failure) : Prop where
  same : g = { f with requestId := g.requestId }
  concerned : g.requestId.isSome = f.requestId.isSome

theorem Failure.Renamed.refl (f : Failure) : f.Renamed f := by
  refine ⟨?_, rfl⟩
  cases f
  rfl

/-- Reports that differ in nothing but ids and times. -/
structure VerificationReport.Renamed (r r' : VerificationReport) : Prop where
  root : r'.root = r.root
  beforeFiles : r'.beforeFiles = r.beforeFiles
  afterFiles : r'.afterFiles = r.afterFiles
  diff : r'.diff = r.diff
  warnings : r'.warnings = r.warnings
  inconclusive : r'.inconclusive = r.inconclusive

/-- Aborted runs that differ in nothing but ids and times: their messages are those of one failure,
with the id of its request in each. -/
structure AbortedRun.Renamed (a a' : AbortedRun) : Prop where
  root : a'.root = a.root
  phase : a'.phase = a.phase
  errorCode : a'.errorCode = a.errorCode
  message : ∃ f : Failure, a.message = Failure.display { f with requestId := a.requestId } ∧
    a'.message = Failure.display { f with requestId := a'.requestId }
  concerned : a'.requestId.isSome = a.requestId.isSome

/-- Outcomes that differ in nothing but ids and times. -/
inductive Outcome.Renamed : Outcome → Outcome → Prop
  | pass {r r' : VerificationReport} (h : r.Renamed r') : Renamed (.pass r) (.pass r')
  | fail {r r' : VerificationReport} (h : r.Renamed r') : Renamed (.fail r) (.fail r')
  | aborted {a a' : AbortedRun} (h : a.Renamed a') : Renamed (.aborted a) (.aborted a')

/-- The outcome that a run has come to at a stage. -/
def Stage.outcome? : Stage → Option Outcome
  | tearDown outcome | finished outcome => some outcome
  | _ => none

/-- Stages that differ in nothing but ids and times. -/
inductive Stage.Renamed : Stage → Stage → Prop
  | underway (stage : Stage) (h : stage.outcome? = none) : Renamed stage stage
  | tearDown {outcome outcome' : Outcome} (h : outcome.Renamed outcome') :
    Renamed (.tearDown outcome) (.tearDown outcome')
  | finished {outcome outcome' : Outcome} (h : outcome.Renamed outcome') :
    Renamed (.finished outcome) (.finished outcome')

theorem Stage.Renamed.isCapture_eq {stage stage' : Stage} (h : stage.Renamed stage') :
    stage'.isCapture = stage.isCapture := by
  cases h <;> rfl

namespace Run

/-- Runs that differ in nothing but ids and times, as far as their next steps can tell. -/
structure Renamed (r r' : Run) : Prop where
  stage : r.stage.Renamed r'.stage
  length : r'.deeds.length = r.deeds.length
  given : r'.given = r.given

variable {plan : Plan} {s t : Setting} {a d : Disk} {r r' : Run} {l : Location}

/-! ### Outcomes under other ids -/

theorem abortedOutcome_renamed (phase : Phase) {f g : Failure} (h : f.Renamed g) :
    (abortedOutcome plan s phase f).Renamed (abortedOutcome plan t phase g) := by
  have hcode : g.code = f.code := by
    rw [h.same]
    rfl
  exact .aborted ⟨rfl, rfl, hcode, ⟨f, congrArg Failure.display (Failure.Renamed.refl f).same,
    congrArg Failure.display h.same⟩, h.concerned⟩

theorem verdict_renamed (before after : Snapshot) (diff : SnapshotDiff) :
    (verdict plan s before after diff).Renamed (verdict plan t before after diff) := by
  rw [verdict, verdict]
  split
  · exact .fail ⟨rfl, rfl, rfl, rfl, rfl, rfl⟩
  · exact .pass ⟨rfl, rfl, rfl, rfl, rfl, rfl⟩

/-- One answer means the same under every id. -/
theorem judge_renamed (timeout : Duration) (id id' : String) (answer : Answer) (elapsedNs : Nat) :
    judge timeout id answer elapsedNs = .ok () ∧ judge timeout id' answer elapsedNs = .ok () ∨
      ∃ f g, judge timeout id answer elapsedNs = .error f ∧
        judge timeout id' answer elapsedNs = .error g ∧ f.Renamed g := by
  cases answer with
  | failed f => exact .inr ⟨_, _, rfl, rfl, rfl, rfl⟩
  | crashed => exact .inl ⟨rfl, rfl⟩
  | response status success =>
    rw [judge, judge]
    dsimp only
    split
    · exact .inr ⟨_, _, rfl, rfl, rfl, rfl⟩
    · split
      · exact .inl ⟨rfl, rfl⟩
      · exact .inr ⟨_, _, rfl, rfl, rfl, rfl⟩

theorem afterReply_renamed (phase : Phase) (id id' : String) {next : Stage}
    (hnext : next.outcome? = none) {reply reply' : Reply} (hanswer : reply'.answer = reply.answer)
    (helapsed : reply'.elapsedNs = reply.elapsedNs) :
    (afterReply plan s phase id next reply).Renamed (afterReply plan t phase id' next reply') := by
  rw [afterReply, afterReply, hanswer, helapsed]
  split
  · exact .underway _ rfl
  · rcases judge_renamed plan.invocationTimeout id id' reply.answer reply.elapsedNs with
      ⟨hok, hok'⟩ | ⟨f, g, hf, hg, hfg⟩
    · rw [hok, hok']
      exact .underway _ hnext
    · rw [hf, hg]
      exact .tearDown (abortedOutcome_renamed phase hfg)

/-! ### Steps under other ids -/

/-- Runs that did the same before and do the same now. -/
theorem Renamed.did (h : r.Renamed r') {deed deed' : Deed} (hgiven : deed'.given? = deed.given?)
    {stage stage' : Stage} (hstage : stage.Renamed stage') :
    Renamed { r.did deed with stage := stage } { r'.did deed' with stage := stage' } := by
  have hbefore : r'.deeds.filterMap Deed.given? = r.deeds.filterMap Deed.given? := h.given
  refine ⟨hstage, by simp [Run.did, h.length], ?_⟩
  show (r'.deeds ++ [deed']).filterMap Deed.given? = (r.deeds ++ [deed]).filterMap Deed.given?
  rw [List.filterMap_append, List.filterMap_append, hbefore]
  simp only [List.filterMap_cons, hgiven]

theorem Renamed.files (h : r.Renamed r') (hst : s.Renamed t) :
    (r'.surroundings t).files = (r.surroundings s).files := by
  rw [Run.surroundings, Run.surroundings, h.length, hst.files]

/-- Two steps with one disk that keep runs the same but for ids and times. -/
def StepsAlike (next next' : Run × Disk) : Prop :=
  next.1.Renamed next'.1 ∧ next'.2 = next.2

theorem Renamed.invoke (h : r.Renamed r') (hst : s.Renamed t) (hids : s.service.IgnoresIds)
    (phase : Phase) (payload : Json) (id id' : String) {next : Stage}
    (hnext : next.outcome? = none) :
    StepsAlike (Run.invoke plan s d phase payload id next r).value
      (Run.invoke plan t d phase payload id' next r').value := by
  obtain ⟨hanswer, helapsed, hdisk⟩ :=
    hids (plan.request payload id) id' plan.invocationTimeout d
  rw [value_invoke_eq, value_invoke_eq, hst.service]
  dsimp only
  exact ⟨h.did (by rfl) (afterReply_renamed phase id id' hnext hanswer helapsed), hdisk⟩

/-- The keys for which a capture called the fingerprinter are the same in whatever order. -/
theorem Deed.given?_of_perm {captured captured' : Captured}
    (h : captured'.given.Perm captured.given) :
    (Deed.capture d captured').given? = (Deed.capture d captured).given? := by
  have hsorted (keys : List String) :
      (keys.mergeSort fun k k' => decide (k ≤ k')).Pairwise (· ≤ ·) := by
    simpa using @List.pairwise_mergeSort String (fun k k' => decide (k ≤ k'))
      (fun _ _ _ => by simpa using String.le_trans)
      (fun k k' => by simpa using String.le_total k k') keys
  have hperm := h.map Capture.FoundFile.key
  refine congrArg some (List.Perm.eq_of_pairwise (fun _ _ _ _ => String.le_antisymm)
    (hsorted _) (hsorted _) ?_)
  exact (List.mergeSort_perm ..).trans (hperm.trans (List.mergeSort_perm ..).symm)

theorem Renamed.takeSnapshot (h : r.Renamed r') (hst : s.Renamed t) :
    (Run.takeSnapshot plan t d r').value.snapshot = (Run.takeSnapshot plan s d r).value.snapshot ∧
      (Run.takeSnapshot plan t d r').value.given.Perm
        (Run.takeSnapshot plan s d r).value.given := by
  have hclock : (r'.surroundings t).clock = (r.surroundings s).clock := by
    rw [Run.surroundings, Run.surroundings, h.length, hst.clock]
  have hpool : (r'.surroundings t).pool = (r.surroundings s).pool := by
    rw [Run.surroundings, Run.surroundings, h.length, hst.pool]
  rw [Run.takeSnapshot, Run.takeSnapshot, hst.fingerprinter, h.given]
  exact capture_of_finishing hclock (h.files hst) hpool

/-- A capture means the same under every id. -/
theorem Renamed.settle (h : r.Renamed r') (hcapture : r.stage.isCapture = true)
    {captured captured' : Captured} (hsnapshot : captured'.snapshot = captured.snapshot)
    (hgiven : captured'.given.Perm captured.given) :
    (r.settle plan s d captured).value.Renamed (r'.settle plan t d captured').value := by
  have hdid {stage stage' : Stage} (hstage : stage.Renamed stage') :=
    h.did (Deed.given?_of_perm (d := d) hgiven) hstage
  obtain ⟨stage, deeds⟩ := r
  obtain ⟨stage', deeds'⟩ := r'
  rw [Run.settle, Run.settle, hsnapshot]
  cases (h.stage : stage.Renamed stage') with
  | underway stage hunderway =>
    cases stage with
    | captureBefore =>
      cases captured.snapshot with
      | error halt =>
        cases halt with
        | failed f => exact hdid (.tearDown (abortedOutcome_renamed _ (.refl f)))
        | crashed => exact hdid (.underway _ rfl)
      | ok before =>
        dsimp only
        split
        · exact hdid (.tearDown (abortedOutcome_renamed _ ⟨rfl, rfl⟩))
        · exact hdid (.underway _ rfl)
    | captureAfter before =>
      cases captured.snapshot with
      | error halt =>
        cases halt with
        | failed f => exact hdid (.tearDown (abortedOutcome_renamed _ (.refl f)))
        | crashed => exact hdid (.underway _ rfl)
      | ok after => exact hdid (.underway _ rfl)
    | _ => cases hcapture
  | _ => cases hcapture

/-- Emptying the root does the same under every id. -/
theorem Renamed.clean (h : r.Renamed r') (hst : s.Renamed t) (hstage : r.stage = .clean)
    (hstage' : r'.stage = .clean)
    (hsame : emptyRoot (r.surroundings s).files a plan.root =
      emptyRoot (r.surroundings s).files d plan.root) :
    StepsAlike (Run.step plan s r a).value (Run.step plan t r' d).value := by
  unfold Run.step
  simp only [hstage, hstage', Logged.value_bind, h.files hst, hsame]
  cases (emptyRoot (r.surroundings s).files d plan.root).2 with
  | ok u => exact ⟨h.did rfl (.underway _ rfl), rfl⟩
  | error f =>
    exact ⟨h.did rfl (.tearDown (abortedOutcome_renamed _ (.refl f))), rfl⟩

/-- A step does the same under every id. -/
theorem Renamed.step (h : r.Renamed r') (hst : s.Renamed t) (hids : s.service.IgnoresIds) :
    StepsAlike (Run.step plan s r d).value (Run.step plan t r' d).value := by
  by_cases hcapture : r.stage.isCapture = true
  · have hcapture' := h.stage.isCapture_eq.trans hcapture
    rw [value_step_of_isCapture plan s d hcapture, value_step_of_isCapture plan t d hcapture']
    exact ⟨h.settle hcapture (h.takeSnapshot hst).1 (h.takeSnapshot hst).2, rfl⟩
  obtain ⟨stage, deeds⟩ := r
  obtain ⟨stage', deeds'⟩ := r'
  cases (h.stage : stage.Renamed stage') with
  | underway stage hunderway =>
    cases stage with
    | clean => exact h.clean hst rfl rfl rfl
    | invokeFirst => exact h.invoke hst hids _ _ _ _ rfl
    | waitFirst =>
      rw [value_step_waitFirst _ _ _ rfl, value_step_waitFirst _ _ _ rfl]
      exact ⟨h.did rfl (.underway _ rfl), rfl⟩
    | invokeSecond before => exact h.invoke hst hids _ _ _ _ rfl
    | waitSecond before =>
      rw [value_step_waitSecond _ _ _ rfl, value_step_waitSecond _ _ _ rfl]
      exact ⟨h.did rfl (.underway _ rfl), rfl⟩
    | compare before after =>
      simp only [Run.step, Logged.value_bind]
      cases (before.diff after).value with
      | error f =>
        exact ⟨h.did rfl (.tearDown (abortedOutcome_renamed _ (.refl f))), rfl⟩
      | ok diff => exact ⟨h.did rfl (.tearDown (verdict_renamed before after diff)), rfl⟩
    | crashed => exact ⟨h, rfl⟩
    | captureBefore | captureAfter before => exact absurd rfl hcapture
    | tearDown outcome | finished outcome => cases hunderway
  | tearDown houtcome =>
    have hsame := h.files hst
    unfold Run.step
    dsimp only
    rw [hsame]
    generalize (if plan.cleanupOnExit then
      (Run.surroundings ⟨.tearDown _, deeds⟩ s).files.removeTree d plan.root
      else (d, .ok ())) = cleaned
    rcases cleaned with ⟨d', - | -⟩ <;> exact ⟨⟨.finished houtcome, h.length, h.given⟩, rfl⟩
  | finished houtcome => exact ⟨h, rfl⟩

/-- Runs whose first steps keep them the same stay the same. -/
theorem StepsAlike.advance (h : StepsAlike (Run.step plan s r a).value (Run.step plan t r' d).value)
    (hst : s.Renamed t) (hids : s.service.IgnoresIds) (n : Nat) :
    StepsAlike (Run.advance plan s (n + 1) r a).value (Run.advance plan t (n + 1) r' d).value := by
  induction n with
  | zero => exact h
  | succ n ih =>
    obtain ⟨hrun, hdisk⟩ := ih
    rw [value_advance_succ (n + 1), value_advance_succ (n + 1), hdisk]
    exact hrun.step hst hids

theorem Renamed.outcome? (h : r.Renamed r') :
    Option.Rel Outcome.Renamed r.outcome? r'.outcome? := by
  obtain ⟨stage, deeds⟩ := r
  obtain ⟨stage', deeds'⟩ := r'
  cases (h.stage : stage.Renamed stage') with
  | underway stage hunderway =>
    cases stage with
    | finished outcome => cases hunderway
    | _ => exact .none
  | tearDown houtcome => exact .none
  | finished houtcome => exact .some houtcome

/-! ### The first step -/

/-- A root that has been emptied has been vacated and made. -/
theorem vacated_of_emptyRoot {root : Path} (hclean : (emptyRoot {} a root).2 = .ok ()) :
    (a.vacate root).2 = .ok () ∧ ((a.vacate root).1.createDirectories root).2 = .ok () := by
  rw [emptyRoot_eq] at hclean
  cases hvacated : (a.vacate root).2 with
  | error e =>
    rw [hvacated] at hclean
    cases hclean
  | ok u =>
    rw [hvacated] at hclean
    refine ⟨rfl, ?_⟩
    cases hmade : ((a.vacate root).1.createDirectories root).2 with
    | error e =>
      rw [hmade] at hclean
      cases hclean
    | ok u => rfl

/-- Emptying a root leaves the same disk whatever the root held. -/
theorem emptyRoot_congr {root : Path} (ha : a.IsTree) (hd : d.IsTree) (hstands : a.StandsAt root l)
    (hsame : Disk.SameElsewhere root a d) (hclean : (emptyRoot {} a root).2 = .ok ())
    (hclean' : (emptyRoot {} d root).2 = .ok ()) : emptyRoot {} a root = emptyRoot {} d root := by
  obtain ⟨hstands', herased⟩ := hsame l hstands
  obtain ⟨hvacated, hmade⟩ := vacated_of_emptyRoot hclean
  obtain ⟨hvacated', hmade'⟩ := vacated_of_emptyRoot hclean'
  rw [emptyRoot_eq, emptyRoot_eq, hvacated, hvacated',
    Disk.vacate_eq_eraseTree ha hstands hvacated hmade,
    Disk.vacate_eq_eraseTree hd hstands' hvacated' hmade', herased]

end Run

/-! ### Whole runs -/

/-- What a root held before a run has no part in the outcome. Two runs of a plan, begun on disks
that are the same but at and below the root and both of which can be cleaned, come to outcomes that
differ in nothing but ids and times, if the service does not go by the ids. The root goes up only at
its beginning, or it stands at some place all the same. -/
theorem Plan.verify_renamed_of_leftovers {plan : Plan} {s t : Setting} {a d : Disk}
    (ha : a.IsTree) (hd : d.IsTree)
    (hroot : plan.root.Forward ∧ plan.root.bytes ≠ [] ∨ ∃ l, a.StandsAt plan.root l)
    (hsame : Disk.SameElsewhere plan.root a d)
    (hclean : (Run.emptyRoot {} a plan.root).2 = .ok ())
    (hclean' : (Run.emptyRoot {} d plan.root).2 = .ok ()) (hfiles : (s.around 0).files = {})
    (hst : s.Renamed t) (hids : s.service.IgnoresIds) :
    Option.Rel Outcome.Renamed (plan.verify s a).value.1.outcome?
      (plan.verify t d).value.1.outcome? := by
  have hplace : ∃ l, a.StandsAt plan.root l := by
    rcases hroot with ⟨hforward, hne⟩ | hplace
    · obtain ⟨hvacated, hmade⟩ := Run.vacated_of_emptyRoot hclean
      exact Disk.exists_standsAt hforward hne hvacated hmade
    · exact hplace
  obtain ⟨l, hstands⟩ := hplace
  have hempty : Run.emptyRoot (Run.surroundings {} s).files a plan.root =
      Run.emptyRoot (Run.surroundings {} s).files d plan.root := by
    rw [show (Run.surroundings {} s).files = {} from hfiles]
    exact Run.emptyRoot_congr ha hd hstands hsame hclean hclean'
  have hstart : Run.Renamed {} {} := ⟨.underway _ rfl, rfl, rfl⟩
  have hfirst : Run.StepsAlike (Run.step plan s {} a).value (Run.step plan t {} d).value :=
    hstart.clean hst rfl rfl hempty
  have hall := hfirst.advance hst hids 8
  exact hall.1.outcome?

/-- A service that puts files into a directory does not go by ids. -/
theorem Service.ignoresIds_filing (l : Location) (n content : Bytes) :
    (filing l n content).IgnoresIds := by
  intro request id timeout d
  exact ⟨rfl, rfl, rfl⟩

/-- A file that lies in the root before the run does not get into the report. -/
theorem Plan.passes_regardless_of_leftover :
    let s : Scenario := .serving "b" (.filing [[98]] [102] [65])
    let t : Setting := { s.setting with runId := "another", firstId := "1", secondId := "2" }
    ∃ report report', (s.plan.verify s.setting {}).value.1.outcome? = some (.pass report) ∧
      (s.plan.verify t Scenarios.leftover).value.1.outcome? = some (.pass report') ∧
      report.Renamed report' := by
  intro s t
  have hclean : Run.emptyRoot {} {} (.ofString "b") =
      ({ entries := [([[98]], .directory)] }, .ok ()) := by cbv
  have hclean' : Run.emptyRoot {} Scenarios.leftover (.ofString "b") =
      ({ entries := [([[98]], .directory)] }, .ok ()) := by cbv
  have hfirst (request : Request) : (Service.filing [[98]] [102] [65] request (.ofMillis 1000)
      { entries := [([[98]], .directory)] }).Succeeds (.ofMillis 1000)
        { entries := [([[98]], .directory), ([[98], [102]], .file [65] .epoch)] } :=
    ⟨⟨200, by cbv⟩, by cbv, by cbv⟩
  have hsecond (request : Request) : (Service.filing [[98]] [102] [65] request (.ofMillis 1000)
      { entries := [([[98]], .directory), ([[98], [102]], .file [65] .epoch)] }).Succeeds
        (.ofMillis 1000)
        { entries := [([[98]], .directory), ([[98], [102]], .file [65] .epoch)] } :=
    ⟨⟨200, by cbv⟩, by cbv, by cbv⟩
  have hroot : Disk.follow
      { entries := [([[98]], .directory), ([[98], [102]], .file [65] .epoch)] }
        (.ofString "b") = .ok ([[98]], .directory) := by cbv
  have hwalk : ({} : FileAccess).walk
      { entries := [([[98]], .directory), ([[98], [102]], .file [65] .epoch)] }
        (.ofString "b") = [.other, .file (.ofString "b/f") [[102]]] := by cbv
  have hstands (d : Disk) (hd : d.cwd = []) : d.StandsAt s.plan.root [[98]] := by
    have hstart : d.start s.plan.root = [] := by
      rw [Disk.start, hd, ite_self]
    have hleads : d.Leads Disk.linkLimit (d.start s.plan.root) [] Disk.linkLimit [] := by
      rw [hstart]
      exact .here ..
    exact .last (n := [98]) (by cbv) (by decide) (by decide) hleads
  have hsame : Disk.SameElsewhere s.plan.root {} Scenarios.leftover := by
    intro l hl
    cases hl.unique (hstands {} rfl)
    exact ⟨hstands _ rfl, by cbv⟩
  obtain ⟨report, hpass⟩ := Scenario.passes_serving hclean hfirst hroot hsecond hwalk
  have houtcomes := Plan.verify_renamed_of_leftovers (s := s.setting) (t := t) (by decide)
    (by decide) (.inl ⟨by decide, by decide⟩) hsame (congrArg Prod.snd hclean)
    (congrArg Prod.snd hclean') rfl ⟨rfl, rfl, fun _ => rfl, fun _ => rfl, fun _ => rfl⟩
    (Service.ignoresIds_filing [[98]] [102] [65])
  rw [hpass] at houtcomes
  generalize (s.plan.verify t Scenarios.leftover).value.1.outcome? = other at houtcomes ⊢
  cases houtcomes with
  | some h =>
    cases h with
    | pass h => exact ⟨_, _, hpass, rfl, h⟩

/-- A root that leads through a missing directory and up again is not emptied: what was in it makes
the run pass that is aborted otherwise. -/
theorem Plan.leftover_passes_crossing :
    let s : Scenario := .serving "y/../b" .idle
    let a : Disk := {}
    let d := Scenarios.leftover
    (a.IsTree ∧ d.IsTree ∧ s.setting.Renamed s.setting ∧ s.setting.service.IgnoresIds) ∧
      (Location.ofPath [] s.plan.root = [[98]] ∧ a.eraseTree [[98]] = d.eraseTree [[98]]) ∧
      ((Run.emptyRoot {} a s.plan.root).2 = .ok () ∧
        (Run.emptyRoot {} d s.plan.root).2 = .ok ()) ∧
      ¬Option.Rel Outcome.Renamed (s.plan.verify s.setting a).value.1.outcome?
        (s.plan.verify s.setting d).value.1.outcome? := by
  intro s a d
  have hclean : Run.emptyRoot {} a (.ofString "y/../b") =
      ({ entries := [([[121]], .directory), ([[98]], .directory)] }, .ok ()) := by cbv
  have hclean' : (Run.emptyRoot {} d (.ofString "y/../b")).2 = .ok () := by cbv
  have hroot : Disk.follow { entries := [([[121]], .directory), ([[98]], .directory)] }
      (.ofString "y/../b") = .ok ([[98]], .directory) := by cbv
  have hwalk : ({} : FileAccess).walk { entries := [([[121]], .directory), ([[98]], .directory)] }
      (.ofString "y/../b") = [.other] := by cbv
  obtain ⟨run, haborted⟩ :=
    Scenario.aborted_serving hclean (Service.succeeds_idle _) hroot hwalk
  obtain ⟨report, hpass⟩ := Scenarios.passes_crossing
  have hids : s.setting.service.IgnoresIds := fun _ _ _ _ => ⟨rfl, rfl, rfl⟩
  refine ⟨⟨by decide, by decide, ⟨rfl, rfl, fun _ => rfl, fun _ => rfl, fun _ => rfl⟩, hids⟩,
    ⟨by cbv, by cbv⟩, ⟨congrArg Prod.snd hclean, hclean'⟩, ?_⟩
  rw [haborted, hpass]
  rintro (h | _)
  cases h

end CacheAudit
