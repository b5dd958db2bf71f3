import CacheAudit.Proofs.Capture.Steps
import CacheAudit.Proofs.Verification.Progress
import CacheAudit.Verification.Scenarios

/-!
# A run beside others

A run whose service keeps to the root of the plan goes the same way whether or not others work
elsewhere in the meantime. Each step finds the root as it would be without them, leaves everything
apart from the root alone, and comes to the same but for times.
-/

namespace CacheAudit

open Disk (Grown Spares Apart)

/-- Two stages that differ in nothing but times. -/
inductive Stage.Alike : Stage → Stage → Prop
  | clean : Alike .clean .clean
  | invokeFirst : Alike .invokeFirst .invokeFirst
  | waitFirst : Alike .waitFirst .waitFirst
  | captureBefore : Alike .captureBefore .captureBefore
  | invokeSecond {before before' : Snapshot} (h : before.timeless = before'.timeless) :
    Alike (.invokeSecond before) (.invokeSecond before')
  | waitSecond {before before' : Snapshot} (h : before.timeless = before'.timeless) :
    Alike (.waitSecond before) (.waitSecond before')
  | captureAfter {before before' : Snapshot} (h : before.timeless = before'.timeless) :
    Alike (.captureAfter before) (.captureAfter before')
  | compare {before before' after after' : Snapshot} (h : before.timeless = before'.timeless)
    (h' : after.timeless = after'.timeless) :
    Alike (.compare before after) (.compare before' after')
  | tearDown (outcome : Outcome) : Alike (.tearDown outcome) (.tearDown outcome)
  | finished (outcome : Outcome) : Alike (.finished outcome) (.finished outcome)
  | crashed : Alike .crashed .crashed

/-- What a run can count on when it has reached a stage. -/
def Stage.Prepared (a : Disk) (root : Path) : Stage → Prop
  /- The root is still to be made, in a directory that is there. -/
  | clean => a.entry? (a.base root) = some .directory
  | tearDown _ | finished _ | crashed =>
    Path.below root.parts = [] → a.Reaches (Location.ofPath a.cwd root)
  /- The root has been made and ends in a name, unless it is empty. -/
  | _ => a.Reaches (Location.ofPath a.cwd root) ∧ (Path.below root.parts = [] → root.bytes = [])

theorem Stage.prepared_of_reaches {stage : Stage} {a : Disk} {root : Path} (hstage : stage ≠ .clean)
    (hreaches : a.Reaches (Location.ofPath a.cwd root))
    (hnamed : Path.below root.parts = [] → root.bytes = []) : stage.Prepared a root := by
  cases stage with
  | clean => exact absurd rfl hstage
  | tearDown outcome | finished outcome | crashed => exact fun _ => hreaches
  | _ => exact ⟨hreaches, hnamed⟩

/-- A service that deals with a request within a place: it touches nothing else, and what it does
and answers depends on nothing else. Nor does it put a link at the place. -/
structure Service.KeepsTo (service : Service) (request : Request) (timeout : Duration)
    (l : Location) : Prop where
  touches : ∀ d : Disk, d.IsTree → d.Reaches l → d.LinkFree l →
    (service request timeout d).disk.IsTree ∧
      (service request timeout d).disk.cwd = d.cwd ∧
      (service request timeout d).disk.outside l = d.outside l ∧
      (service request timeout d).disk.LinkFree l
  depends : ∀ a d : Disk, a.IsTree → d.IsTree → a.Reaches l → d.Reaches l → a.LinkFree l →
    d.LinkFree l → d.cwd = a.cwd → d.part l = a.part l →
    (service request timeout a).answer = (service request timeout d).answer ∧
      (service request timeout a).elapsedNs = (service request timeout d).elapsedNs ∧
      (service request timeout d).disk.part l = (service request timeout a).disk.part l

/-- A scenario that keeps to the root of its plan when begun in a directory. The root is a path that
the system can take, the operations of the file system go by the disk alone, fingerprints by the
contents of files, and the service deals with both requests within the root. -/
structure Scenario.KeepsToRoot (s : Scenario) (cwd : Location) : Prop where
  proper : 0 ∉ s.plan.root.bytes
  files : ∀ i, (s.setting.around i).files = {}
  contents : ∀ given, (s.setting.fingerprinter given).ReadsContents
  first : s.setting.service.KeepsTo (s.plan.request s.plan.firstPayload s.setting.firstId)
    s.plan.invocationTimeout (Location.ofPath cwd s.plan.root)
  second : s.setting.service.KeepsTo (s.plan.request s.plan.secondPayload s.setting.secondId)
    s.plan.invocationTimeout (Location.ofPath cwd s.plan.root)

namespace Run

/-- Two runs that differ in nothing but times, as far as their next steps can tell. -/
structure Alike (r r' : Run) : Prop where
  stage : r.stage.Alike r'.stage
  length : r.deeds.length = r'.deeds.length
  given : r.given = r'.given

/-- A run on disk `a`, and the same run on disk `d` on which others work elsewhere. -/
structure Beside (root : Path) (a d : Disk) (r r' : Run) : Prop where
  grown : Grown (Location.ofPath a.cwd root) a d
  alike : r.Alike r'
  prepared : r.stage.Prepared a root

/-! ### Emptying the root -/

section Cleaning

variable {a d : Disk} {p : Path}

/-- Emptying a root vacates it and makes it anew. -/
theorem emptyRoot_eq (d : Disk) (p : Path) : emptyRoot {} d p =
    match (d.vacate p).2 with
    | .error e => ((d.vacate p).1, .error (cleanFailure p e))
    | .ok () => (((d.vacate p).1.createDirectories p).1,
        ((d.vacate p).1.createDirectories p).2.mapError (cleanFailure p)) := by
  rw [emptyRoot, Disk.vacate]
  dsimp only
  rcases hfollow : d.follow p with e | found
  · rcases hmade : d.createDirectories p with ⟨d', - | -⟩ <;> rfl
  · rcases hremoved : d.removeTree p with ⟨d', e | u⟩
    · rfl
    · rcases hmade : d'.createDirectories p with ⟨d'', - | -⟩ <;> rfl

/-- A root that can be emptied ends in a name, unless it is empty. -/
theorem named_of_emptyRoot (hp : p.Forward) (hlink : a.LinkFree (Location.ofPath a.cwd p))
    (hok : (emptyRoot {} a p).2 = .ok ()) (hnil : Path.below p.parts = []) : p.bytes = [] := by
  by_contra hne
  rw [emptyRoot_eq] at hok
  by_cases hlong : Disk.pathLimit ≤ p.bytes.length
  · split at hok
    · cases hok
    · rw [Disk.createDirectories_of_long hne hlong] at hok
      cases hok
  · have hfollow := Disk.follow_of_below_eq_nil hp hlink hne (by omega) hnil
    rw [Disk.vacate, hfollow] at hok
    dsimp only at hok
    split at hok
    · cases hok
    · rename_i hremoved
      exact Disk.below_ne_nil_of_removeTree hp hlink hremoved hnil

/-- Emptying a root comes to the same with the others and without. Afterwards it is there. -/
theorem emptyRoot_of_grown (h : Grown (Location.ofPath a.cwd p) a d) (hp : p.Forward)
    (hnul : 0 ∉ p.bytes) (hbase : a.entry? (a.base p) = some .directory) :
    (emptyRoot {} a p).2 = (emptyRoot {} d p).2 ∧
      Grown (Location.ofPath a.cwd p) (emptyRoot {} a p).1 (emptyRoot {} d p).1 ∧
      Spares (Location.ofPath a.cwd p) a (emptyRoot {} a p).1 ∧
      Spares (Location.ofPath a.cwd p) d (emptyRoot {} d p).1 ∧
      ((emptyRoot {} a p).2 = .ok () →
        Disk.entry? (emptyRoot {} a p).1 (Location.ofPath a.cwd p) = some .directory) := by
  obtain ⟨hresult, hgrown, hspares, hspares', hkept⟩ := h.vacate hp hbase
  rw [emptyRoot_eq, emptyRoot_eq, ← hresult]
  cases hvacated : (a.vacate p).2 with
  | error e => exact ⟨rfl, hgrown, hspares, hspares', fun hok => by cases hok⟩
  | ok u =>
    rw [← hspares.cwd] at hgrown hspares hspares' ⊢
    have hbase' : (a.vacate p).1.base p = a.base p := by
      rw [Disk.base, Disk.base, Disk.start, Disk.start, hspares.cwd]
    obtain ⟨hmade, hgrown', hmade', hmade'', hthere⟩ :=
      hgrown.createDirectories hp hnul (hbase' ▸ hkept hvacated)
    refine ⟨by dsimp only; rw [hmade], hgrown', hspares.trans hmade', hspares'.trans hmade'',
      fun hok => hthere ?_⟩
    dsimp only at hok
    cases hcreated : ((a.vacate p).1.createDirectories p).2 with
    | error e =>
      rw [hcreated] at hok
      cases hok
    | ok u => rfl

end Cleaning

/-! ### Single steps -/

/-- A step that a run takes on disk `a`, and the same run on disk `d` on which others work
elsewhere. -/
structure StepBeside (root : Path) (a d : Disk) (next next' : Run × Disk) : Prop where
  beside : Beside root next.2 next'.2 next.1 next'.1
  cwd : next.2.cwd = a.cwd
  spares : Spares (Location.ofPath a.cwd root) d next'.2

section Steps

variable {s : Scenario} {a d : Disk} {r r' : Run}

/-- Runs that are alike and do the same thing stay alike. -/
theorem Alike.did (h : r.Alike r') {deed deed' : Deed} (hgiven : deed.given? = deed'.given?)
    {stage stage' : Stage} (hstage : stage.Alike stage') :
    Alike { r.did deed with stage := stage } { r'.did deed' with stage := stage' } := by
  refine ⟨hstage, ?_, ?_⟩
  · simp [Run.did, h.length]
  · have hbefore : r.deeds.filterMap Deed.given? = r'.deeds.filterMap Deed.given? := h.given
    show (r.deeds ++ [deed]).filterMap Deed.given? = (r'.deeds ++ [deed']).filterMap Deed.given?
    rw [List.filterMap_append, List.filterMap_append, hbefore]
    simp only [List.filterMap_cons, hgiven]

/-- The stage that a reply leads to. -/
def afterReply (plan : Plan) (s : Setting) (phase : Phase) (id : String) (next : Stage)
    (reply : Reply) : Stage :=
  match reply.answer with
  | .crashed => .crashed
  | _ =>
    match judge plan.invocationTimeout id reply.answer reply.elapsedNs with
    | .ok () => next
    | .error f => .tearDown (abortedOutcome plan s phase f)

/-- Replies with one answer, which took one time, lead to stages that are alike. -/
theorem afterReply_alike (plan : Plan) (s : Setting) (phase : Phase) (id : String)
    {next next' : Stage} (hnext : next.Alike next') (hlater : next ≠ .clean) {reply reply' : Reply}
    (hanswer : reply.answer = reply'.answer) (helapsed : reply.elapsedNs = reply'.elapsedNs) :
    (afterReply plan s phase id next reply).Alike (afterReply plan s phase id next' reply') ∧
      afterReply plan s phase id next reply ≠ .clean := by
  rw [afterReply, afterReply, ← hanswer, ← helapsed]
  split
  · exact ⟨.crashed, by simp⟩
  · split
    · exact ⟨hnext, hlater⟩
    · exact ⟨.tearDown _, by simp⟩

theorem value_invoke_eq (plan : Plan) (s : Setting) (d : Disk) (phase : Phase) (payload : Json)
    (id : String) (next : Stage) (r : Run) : (invoke plan s d phase payload id next r).value =
      let reply := s.service (plan.request payload id) plan.invocationTimeout d
      ({ r.did (.invoke (plan.request payload id) reply) with
          stage := afterReply plan s phase id next reply }, reply.disk) := by
  dsimp only
  generalize hreply : s.service (plan.request payload id) plan.invocationTimeout d = reply
  by_cases hanswer : reply.answer = .crashed
  · simp [invoke, afterReply, hreply, hanswer]
  · have hstage : afterReply plan s phase id next reply =
        match judge plan.invocationTimeout id reply.answer reply.elapsedNs with
        | .ok () => next
        | .error f => .tearDown (abortedOutcome plan s phase f) := by
      rw [afterReply]
      split
      · contradiction
      · rfl
    rw [value_invoke hreply hanswer, hstage]
    cases judge plan.invocationTimeout id reply.answer reply.elapsedNs <;> rfl

/-- An invocation goes the same way when the service deals with the request within the root. -/
theorem Beside.invoke (h : Beside s.plan.root a d r r') {phase : Phase} {payload : Json}
    {id : String} (hservice : s.setting.service.KeepsTo (s.plan.request payload id)
      s.plan.invocationTimeout (Location.ofPath a.cwd s.plan.root))
    (hreaches : a.Reaches (Location.ofPath a.cwd s.plan.root))
    (hnamed : Path.below s.plan.root.parts = [] → s.plan.root.bytes = []) {next next' : Stage}
    (hnext : next.Alike next') (hlater : next ≠ .clean) :
    StepBeside s.plan.root a d (Run.invoke s.plan s.setting a phase payload id next r).value
      (Run.invoke s.plan s.setting d phase payload id next' r').value := by
  have hgrown := h.grown
  have hreaches' := hgrown.reaches hreaches
  obtain ⟨htree, hcwd, houtside, hlink⟩ := hservice.touches a hgrown.tree hreaches hgrown.linkFree
  obtain ⟨htree', hcwd', houtside', -⟩ :=
    hservice.touches d hgrown.tree' hreaches' hgrown.linkFree'
  obtain ⟨hanswer, helapsed, hpart⟩ := hservice.depends a d hgrown.tree hgrown.tree' hreaches
    hreaches' hgrown.linkFree hgrown.linkFree' hgrown.cwd hgrown.part
  rw [value_invoke_eq, value_invoke_eq]
  dsimp only
  have hstage := afterReply_alike s.plan s.setting phase id hnext hlater hanswer helapsed
  have hspares := Disk.spares_of_outside hcwd houtside
  refine ⟨⟨?_, h.alike.did (by rfl) hstage.1, ?_⟩, hcwd,
    Disk.spares_of_outside hcwd' houtside'⟩
  · rw [hcwd]
    exact hgrown.within htree htree' hcwd hcwd' houtside houtside' hlink hpart
  · refine Stage.prepared_of_reaches hstage.2 ?_ hnamed
    rw [hcwd]
    exact hreaches.spares_self hspares

/-- What does not change the disk leaves the root as it is. -/
theorem Beside.unchanged (h : Beside s.plan.root a d r r') {next next' : Run}
    (halike : next.Alike next') (hprepared : next.stage.Prepared a s.plan.root) :
    StepBeside s.plan.root a d (next, a) (next', d) :=
  ⟨⟨h.grown, halike, hprepared⟩, rfl, .refl ..⟩

/-- Emptying the root goes the same way. -/
theorem Beside.clean (hs : s.KeepsToRoot a.cwd) (hp : s.plan.root.Forward)
    (h : Beside s.plan.root a d r r') (hstage : r.stage = .clean) (hstage' : r'.stage = .clean) :
    StepBeside s.plan.root a d (step s.plan s.setting r a).value
      (step s.plan s.setting r' d).value := by
  have hbase : a.entry? (a.base s.plan.root) = some .directory := by
    have hprepared := h.prepared
    rw [hstage] at hprepared
    exact hprepared
  obtain ⟨hresult, hgrown, hspares, hspares', hmade⟩ :=
    emptyRoot_of_grown h.grown hp hs.proper hbase
  simp only [step, hstage, hstage', Logged.value_bind, surroundings, hs.files, ← hresult]
  rw [← hspares.cwd] at hgrown
  cases hemptied : (emptyRoot {} a s.plan.root).2 with
  | ok u =>
    have hreaches := hgrown.tree.reaches (hspares.cwd ▸ hmade hemptied)
    have hnamed := named_of_emptyRoot hp h.grown.linkFree hemptied
    exact ⟨⟨hgrown, h.alike.did rfl .invokeFirst, hreaches, hnamed⟩, hspares.cwd, hspares'⟩
  | error f =>
    -- a root without names is the directory it starts from, which is there whatever happened
    have hnear : Path.below s.plan.root.parts = [] →
        (emptyRoot {} a s.plan.root).1.Reaches
          (Location.ofPath (emptyRoot {} a s.plan.root).1.cwd s.plan.root) := by
      intro hnil
      rw [hspares.cwd]
      exact (Disk.reaches_of_below_eq_nil h.grown.tree hp hbase hnil).spares_self hspares
    exact ⟨⟨hgrown, h.alike.did rfl (.tearDown _), hnear⟩, hspares.cwd, hspares'⟩

/-- The comparison has no regard for times. -/
theorem verdict_timeless {before before' after after' : Snapshot}
    (hbefore : before.timeless = before'.timeless) (hafter : after.timeless = after'.timeless)
    (plan : Plan) (s : Setting) (diff : SnapshotDiff) :
    verdict plan s before after diff = verdict plan s before' after' diff := by
  rw [verdict, verdict, warnings, warnings, isInconclusive, isInconclusive,
    Snapshot.paths_eq_of_timeless hbefore, Snapshot.paths_eq_of_timeless hafter,
    Snapshot.unreadable_eq_of_timeless hbefore, Snapshot.unreadable_eq_of_timeless hafter]

theorem value_diff_timeless {before before' after after' : Snapshot}
    (hbefore : before.timeless = before'.timeless) (hafter : after.timeless = after'.timeless) :
    (before.diff after).value = (before'.diff after').value := by
  rw [Snapshot.value_diff, Snapshot.value_diff, ← SnapshotDiff.between_timeless, hbefore, hafter,
    SnapshotDiff.between_timeless, Snapshot.algorithm_eq_of_timeless hbefore,
    Snapshot.algorithm_eq_of_timeless hafter]

/-- The comparison goes the same way. -/
theorem Beside.compare (h : Beside s.plan.root a d r r') {before before' after after' : Snapshot}
    (hstage : r.stage = .compare before after) (hstage' : r'.stage = .compare before' after')
    (hbefore : before.timeless = before'.timeless) (hafter : after.timeless = after'.timeless) :
    StepBeside s.plan.root a d (step s.plan s.setting r a).value
      (step s.plan s.setting r' d).value := by
  have hprepared := h.prepared
  rw [hstage] at hprepared
  simp only [step, hstage, hstage', Logged.value_bind, value_diff_timeless hbefore hafter]
  cases (before'.diff after').value with
  | error f => exact h.unchanged (h.alike.did rfl (.tearDown _)) fun _ => hprepared.1
  | ok diff =>
    refine h.unchanged (h.alike.did rfl ?_) fun _ => hprepared.1
    rw [verdict_timeless hbefore hafter]
    exact .tearDown _

theorem value_step_tearDown {cwd : Location} (hs : s.KeepsToRoot cwd) {outcome : Outcome}
    (hstage : r.stage = .tearDown outcome) (d : Disk) :
    (step s.plan s.setting r d).value = ({ r with stage := .finished outcome },
      if s.plan.cleanupOnExit then (d.removeTree s.plan.root).1 else d) := by
  have hremove : ({} : FileAccess).removeTree d s.plan.root = d.removeTree s.plan.root := rfl
  unfold step
  rw [hstage]
  dsimp only
  rw [surroundings, hs.files, hremove]
  cases s.plan.cleanupOnExit with
  | false => rfl
  | true =>
    rw [if_pos rfl, if_pos rfl]
    rcases d.removeTree s.plan.root with ⟨d', - | -⟩ <;> rfl

/-- Tearing down goes the same way. -/
theorem Beside.tearDown (hs : s.KeepsToRoot a.cwd) (hp : s.plan.root.Forward)
    (h : Beside s.plan.root a d r r') {outcome : Outcome} (hstage : r.stage = .tearDown outcome)
    (hstage' : r'.stage = .tearDown outcome) :
    StepBeside s.plan.root a d (step s.plan s.setting r a).value
      (step s.plan s.setting r' d).value := by
  have hnear : Path.below s.plan.root.parts = [] →
      a.Reaches (Location.ofPath a.cwd s.plan.root) := by
    have hprepared := h.prepared
    rw [hstage] at hprepared
    exact hprepared
  have halike : Alike { r with stage := .finished outcome }
      { r' with stage := .finished outcome } := ⟨.finished _, h.alike.length, h.alike.given⟩
  rw [value_step_tearDown hs hstage, value_step_tearDown hs hstage']
  cases s.plan.cleanupOnExit with
  | false => exact h.unchanged halike hnear
  | true =>
    obtain ⟨hgrown, hspares, hspares'⟩ := h.grown.removeTree_of_near hp hnear
    rw [← hspares.cwd] at hgrown
    refine ⟨⟨hgrown, halike, fun hnil => ?_⟩, hspares.cwd, hspares'⟩
    have hkept := (hnear hnil).spares_self hspares
    rw [← hspares.cwd] at hkept
    exact hkept

theorem value_step_waitFirst (plan : Plan) (s : Setting) (d : Disk)
    (hstage : r.stage = .waitFirst) :
    (Run.step plan s r d).value =
      ({ r.did (.wait plan.gracePeriod) with stage := .captureBefore }, d) := by
  simp only [Run.step, hstage, Logged.value_bind, value_wait, Logged.value_pure]

theorem value_step_waitSecond (plan : Plan) (s : Setting) (d : Disk) {before : Snapshot}
    (hstage : r.stage = .waitSecond before) :
    (Run.step plan s r d).value =
      ({ r.did (.wait plan.gracePeriod) with stage := .captureAfter before }, d) := by
  simp only [Run.step, hstage, Logged.value_bind, value_wait, Logged.value_pure]

/-- Every step but a capture goes the same way with the others and without. -/
theorem Beside.step (hs : s.KeepsToRoot a.cwd) (hp : s.plan.root.Forward)
    (h : Beside s.plan.root a d r r') (hcapture : r.stage.isCapture = false) :
    StepBeside s.plan.root a d (Run.step s.plan s.setting r a).value
      (Run.step s.plan s.setting r' d).value := by
  obtain ⟨stage, deeds⟩ := r
  obtain ⟨stage', deeds'⟩ := r'
  have hprepared : stage.Prepared a s.plan.root := h.prepared
  cases (h.alike.stage : stage.Alike stage') with
  | clean => exact h.clean hs hp rfl rfl
  | invokeFirst => exact h.invoke hs.first hprepared.1 hprepared.2 .waitFirst (by simp)
  | waitFirst =>
    rw [value_step_waitFirst _ _ _ rfl, value_step_waitFirst _ _ _ rfl]
    exact h.unchanged (h.alike.did rfl .captureBefore) hprepared
  | captureBefore => cases hcapture
  | invokeSecond hbefore =>
    exact h.invoke hs.second hprepared.1 hprepared.2 (.waitSecond hbefore) (by simp)
  | @waitSecond before before' hbefore =>
    rw [value_step_waitSecond _ _ _ rfl, value_step_waitSecond _ _ _ rfl]
    exact h.unchanged (h.alike.did rfl (.captureAfter hbefore)) hprepared
  | captureAfter hbefore => cases hcapture
  | compare hbefore hafter => exact h.compare rfl rfl hbefore hafter
  | tearDown outcome => exact h.tearDown hs hp rfl rfl
  | finished outcome => exact h.unchanged h.alike hprepared
  | crashed => exact h.unchanged h.alike hprepared

/-- A capture step takes a snapshot and settles what it means. -/
theorem value_step_of_isCapture (plan : Plan) (s : Setting) (d : Disk)
    (hcapture : r.stage.isCapture = true) : (Run.step plan s r d).value =
      ((r.settle plan s d (takeSnapshot plan s d r).value).value, d) := by
  obtain ⟨stage, deeds⟩ := r
  cases stage with
  | captureBefore | captureAfter before => rfl
  | _ => cases hcapture

/-- Captures that differ in nothing but times mean the same for a run. -/
theorem Beside.settle (h : Beside s.plan.root a d r r') (hcapture : r.stage.isCapture = true)
    {captured captured' : Captured} (hcaptured : captured.timeless = captured'.timeless) :
    Beside s.plan.root a d (r.settle s.plan s.setting a captured).value
      (r'.settle s.plan s.setting d captured').value := by
  have hgiven : captured.given = captured'.given := by
    show captured.timeless.given = captured'.timeless.given
    rw [hcaptured]
  have hdeed : (Deed.capture a captured).given? = (Deed.capture d captured').given? := by
    rw [Deed.given?, Deed.given?, hgiven]
  have hdid {stage stage' : Stage} (hstage : stage.Alike stage') := h.alike.did hdeed hstage
  obtain ⟨stage, deeds⟩ := r
  obtain ⟨stage', deeds'⟩ := r'
  have hprepared : stage.Prepared a s.plan.root := h.prepared
  rw [Run.settle, Run.settle]
  cases (h.alike.stage : stage.Alike stage') with
  | captureBefore =>
    rcases Captured.cases_of_timeless hcaptured with
      ⟨halt, hf, hf'⟩ | ⟨before, before', hs, hs', hsame⟩
    · rw [hf, hf']
      cases halt with
      | failed f => exact ⟨h.grown, hdid (.tearDown _), fun _ => hprepared.1⟩
      | crashed => exact ⟨h.grown, hdid .crashed, fun _ => hprepared.1⟩
    · rw [hs, hs']
      dsimp only
      rw [Snapshot.isEmpty_eq_of_timeless hsame]
      split
      · exact ⟨h.grown, hdid (.tearDown _), fun _ => hprepared.1⟩
      · exact ⟨h.grown, hdid (.invokeSecond hsame), hprepared⟩
  | captureAfter hbefore =>
    rcases Captured.cases_of_timeless hcaptured with
      ⟨halt, hf, hf'⟩ | ⟨after, after', hs, hs', hsame⟩
    · rw [hf, hf']
      cases halt with
      | failed f => exact ⟨h.grown, hdid (.tearDown _), fun _ => hprepared.1⟩
      | crashed => exact ⟨h.grown, hdid .crashed, fun _ => hprepared.1⟩
    · rw [hs, hs']
      exact ⟨h.grown, hdid (.compare hbefore hsame), hprepared⟩
  | _ => cases hcapture

end Steps

end Run

end CacheAudit
