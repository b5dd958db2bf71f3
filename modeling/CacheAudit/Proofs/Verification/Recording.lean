import CacheAudit.Verification.Scenarios
import CacheAudit.Proofs.Journal
import CacheAudit.Proofs.Verification.Progress

/-!
# What captures and runs record

A capture records its start first and last how it ended. Each stage of a run tells what the run has
recorded of itself by then: a step keeps that, so a run with a verdict is closed once and an aborted
one twice. A run among others records nothing of the whole.
-/

namespace CacheAudit

open Logged (Records records_pure records_record leaves_pure)
open Journal (IsOpen IsClosed IsReclosed ofOperation_append ofOperation_eq_nil ofOperation_eq_self)

variable {d : Disk} {fp : Fingerprinter} {limits : CaptureLimits} {around : Surroundings}
  {root : Path} {j : Journal}

/-! ### Captures -/

/-- How an operation ended, if it did not crash: with the code of a failure or without. -/
def Halt.ended? {α : Type} : Except (Halt Failure) α → Option (Option String)
  | .ok _ => some none
  | .error (.failed f) => some (some f.code)
  | .error .crashed => none

namespace Capture

/-- An event of a capture under way. -/
def Within (e : Event) : Prop :=
  e.op = "capture" ∧ e.mark = none

theorem records_survey (late : Nat → Bool) (i : Nat) (items : List WalkItem) :
    (survey late i items).Records Within := by
  induction items generalizing i with
  | nil => exact records_pure _ _
  | cons item rest ih =>
    rw [survey.eq_def]
    dsimp only
    split
    · exact records_pure _ _
    cases item with
    | file path names => exact (ih _).bind (records_pure _ _)
    | other => exact ih _
    | failed place e =>
      have hwarning : Within (warning (WalkItem.key ((place.map Prod.snd).getD []))
          FailureKind.fileUnreadable.code
          ("skipping unreadable entry: " ++ WalkItem.failureText place e)) := ⟨rfl, rfl⟩
      exact (records_record hwarning).bind ((ih _).bind (records_pure _ _))

theorem records_collect (whenLate : Failure) (results : List FileResult) :
    (collect whenLate results).Records Within := by
  induction results with
  | nil => exact records_pure _ _
  | cons result rest ih =>
    cases result with
    | recorded r => exact ih.bind (records_pure _ _)
    | unreadable key f =>
      have hwarning : Within (warning key f.code ("omitting unreadable file: " ++ f.message)) :=
        ⟨rfl, rfl⟩
      exact (records_record hwarning).bind (ih.bind (records_pure _ _))
    | failed f => exact records_pure _ _
    | late => exact records_pure _ _

theorem records_explore (limits : CaptureLimits) (around : Surroundings) (root : Path)
    (items : List WalkItem) : (explore limits around root items).Records Within := by
  unfold explore
  dsimp only
  split
  · exact records_pure _ _
  refine (records_survey _ _ _).bind ?_
  split
  · exact records_pure _ _
  · split <;> exact records_pure _ _

/-- A capture has recorded its start, and what it has left out, when its walk is over. -/
theorem isOpen_start (d : Disk) (limits : CaptureLimits) (around : Surroundings) (root : Path) :
    IsOpen (start d limits around root).events ∧
      (start d limits around root).Records fun e => e.op = "capture" := by
  unfold start
  cases requireRoot around.files d root with
  | error f => exact ⟨Journal.isOpen_starting _ _, List.forall_mem_singleton.2 rfl⟩
  | ok u =>
    have hwithin := records_explore limits around root (around.files.walk d root)
    exact ⟨(Journal.isOpen_starting _ _).append fun e he => (hwithin e he).2,
      List.forall_mem_cons.2 ⟨rfl, fun e he => (hwithin e he).1⟩⟩

theorem records_finish (d : Disk) (fp : Fingerprinter) (limits : CaptureLimits)
    (around : Surroundings) (root : Path) (p : Progress) :
    (p.finish d fp limits around root).Records Within := by
  unfold Progress.finish
  dsimp only
  split
  · exact records_pure _ _
  · exact (records_collect _ _).bind (records_pure _ _)

theorem records_reportEnd (root : Path) (captured : Captured) :
    (reportEnd root captured).Records fun e => e.op = "capture" := by
  unfold reportEnd
  split
  · exact records_record rfl
  · exact records_record rfl
  · exact records_pure _ _

/-- How a capture ended is recorded by the event that closes it. -/
theorem events_reportEnd (root : Path) {captured : Captured} {ended : Option String}
    (h : Halt.ended? captured.snapshot = some ended) :
    ∃ stop, (reportEnd root captured).events = [stop] ∧ stop.Closes ended := by
  unfold reportEnd
  cases hsnapshot : captured.snapshot with
  | ok s =>
    rw [hsnapshot] at h
    cases h
    exact ⟨_, rfl, Event.closes_ending _ _⟩
  | error halt =>
    rw [hsnapshot] at h
    cases halt <;> cases h
    exact ⟨_, rfl, Event.closes_failing _ _ _⟩

/-- What a capture does once its walk is over. -/
def proceed (d : Disk) (fp : Fingerprinter) (limits : CaptureLimits) (around : Surroundings)
    (root : Path) : Except (Halt Failure) Progress → Logged Captured
  | .error h => pure ⟨.error h, []⟩
  | .ok p => (p.takeAll d fp limits around).finish d fp limits around root

theorem records_proceed (d : Disk) (fp : Fingerprinter) (limits : CaptureLimits)
    (around : Surroundings) (root : Path) (begun : Except (Halt Failure) Progress) :
    (proceed d fp limits around root begun).Records Within := by
  cases begun with
  | error h => exact records_pure _ _
  | ok p => exact records_finish _ _ _ _ _ _

theorem capture_eq (d : Disk) (fp : Fingerprinter) (limits : CaptureLimits)
    (around : Surroundings) (root : Path) :
    capture d fp limits around root = do
      let begun ← start d limits around root
      let captured ← proceed d fp limits around root begun
      reportEnd root captured
      return captured := by
  unfold capture
  congr
  funext begun
  cases begun <;> rfl

end Capture

/-- The events of a capture are its start, what it leaves out, and how it ended unless it
crashed. -/
theorem capture_closed (d : Disk) (fp : Fingerprinter) (limits : CaptureLimits)
    (around : Surroundings) (root : Path) :
    (∀ ended, Halt.ended? (capture d fp limits around root).value.snapshot = some ended →
        IsClosed (capture d fp limits around root).events ended) ∧
      (capture d fp limits around root).Records fun e => e.op = "capture" := by
  obtain ⟨hopen, hstart⟩ := Capture.isOpen_start d limits around root
  have hbody := Capture.records_proceed d fp limits around root
    (Capture.start d limits around root).value
  rw [Capture.capture_eq]
  refine ⟨fun ended hended => ?_, ?_⟩
  · obtain ⟨stop, hstop, hcloses⟩ := Capture.events_reportEnd root hended
    simp only [Logged.value_bind, Logged.value_pure] at hstop
    simp only [Logged.events_bind, Logged.events_pure, List.append_nil, hstop,
      ← List.append_assoc]
    exact (hopen.append fun e he => (hbody e he).2).close hcloses
  · refine hstart.bind ((hbody.mono fun _ => And.left).bind ?_)
    exact (Capture.records_reportEnd root _).bind (records_pure _ _)

theorem records_diff (before after : Snapshot) :
    (before.diff after).Records fun e => e.op = "diff" := by
  rw [Snapshot.diff]
  split
  · exact records_pure _ _
  · have hstart (fields : List Field) : (Event.starting "diff" fields).op = "diff" := rfl
    have hend (fields : List Field) : (Event.ending "diff" fields).op = "diff" := rfl
    exact (records_record (P := fun e => e.op = "diff") (hstart _)).bind
      ((records_record (P := fun e => e.op = "diff") (hend _)).bind (records_pure _ _))

/-! ### Runs -/

/-- A service that records nothing of an operation. -/
def Service.SilentOn (service : Service) (op : String) : Prop :=
  ∀ request timeout d, ∀ e ∈ (service request timeout d).events, e.op ≠ op

namespace Run

variable {plan : Plan} {s : Setting} {r : Run} {own : Journal} {phase : Phase} {next : Stage}

/-- What a run has recorded of itself when it is at a stage. -/
def Recorded (own : Journal) : Stage → Prop
  | .clean => own = []
  | .tearDown (.aborted run) => IsClosed own (some run.errorCode)
  | .finished (.aborted run) => IsReclosed own run.errorCode
  | .finished _ => IsClosed own none
  | _ => IsOpen own

/-- A run and a disk of which the run fits its record. -/
def RecordedAt (own : Journal) (p : Run × Disk) : Prop :=
  Recorded own p.1.stage

/-- A run that fails in a phase is closed by its failure. -/
theorem leaves_abort (hopen : IsOpen own) (plan : Plan) (s : Setting) (phase : Phase)
    (f : Failure) (r : Run) :
    (abort plan s phase f r).Leaves op own fun own r => Recorded own r.stage := by
  refine .after_record ?_ ?_
  · rfl
  · exact leaves_pure (hopen.close (Event.closes_failing _ _ _))

theorem leaves_invoke (hquiet : s.service.SilentOn op) (hopen : IsOpen own)
    (hnext : Recorded own next) (d : Disk) (payload : Json) (id : String) (r : Run) :
    (invoke plan s d phase payload id next r).Leaves op own RecordedAt := by
  refine .after_silent ?_ ?_
  · rw [Records, Logged.events_forM]
    exact hquiet _ _ _
  dsimp only
  split
  · exact leaves_pure hopen
  split
  · exact leaves_pure hnext
  · exact .map (leaves_abort hopen ..)

theorem leaves_wait (hopen : IsOpen own) (hnext : ∀ {own}, IsOpen own → Recorded own next)
    (plan : Plan) (r : Run) :
    (wait plan next r).Leaves op own fun own r => Recorded own r.stage := by
  rw [wait]
  split
  · refine .after_record ?_ ?_
    · rfl
    · exact leaves_pure (hnext (hopen.append (List.forall_mem_singleton.2 rfl)))
  · exact leaves_pure (hnext hopen)

theorem recorded_compare (hopen : IsOpen own) (plan : Plan) (s : Setting) (before after : Snapshot)
    (diff : SnapshotDiff) : Recorded own (.tearDown (verdict plan s before after diff)) := by
  rw [verdict]
  split <;> exact hopen

/-- The last step warns of a root that it cannot remove and closes the run. -/
theorem events_tearDown (plan : Plan) (s : Setting) (outcome : Outcome) (deeds : List Deed)
    (d : Disk) : ∃ rest stop, (step plan s ⟨.tearDown outcome, deeds⟩ d).events = rest ++ [stop] ∧
      (∀ e ∈ rest, e.op = op ∧ e.mark = none) ∧ stop.op = op ∧ stop.Closes none := by
  rw [step]
  dsimp only
  split
  · exact ⟨[_], _, rfl, List.forall_mem_singleton.2 ⟨rfl, rfl⟩, rfl, Event.closes_ending _ _⟩
  · exact ⟨[], _, rfl, List.forall_mem_nil _, rfl, Event.closes_ending _ _⟩

theorem leaves_tearDown {outcome : Outcome} (h : Recorded own (.tearDown outcome)) (plan : Plan)
    (s : Setting) (deeds : List Deed) (d : Disk) :
    (step plan s ⟨.tearDown outcome, deeds⟩ d).Leaves op own RecordedAt := by
  obtain ⟨rest, stop, hevents, hrest, hop, hcloses⟩ := events_tearDown plan s outcome deeds d
  have hown : Journal.ofOperation (rest ++ [stop]) op = rest ++ [stop] :=
    ofOperation_eq_self (List.forall_mem_append.2
      ⟨fun e he => (hrest e he).1, List.forall_mem_singleton.2 hop⟩)
  have hstage : (Run.mk (.tearDown outcome) deeds).stage = .tearDown outcome := rfl
  obtain ⟨d', hvalue⟩ := value_tearDown plan s d hstage
  rw [Logged.Leaves, hvalue, hevents, hown]
  have hunmarked := fun e he => (hrest e he).2
  cases outcome with
  | aborted run => exact ⟨own, rest, stop, rfl, h, hunmarked, hcloses⟩
  | pass report | fail report =>
    have hopen : IsOpen own := h
    rw [← List.append_assoc]
    exact (hopen.append hunmarked).close hcloses

/-- A run that has taken a capture is still open, or closed by the failure of that. -/
theorem leaves_settle (hopen : IsOpen own) (hcapture : r.stage.isCapture = true) (plan : Plan)
    (s : Setting) (d : Disk) (captured : Captured) :
    (settle plan s d captured r).Leaves op own fun own r => Recorded own r.stage := by
  obtain ⟨stage, deeds⟩ := r
  unfold settle
  split
  · exact leaves_abort hopen ..
  · dsimp only
    split
    · exact leaves_abort hopen ..
    · exact leaves_pure hopen
  · exact leaves_abort hopen ..
  · exact leaves_pure hopen
  · exact leaves_pure hopen
  · exact leaves_pure hopen
  · cases stage <;> first | exact leaves_pure hopen | cases hcapture

theorem silent_takeSnapshot {name : String} (hname : "capture" ≠ name) (plan : Plan) (s : Setting)
    (d : Disk) (r : Run) : (takeSnapshot plan s d r).Records fun e => e.op ≠ name :=
  (capture_closed _ _ _ _ _).2.mono fun _ he => he ▸ hname

theorem silent_diff {name : String} (hname : "diff" ≠ name) (before after : Snapshot) :
    (before.diff after).Records fun e => e.op ≠ name :=
  (records_diff _ _).mono fun _ he => he ▸ hname

/-- A step keeps what a run has recorded of itself in keeping with its stage. -/
theorem leaves_step (hquiet : s.service.SilentOn op) (h : Recorded own r.stage) (d : Disk) :
    (step plan s r d).Leaves op own RecordedAt := by
  obtain ⟨stage, deeds⟩ := r
  cases stage with
  | clean =>
    have hempty : own = [] := h
    subst hempty
    refine .after_record ?_ ?_
    · rfl
    have hopen := Journal.isOpen_starting op [("run_id", s.runId), ("root", plan.root.display)]
    dsimp only
    split
    · exact leaves_pure hopen
    · exact .map (leaves_abort hopen ..)
  | invokeFirst =>
    have hnext : Recorded own .waitFirst := h
    exact leaves_invoke hquiet h hnext ..
  | waitFirst =>
    have hnext {own} (h : IsOpen own) : Recorded own .captureBefore := h
    exact .map (leaves_wait h hnext ..)
  | captureBefore =>
    refine .after_silent (silent_takeSnapshot (by decide) _ _ _ _) ?_
    exact .map (leaves_settle h rfl ..)
  | invokeSecond before =>
    have hnext : Recorded own (.waitSecond before) := h
    exact leaves_invoke hquiet h hnext ..
  | waitSecond before =>
    have hnext {own} (h : IsOpen own) : Recorded own (.captureAfter before) := h
    exact .map (leaves_wait h hnext ..)
  | captureAfter before =>
    refine .after_silent (silent_takeSnapshot (by decide) _ _ _ _) ?_
    exact .map (leaves_settle h rfl ..)
  | compare before after =>
    refine .after_silent (silent_diff (by decide) _ _) ?_
    dsimp only
    split
    · exact .map (leaves_abort h ..)
    · exact leaves_pure (recorded_compare h ..)
  | tearDown outcome => exact leaves_tearDown h ..
  | finished outcome => exact leaves_pure h
  | crashed => exact leaves_pure h

/-- Whatever number of steps a run takes, what it has recorded of itself fits its stage. -/
theorem leaves_advance (hquiet : s.service.SilentOn op) (n : Nat) (h : Recorded own r.stage)
    (d : Disk) : (advance plan s n r d).Leaves op own RecordedAt := by
  induction n generalizing own r d with
  | zero => exact leaves_pure h
  | succ n ih =>
    have hstep : (step plan s r d).Leaves op own RecordedAt := leaves_step hquiet h d
    have hrest := ih hstep (step plan s r d).value.2
    rw [Logged.Leaves, advance, Logged.events_bind, ofOperation_append, ← List.append_assoc]
    exact hrest

end Run

/-- The events that a run records of itself fit the stage in which it ends. -/
theorem Plan.recorded_verify {s : Setting} (hquiet : s.service.SilentOn Run.op) (plan : Plan)
    (d : Disk) : Run.Recorded ((plan.verify s d).events.ofOperation Run.op)
      (plan.verify s d).value.1.stage := by
  have hstart : Run.Recorded [] ({} : Run).stage := rfl
  exact Run.leaves_advance hquiet Run.length hstart d

/-! ### Several runs -/

/-- An operation of which runs record nothing. -/
def NotOfRuns (name : String) : Prop :=
  Run.op ≠ name ∧ "capture" ≠ name ∧ "diff" ≠ name

section Silence

variable {name : String} (hname : NotOfRuns name) {plan : Plan} {s : Setting}

include hname

namespace Run

theorem silent_abort (plan : Plan) (s : Setting) (phase : Phase) (f : Failure) (r : Run) :
    (abort plan s phase f r).Records fun e => e.op ≠ name :=
  List.forall_mem_singleton.2 hname.1

theorem silent_invoke (hquiet : s.service.SilentOn name) (d : Disk) (phase : Phase)
    (payload : Json) (id : String) (next : Stage) (r : Run) :
    (invoke plan s d phase payload id next r).Records fun e => e.op ≠ name := by
  refine Records.bind ?_ ?_
  · rw [Records, Logged.events_forM]
    exact hquiet _ _ _
  dsimp only
  split
  · exact records_pure _ _
  split
  · exact records_pure _ _
  · exact (silent_abort hname _ _ _ _ _).bind (records_pure _ _)

theorem silent_wait (plan : Plan) (next : Stage) (r : Run) :
    (wait plan next r).Records fun e => e.op ≠ name := by
  rw [wait]
  split
  · exact (records_record (P := fun e => e.op ≠ name) hname.1).bind (records_pure _ _)
  · exact records_pure _ _

theorem silent_settle (d : Disk) (captured : Captured) (r : Run) :
    (settle plan s d captured r).Records fun e => e.op ≠ name := by
  unfold settle
  split
  · exact silent_abort hname _ _ _ _ _
  · dsimp only
    split
    · exact silent_abort hname _ _ _ _ _
    · exact records_pure _ _
  · exact silent_abort hname _ _ _ _ _
  all_goals exact records_pure _ _

theorem silent_step (hquiet : s.service.SilentOn name) (r : Run) (d : Disk) :
    (step plan s r d).Records fun e => e.op ≠ name := by
  have habort (phase : Phase) (f : Failure) (r : Run) :
      (do return (← abort plan s phase f r, d)).Records fun e => e.op ≠ name :=
    (silent_abort hname _ _ _ _ _).bind (records_pure _ _)
  obtain ⟨stage, deeds⟩ := r
  cases stage with
  | clean =>
    refine (records_record (P := fun e => e.op ≠ name) hname.1).bind ?_
    dsimp only
    split
    · exact records_pure _ _
    · exact (silent_abort hname _ _ _ _ _).bind (records_pure _ _)
  | invokeFirst => exact silent_invoke hname hquiet _ _ _ _ _ _
  | waitFirst => exact (silent_wait hname _ _ _).bind (records_pure _ _)
  | captureBefore =>
    refine (silent_takeSnapshot hname.2.1 _ _ _ _).bind ?_
    exact (silent_settle hname _ _ _).bind (records_pure _ _)
  | invokeSecond before => exact silent_invoke hname hquiet _ _ _ _ _ _
  | waitSecond before => exact (silent_wait hname _ _ _).bind (records_pure _ _)
  | captureAfter before =>
    refine (silent_takeSnapshot hname.2.1 _ _ _ _).bind ?_
    exact (silent_settle hname _ _ _).bind (records_pure _ _)
  | compare before after =>
    refine (silent_diff hname.2.2 _ _).bind ?_
    dsimp only
    split
    · exact habort _ _ _
    · exact records_pure _ _
  | tearDown outcome =>
    obtain ⟨rest, stop, hevents, hrest, hop, -⟩ := events_tearDown plan s outcome deeds d
    rw [Records, hevents]
    refine List.forall_mem_append.2 ⟨fun e he => ?_, List.forall_mem_singleton.2 ?_⟩
    · rw [(hrest e he).1]
      exact hname.1
    · rw [hop]
      exact hname.1
  | finished outcome => exact records_pure _ _
  | crashed => exact records_pure _ _

end Run

namespace Member

theorem silent_conclude (d : Disk) (captured : Captured) (r : Run) :
    (conclude plan s d captured r).Records fun e => e.op ≠ name := by
  have hend : (Capture.reportEnd plan.root captured).Records fun e => e.op ≠ name :=
    (Capture.records_reportEnd _ _).mono fun _ he => he ▸ hname.2.1
  exact hend.bind ((Run.silent_settle hname _ _ _).bind (records_pure _ _))

theorem silent_step (hquiet : s.service.SilentOn name) (m : Member) (d : Disk) :
    (step plan s m d).Records fun e => e.op ≠ name := by
  rw [step]
  dsimp only
  split
  · split
    · refine ((Capture.records_finish _ _ _ _ _ _).mono fun _ he => he.1 ▸ hname.2.1).bind ?_
      exact (silent_conclude hname _ _ _).bind (records_pure _ _)
    · exact records_pure _ _
  split
  · refine ((Capture.isOpen_start _ _ _ _).2.mono fun _ he => he ▸ hname.2.1).bind ?_
    split
    · exact (silent_conclude hname _ _ _).bind (records_pure _ _)
    · exact records_pure _ _
  · exact (Run.silent_step hname hquiet _ _).bind (records_pure _ _)

theorem silent_advance (hquiet : s.service.SilentOn name) (n : Nat) (m : Member) (d : Disk) :
    (advance plan s n m d).Records fun e => e.op ≠ name := by
  induction n generalizing m d with
  | zero => exact records_pure _ _
  | succ n ih => exact (silent_step hname hquiet m d).bind (ih _ _)

theorem silent_round (hquiet : s.service.SilentOn name) (m : Member) (d : Disk) :
    (round plan s m d).Records fun e => e.op ≠ name :=
  (silent_step hname hquiet m d).bind (silent_advance hname hquiet _ _ _)

end Member

end Silence

namespace Scenarios

/-- Whatever silent things runs do in the order of a schedule, they are silent together. -/
theorem silent_follow (doing : Doing) {name : String} {scenarios : List Scenario}
    (hdoing : ∀ s ∈ scenarios, ∀ m d,
      (doing s.plan s.setting m d).Records fun e => e.op ≠ name)
    (schedule : List Nat) (members : List Member) (d : Disk) :
    (follow doing scenarios schedule members d).Records fun e => e.op ≠ name := by
  induction schedule generalizing members d with
  | nil => exact records_pure _ _
  | cons i schedule ih =>
    refine Records.bind ?_ (ih _ _)
    rw [doOne]
    split
    · rename_i s m hs hm
      exact (hdoing s (List.mem_of_getElem? hs) m d).bind (records_pure _ _)
    · exact records_pure _ _

end Scenarios

end CacheAudit
