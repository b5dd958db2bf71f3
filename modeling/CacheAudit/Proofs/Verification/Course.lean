import CacheAudit.Verification.Run
import CacheAudit.Proofs.Capture.Result
import CacheAudit.Proofs.Snapshot.Difference

/-!
# The course of a verification run

A plan sets eight actions in a fixed order. A run takes them one after the other on the disk that
the one before left, stops right after the first that fails, and its outcome tells which one that
was. What counts as a failure of an action is said here without reference to the way in which a run
goes on.
-/

namespace CacheAudit

/-- What a plan asks for at one place of its course. -/
inductive Action
  | clean
  | invoke (request : Request)
  | wait
  | capture
  | compare

/-- The actions of a plan in their order, each with its phase. -/
def Plan.course (plan : Plan) (s : Setting) : List (Phase × Action) :=
  [(.clean, .clean),
    (.firstInvocation, .invoke (plan.request plan.firstPayload s.firstId)),
    (.waitForArtifacts, .wait),
    (.captureBefore, .capture),
    (.secondInvocation, .invoke (plan.request plan.secondPayload s.secondId)),
    (.waitForArtifacts, .wait),
    (.captureAfter, .capture),
    (.compare, .compare)]

/-- One move of a run: the phase it belongs to, the action it takes, and what that came to. -/
structure Move where
  phase : Phase
  action : Action
  deed : Deed

/-- Where a move stands in the course of a plan. -/
def Move.place (m : Move) : Phase × Action :=
  (m.phase, m.action)

/-- The code of an error. -/
def errorCode? {α : Type} : Except Failure α → Option String
  | .ok _ => none
  | .error f => some f.code

/-- The code of the error for which an answer to a request fails, if it does. An answer that comes
after the time limit fails whatever it says. -/
def Reply.errorCode? (timeout : Duration) (reply : Reply) : Option String :=
  match reply.answer with
  | .failed f => some f.code
  | .response _ success =>
    if timeout.nanos < reply.elapsedNs then some FailureKind.timeout.code
    else if success then none
    else some FailureKind.setupFailed.code
  | .crashed => none

/-- The code of the error for which a deed of a phase fails, if it does. -/
def Deed.errorCode? (plan : Plan) (phase : Phase) : Deed → Option String
  | .clean result => CacheAudit.errorCode? result
  | .invoke _ reply => reply.errorCode? plan.invocationTimeout
  | .wait _ => none
  | .capture _ captured =>
    match captured.snapshot with
    | .error (.failed f) => some f.code
    | .error .crashed => none
    | .ok snapshot =>
      if phase = .captureBefore ∧ snapshot.isEmpty then some FailureKind.noArtifactsProduced.code
      else none
  | .compare result => CacheAudit.errorCode? result

/-- A deed crashes its run. -/
def Deed.Crashes : Deed → Prop
  | .invoke _ reply => reply.answer = .crashed
  | .capture _ captured => captured.snapshot = .error .crashed
  | _ => False

/-- The code of the error for which a move fails, if it does. -/
def Move.errorCode? (plan : Plan) (m : Move) : Option String :=
  m.deed.errorCode? plan m.phase

/-- The snapshot that a deed took. -/
def Deed.snapshot? : Deed → Option Snapshot
  | .capture _ ⟨.ok snapshot, _⟩ => some snapshot
  | _ => none

theorem Deed.snapshot?_capture {d : Disk} {captured : Captured} {snapshot : Snapshot} :
    (Deed.capture d captured).snapshot? = some snapshot ↔ captured.snapshot = .ok snapshot := by
  obtain ⟨result, given⟩ := captured
  cases result <;> simp [Deed.snapshot?]

/-- The disk of which a deed made a capture. -/
def Deed.disk? : Deed → Option Disk
  | .capture d _ => some d
  | _ => none

/-- The disks of which a run made its captures. -/
def Run.captured (r : Run) : List Disk :=
  r.deeds.filterMap Deed.disk?

/-- The snapshots that were taken in given moves. -/
def snapshots (moves : List Move) : List Snapshot :=
  (moves.map Move.deed).filterMap Deed.snapshot?

/-- An action on a disk, taken after other deeds, comes to a deed and leaves a disk. A root is wiped
and made anew; a wait lasts as long as the plan says. -/
inductive Action.Brings (plan : Plan) (s : Setting) (past : List Deed) (d : Disk) :
    Action → Deed → Disk → Prop
  | clean {d' : Disk} {result : Except Failure Unit}
    (h : Run.Empties (s.around past.length).files plan.root d d' result) :
    Brings plan s past d .clean (.clean result) d'
  | invoke (request : Request) :
    Brings plan s past d (.invoke request)
      (.invoke request (s.service request plan.invocationTimeout d))
      (s.service request plan.invocationTimeout d).disk
  | wait : Brings plan s past d .wait (.wait plan.gracePeriod) d
  | capture :
    Brings plan s past d .capture
      (.capture d (CacheAudit.capture d (s.fingerprinter (past.filterMap Deed.given?))
        (Run.limits plan) (s.around past.length) plan.root).value) d
  | compare {before after : Snapshot} (h : past.filterMap Deed.snapshot? = [before, after]) :
    Brings plan s past d .compare (.compare (before.diff after).value) d

/-- Moves made one after the other, each on the disk that the one before left. -/
inductive Played (plan : Plan) (s : Setting) (d : Disk) : List Move → Disk → Prop
  | none : Played plan s d [] d
  | next {moves : List Move} {d' d'' : Disk} {m : Move} (h : Played plan s d moves d')
    (hm : m.action.Brings plan s (moves.map Move.deed) d' m.deed d'') :
    Played plan s d (moves ++ [m]) d''

/-- The service answers every request, well or badly. -/
def Setting.Answers (s : Setting) : Prop :=
  ∀ request timeout d, (s.service request timeout d).answer ≠ .crashed

/-- Every capture identifies contents by one algorithm. -/
def Setting.Identifies (s : Setting) (algorithm : String) : Prop :=
  ∀ given, (s.fingerprinter given).algorithm = algorithm

/-- What the outcome of a run has to do with its moves. -/
structure Account (plan : Plan) (s : Setting) (d : Disk) (moves : List Move) (outcome : Outcome) :
    Prop where
  /-- The moves are the first ones of the plan's course. -/
  course : moves.map Move.place <+: plan.course s
  /-- They were really made, one after the other. -/
  played : ∃ d', Played plan s d moves d'
  /-- None was made after one that failed. -/
  stopped : ∀ m ∈ moves.dropLast, m.errorCode? plan = none
  /-- None crashed. -/
  uncrashed : ∀ m ∈ moves, ¬m.deed.Crashes
  /-- The run is aborted exactly when a move failed. -/
  aborted_iff : (∃ run, outcome = .aborted run) ↔ ∃ m ∈ moves, m.errorCode? plan ≠ none
  /-- An aborted run names the phase and the error of its last move, and the request if that was
  an invocation. -/
  blame : ∀ run, outcome = .aborted run → ∃ m, moves.getLast? = some m ∧ run.phase = m.phase ∧
    m.errorCode? plan = some run.errorCode ∧
    run.phase ≠ .waitForArtifacts ∧ run.phase ≠ .compare ∧
    ∀ request, m.action = .invoke request → run.requestId = some request.id
  /-- A run without a failure makes all moves and is judged by its two snapshots. -/
  verdict : (∀ m ∈ moves, m.errorCode? plan = none) →
    moves.map Move.place = plan.course s ∧
    ∃ before after, snapshots moves = [before, after] ∧
      ((∃ report, outcome = .pass report) ↔ ∀ p ∈ before.paths, before.AgreesAt after p) ∧
      ((∃ report, outcome = .fail report) ↔ ¬∀ p ∈ before.paths, before.AgreesAt after p)
  /-- A report tells of the two snapshots. -/
  report : ∀ report, outcome.report? = some report → ∃ before after,
    snapshots moves = [before, after] ∧ report.beforeFiles = before.paths ∧
    report.afterFiles = after.paths ∧ report.diff = SnapshotDiff.between before after ∧
    report.warnings = Run.warnings before after

/-- What the crash of a run whose service answers has to do with its moves. -/
structure CaptureCrash (plan : Plan) (s : Setting) (d : Disk) (moves : List Move) : Prop where
  /-- The moves are the first ones of the plan's course. -/
  course : moves.map Move.place <+: plan.course s
  /-- They were really made, one after the other. -/
  played : ∃ d', Played plan s d moves d'
  /-- None was made after one that failed or crashed. -/
  stopped : ∀ m ∈ moves.dropLast, m.errorCode? plan = none ∧ ¬m.deed.Crashes
  /-- The last was a capture whose deadline the clock cannot tell. -/
  untold : ∃ m, moves.getLast? = some m ∧ m.action = .capture ∧ m.deed.Crashes ∧
    Capture.canTell (Run.limits plan) (s.around (moves.length - 1)).clock = false

/-- Where a run stands that is under way: so many moves were made, none failed, and the snapshots
among them are the given ones. -/
structure Underway (plan : Plan) (s : Setting) (d : Disk) (made : Nat) (taken : List Snapshot)
    (moves : List Move) (d' : Disk) : Prop where
  course : moves.map Move.place = (plan.course s).take made
  played : Played plan s d moves d'
  fine : ∀ m ∈ moves, m.errorCode? plan = none
  uncrashed : ∀ m ∈ moves, ¬m.deed.Crashes
  taken : snapshots moves = taken

section Moves

variable {plan : Plan} {s : Setting} {d d' d'' : Disk} {made : Nat} {taken : List Snapshot}
  {moves : List Move} {phase : Phase} {action : Action} {deed : Deed}

theorem snapshots_append (moves : List Move) (m : Move) :
    snapshots (moves ++ [m]) = snapshots moves ++ m.deed.snapshot?.toList := by
  rw [snapshots, List.map_append, List.filterMap_append]
  cases h : m.deed.snapshot? <;> simp [snapshots, h]

/-- A run that is under way and makes the next move of the course without an error goes on. -/
theorem Underway.next (h : Underway plan s d made taken moves d')
    (hplace : (plan.course s)[made]? = some (phase, action))
    (hdeed : action.Brings plan s (moves.map Move.deed) d' deed d'')
    (hfine : deed.errorCode? plan phase = none) (huncrashed : ¬deed.Crashes) :
    Underway plan s d (made + 1) (taken ++ deed.snapshot?.toList)
      (moves ++ [⟨phase, action, deed⟩]) d'' where
  course := by
    rw [List.map_append, h.course, List.take_add_one, hplace]
    rfl
  played := h.played.next hdeed
  fine := by
    intro m hm
    rcases List.mem_append.1 hm with hm | hm
    · exact h.fine m hm
    · cases List.mem_singleton.1 hm
      exact hfine
  uncrashed := by
    intro m hm
    rcases List.mem_append.1 hm with hm | hm
    · exact h.uncrashed m hm
    · cases List.mem_singleton.1 hm
      exact huncrashed
  taken := by rw [snapshots_append, h.taken]

/-- The next move of a run that is under way goes on with the course. -/
theorem Underway.course_next (h : Underway plan s d made taken moves d')
    (hplace : (plan.course s)[made]? = some (phase, action)) :
    (moves ++ [(⟨phase, action, deed⟩ : Move)]).map Move.place <+: plan.course s := by
  rw [List.map_append, h.course]
  have htake : (plan.course s).take made ++ [(phase, action)] =
      (plan.course s).take (made + 1) := by
    rw [List.take_add_one, hplace]
    rfl
  exact htake ▸ List.take_prefix _ _

/-- A run that is under way and whose next move fails has told which one that was when it is
aborted. -/
theorem Underway.abort (h : Underway plan s d made taken moves d')
    (hplace : (plan.course s)[made]? = some (phase, action))
    (hdeed : action.Brings plan s (moves.map Move.deed) d' deed d'') {f : Failure}
    (hfailed : deed.errorCode? plan phase = some f.code) (huncrashed : ¬deed.Crashes)
    (hphase : phase ≠ .waitForArtifacts ∧ phase ≠ .compare)
    (hrequest : ∀ request, action = .invoke request → f.requestId = some request.id) :
    Account plan s d (moves ++ [⟨phase, action, deed⟩]) (Run.abortedOutcome plan s phase f) where
  course := h.course_next hplace
  played := ⟨d'', h.played.next hdeed⟩
  stopped := by
    rw [List.dropLast_concat]
    exact h.fine
  uncrashed := by
    intro m hm
    rcases List.mem_append.1 hm with hm | hm
    · exact h.uncrashed m hm
    · cases List.mem_singleton.1 hm
      exact huncrashed
  aborted_iff := by
    refine iff_of_true ⟨_, rfl⟩ ⟨_, List.mem_append_right _ (List.mem_singleton_self _), ?_⟩
    show deed.errorCode? plan phase ≠ none
    rw [hfailed]
    exact Option.some_ne_none _
  blame := by
    intro run hrun
    cases hrun
    exact ⟨_, List.getLast?_concat, rfl, hfailed, hphase.1, hphase.2, hrequest⟩
  verdict := by
    intro hfine
    have hlast := hfine _ (List.mem_append_right _ (List.mem_singleton_self _))
    cases hfailed.symm.trans hlast
  report := by
    rintro _ ⟨⟩

/-- A run that is under way and crashes at its next capture has told why. -/
theorem Underway.crash (h : Underway plan s d made taken moves d')
    (hplace : (plan.course s)[made]? = some (phase, .capture))
    (hdeed : Action.capture.Brings plan s (moves.map Move.deed) d' deed d'')
    (hcrashed : deed.Crashes) :
    CaptureCrash plan s d (moves ++ [⟨phase, .capture, deed⟩]) where
  course := h.course_next hplace
  played := ⟨d'', h.played.next hdeed⟩
  stopped := by
    rw [List.dropLast_concat]
    exact fun m hm => ⟨h.fine m hm, h.uncrashed m hm⟩
  untold := by
    refine ⟨_, List.getLast?_concat, rfl, hcrashed, ?_⟩
    cases hdeed
    rw [List.length_append, List.length_singleton, Nat.add_sub_cancel]
    have huntold := (capture_eq_crashed_iff.1 hcrashed).2
    rwa [List.length_map] at huntold

/-- A run that has made all moves without a failure is judged by its snapshots. -/
theorem Underway.judge {before after : Snapshot}
    (h : Underway plan s d (plan.course s).length [before, after] moves d') :
    Account plan s d moves
      (Run.verdict plan s before after (SnapshotDiff.between before after)) where
  course := by
    rw [h.course, List.take_length]
  played := ⟨d', h.played⟩
  stopped := fun m hm => h.fine m (List.mem_of_mem_dropLast hm)
  uncrashed := h.uncrashed
  aborted_iff := by
    refine iff_of_false ?_ ?_
    · rintro ⟨run, hrun⟩
      unfold Run.verdict at hrun
      split at hrun <;> cases hrun
    · rintro ⟨m, hm, hfailed⟩
      exact hfailed (h.fine m hm)
  blame := by
    intro run hrun
    unfold Run.verdict at hrun
    split at hrun <;> cases hrun
  verdict := by
    intro _
    refine ⟨by rw [h.course, List.take_length], before, after, h.taken, ?_⟩
    rw [← SnapshotDiff.violatesIsolation_between]
    unfold Run.verdict
    cases (SnapshotDiff.between before after).violatesIsolation <;> simp
  report := by
    intro report hreport
    refine ⟨before, after, h.taken, ?_⟩
    unfold Run.verdict at hreport
    split at hreport <;> cases hreport <;> exact ⟨rfl, rfl, rfl, rfl⟩

/-- Every move that was made is what its action brought after the moves before it. -/
theorem Played.brings_at (h : Played plan s d moves d') {i : Nat} {m : Move}
    (hm : moves[i]? = some m) :
    ∃ d₁ d₂, m.action.Brings plan s ((moves.take i).map Move.deed) d₁ m.deed d₂ := by
  induction h with
  | none => cases hm
  | @next moves d' d'' last _ hlast ih =>
    by_cases hi : i < moves.length
    · rw [List.getElem?_append_left hi] at hm
      rw [List.take_append_of_le_length hi.le]
      exact ih hm
    · rw [List.getElem?_append_right (by omega), List.getElem?_singleton] at hm
      split at hm
      · cases hm
        have heq : i = moves.length := by omega
        rw [heq, List.take_left]
        exact ⟨_, _, hlast⟩
      · cases hm

/-- All snapshots are of the algorithm by which the captures identify contents. -/
theorem Played.algorithm {algorithm : String} (hs : s.Identifies algorithm)
    (h : Played plan s d moves d') : ∀ x ∈ snapshots moves, x.algorithm = algorithm := by
  induction h with
  | none => simp [snapshots]
  | @next moves d' d'' m _ hm ih =>
    intro x hx
    rw [snapshots_append] at hx
    rcases List.mem_append.1 hx with hx | hx
    · exact ih x hx
    · obtain ⟨phase, action, deed⟩ := m
      cases hm with
      | capture =>
        have htaken := Deed.snapshot?_capture.1 (Option.mem_toList.1 hx)
        rw [Capture.algorithm_of_untimed (capture_eq_ok htaken).2, hs]
      | clean => cases hx
      | invoke => cases hx
      | wait => cases hx
      | compare => cases hx

end Moves

end CacheAudit
