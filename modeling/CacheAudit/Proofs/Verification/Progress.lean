import CacheAudit.Proofs.Verification.Course

/-!
# How a run keeps to its course

Each stage of a run tells which moves were made by then. A step of the run makes the next one and
keeps that account, so the outcome at the end tells the truth about all of them. Every step comes
nearer to the end, which is why there is an outcome at all.
-/

namespace CacheAudit

/-- What the moves of a run have to do with the stage it has reached. -/
def Stage.Tells (plan : Plan) (s : Setting) (d : Disk) (moves : List Move) (d' : Disk) :
    Stage → Prop
  | .clean => Underway plan s d 0 [] moves d'
  | .invokeFirst => Underway plan s d 1 [] moves d'
  | .waitFirst => Underway plan s d 2 [] moves d'
  | .captureBefore => Underway plan s d 3 [] moves d'
  | .invokeSecond before => Underway plan s d 4 [before] moves d'
  | .waitSecond before => Underway plan s d 5 [before] moves d'
  | .captureAfter before => Underway plan s d 6 [before] moves d'
  | .compare before after => Underway plan s d 7 [before, after] moves d'
  | .tearDown outcome | .finished outcome => Account plan s d moves outcome
  | .crashed => ¬s.Answers ∨ CaptureCrash plan s d moves

/-- The number of steps that a stage is away from the end. -/
def Stage.left : Stage → Nat
  | .clean => 9
  | .invokeFirst => 8
  | .waitFirst => 7
  | .captureBefore => 6
  | .invokeSecond _ => 5
  | .waitSecond _ => 4
  | .captureAfter _ => 3
  | .compare _ _ => 2
  | .tearDown _ => 1
  | .finished _ | .crashed => 0

/-- A run whose deeds are moves that lead to its stage, begun on disk `d` and now on disk `d'`. -/
def Run.Accounted (plan : Plan) (s : Setting) (d : Disk) (r : Run) (d' : Disk) : Prop :=
  ∃ moves : List Move, r.deeds = moves.map Move.deed ∧ r.stage.Tells plan s d moves d'

/-- A step to run `r` on disk `d'` that keeps the account and comes nearer to the end. -/
structure Run.Proceeds (plan : Plan) (s : Setting) (d : Disk) (left : Nat) (r : Run) (d' : Disk) :
    Prop where
  accounted : r.Accounted plan s d d'
  left : r.stage.left ≤ left

section Steps

variable {plan : Plan} {s : Setting} {d d' d'' : Disk} {made left : Nat} {taken : List Snapshot}
  {moves : List Move} {phase : Phase} {action : Action} {deed : Deed} {r : Run}

/-- A move without an error brings a run to the stage that expects what was done by then. -/
theorem Run.proceeds_next (hr : r.deeds = moves.map Move.deed)
    (h : Underway plan s d made taken moves d')
    (hplace : (plan.course s)[made]? = some (phase, action))
    (hdeed : action.Brings plan s r.deeds d' deed d'')
    (hfine : deed.errorCode? plan phase = none) (huncrashed : ¬deed.Crashes) {next : Stage}
    (hnext : ∀ moves, Underway plan s d (made + 1) (taken ++ deed.snapshot?.toList) moves d'' →
      next.Tells plan s d moves d'')
    (hleft : next.left ≤ left) :
    Proceeds plan s d left { r.did deed with stage := next } d'' where
  accounted := by
    have hunderway := h.next hplace (hr ▸ hdeed) hfine huncrashed
    exact ⟨_, by simp [Run.did, hr], hnext _ hunderway⟩
  left := hleft

theorem Run.value_abort (plan : Plan) (s : Setting) (phase : Phase) (f : Failure) (r : Run) :
    (Run.abort plan s phase f r).value =
      { r with stage := .tearDown (abortedOutcome plan s phase f) } := rfl

/-- A move that fails ends a run. -/
theorem Run.proceeds_abort (hr : r.deeds = moves.map Move.deed)
    (h : Underway plan s d made taken moves d')
    (hplace : (plan.course s)[made]? = some (phase, action))
    (hdeed : action.Brings plan s r.deeds d' deed d'') {f : Failure}
    (hfailed : deed.errorCode? plan phase = some f.code) (huncrashed : ¬deed.Crashes)
    (hphase : phase ≠ .waitForArtifacts ∧ phase ≠ .compare)
    (hrequest : ∀ request, action = .invoke request → f.requestId = some request.id)
    (hleft : 1 ≤ left) :
    Proceeds plan s d left (Run.abort plan s phase f (r.did deed)).value d'' where
  accounted := by
    rw [Run.value_abort]
    have haccount := h.abort hplace (hr ▸ hdeed) hfailed huncrashed hphase hrequest
    exact ⟨_, by simp [Run.did, hr], haccount⟩
  left := hleft

/-- A capture that crashes ends a run without an outcome. -/
theorem Run.proceeds_untold (hr : r.deeds = moves.map Move.deed)
    (h : Underway plan s d made taken moves d')
    (hplace : (plan.course s)[made]? = some (phase, .capture))
    (hdeed : Action.capture.Brings plan s r.deeds d' deed d'') (hcrashed : deed.Crashes) :
    Proceeds plan s d left { r.did deed with stage := .crashed } d'' where
  accounted := by
    have hcrash := h.crash hplace (hr ▸ hdeed) hcrashed
    exact ⟨_, by simp [Run.did, hr], .inr hcrash⟩
  left := Nat.zero_le _

/-- A response that comes too late is a timeout, whatever it says, and one in time that says no is
a failed setup. Both failures carry the id of the request. -/
theorem Run.judge_response (timeout : Duration) (id : String) (status : Nat) (success : Bool)
    (elapsedNs : Nat) :
    ∃ late refused : Failure, late.kind = .timeout ∧ late.requestId = some id ∧
      refused.kind = .setupFailed ∧ refused.requestId = some id ∧
      judge timeout id (.response status success) elapsedNs =
        if timeout.nanos < elapsedNs then .error late
        else if success then .ok () else .error refused :=
  ⟨_, _, rfl, rfl, rfl, rfl, rfl⟩

/-- An answer is taken for a failure exactly when it is one, with the error's code and the id of
the request. -/
theorem Run.judge_spec (timeout : Duration) (id : String) {reply : Reply}
    (hanswer : reply.answer ≠ .crashed) :
    match judge timeout id reply.answer reply.elapsedNs with
    | .ok () => reply.errorCode? timeout = none
    | .error f => reply.errorCode? timeout = some f.code ∧ f.requestId = some id := by
  unfold Reply.errorCode?
  cases hcase : reply.answer with
  | failed f => exact ⟨rfl, rfl⟩
  | crashed => exact absurd hcase hanswer
  | response status success =>
    obtain ⟨late, refused, hlate, hlateId, hrefused, hrefusedId, hjudge⟩ :=
      judge_response timeout id status success reply.elapsedNs
    rw [hjudge]
    by_cases htime : timeout.nanos < reply.elapsedNs
    · simp [htime, Failure.code, hlate, hlateId]
    · cases success <;> simp [htime, Failure.code, hrefused, hrefusedId]

/-- An invocation that is answered in time and with success leads to the next stage, any other
answer to the end of the run. -/
theorem Run.value_invoke {payload : Json} {id : String} {next : Stage} {reply : Reply}
    (hreply : s.service (plan.request payload id) plan.invocationTimeout d = reply)
    (hanswer : reply.answer ≠ .crashed) :
    (Run.invoke plan s d phase payload id next r).value =
      match judge plan.invocationTimeout id reply.answer reply.elapsedNs with
      | .ok () => ({ r.did (.invoke (plan.request payload id) reply) with stage := next },
          reply.disk)
      | .error f => ((Run.abort plan s phase f
          (r.did (.invoke (plan.request payload id) reply))).value, reply.disk) := by
  unfold Run.invoke
  simp only [Logged.value_bind, hreply]
  cases hcase : reply.answer with
  | crashed => exact absurd hcase hanswer
  | failed f => rfl
  | response status success =>
    cases judge plan.invocationTimeout id (.response status success) reply.elapsedNs <;> rfl

/-- A request that crashes its run leaves nothing to be told. -/
theorem Run.proceeds_crashed {payload : Json} {id : String} {next : Stage}
    (hr : r.deeds = moves.map Move.deed)
    (hcrashed : (s.service (plan.request payload id) plan.invocationTimeout d').answer =
      .crashed) :
    Proceeds plan s d left (Run.invoke plan s d' phase payload id next r).value.1
      (Run.invoke plan s d' phase payload id next r).value.2 := by
  let deed := Deed.invoke (plan.request payload id)
    (s.service (plan.request payload id) plan.invocationTimeout d')
  have hstage : (Run.invoke plan s d' phase payload id next r).value.1 =
      { r.did deed with stage := .crashed } := by
    simp [Run.invoke, hcrashed, deed]
  rw [hstage]
  let move : Move := ⟨phase, .invoke (plan.request payload id), deed⟩
  refine ⟨⟨moves ++ [move], by simp [Run.did, hr, move], ?_⟩, Nat.zero_le _⟩
  exact .inl fun hanswers => hanswers _ _ _ hcrashed

/-- An invocation brings a run to its next stage or ends it. -/
theorem Run.proceeds_invoke (hr : r.deeds = moves.map Move.deed)
    (h : Underway plan s d made taken moves d') {payload : Json} {id : String}
    (hplace : (plan.course s)[made]? = some (phase, .invoke (plan.request payload id)))
    (hphase : phase ≠ .waitForArtifacts ∧ phase ≠ .compare) {next : Stage}
    (hnext : ∀ moves d'', Underway plan s d (made + 1) taken moves d'' →
      next.Tells plan s d moves d'')
    (hleft : next.left ≤ left) (hpos : 1 ≤ left) :
    Proceeds plan s d left (Run.invoke plan s d' phase payload id next r).value.1
      (Run.invoke plan s d' phase payload id next r).value.2 := by
  by_cases hanswer : (s.service (plan.request payload id) plan.invocationTimeout d').answer =
      .crashed
  · exact Run.proceeds_crashed hr hanswer
  have hdeed : (Action.invoke (plan.request payload id)).Brings plan s r.deeds d' _ _ := .invoke _
  have hjudge := Run.judge_spec plan.invocationTimeout id hanswer
  rw [Run.value_invoke rfl hanswer]
  split at hjudge
  · refine Run.proceeds_next hr h hplace hdeed hjudge hanswer (fun moves h => hnext moves _ ?_)
      hleft
    simpa [Deed.snapshot?] using h
  · refine Run.proceeds_abort hr h hplace hdeed hjudge.1 hanswer hphase ?_ hpos
    rintro _ ⟨⟩
    exact hjudge.2

theorem Run.value_wait (plan : Plan) (next : Stage) (r : Run) :
    (Run.wait plan next r).value = { r.did (.wait plan.gracePeriod) with stage := next } := by
  unfold Run.wait
  split <;> rfl

/-- A wait brings a run to its next stage. -/
theorem Run.proceeds_wait (hr : r.deeds = moves.map Move.deed)
    (h : Underway plan s d made taken moves d')
    (hplace : (plan.course s)[made]? = some (phase, .wait)) {next : Stage}
    (hnext : ∀ moves, Underway plan s d (made + 1) taken moves d' → next.Tells plan s d moves d')
    (hleft : next.left ≤ left) :
    Proceeds plan s d left (Run.wait plan next r).value d' := by
  rw [Run.value_wait]
  refine Run.proceeds_next hr h hplace .wait rfl id (fun moves h => hnext moves ?_) hleft
  simpa [Deed.snapshot?] using h

/-- The first step empties the root or ends the run. -/
theorem Run.proceeds_clean (hstage : r.stage = .clean) (hr : r.deeds = moves.map Move.deed)
    (h : Underway plan s d 0 [] moves d') (hleft : 8 ≤ left) :
    Proceeds plan s d left (step plan s r d').value.1 (step plan s r d').value.2 := by
  have hdeed : Action.clean.Brings plan s r.deeds d' _ _ := .clean (empties_emptyRoot _ _ _)
  simp only [step, hstage, surroundings, Logged.value_bind]
  cases hresult : (emptyRoot (s.around r.deeds.length).files d' plan.root).2 with
  | ok u =>
    rw [hresult] at hdeed
    exact Run.proceeds_next hr h rfl hdeed rfl id (fun _ h => h) hleft
  | error f =>
    rw [hresult] at hdeed
    refine Run.proceeds_abort hr h rfl hdeed rfl id (by decide) ?_ (by omega)
    rintro _ ⟨⟩

/-- The first capture goes on if it brought a snapshot with files, and ends the run otherwise. -/
theorem Run.proceeds_captureBefore (hstage : r.stage = .captureBefore)
    (hr : r.deeds = moves.map Move.deed) (h : Underway plan s d 3 [] moves d') (hleft : 5 ≤ left) :
    Proceeds plan s d left (step plan s r d').value.1 (step plan s r d').value.2 := by
  have hdeed : Action.capture.Brings plan s r.deeds d'
    (.capture d' (takeSnapshot plan s d' r).value) d' := .capture
  simp only [step, settle, hstage, Logged.value_bind]
  cases hresult : (takeSnapshot plan s d' r).value.snapshot with
  | error halt =>
    cases halt with
    | crashed => exact Run.proceeds_untold hr h rfl hdeed hresult
    | failed f =>
      refine Run.proceeds_abort hr h rfl hdeed ?_ ?_ (by decide) ?_ (by omega)
      · simp [Deed.errorCode?, hresult]
      · simp [Deed.Crashes, hresult]
      · rintro _ ⟨⟩
  | ok before =>
    have huncrashed : ¬(Deed.capture d' (takeSnapshot plan s d' r).value).Crashes := by
      simp [Deed.Crashes, hresult]
    cases hempty : before.isEmpty with
    | true =>
      simp only [hempty, if_true]
      refine Run.proceeds_abort hr h rfl hdeed ?_ huncrashed (by decide) ?_ (by omega)
      · simp [Deed.errorCode?, hresult, hempty, noArtifacts, Failure.code]
      · rintro _ ⟨⟩
    | false =>
      simp only [hempty, Bool.false_eq_true, if_false]
      refine Run.proceeds_next hr h rfl hdeed ?_ huncrashed (fun moves h => ?_) hleft
      · simp [Deed.errorCode?, hresult, hempty]
      · rw [Deed.snapshot?_capture.2 hresult] at h
        exact h

/-- The second capture goes on if it brought a snapshot, and ends the run otherwise. -/
theorem Run.proceeds_captureAfter {before : Snapshot} (hstage : r.stage = .captureAfter before)
    (hr : r.deeds = moves.map Move.deed) (h : Underway plan s d 6 [before] moves d')
    (hleft : 2 ≤ left) :
    Proceeds plan s d left (step plan s r d').value.1 (step plan s r d').value.2 := by
  have hdeed : Action.capture.Brings plan s r.deeds d'
    (.capture d' (takeSnapshot plan s d' r).value) d' := .capture
  simp only [step, settle, hstage, Logged.value_bind]
  cases hresult : (takeSnapshot plan s d' r).value.snapshot with
  | error halt =>
    cases halt with
    | crashed => exact Run.proceeds_untold hr h rfl hdeed hresult
    | failed f =>
      refine Run.proceeds_abort hr h rfl hdeed ?_ ?_ (by decide) ?_ (by omega)
      · simp [Deed.errorCode?, hresult]
      · simp [Deed.Crashes, hresult]
      · rintro _ ⟨⟩
  | ok after =>
    refine Run.proceeds_next hr h rfl hdeed ?_ ?_ (fun moves h => ?_) hleft
    · simp [Deed.errorCode?, hresult]
    · simp [Deed.Crashes, hresult]
    · rw [Deed.snapshot?_capture.2 hresult] at h
      exact h

/-- The comparison of snapshots of one algorithm does not fail and settles the verdict. -/
theorem Run.proceeds_compare {before after : Snapshot} (hstage : r.stage = .compare before after)
    (hsame : before.algorithm = after.algorithm) (hr : r.deeds = moves.map Move.deed)
    (h : Underway plan s d 7 [before, after] moves d') (hleft : 1 ≤ left) :
    Proceeds plan s d left (step plan s r d').value.1 (step plan s r d').value.2 := by
  have htaken : (moves.map Move.deed).filterMap Deed.snapshot? = [before, after] := h.taken
  have hdeed : Action.compare.Brings plan s r.deeds d' (.compare (before.diff after).value) d' :=
    .compare (hr ▸ htaken)
  have hdiff : (before.diff after).value = .ok (SnapshotDiff.between before after) := by
    rw [Snapshot.value_diff, if_pos hsame]
  simp only [step, hstage, Logged.value_bind, hdiff]
  rw [hdiff] at hdeed
  exact Run.proceeds_next hr h rfl hdeed rfl id (fun _ h => h.judge) hleft

/-- Whatever becomes of the root, a run keeps its outcome when it ends. -/
theorem Run.value_tearDown (plan : Plan) (s : Setting) (d : Disk) {outcome : Outcome}
    (hstage : r.stage = .tearDown outcome) :
    ∃ d', (step plan s r d).value = ({ r with stage := .finished outcome }, d') := by
  unfold step
  rw [hstage]
  generalize (if plan.cleanupOnExit then (r.surroundings s).files.removeTree d plan.root
    else (d, .ok ())) = cleaned
  obtain ⟨d', removed⟩ := cleaned
  cases removed <;> exact ⟨d', rfl⟩

/-- No two snapshots of different algorithms are about to be compared. -/
def Run.ComparesAlike (r : Run) : Prop :=
  ∀ before after, r.stage = .compare before after → before.algorithm = after.algorithm

theorem Run.Accounted.comparesAlike {algorithm : String} (hs : s.Identifies algorithm)
    (h : r.Accounted plan s d d') : r.ComparesAlike := by
  intro before after hstage
  obtain ⟨moves, -, htells⟩ := h
  rw [hstage] at htells
  have halgorithm := htells.played.algorithm hs
  rw [htells.taken] at halgorithm
  exact (halgorithm before (by simp)).trans (halgorithm after (by simp)).symm

/-- Whatever stage a run has reached, its next step keeps the account of its moves. -/
theorem Run.proceeds_step (hsame : r.ComparesAlike) (h : r.Accounted plan s d d') :
    Proceeds plan s d (r.stage.left - 1) (step plan s r d').value.1 (step plan s r d').value.2 := by
  obtain ⟨moves, hr, h⟩ := h
  cases hstage : r.stage with
  | clean =>
    rw [hstage] at h
    exact Run.proceeds_clean hstage hr h (by decide)
  | invokeFirst =>
    rw [hstage] at h
    unfold step
    rw [hstage]
    exact Run.proceeds_invoke hr h rfl (by decide) (fun _ _ h => h) (by decide) (by decide)
  | waitFirst =>
    rw [hstage] at h
    unfold step
    rw [hstage]
    exact Run.proceeds_wait hr h rfl (fun _ h => h) (by decide)
  | captureBefore =>
    rw [hstage] at h
    exact Run.proceeds_captureBefore hstage hr h (by decide)
  | invokeSecond before =>
    rw [hstage] at h
    unfold step
    rw [hstage]
    exact Run.proceeds_invoke hr h rfl (by decide) (fun _ _ h => h) (by simp [Stage.left])
      (by simp [Stage.left])
  | waitSecond before =>
    rw [hstage] at h
    unfold step
    rw [hstage]
    exact Run.proceeds_wait hr h rfl (fun _ h => h) (by simp [Stage.left])
  | captureAfter before =>
    rw [hstage] at h
    exact Run.proceeds_captureAfter hstage hr h (by simp [Stage.left])
  | compare before after =>
    rw [hstage] at h
    exact Run.proceeds_compare hstage (hsame _ _ hstage) hr h (by simp [Stage.left])
  | tearDown outcome =>
    obtain ⟨d'', hvalue⟩ := Run.value_tearDown plan s d' hstage
    rw [hvalue]
    rw [hstage] at h
    exact ⟨⟨moves, hr, h⟩, Nat.le_refl 0⟩
  | finished outcome =>
    have hstays : step plan s r d' = pure (r, d') := by
      unfold step
      rw [hstage]
    rw [hstays]
    exact ⟨⟨moves, hr, h⟩, by rw [Logged.value_pure, hstage]; exact Nat.le_refl 0⟩
  | crashed =>
    have hstays : step plan s r d' = pure (r, d') := by
      unfold step
      rw [hstage]
    rw [hstays]
    exact ⟨⟨moves, hr, h⟩, by rw [Logged.value_pure, hstage]; exact Nat.le_refl 0⟩

/-- After any number of steps a run has kept the account of its moves and is nearer to the end. -/
theorem Run.proceeds_advance {algorithm : String} (hs : s.Identifies algorithm) (n : Nat)
    (h : r.Accounted plan s d d') :
    Proceeds plan s d (r.stage.left - n) (advance plan s n r d').value.1
      (advance plan s n r d').value.2 := by
  induction n generalizing r d' with
  | zero => exact ⟨h, Nat.le_refl _⟩
  | succ n ih =>
    have hstep := Run.proceeds_step (h.comparesAlike hs) h
    have hrest := ih hstep.accounted
    have hadvance : (advance plan s (n + 1) r d').value =
        (advance plan s n (step plan s r d').value.1 (step plan s r d').value.2).value := rfl
    rw [hadvance]
    refine ⟨hrest.accounted, hrest.left.trans ?_⟩
    have hless := hstep.left
    omega

end Steps

section Verification

variable {plan : Plan} {s : Setting} {algorithm : String} {d : Disk}

/-- A verification run ends, and what it did is accounted for. -/
theorem Plan.verify_proceeds (plan : Plan) (hs : s.Identifies algorithm) (d : Disk) :
    Run.Proceeds plan s d 0 (plan.verify s d).value.1 (plan.verify s d).value.2 := by
  have hstart : Run.Accounted plan s d {} d := by
    exact ⟨[], rfl, rfl, .none, List.forall_mem_nil _, List.forall_mem_nil _, rfl⟩
  exact Run.proceeds_advance hs Run.length hstart

/-- The outcome of a verification run gives an account of its moves. -/
theorem Plan.account_of_outcome (hs : s.Identifies algorithm) {outcome : Outcome}
    (h : (plan.verify s d).value.1.outcome? = some outcome) :
    ∃ moves, (plan.verify s d).value.1.deeds = moves.map Move.deed ∧
      Account plan s d moves outcome := by
  obtain ⟨moves, hdeeds, htells⟩ := (plan.verify_proceeds hs d).accounted
  unfold Run.outcome? at h
  split at h
  · rename_i hstage
    cases h
    rw [hstage] at htells
    exact ⟨moves, hdeeds, htells⟩
  · cases h

end Verification

end CacheAudit
