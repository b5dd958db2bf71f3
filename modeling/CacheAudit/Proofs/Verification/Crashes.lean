import CacheAudit.Proofs.Verification.Interleaving

/-!
# Runs that crash

However the steps of several runs fall, each run ends with an outcome of its own plan, or crashes.
The runs are joined in the order of the plans, up to the first that crashed, whose crash becomes a
failure. Nobody joins the runs behind it. So a second crash is nobody's to report, and goes on to
the caller.
-/

namespace CacheAudit

/-- Whether a run has crashed. -/
def Run.isCrashed (r : Run) : Bool :=
  match r.stage with
  | .crashed => true
  | _ => false

/-- The outcome of a run of a scenario: it has the id and the root of that scenario, and its report
the ids of the scenario's requests. -/
def Outcome.IsOf (s : Scenario) : Outcome → Prop
  | .pass r | .fail r => (r.runId = s.setting.runId ∧ r.root = s.plan.root.display) ∧
      r.firstRequestId = s.setting.firstId ∧ r.secondRequestId = s.setting.secondId
  | .aborted a => a.runId = s.setting.runId ∧ a.root = s.plan.root.display

/-- A stage whose outcome, if there is one, is that of a scenario. -/
def Stage.EndsAs (s : Scenario) : Stage → Prop
  | .tearDown outcome | .finished outcome => outcome.IsOf s
  | _ => True

/-! ### One run -/

section Runs

variable {s : Scenario} {r : Run}

theorem Run.endsAs_abortedOutcome (s : Scenario) (phase : Phase) (f : Failure) :
    (Run.abortedOutcome s.plan s.setting phase f).IsOf s :=
  ⟨rfl, rfl⟩

theorem Run.isOf_verdict (s : Scenario) (before after : Snapshot) (diff : SnapshotDiff) :
    (Run.verdict s.plan s.setting before after diff).IsOf s := by
  unfold Run.verdict
  dsimp only
  split <;> exact ⟨⟨rfl, rfl⟩, rfl, rfl⟩

theorem Run.endsAs_afterReply (phase : Phase) (id : String) {next : Stage} (hnext : next.EndsAs s)
    (reply : Reply) : (Run.afterReply s.plan s.setting phase id next reply).EndsAs s := by
  unfold Run.afterReply
  split
  · trivial
  · split
    · exact hnext
    · exact Run.endsAs_abortedOutcome s phase _

theorem Run.endsAs_settle (h : r.stage.EndsAs s) (d : Disk) (captured : Captured) :
    (r.settle s.plan s.setting d captured).value.stage.EndsAs s := by
  obtain ⟨stage, deeds⟩ := r
  unfold Run.settle
  split
  · exact Run.endsAs_abortedOutcome s .captureBefore _
  · dsimp only
    split
    · exact Run.endsAs_abortedOutcome s .captureBefore _
    · trivial
  · exact Run.endsAs_abortedOutcome s .captureAfter _
  · trivial
  · trivial
  · trivial
  · exact h

/-- A step of a run keeps its outcome one of its own scenario. -/
theorem Run.endsAs_step (h : r.stage.EndsAs s) (d : Disk) :
    (Run.step s.plan s.setting r d).value.1.stage.EndsAs s := by
  by_cases hcapture : r.stage.isCapture = true
  · rw [Run.value_step_of_isCapture s.plan s.setting d hcapture]
    exact Run.endsAs_settle h d _
  obtain ⟨stage, deeds⟩ := r
  cases stage with
  | clean =>
    simp only [Run.step, Logged.value_bind]
    cases (Run.emptyRoot (Run.surroundings ⟨.clean, deeds⟩ s.setting).files d s.plan.root).2 with
    | ok u => trivial
    | error f => exact Run.endsAs_abortedOutcome s .clean f
  | invokeFirst =>
    have hnext : Stage.EndsAs s .waitFirst := trivial
    simp only [Run.step, Run.value_invoke_eq]
    exact Run.endsAs_afterReply _ _ hnext _
  | waitFirst =>
    simp only [Run.step, Logged.value_bind, Run.value_wait, Logged.value_pure]
    trivial
  | captureBefore => exact absurd rfl hcapture
  | invokeSecond before =>
    have hnext : Stage.EndsAs s (.waitSecond before) := trivial
    simp only [Run.step, Run.value_invoke_eq]
    exact Run.endsAs_afterReply _ _ hnext _
  | waitSecond before =>
    simp only [Run.step, Logged.value_bind, Run.value_wait, Logged.value_pure]
    trivial
  | captureAfter before => exact absurd rfl hcapture
  | compare before after =>
    simp only [Run.step, Logged.value_bind]
    cases (before.diff after).value with
    | error f => exact Run.endsAs_abortedOutcome s .compare f
    | ok diff => exact Run.isOf_verdict s before after diff
  | tearDown outcome =>
    obtain ⟨d', hvalue⟩ := Run.value_tearDown s.plan s.setting d
      (r := ⟨.tearDown outcome, deeds⟩) rfl
    rw [hvalue]
    exact h
  | finished outcome => exact h
  | crashed => exact h

theorem Run.isOf_of_outcome? {outcome : Outcome} (h : r.stage.EndsAs s)
    (houtcome : r.outcome? = some outcome) : outcome.IsOf s := by
  obtain ⟨stage, deeds⟩ := r
  cases stage <;> cases houtcome
  exact h

/-- A run that has nothing left to do has an outcome or has crashed. -/
theorem Run.over_cases (h : r.stage.left = 0) : r.isOver = true ∧
    ((∃ outcome, r.outcome? = some outcome) ∧ r.isCrashed = false ∨
      r.outcome? = none ∧ r.isCrashed = true) := by
  obtain ⟨stage, deeds⟩ := r
  cases stage with
  | finished outcome => exact ⟨rfl, .inl ⟨⟨outcome, rfl⟩, rfl⟩⟩
  | crashed => exact ⟨rfl, .inr ⟨rfl, rfl⟩⟩
  | _ => cases h

end Runs

namespace Member

variable {s : Scenario} {m : Member}

/-- A run among others that keeps to its scenario, and has a capture under way only if it takes one
next. -/
structure KeepsTo (s : Scenario) (m : Member) : Prop where
  endsAs : m.run.stage.EndsAs s
  isCapture : m.capturing.isSome = true → m.run.stage.isCapture = true

theorem keepsTo_start (s : Scenario) : KeepsTo s {} :=
  ⟨trivial, fun h => nomatch h⟩

theorem keepsTo_conclude {r : Run} (h : r.stage.EndsAs s) (d : Disk) (captured : Captured) :
    KeepsTo s (conclude s.plan s.setting d captured r).value :=
  ⟨Run.endsAs_settle h d captured, fun h => nomatch h⟩

theorem KeepsTo.step (h : KeepsTo s m) (d : Disk) :
    KeepsTo s (Member.step s.plan s.setting m d).value.1 := by
  rw [Member.step]
  cases hcapturing : m.capturing with
  | some p =>
    dsimp only
    split
    · exact keepsTo_conclude h.endsAs d _
    · exact ⟨h.endsAs, fun _ => h.isCapture (by rw [hcapturing]; rfl)⟩
  | none =>
    dsimp only
    split
    · rename_i hcapture
      rw [Logged.value_bind]
      cases (Capture.start d (Run.limits s.plan) (m.run.surroundings s.setting)
        s.plan.root).value with
      | error f => exact keepsTo_conclude h.endsAs d _
      | ok p => exact ⟨h.endsAs, fun _ => hcapture⟩
    · exact ⟨Run.endsAs_step h.endsAs d, by simp⟩

theorem KeepsTo.advance (h : KeepsTo s m) (n : Nat) (d : Disk) :
    KeepsTo s (Member.advance s.plan s.setting n m d).value.1 := by
  induction n generalizing m d with
  | zero => exact h
  | succ n ih => exact ih (h.step d) _

theorem KeepsTo.round (h : KeepsTo s m) (d : Disk) :
    KeepsTo s (Member.round s.plan s.setting m d).value.1 :=
  (h.step d).advance _ _

end Member

/-! ### All runs -/

namespace Scenarios

variable {scenarios : List Scenario} {members : List Member} {d : Disk} {doing : Doing}

/-- Each member keeps to the scenario in its place. -/
structure AllKeep (scenarios : List Scenario) (members : List Member) : Prop where
  length : members.length = scenarios.length
  member : ∀ (i : Nat) (s : Scenario) (m : Member), scenarios[i]? = some s →
    members[i]? = some m → m.KeepsTo s

/-- Something that members do and that keeps each to its scenario. -/
def IsFaithful (doing : Doing) : Prop :=
  ∀ (s : Scenario) (m : Member) (d : Disk), m.KeepsTo s →
    (doing s.plan s.setting m d).value.1.KeepsTo s

namespace AllKeep

theorem start (scenarios : List Scenario) :
    AllKeep scenarios (scenarios.map fun _ => ({} : Member)) := by
  refine ⟨by simp, fun i s m hs hm => ?_⟩
  obtain rfl : m = {} := by
    rw [List.getElem?_map, hs] at hm
    exact (Option.some.inj hm).symm
  exact Member.keepsTo_start s

theorem isCapture (h : AllKeep scenarios members) :
    ∀ m ∈ members, m.capturing.isSome = true → m.run.stage.isCapture = true :=
  forall_mem_of_places h.length fun i s m hs hm => (h.member i s m hs hm).isCapture

theorem doOne (hdoing : IsFaithful doing) (h : AllKeep scenarios members) (i : Nat) (d : Disk) :
    AllKeep scenarios (Scenarios.doOne doing scenarios i members d).value.1 := by
  rcases doOne_cases doing scenarios i members d with ⟨-, hsame⟩ | ⟨s, m, hs, hm, hset⟩
  · rw [hsame]
    exact h
  obtain ⟨hi, -⟩ := List.getElem?_eq_some_iff.1 hm
  rw [hset]
  refine ⟨by simpa using h.length, fun j t m' ht hm' => ?_⟩
  by_cases hij : i = j
  · subst hij
    cases hs.symm.trans ht
    rw [List.getElem?_set_self hi] at hm'
    cases hm'
    exact hdoing s m d (h.member i s m hs hm)
  · rw [List.getElem?_set_ne hij] at hm'
    exact h.member j t m' ht hm'

/-- Whatever the schedule, each member keeps to its scenario. -/
theorem follow (hdoing : IsFaithful doing) (schedule : List Nat)
    (h : AllKeep scenarios members) (d : Disk) :
    AllKeep scenarios (Scenarios.follow doing scenarios schedule members d).value.1 := by
  have hone (i : Nat) (members : List Member) (d : Disk) (h : AllKeep scenarios members) :=
    h.doOne hdoing i d
  exact follow_keeps hone schedule h

/-- A schedule of rounds that is long enough brings all members to their ends. -/
theorem suffices_follow {schedule : List Nat} (h : AllKeep scenarios members) (d : Disk)
    (hsuffices : Suffices schedule scenarios.length members) :
    Suffices [] scenarios.length
      (Scenarios.follow Member.round scenarios schedule members d).value.1 := by
  have hround : IsFaithful Member.round := fun s m d h => h.round d
  have hone (i : Nat) (members : List Member) (d : Disk) (h : AllKeep scenarios members) :=
    h.doOne hround i d
  exact Scenarios.suffices_follow hone (fun _ _ h => h.isCapture) h hsuffices

end AllKeep

/-! ### Joining the runs -/

/-- Joins runs one after the other, up to the first that crashed. Answers the outcomes of all, or
the runs that nobody has joined. -/
def joinAll : List Run → Except (List Run) (List Outcome)
  | [] => .ok []
  | r :: rest =>
    match r.outcome? with
    | none => .error rest
    | some outcome => (joinAll rest).map (outcome :: ·)

/-- How a scope of runs ends: a crash among the runs that nobody has joined goes on to the
caller. -/
def scope (runs : List Run) : ScenariosResult :=
  match joinAll runs with
  | .ok list => .outcomes list
  | .error unjoined =>
    if unjoined.any fun r => r.outcome?.isNone then .crashed
    else .failed { kind := .internal, op := some "run_scenarios"
                   message := "scenario thread panicked" }

theorem joinAll_cases (runs : List Run) :
    (runs.filter fun r => r.outcome?.isNone) = [] ∧
        joinAll runs = .ok (runs.filterMap Run.outcome?) ∨
      ∃ first unjoined, (runs.filter fun r => r.outcome?.isNone) =
          first :: (unjoined.filter fun r => r.outcome?.isNone) ∧
        joinAll runs = .error unjoined := by
  induction runs with
  | nil => exact .inl ⟨rfl, rfl⟩
  | cons r rest ih =>
    rw [joinAll]
    cases houtcome : r.outcome? with
    | none => exact .inr ⟨r, rest, by simp [houtcome], rfl⟩
    | some outcome =>
      rcases ih with ⟨hnone, hall⟩ | ⟨first, unjoined, hfirst, herror⟩
      · exact .inl ⟨by simpa [houtcome] using hnone, by simp [houtcome, hall, Except.map]⟩
      · exact .inr ⟨first, unjoined, by simpa [houtcome] using hfirst,
          by simp [herror, Except.map]⟩

/-- Counting the crashes is joining the runs one after the other. -/
theorem conclude_eq_scope (runs : List Run) : conclude runs = scope runs := by
  rw [conclude, scope]
  rcases joinAll_cases runs with ⟨hnone, hall⟩ | ⟨first, unjoined, hfirst, herror⟩
  · rw [hnone, hall]
    rfl
  rw [hfirst, herror]
  by_cases hany : (unjoined.any fun r => r.outcome?.isNone) = true
  · have hsecond : 0 < (unjoined.filter fun r => r.outcome?.isNone).length := by
      rw [List.length_pos_iff_exists_mem]
      obtain ⟨r, hr, hcrashed⟩ := List.any_eq_true.1 hany
      exact ⟨r, List.mem_filter.2 ⟨hr, hcrashed⟩⟩
    dsimp only
    rw [if_pos hany, List.length_cons, if_neg (by omega), if_neg (by omega)]
  · have hnone : (unjoined.filter fun r => r.outcome?.isNone) = [] :=
      List.filter_eq_nil_iff.2 fun r hr hcrashed => hany (List.any_eq_true.2 ⟨r, hr, hcrashed⟩)
    dsimp only
    rw [if_neg hany, hnone]
    rfl

theorem map_outcome?_of_joinAll {runs : List Run} {list : List Outcome}
    (h : joinAll runs = .ok list) : runs.map Run.outcome? = list.map some := by
  induction runs generalizing list with
  | nil =>
    cases h
    rfl
  | cons r rest ih =>
    rw [joinAll] at h
    cases houtcome : r.outcome? with
    | none => simp [houtcome] at h
    | some outcome =>
      cases hrest : joinAll rest with
      | error unjoined => simp [houtcome, hrest, Except.map] at h
      | ok others =>
        obtain rfl : outcome :: others = list := by simpa [houtcome, hrest, Except.map] using h
        rw [List.map_cons, List.map_cons, houtcome, ih hrest]

end Scenarios

/-! ### What is promised of several runs -/

/-- What is promised of several runs. Unless one crashed, there is an outcome for each scenario,
that of the run in its place. If one crashed, there is an internal failure. The caller never
crashes. -/
def ScenariosResult.Keeps (scenarios : List Scenario) (runs : List Run) : ScenariosResult → Prop
  | outcomes list => (∀ r ∈ runs, r.isCrashed = false) ∧ list.length = scenarios.length ∧
      ∀ (i : Nat) (s : Scenario), scenarios[i]? = some s → ∃ r outcome, runs[i]? = some r ∧
        list[i]? = some outcome ∧ r.outcome? = some outcome ∧ outcome.IsOf s
  | failed f => (∃ r ∈ runs, r.isCrashed = true) ∧ f.kind = .internal
  | crashed => False

namespace Scenarios

/-- Runs of which each has come to the end of the scenario in its place. -/
structure AllOver (scenarios : List Scenario) (runs : List Run) : Prop where
  length : runs.length = scenarios.length
  run : ∀ (i : Nat) (s : Scenario) (r : Run), scenarios[i]? = some s → runs[i]? = some r →
    r.stage.EndsAs s ∧ r.stage.left = 0

section Ends

variable {scenarios : List Scenario} {runs : List Run} (h : AllOver scenarios runs)

include h

theorem AllOver.left_eq {r : Run} (hr : r ∈ runs) : r.stage.left = 0 :=
  forall_mem_of_places h.length (fun i s r hs hr => (h.run i s r hs hr).2) r hr

theorem AllOver.isNone_eq {r : Run} (hr : r ∈ runs) : r.outcome?.isNone = r.isCrashed := by
  rcases (Run.over_cases (h.left_eq hr)).2 with ⟨⟨outcome, houtcome⟩, hno⟩ | ⟨hnone, hcrashed⟩
  · rw [houtcome, hno]
    rfl
  · rw [hnone, hcrashed]
    rfl

theorem AllOver.filter_isNone :
    (runs.filter fun r => r.outcome?.isNone) = runs.filter Run.isCrashed :=
  List.filter_congr fun _ hr => h.isNone_eq hr

theorem AllOver.keeps_outcomes (hnone : runs.filter Run.isCrashed = []) :
    (ScenariosResult.outcomes (runs.filterMap Run.outcome?)).Keeps scenarios runs := by
  have hjoined : runs.map Run.outcome? = (runs.filterMap Run.outcome?).map some := by
    rcases joinAll_cases runs with ⟨-, hall⟩ | ⟨first, unjoined, hfirst, -⟩
    · exact map_outcome?_of_joinAll hall
    · rw [h.filter_isNone, hnone] at hfirst
      cases hfirst
  refine ⟨fun r hr => by simpa using List.filter_eq_nil_iff.1 hnone r hr, ?_, fun i s hs => ?_⟩
  · rw [← h.length, ← List.length_map Run.outcome?, hjoined, List.length_map]
  obtain ⟨hi, -⟩ := List.getElem?_eq_some_iff.1 hs
  have hr := List.getElem?_eq_getElem (h.length ▸ hi)
  have hplace := congrArg (fun list => list[i]?) hjoined
  simp only [List.getElem?_map, hr, Option.map_some] at hplace
  obtain ⟨outcome, houtcome, hsome⟩ := Option.map_eq_some_iff.1 hplace.symm
  exact ⟨_, outcome, hr, houtcome, hsome.symm,
    Run.isOf_of_outcome? (h.run i s _ hs hr).1 hsome.symm⟩

/-- Several runs end as promised if and only if at most one of them crashed. -/
theorem AllOver.keeps_conclude_iff :
    (conclude runs).Keeps scenarios runs ↔ (runs.filter Run.isCrashed).length ≤ 1 := by
  rw [conclude, h.filter_isNone]
  split
  · rename_i hzero
    exact iff_of_true (h.keeps_outcomes (List.length_eq_zero_iff.1 hzero)) (by omega)
  split
  · rename_i hone
    obtain ⟨r, hr⟩ := List.length_eq_one_iff.1 hone
    have hmem : r ∈ runs.filter Run.isCrashed := hr ▸ List.mem_singleton_self r
    exact iff_of_true ⟨⟨r, List.mem_filter.1 hmem⟩, rfl⟩ (by omega)
  · exact iff_of_false id (by omega)

/-- Several runs crash their caller if and only if two of them crashed. -/
theorem AllOver.conclude_eq_crashed_iff :
    conclude runs = .crashed ↔ 2 ≤ (runs.filter Run.isCrashed).length := by
  rw [conclude, h.filter_isNone]
  split
  · exact iff_of_false (by simp) (by omega)
  split
  · exact iff_of_false (by simp) (by omega)
  · exact iff_of_true rfl (by omega)

end Ends

/-- However the steps of the runs fall, in the end each is over. -/
theorem allOver_interleave {scenarios : List Scenario} {d : Disk}
    (hdisjoint : checkDisjoint d.cwd (scenarios.map Scenario.plan) = .ok ())
    (schedule : List Nat) : AllOver scenarios (interleave scenarios schedule d).value.2.1 := by
  rw [value_interleave hdisjoint]
  have hbegun := (AllKeep.start scenarios).follow (fun s m d h => h.step d) schedule d
  have hended := hbegun.follow (fun s m d h => h.round d) (remaining scenarios.length)
    (follow Member.step scenarios schedule (scenarios.map fun _ => ({} : Member)) d).value.2
  have hover := hbegun.suffices_follow
    (follow Member.step scenarios schedule (scenarios.map fun _ => ({} : Member)) d).value.2
    fun i m hi _ => m.run.stage.left_le.trans (le_count_remaining hi)
  refine ⟨by simpa using hended.length, fun i s r hs hr => ?_⟩
  obtain ⟨m, hm, rfl⟩ := Option.map_eq_some_iff.1 ((List.getElem?_map ..).symm.trans hr)
  obtain ⟨hi, -⟩ := List.getElem?_eq_some_iff.1 hs
  exact ⟨(hended.member i s m hs hm).endsAs, Nat.le_zero.1 (hover i m hi hm)⟩

theorem value_interleave_fst {scenarios : List Scenario} {d : Disk}
    (hdisjoint : checkDisjoint d.cwd (scenarios.map Scenario.plan) = .ok ())
    (schedule : List Nat) : (interleave scenarios schedule d).value.1 =
      conclude (interleave scenarios schedule d).value.2.1 := by
  rw [value_interleave hdisjoint]

/-! ### One or two runs -/

section Few

variable {s t : Scenario} {d : Disk}

theorem checkDisjoint_singleton (cwd : Location) (plan : Plan) :
    checkDisjoint cwd [plan] = .ok () :=
  rfl

/-- A single scenario is carried out alone, also when its first step is scheduled. -/
theorem runs_of_one (h : checkDisjoint d.cwd [s.plan] = .ok ()) :
    (interleave [s] [0] d).value.2.1 = [(s.plan.verify s.setting d).value.1] := by
  have hover : (Run.advance s.plan s.setting Run.length {} d).value.1.stage.left = 0 :=
    Nat.le_zero.1 (Run.left_advance s.plan s.setting Run.length {} d)
  have hremaining : remaining [s].length = List.replicate Run.length 0 := rfl
  have hbegun : (follow Member.step [s] [0] [{}] d).value =
      ([{ run := (Run.step s.plan s.setting {} d).value.1 }],
        (Run.step s.plan s.setting {} d).value.2) := rfl
  have hstep (n : Nat) : (Run.advance s.plan s.setting (n + 1) {} d).value =
      (Run.advance s.plan s.setting n (Run.step s.plan s.setting {} d).value.1
        (Run.step s.plan s.setting {} d).value.2).value := rfl
  rw [value_interleave h]
  simp only [List.map_cons, List.map_nil, hbegun, hremaining]
  rw [value_follow_replicate (s := s) Run.length rfl rfl, List.set_cons_zero, List.map_cons,
    List.map_nil, ← hstep, Run.value_advance_of_left hover 1, Plan.verify]

/-- Two scenarios without a schedule are carried out one after the other. -/
theorem runs_of_two (h : checkDisjoint d.cwd [s.plan, t.plan] = .ok ()) :
    (interleave [s, t] [] d).value.2.1 = [(s.plan.verify s.setting d).value.1,
      (t.plan.verify t.setting (s.plan.verify s.setting d).value.2).value.1] := by
  have hremaining : remaining [s, t].length =
      List.replicate Run.length 0 ++ List.replicate Run.length 1 := rfl
  have hfirst : (follow Member.round [s, t] (List.replicate Run.length 0) [{}, {}] d).value =
      ([{ run := (s.plan.verify s.setting d).value.1 }, {}],
        (s.plan.verify s.setting d).value.2) :=
    value_follow_replicate Run.length rfl rfl
  have hended := value_follow_append Member.round [s, t] (List.replicate Run.length 0)
    (List.replicate Run.length 1) [{}, {}] d
  rw [hfirst, value_follow_replicate (s := t) Run.length rfl rfl] at hended
  rw [value_interleave h]
  simp only [follow, Logged.value_pure, hremaining, List.map_cons, List.map_nil, hended]
  rfl

end Few

end Scenarios

/-- A service that crashes whatever it is asked. -/
def Service.crashing : Service := fun _ _ d => ⟨.crashed, 0, d, []⟩

/-- A run whose root can be emptied crashes with its service. -/
theorem Scenario.verify_crashing {root : String} {d d₀ : Disk}
    (hclean : Run.emptyRoot {} d (.ofString root) = (d₀, .ok ())) :
    ∃ deeds, ((serving root .crashing).plan.verify (serving root .crashing).setting d).value =
      (⟨.crashed, deeds⟩, d₀) := by
  have hcrashed : ∃ deeds, (Run.advance (serving root .crashing).plan
      (serving root .crashing).setting 2 {} d).value = (⟨.crashed, deeds⟩, d₀) := by
    rw [Run.advance, Logged.value_bind, Run.value_step_clean rfl hclean]
    exact ⟨_, rfl⟩
  obtain ⟨deeds, h⟩ := hcrashed
  exact ⟨deeds, (Run.value_verify_of_left (n := 2) (by rw [h]; rfl)).trans h⟩

/-- Plans that are accepted all come to an end, however the steps of their runs fall, and what they
come to is what joining the runs in the order of the plans makes of them. It is as promised, an
outcome for each plan or an internal failure, if and only if at most one run crashed. When two or
more did, the caller crashes. -/
theorem interleave_keeps_iff {scenarios : List Scenario} {d : Disk}
    (hdisjoint : Scenarios.checkDisjoint d.cwd (scenarios.map Scenario.plan) = .ok ())
    (schedule : List Nat) :
    let result := (interleave scenarios schedule d).value.1
    let runs := (interleave scenarios schedule d).value.2.1
    let crashes := (runs.filter Run.isCrashed).length
    runs.length = scenarios.length ∧ (∀ r ∈ runs, r.isOver = true) ∧
      result = Scenarios.scope runs ∧
      (result.Keeps scenarios runs ↔ crashes ≤ 1) ∧ (result = .crashed ↔ 2 ≤ crashes) := by
  intro result runs crashes
  have hover : Scenarios.AllOver scenarios runs := Scenarios.allOver_interleave hdisjoint schedule
  have hresult : result = Scenarios.conclude runs :=
    Scenarios.value_interleave_fst hdisjoint schedule
  rw [hresult]
  exact ⟨hover.length, fun r hr => (Run.over_cases (hover.left_eq hr)).1,
    Scenarios.conclude_eq_scope runs, hover.keeps_conclude_iff, hover.conclude_eq_crashed_iff⟩

/-- A single run that crashes becomes a failure. -/
theorem interleave_keeps_iff_of_crash :
    let crashing : List Scenario := [.serving "one" .crashing]
    let runs := (interleave crashing [0] {}).value.2.1
    runs.map Run.isCrashed = [true] ∧
      (interleave crashing [0] {}).value.1.Keeps crashing runs := by
  have hdisjoint : Scenarios.checkDisjoint ({} : Disk).cwd
      ([.serving "one" .crashing].map Scenario.plan) = .ok () :=
    Scenarios.checkDisjoint_singleton ..
  have hclean : Run.emptyRoot {} {} (.ofString "one") =
      ({ entries := [([[111, 110, 101]], .directory)] }, .ok ()) := by
    rw [show Path.ofString "one" = ⟨[111, 110, 101]⟩ from rfl]
    cbv
  obtain ⟨deeds, hverify⟩ := Scenario.verify_crashing hclean
  have hruns := Scenarios.runs_of_one (s := .serving "one" .crashing) (d := {}) hdisjoint
  rw [hverify] at hruns
  have hcrashes : ((interleave [.serving "one" .crashing] [0] {}).value.2.1.filter
      Run.isCrashed).length = 1 := by
    rw [hruns]
    rfl
  obtain ⟨-, -, -, hkeeps, -⟩ := interleave_keeps_iff hdisjoint [0]
  refine ⟨?_, hkeeps.2 hcrashes.le⟩
  rw [hruns]
  rfl

/-- Two runs that crash make their caller crash: the first one is joined, the second is not. -/
theorem interleave_crashes_caller :
    let crashing : List Scenario := [.serving "one" .crashing, .serving "two" .crashing]
    let runs := (interleave crashing [] {}).value.2.1
    Scenarios.checkDisjoint [] (crashing.map Scenario.plan) = .ok () ∧
      runs.map Run.isCrashed = [true, true] ∧
      (interleave crashing [] {}).value.1 = .crashed ∧
      ¬(interleave crashing [] {}).value.1.Keeps crashing runs := by
  have hdisjoint : Scenarios.checkDisjoint ({} : Disk).cwd
      ([.serving "one" .crashing, .serving "two" .crashing].map Scenario.plan) = .ok () := by
    have hnone : Scenarios.firstOverlap? (([.serving "one" .crashing,
        .serving "two" .crashing].map Scenario.plan).map fun p => Location.ofPath [] p.root) =
          none := by decide +kernel
    rw [Scenarios.checkDisjoint, hnone]
  have hfirst : Run.emptyRoot {} {} (.ofString "one") =
      ({ entries := [([[111, 110, 101]], .directory)] }, .ok ()) := by
    rw [show Path.ofString "one" = ⟨[111, 110, 101]⟩ from rfl]
    cbv
  have hsecond : Run.emptyRoot {} { entries := [([[111, 110, 101]], .directory)] }
      (.ofString "two") = ({ entries := [([[111, 110, 101]], .directory),
        ([[116, 119, 111]], .directory)] }, .ok ()) := by
    rw [show Path.ofString "two" = ⟨[116, 119, 111]⟩ from rfl]
    cbv
  obtain ⟨deeds₁, hverify₁⟩ := Scenario.verify_crashing hfirst
  obtain ⟨deeds₂, hverify₂⟩ := Scenario.verify_crashing hsecond
  have hruns := Scenarios.runs_of_two (s := .serving "one" .crashing)
    (t := .serving "two" .crashing) (d := {}) hdisjoint
  simp only [hverify₁, hverify₂] at hruns
  have hcrashed : (interleave [.serving "one" .crashing, .serving "two" .crashing] []
      {}).value.1 = .crashed := by
    rw [Scenarios.value_interleave_fst hdisjoint, hruns]
    rfl
  refine ⟨hdisjoint, ?_, hcrashed, ?_⟩
  · rw [hruns]
    rfl
  · rw [hcrashed]
    exact id

end CacheAudit
