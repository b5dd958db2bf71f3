import CacheAudit.Dataset.Loading
import CacheAudit.Storage.Report
import CacheAudit.Proofs.Verification.Interleaving
import CacheAudit.Proofs.Verification.Recording

/-!
# Which calls are closed in the journal

A call of any operation records its start first and, when it returns a result, its end last. Only a
capture also records how it failed and nothing else after that. The other operations leave a failed
call open, record nothing of it, or close it a second time.
-/

namespace CacheAudit

open Logged (Records Leaves records_pure leaves_pure)
open Journal (IsOpen IsClosed IsReclosed)
open Dataset (Table LineLog)

/-! ### Calls -/

/-- A call of an operation that keeps a journal. -/
inductive Call
  | capture (d : Disk) (fp : Fingerprinter) (limits : CaptureLimits) (around : Surroundings)
    (root : Path)
  | diff (before after : Snapshot)
  | reconcile (reference candidate : KeyedDataset)
  | reconcileWeights (reference candidate : WeightedDataset) (tolerance : Float)
  | keyedTable (t : Table) (d : Disk) (path : Path) (label : String)
  | weightedTable (t : Table) (d : Disk) (path : Path) (label : String)
  | keyedLog (l : LineLog) (d : Disk) (path : Path) (label : String)
  | weightedLog (l : LineLog) (d : Disk) (path : Path) (label : String)
  | writeReport (r : Report) (d : Disk) (dir : Path)
  | scenarios (list : List Scenario) (schedule : List Nat) (d : Disk)
  | verify (plan : Plan) (s : Setting) (d : Disk)

/-- The code of the error for which a run was aborted, if it was. -/
def Outcome.errorCode? : Outcome → Option String
  | .aborted run => some run.errorCode
  | .pass _ | .fail _ => none

/-- How several runs end, if they do not crash the caller: with the code of a failure or without. -/
def ScenariosResult.ended? : ScenariosResult → Option (Option String)
  | .outcomes _ => some none
  | .failed f => some (some f.code)
  | .crashed => none

theorem ScenariosResult.outcomes_of_ended {r : ScenariosResult} (h : r.ended? = some none) :
    ∃ list, r = .outcomes list := by
  cases r with
  | outcomes list => exact ⟨list, rfl⟩
  | failed f => cases h
  | crashed => cases h

namespace Call

/-- The name of the operation that is called. -/
def op : Call → String
  | capture .. => "capture"
  | diff .. => "diff"
  | reconcile .. => "reconcile"
  | reconcileWeights .. => "reconcile_weights"
  | keyedTable .. | weightedTable .. => "load_table"
  | keyedLog .. | weightedLog .. => "load_log"
  | writeReport .. => "write_report"
  | scenarios .. => "run_scenarios"
  | verify .. => Run.op

/-- Carries out a call and answers how it ended, if it returned: with the code of the error that it
returned, which an aborted run also has, or without. -/
def perform : Call → Logged (Option (Option String))
  | capture d fp limits around root => do
    return Halt.ended? (← CacheAudit.capture d fp limits around root).snapshot
  | diff before after => do return some (errorCode? (← before.diff after))
  | reconcile reference candidate => do
    let _ ← CacheAudit.reconcile reference candidate
    return some none
  | reconcileWeights reference candidate tolerance => do
    let _ ← CacheAudit.reconcileWeights reference candidate tolerance
    return some none
  | keyedTable t d path label => do return Halt.ended? (← t.keyedAt d path label)
  | weightedTable t d path label => do return Halt.ended? (← t.weightedAt d path label)
  | keyedLog l d path label => do return Halt.ended? (← l.keyedAt d path label)
  | weightedLog l d path label => do return Halt.ended? (← l.weightedAt d path label)
  | writeReport r d dir => do return some (errorCode? (← r.write d dir).2)
  | scenarios list schedule d => do return (← interleave list schedule d).1.ended?
  | verify plan s d => do return (← plan.verify s d).1.outcome?.map Outcome.errorCode?

/-- The events that a call records of its own operation. -/
def own (c : Call) : Journal :=
  c.perform.events.ofOperation c.op

/-- The services that a call sends requests to record nothing of its operation. -/
def IsQuiet : Call → Prop
  | scenarios list _ _ => ∀ s ∈ list, s.setting.service.SilentOn "run_scenarios"
  | verify _ s _ => s.service.SilentOn Run.op
  | _ => True

/-- Whether a call is one of a capture. -/
def isCapture : Call → Bool
  | capture .. => true
  | _ => false

/-- A call that returned a result is closed, and one that failed is still open. -/
def OpenOnError (own : Journal) : Option String → Prop
  | none => IsClosed own none
  | some _ => IsOpen own

/-- A call that returned a result is closed, and one that failed is not on record at all. -/
def UnrecordedOnError (own : Journal) : Option String → Prop
  | none => IsClosed own none
  | some _ => own = []

/-- A call that returned a result is closed, and one that failed is closed twice. -/
def ReclosedOnError (own : Journal) : Option String → Prop
  | none => IsClosed own none
  | some code => IsReclosed own code

/-- What a call leaves on record of its operation when it ends in a given way. -/
def Left : Call → Journal → Option String → Prop
  | capture .. => IsClosed
  | diff .. => UnrecordedOnError
  | verify .. => ReclosedOnError
  | _ => OpenOnError

/-! ### What each operation leaves on record -/

/-- A computation that records the start of an operation and then only its end. -/
theorem leaves_closed {α : Type} {start stop : Event} {op : String} (a : α)
    (hstart : start.op = op ∧ start.mark = some .start) (hstop : stop.op = op ∧ stop.Closes none) :
    Leaves op [] (fun own _ => IsClosed own none)
      (do Logged.record start; Logged.record stop; return a) := by
  refine .after_record hstart.1 (.after_record hstop.1 ?_)
  exact leaves_pure ⟨[start], stop, rfl, ⟨start, [], rfl, hstart.2, List.forall_mem_nil _⟩, hstop.2⟩

theorem leaves_load {α : Type} (op label : String) (d : Disk) (path : Path) (size : α → Nat)
    (read : Bytes → Except (Halt Problem) α) :
    (Dataset.load op label d path size read).Leaves op [] fun own v =>
      ∀ ended, Halt.ended? v = some ended → OpenOnError own ended := by
  have hopen := Journal.isOpen_starting op [("path", path.display), ("label", label)]
  refine .after_record ?_ ?_
  · rfl
  split
  · refine leaves_pure ?_
    rintro _ ⟨⟩
    exact hopen
  split
  · rename_i halt _
    refine leaves_pure fun ended hended => ?_
    cases halt with
    | failed p =>
      cases hended
      exact hopen
    | crashed => cases hended
  · refine .after_record ?_ ?_
    · rfl
    · refine leaves_pure ?_
      rintro _ ⟨⟩
      exact hopen.close (Event.closes_ending _ _)

theorem leaves_write (r : Report) (d : Disk) (dir : Path) :
    (r.write d dir).Leaves "write_report" [] fun own v => OpenOnError own (errorCode? v.2) := by
  have hopen := Journal.isOpen_starting "write_report" [("dir", dir.display), ("stem", r.stem)]
  refine .after_record ?_ ?_
  · rfl
  dsimp only
  split
  · exact leaves_pure hopen
  · refine .after_record ?_ ?_
    · rfl
    · exact leaves_pure (hopen.close (Event.closes_ending _ _))

theorem leaves_diff (before after : Snapshot) :
    (before.diff after).Leaves "diff" [] fun own v => UnrecordedOnError own (errorCode? v) := by
  rw [Snapshot.diff]
  split
  · exact leaves_pure rfl
  · exact leaves_closed (Except.ok (SnapshotDiff.between before after)) ⟨rfl, rfl⟩ ⟨rfl, rfl⟩

theorem leaves_verify {s : Setting} (hquiet : s.service.SilentOn Run.op) (plan : Plan) (d : Disk) :
    (plan.verify s d).Leaves Run.op [] fun own p =>
      ∀ ended, p.1.outcome?.map Outcome.errorCode? = some ended → ReclosedOnError own ended := by
  intro ended hended
  obtain ⟨outcome, houtcome, rfl⟩ := Option.map_eq_some_iff.1 hended
  have hrecorded := plan.recorded_verify hquiet d
  have hstage : (plan.verify s d).value.1.stage = .finished outcome := by
    rw [Run.outcome?] at houtcome
    split at houtcome
    · cases houtcome
      assumption
    · cases houtcome
  rw [hstage] at hrecorded
  cases outcome <;> exact hrecorded

/-- An operation of several runs is none of a run's own. -/
theorem notOfRuns_scenarios : NotOfRuns "run_scenarios" :=
  ⟨by decide, by decide, by decide⟩

theorem leaves_interleave {scenarios : List Scenario}
    (hquiet : ∀ s ∈ scenarios, s.setting.service.SilentOn "run_scenarios") (schedule : List Nat)
    (d : Disk) :
    (interleave scenarios schedule d).Leaves "run_scenarios" [] fun own r =>
      ∀ ended, r.1.ended? = some ended → OpenOnError own ended := by
  have hopen := Journal.isOpen_starting "run_scenarios"
    [.count "scenario_count" scenarios.length]
  have hstep := Scenarios.silent_follow Member.step fun s hs =>
    Member.silent_step notOfRuns_scenarios (hquiet s hs)
  have hround := Scenarios.silent_follow Member.round fun s hs =>
    Member.silent_round notOfRuns_scenarios (hquiet s hs)
  refine .after_record ?_ ?_
  · rfl
  split
  · refine leaves_pure ?_
    rintro _ ⟨⟩
    exact hopen
  refine .after_silent (hstep _ _ _) (.after_silent (hround _ _ _) ?_)
  dsimp only
  split
  · rename_i list hresult
    refine .after_record ?_ (leaves_pure fun ended hended => ?_)
    · rfl
    rw [hresult] at hended
    cases hended
    exact hopen.close (Event.closes_ending _ _)
  · rename_i hresult
    refine leaves_pure fun ended hended => ?_
    cases ended with
    | some code => exact hopen
    | none =>
      obtain ⟨list, hlist⟩ := ScenariosResult.outcomes_of_ended hended
      exact absurd hlist (hresult list)

/-- How a call ended tells what it has left on record. -/
theorem left_perform (c : Call) (hquiet : c.IsQuiet) :
    c.perform.Leaves c.op [] fun own r => ∀ ended, r = some ended → c.Left own ended := by
  cases c with
  | capture d fp limits around root =>
    obtain ⟨hclosed, hop⟩ := capture_closed d fp limits around root
    refine .map fun ended hended => ?_
    rw [List.nil_append, op, Journal.ofOperation_eq_self hop]
    exact hclosed ended hended
  | diff before after =>
    refine .map ?_
    rintro _ ⟨⟩
    exact leaves_diff before after
  | reconcile reference candidate =>
    refine .map ?_
    rintro _ ⟨⟩
    exact leaves_closed (Reconciliation.of reference candidate) ⟨rfl, rfl⟩ ⟨rfl, rfl⟩
  | reconcileWeights reference candidate tolerance =>
    refine .map ?_
    rintro _ ⟨⟩
    exact leaves_closed (WeightReconciliation.of reference candidate tolerance) ⟨rfl, rfl⟩
      ⟨rfl, rfl⟩
  | keyedTable t d path label | weightedTable t d path label | keyedLog l d path label
  | weightedLog l d path label => exact .map (leaves_load _ _ _ _ _ _)
  | writeReport r d dir =>
    refine .map ?_
    rintro _ ⟨⟩
    exact leaves_write r d dir
  | scenarios list schedule d => exact .map (leaves_interleave hquiet schedule d)
  | verify plan s d => exact .map (leaves_verify hquiet plan d)

/-- A call that returned is properly closed on record exactly when it returned a result or was one
of a capture: after its start and before what closes it nothing is marked, and what closes it tells
how it ended. -/
theorem closed_iff {c : Call} (hquiet : c.IsQuiet) {ended : Option String}
    (hended : c.perform.value = some ended) :
    IsClosed c.own ended ↔ ended = none ∨ c.isCapture := by
  have hleft : c.Left c.own ended := left_perform c hquiet ended hended
  cases ended with
  | none =>
    refine iff_of_true ?_ (.inl rfl)
    cases c <;> exact hleft
  | some code =>
    rw [or_iff_right (Option.some_ne_none code)]
    cases c with
    | capture d fp limits around root => exact iff_of_true hleft rfl
    | diff before after =>
      refine iff_of_false ?_ Bool.false_ne_true
      have hnothing : own (.diff before after) = [] := hleft
      rw [hnothing]
      exact Journal.not_isClosed_nil _
    | verify plan s d => exact iff_of_false (IsReclosed.not_isClosed hleft _) Bool.false_ne_true
    | _ => exact iff_of_false (IsOpen.not_isClosed hleft _) Bool.false_ne_true

/-- A capture of a root that is missing is closed by its failure. -/
theorem closed_of_missing_root :
    let call : Call := .capture {} ⟨"none", fun _ _ key => .ok ⟨key, "", 0, none⟩⟩ ⟨1, none⟩ {}
      (.ofString "missing")
    call.IsQuiet ∧ call.perform.value = some (some "ERR_IO") ∧
      IsClosed call.own (some "ERR_IO") := by
  intro call
  have hfollow : Disk.follow {} (.ofString "missing") = .error .noEntry := by cbv
  have hroot : Capture.requireRoot (Surroundings.files {}) {} (.ofString "missing") =
      .error (Problem.rootNotFound (Path.ofString "missing").display).toFailure := by
    simp only [Capture.requireRoot, hfollow]
  have hended : call.perform.value = some (some "ERR_IO") := by
    simp only [call, perform, Logged.value_bind, value_capture_of_error hroot]
    rfl
  have hquiet : call.IsQuiet := trivial
  exact ⟨hquiet, hended, (closed_iff hquiet hended).2 (.inr rfl)⟩

/-- A table that is missing leaves its load open, and a run that is aborted is closed twice. -/
theorem not_closed_after_failure :
    let load : Call := .keyedTable {} {} (.ofString "missing.csv") "reference"
    let idle : Scenario := .serving "b" .idle
    let run : Call := .verify idle.plan idle.setting {}
    (load.IsQuiet ∧ load.perform.value = some (some "ERR_IO") ∧ IsOpen load.own ∧
      ¬IsClosed load.own (some "ERR_IO")) ∧
    (run.IsQuiet ∧ ∃ code, run.perform.value = some (some code) ∧ IsReclosed run.own code ∧
      ¬IsClosed run.own (some code)) := by
  intro load idle run
  have hread : Disk.read {} (.ofString "missing.csv") = .error .noEntry := by cbv
  have hload : load.perform.value = some (some "ERR_IO") := by
    simp only [load, perform, Table.keyedAt, Dataset.load, Dataset.content, hread]
    rfl
  have hopen : IsOpen load.own := left_perform load trivial _ hload
  obtain ⟨aborted, haborted⟩ := Scenario.aborted_idle
  have hrun : run.perform.value = some (some aborted.errorCode) :=
    congrArg (Option.map Outcome.errorCode?) haborted
  have hquiet : run.IsQuiet := fun _ _ _ e he => by cases he
  have hreclosed : IsReclosed run.own aborted.errorCode := left_perform run hquiet _ hrun
  exact ⟨⟨trivial, hload, hopen, hopen.not_isClosed _⟩, hquiet, _, hrun, hreclosed,
    hreclosed.not_isClosed _⟩

end Call

end CacheAudit
