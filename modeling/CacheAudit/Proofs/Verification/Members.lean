import CacheAudit.Proofs.Verification.Beside
import CacheAudit.Proofs.Verification.Success

/-!
# Runs among others and runs alone

However the steps of others fall between its own, a run that keeps to its root stands where it would
stand alone, and a capture that it has under way repeats the one that it would take alone. Each
round of a run brings it nearer to its end, and so the outcome is that of the run alone.
-/

namespace CacheAudit

open Disk (Grown Spares Apart)

theorem Stage.left_le (stage : Stage) : stage.left ≤ Run.length := by
  cases stage <;> simp [left, Run.length]

namespace Run

variable {plan : Plan} {s : Setting} {r : Run} {d : Disk}

/-! ### Runs come to an end -/

theorem left_settle (hcapture : r.stage.isCapture = true) (captured : Captured) :
    (r.settle plan s d captured).value.stage.left ≤ r.stage.left - 1 := by
  obtain ⟨stage, deeds⟩ := r
  rw [settle]
  cases stage with
  | captureBefore =>
    cases captured.snapshot with
    | error halt =>
      cases halt with
      | failed f => exact Nat.le_add_left 1 4
      | crashed => exact Nat.zero_le _
    | ok before =>
      dsimp only
      split
      · exact Nat.le_add_left 1 4
      · exact Nat.le_refl 5
  | captureAfter before =>
    cases captured.snapshot with
    | error halt =>
      cases halt with
      | failed f => exact Nat.le_add_left 1 1
      | crashed => exact Nat.zero_le _
    | ok after => exact Nat.le_refl 2
  | _ => cases hcapture

theorem left_afterReply (phase : Phase) (id : String) {next : Stage} (hnext : 1 ≤ next.left)
    (reply : Reply) : (afterReply plan s phase id next reply).left ≤ next.left := by
  rw [afterReply]
  split
  · exact Nat.zero_le _
  · split
    · exact Nat.le_refl _
    · exact hnext

/-- Every step of a run comes nearer to the end. -/
theorem left_step (plan : Plan) (s : Setting) (r : Run) (d : Disk) :
    (step plan s r d).value.1.stage.left ≤ r.stage.left - 1 := by
  by_cases hcapture : r.stage.isCapture = true
  · rw [value_step_of_isCapture plan s d hcapture]
    exact left_settle hcapture _
  obtain ⟨stage, deeds⟩ := r
  cases stage with
  | clean =>
    simp only [step, Logged.value_bind]
    cases (emptyRoot (surroundings ⟨.clean, deeds⟩ s).files d plan.root).2 with
    | ok u => exact Nat.le_refl 8
    | error f => exact Nat.le_add_left 1 7
  | invokeFirst =>
    simp only [step, value_invoke_eq]
    exact left_afterReply _ _ (by decide) _
  | waitFirst =>
    simp only [step, Logged.value_bind, value_wait, Logged.value_pure]
    exact Nat.le_refl 6
  | captureBefore => exact absurd rfl hcapture
  | invokeSecond before =>
    simp only [step, value_invoke_eq]
    exact left_afterReply _ _ (by simp [Stage.left]) _
  | waitSecond before =>
    simp only [step, Logged.value_bind, value_wait, Logged.value_pure]
    exact Nat.le_refl 3
  | captureAfter before => exact absurd rfl hcapture
  | compare before after =>
    simp only [step, Logged.value_bind]
    cases (before.diff after).value <;> exact Nat.le_refl 1
  | tearDown outcome =>
    obtain ⟨d', hvalue⟩ := value_tearDown plan s d (r := ⟨.tearDown outcome, deeds⟩) rfl
    rw [hvalue]
    exact Nat.le_refl 0
  | finished outcome => exact Nat.le_refl 0
  | crashed => exact Nat.le_refl 0

theorem left_advance (plan : Plan) (s : Setting) (n : Nat) (r : Run) (d : Disk) :
    (advance plan s n r d).value.1.stage.left ≤ r.stage.left - n := by
  induction n with
  | zero => exact Nat.le_refl _
  | succ n ih =>
    rw [value_advance_succ]
    have hstep := left_step plan s (advance plan s n r d).value.1 (advance plan s n r d).value.2
    omega

/-- A run that is over stays as it is. -/
theorem value_step_of_left (h : r.stage.left = 0) (d : Disk) :
    (step plan s r d).value = (r, d) := by
  obtain ⟨stage, deeds⟩ := r
  cases stage <;> first | rfl | cases h

/-- Once a run is over, further steps change nothing. -/
theorem value_advance_of_left {n : Nat} (h : (advance plan s n r d).value.1.stage.left = 0)
    (k : Nat) : (advance plan s (n + k) r d).value = (advance plan s n r d).value := by
  induction k with
  | zero => rfl
  | succ k ih => rw [← Nat.add_assoc, value_advance_succ, ih, value_step_of_left h]

/-- A run that is over is the whole run. -/
theorem value_verify_of_left {n : Nat} (h : (advance plan s n {} d).value.1.stage.left = 0) :
    (plan.verify s d).value = (advance plan s n {} d).value := by
  have hlength : (advance plan s length {} d).value.1.stage.left = 0 :=
    Nat.le_zero.1 (left_advance plan s length {} d)
  rw [Plan.verify]
  rcases Nat.le_total n length with hle | hle
  · obtain ⟨k, hk⟩ := Nat.exists_eq_add_of_le hle
    rw [hk, value_advance_of_left h]
  · obtain ⟨k, hk⟩ := Nat.exists_eq_add_of_le hle
    rw [hk, value_advance_of_left hlength]

/-- A run that has nothing left to do but to tear down has its outcome. -/
theorem outcome_of_tearDown {n : Nat} {outcome : Outcome}
    (h : (advance plan s n {} d).value.1.stage = .tearDown outcome) :
    (plan.verify s d).value.1.outcome? = some outcome := by
  obtain ⟨d', hend⟩ := value_tearDown plan s (advance plan s n {} d).value.2 h
  rw [← value_advance_succ] at hend
  rw [value_verify_of_left (by rw [hend]; rfl), hend]
  rfl

/-- A run is aborted when its first capture finds no files. -/
theorem aborted_of_isEmpty {d₀ d₁ : Disk} {before : Snapshot}
    (hclean : emptyRoot (s.around 0).files d plan.root = (d₀, .ok ()))
    (hfirst : (s.service (plan.request plan.firstPayload s.firstId) plan.invocationTimeout
      d₀).Succeeds plan.invocationTimeout d₁)
    (hbefore : ∀ given, (capture d₁ (s.fingerprinter given)
      (limits plan) (s.around 3) plan.root).value.snapshot =
        .ok before) (hempty : before.isEmpty = true) :
    (plan.verify s d).value.1.outcome? =
      some (abortedOutcome plan s .captureBefore (noArtifacts plan s.firstId)) := by
  have hcapture : plan.Reaches s d 4 (.tearDown (abortedOutcome plan s .captureBefore
      (noArtifacts plan s.firstId))) d₁ [d₁] := by
    refine (Plan.reaches_captureBefore hclean hfirst).next fun r hstage hmade => ?_
    have hsnapshot : (takeSnapshot plan s d₁ r).value.snapshot = .ok before := by
      rw [takeSnapshot, surroundings, hmade]
      exact hbefore _
    refine ⟨.capture d₁ (takeSnapshot plan s d₁ r).value, ?_, rfl⟩
    simp only [step, settle, hstage, Logged.value_bind, hsnapshot, hempty, if_true]
    rfl
  obtain ⟨r, hvalue, hstage, -, -⟩ := hcapture
  exact outcome_of_tearDown (by rw [hvalue]; exact hstage)

/-- Runs that are alike are as far from the end and have the same outcome. -/
theorem Alike.left_eq {r' : Run} (h : r.Alike r') : r.stage.left = r'.stage.left := by
  obtain ⟨stage, deeds⟩ := r
  obtain ⟨stage', deeds'⟩ := r'
  cases (h.stage : stage.Alike stage') <;> rfl

theorem Alike.outcome?_eq {r' : Run} (h : r.Alike r') : r.outcome? = r'.outcome? := by
  obtain ⟨stage, deeds⟩ := r
  obtain ⟨stage', deeds'⟩ := r'
  cases (h.stage : stage.Alike stage') <;> rfl

theorem Alike.isCapture_eq {r' : Run} (h : r.Alike r') :
    r.stage.isCapture = r'.stage.isCapture := by
  obtain ⟨stage, deeds⟩ := r
  obtain ⟨stage', deeds'⟩ := r'
  cases (h.stage : stage.Alike stage') <;> rfl

end Run

namespace Member

section Alone

variable {s : Scenario} {d₀ a d d' : Disk} {m : Member} {n : Nat} {r : Run} {l' : Location}

/-- A member on disk `d` that stands where its run `r` stands when it has taken `n` steps alone from
disk `d₀` on and has come to disk `a`. A capture under way repeats the one that the run takes
next. -/
structure Abreast (s : Scenario) (d₀ : Disk) (n : Nat) (r : Run) (a : Disk) (m : Member)
    (d : Disk) : Prop where
  advanced : (Run.advance s.plan s.setting n {} d₀).value = (r, a)
  cwd : a.cwd = d₀.cwd
  beside : Run.Beside s.plan.root a d r m.run
  capturing : ∀ p, m.capturing = some p → r.stage.isCapture = true ∧
    p.Repeats a (s.setting.fingerprinter r.given) (Run.limits s.plan) (r.surroundings s.setting)
      s.plan.root

/-- A member that others have not disturbed. -/
def Undisturbed (s : Scenario) (d₀ : Disk) (m : Member) (d : Disk) : Prop :=
  ∃ n r a, Abreast s d₀ n r a m d

/-- A change of an undisturbed member and the disk that leaves it undisturbed and spares the rest of
the disk. -/
structure Harmless (s : Scenario) (d₀ d : Disk) (next : Member × Disk) : Prop where
  undisturbed : Undisturbed s d₀ next.1 next.2
  spares : Spares (Location.ofPath d₀.cwd s.plan.root) d next.2

theorem Undisturbed.tree (h : Undisturbed s d₀ m d) : d.IsTree := by
  obtain ⟨n, r, a, h⟩ := h
  exact h.beside.grown.tree'

/-- What is done elsewhere disturbs no member. -/
theorem Undisturbed.elsewhere (h : Undisturbed s d₀ m d) (htree : d'.IsTree)
    (hspares : Spares l' d d') (hapart : Apart l' (Location.ofPath d₀.cwd s.plan.root)) :
    Undisturbed s d₀ m d' := by
  obtain ⟨n, r, a, hadvanced, hcwd, hbeside, hcapturing⟩ := h
  rw [← hcwd] at hapart
  exact ⟨n, r, a, hadvanced, hcwd,
    ⟨hbeside.grown.spares htree hspares hapart, hbeside.alike, hbeside.prepared⟩, hcapturing⟩

/-- A run that is over has the outcome that it has alone. -/
theorem Undisturbed.outcome?_eq (h : Undisturbed s d₀ m d) (hleft : m.run.stage.left = 0) :
    m.run.outcome? = (s.plan.verify s.setting d₀).value.1.outcome? := by
  obtain ⟨n, r, a, hadvanced, -, hbeside, -⟩ := h
  have hover : (Run.advance s.plan s.setting n {} d₀).value.1.stage.left = 0 := by
    rw [hadvanced, hbeside.alike.left_eq, hleft]
  rw [Run.value_verify_of_left hover, hadvanced, hbeside.alike.outcome?_eq]

/-- When the run alone takes a capture that differs from the one taken in nothing but times, both go
on in the same way. -/
theorem Abreast.conclude (h : Abreast s d₀ n r a m d) (hcapture : r.stage.isCapture = true)
    {captured : Captured}
    (hcaptured : (Run.takeSnapshot s.plan s.setting a r).value.timeless = captured.timeless) :
    Undisturbed s d₀ (Member.conclude s.plan s.setting d captured m.run).value d := by
  refine ⟨n + 1, _, a, ?_, h.cwd, h.beside.settle hcapture hcaptured, fun p hp => by cases hp⟩
  rw [Run.value_advance_succ, h.advanced]
  exact Run.value_step_of_isCapture s.plan s.setting a hcapture

/-- A member that has not begun stands where its run does. -/
theorem undisturbed_of_start (htree : d.IsTree) (hcwd : d.entry? d.cwd = some .directory)
    (hlink : d.LinkFree (Location.ofPath d.cwd s.plan.root)) : Undisturbed s d {} d :=
  ⟨0, {}, d, rfl, rfl, ⟨.refl htree hlink, ⟨.clean, rfl, rfl⟩, htree.base_directory hcwd _⟩,
    fun p hp => by cases hp⟩

/-- Only a run that takes a capture next has one under way. -/
theorem Undisturbed.isCapture (h : Undisturbed s d₀ m d) (hcapturing : m.capturing.isSome = true) :
    m.run.stage.isCapture = true := by
  obtain ⟨n, r, a, -, -, hbeside, hcapture⟩ := h
  obtain ⟨p, hp⟩ := Option.isSome_iff_exists.1 hcapturing
  rw [← hbeside.alike.isCapture_eq]
  exact (hcapture p hp).1

theorem prepared_of_isCapture {stage : Stage} (hcapture : stage.isCapture = true)
    (h : stage.Prepared a s.plan.root) : a.Reaches (Location.ofPath a.cwd s.plan.root) ∧
      (Path.below s.plan.root.parts = [] → s.plan.root.bytes = []) := by
  cases stage with
  | captureBefore | captureAfter before => exact h
  | _ => cases hcapture

theorem Harmless.of_same (h : Undisturbed s d₀ m d) : Harmless s d₀ d (m, d) :=
  ⟨h, .refl ..⟩

theorem Harmless.trans {next : Member × Disk} (h : Harmless s d₀ d (m, d'))
    (hnext : Harmless s d₀ d' next) : Harmless s d₀ d next :=
  ⟨hnext.undisturbed, h.spares.trans hnext.spares⟩

section Steps

variable (hs : s.KeepsToRoot d₀.cwd) (hp : s.plan.root.Forward)

theorem Abreast.given_eq (h : Abreast s d₀ n r a m d) : m.run.given = r.given :=
  h.beside.alike.given.symm

theorem Abreast.surroundings_eq (h : Abreast s d₀ n r a m d) :
    m.run.surroundings s.setting = r.surroundings s.setting := by
  rw [Run.surroundings, Run.surroundings, h.beside.alike.length]

include hs hp

/-- A capture under way goes on, or ends, as the one that the run takes alone. -/
theorem Abreast.step_of_capturing (h : Abreast s d₀ n r a m d) {p : Capture.Progress}
    (hcapturing : m.capturing = some p) :
    Harmless s d₀ d (Member.step s.plan s.setting m d).value := by
  obtain ⟨hcapture, hrepeats⟩ := h.capturing p hcapturing
  obtain ⟨hreaches, hnamed⟩ := prepared_of_isCapture hcapture h.beside.prepared
  rw [Member.step, h.given_eq, h.surroundings_eq, hcapturing]
  dsimp only
  split
  · rename_i hpending
    exact .of_same (h.conclude hcapture (hrepeats.finish (List.isEmpty_iff.1 hpending)).symm)
  · -- the file is read on this disk, where it holds what the run alone would read
    obtain ⟨first, hstart, hfound⟩ := hrepeats.found
    have hexamined := Capture.timeless_examine_of_grown (hs.files _) hp h.beside.grown hreaches
      (hs.contents r.given) hstart
    refine .of_same ⟨n, r, a, h.advanced, h.cwd, h.beside, ?_⟩
    rintro _ ⟨⟩
    exact ⟨hcapture, hrepeats.take (hfound ▸ hexamined)⟩

/-- A capture begins as the one that the run takes alone. -/
theorem Abreast.step_of_isCapture (h : Abreast s d₀ n r a m d) (hnone : m.capturing = none)
    (hcapture : r.stage.isCapture = true) :
    Harmless s d₀ d (Member.step s.plan s.setting m d).value := by
  obtain ⟨hreaches, hnamed⟩ := prepared_of_isCapture hcapture h.beside.prepared
  have hstart : (Capture.start a (Run.limits s.plan) (r.surroundings s.setting) s.plan.root).value =
      (Capture.start d (Run.limits s.plan) (r.surroundings s.setting) s.plan.root).value :=
    Capture.start_of_grown (hs.files _) hp h.beside.grown hreaches hnamed
  rw [Member.step, h.surroundings_eq, hnone]
  dsimp only
  rw [← h.beside.alike.isCapture_eq, hcapture, if_pos rfl, Logged.value_bind, ← hstart]
  cases hbegun : (Capture.start a (Run.limits s.plan) (r.surroundings s.setting) s.plan.root).value
    with
  | error f =>
    refine .of_same (h.conclude hcapture ?_)
    show (capture a (s.setting.fingerprinter r.given) (Run.limits s.plan)
      (r.surroundings s.setting) s.plan.root).value.timeless = _
    rw [Capture.value_capture, hbegun]
  | ok p =>
    -- the run alone takes its capture in one step and stays behind until this one ends
    refine .of_same ⟨n, r, a, h.advanced, h.cwd, h.beside, ?_⟩
    rintro _ ⟨⟩
    exact ⟨hcapture, Capture.Progress.repeats_of_start hbegun⟩

/-- Any other step is that of the run. -/
theorem Abreast.step_of_not_isCapture (h : Abreast s d₀ n r a m d) (hnone : m.capturing = none)
    (hcapture : r.stage.isCapture = false) :
    Harmless s d₀ d (Member.step s.plan s.setting m d).value := by
  obtain ⟨hbeside, hcwd, hspares⟩ := h.beside.step (h.cwd ▸ hs) hp hcapture
  rw [Member.step, hnone]
  dsimp only
  rw [← h.beside.alike.isCapture_eq, hcapture, if_neg (by simp), Logged.value_bind]
  refine ⟨⟨n + 1, _, _, ?_, hcwd.trans h.cwd, hbeside, fun p hp => by cases hp⟩, ?_⟩
  · rw [Run.value_advance_succ, h.advanced]
  · rw [← h.cwd]
    exact hspares

/-- A step of an undisturbed member is harmless. -/
theorem Undisturbed.step (h : Undisturbed s d₀ m d) :
    Harmless s d₀ d (Member.step s.plan s.setting m d).value := by
  obtain ⟨n, r, a, h⟩ := h
  cases hcapturing : m.capturing with
  | some p => exact h.step_of_capturing hs hp hcapturing
  | none =>
    cases hcapture : r.stage.isCapture with
    | true => exact h.step_of_isCapture hs hp hcapturing hcapture
    | false => exact h.step_of_not_isCapture hs hp hcapturing hcapture

/-- A number of steps of an undisturbed member is harmless. -/
theorem Undisturbed.advance (h : Undisturbed s d₀ m d) (k : Nat) :
    Harmless s d₀ d (Member.advance s.plan s.setting k m d).value := by
  induction k generalizing m d with
  | zero => exact ⟨h, .refl ..⟩
  | succ k ih =>
    have hstep := h.step hs hp
    exact hstep.trans (ih hstep.undisturbed)

/-- A round of an undisturbed member is harmless. -/
theorem Undisturbed.round (h : Undisturbed s d₀ m d) :
    Harmless s d₀ d (Member.round s.plan s.setting m d).value := by
  have hstep := h.step hs hp
  exact hstep.trans (hstep.undisturbed.advance hs hp _)

end Steps

end Alone

/-! ### Rounds bring a run nearer to its end -/

section Rounds

variable {plan : Plan} {s : Setting} {m : Member} {d : Disk} {p : Capture.Progress}

/-- A capture under way takes one step for each file that is left, and a last one. -/
theorem value_advance_of_capturing (hp : m.capturing = some p) :
    (advance plan s (p.pending.length + 1) m d).value =
      let fp := s.fingerprinter m.run.given
      let around := m.run.surroundings s
      ((conclude plan s d ((p.takeAll d fp (Run.limits plan) around).finish d fp (Run.limits plan)
        around plan.root).value m.run).value, d) := by
  induction hpending : p.pending generalizing m p with
  | nil =>
    dsimp only
    rw [Capture.Progress.takeAll_of_pending hpending]
    simp only [List.length_nil, advance, step, hp, hpending, List.isEmpty_nil, if_true,
      Logged.value_bind, Logged.value_pure]
  | cons i rest ih =>
    have hstep : (step plan s m d).value = ({ m with capturing := some (p.take d
        (s.fingerprinter m.run.given) (Run.limits plan) (m.run.surroundings s)) }, d) := by
      simp only [step, hp, hpending, List.isEmpty_cons, Bool.false_eq_true, if_false,
        Logged.value_pure]
    have hrest : (p.take d (s.fingerprinter m.run.given) (Run.limits plan)
        (m.run.surroundings s)).pending = rest := by
      rw [Capture.Progress.take_of_cons hpending, Capture.Progress.visit_pending]
    rw [List.length_cons, advance, Logged.value_bind, hstep]
    dsimp only
    rw [ih (m := { m with capturing := some (p.take d (s.fingerprinter m.run.given)
      (Run.limits plan) (m.run.surroundings s)) }) rfl hrest]
    dsimp only
    rw [Capture.Progress.takeAll_take]

/-- A round of a run that has no capture under way is its next step. -/
theorem value_round (plan : Plan) (s : Setting) (r : Run) (d : Disk) :
    (round plan s { run := r } d).value =
      ({ run := (r.step plan s d).value.1 }, (r.step plan s d).value.2) := by
  rw [round, Logged.value_bind]
  cases hcapture : r.stage.isCapture with
  | false =>
    have hstep : (step plan s { run := r } d).value =
        ({ run := (r.step plan s d).value.1 }, (r.step plan s d).value.2) := by
      simp [step, hcapture]
    rw [hstep]
    rfl
  | true =>
    rw [Run.value_step_of_isCapture plan s d hcapture]
    have hcaptured := Capture.value_capture d (s.fingerprinter r.given) (Run.limits plan)
      (r.surroundings s) plan.root
    cases hstart : (Capture.start d (Run.limits plan) (r.surroundings s) plan.root).value with
    | error f =>
      have hstep : (step plan s { run := r } d).value =
          ((conclude plan s d ⟨.error f, []⟩ r).value, d) := by
        simp only [step, hcapture, if_true, Logged.value_bind, hstart]
        rfl
      have hfailed : (Run.takeSnapshot plan s d r).value = ⟨.error f, []⟩ := by
        rw [hstart] at hcaptured
        exact hcaptured
      rw [hstep, hfailed]
      rfl
    | ok p =>
      have hstep : (step plan s { run := r } d).value =
          ({ run := r, capturing := some p }, d) := by
        simp only [step, hcapture, if_true, Logged.value_bind, hstart]
        rfl
      rw [hstep]
      dsimp only [left]
      rw [value_advance_of_capturing rfl]
      dsimp only
      rw [Capture.value_finish_takeAll hstart]
      rfl

/-- A step leaves a capture under way or has brought the run nearer to the end. -/
theorem step_cases (plan : Plan) (s : Setting) (d : Disk)
    (hcapturing : m.capturing.isSome = true → m.run.stage.isCapture = true) :
    (∃ r d', (step plan s m d).value = ({ run := r }, d') ∧
      r.stage.left ≤ m.run.stage.left - 1) ∨
    ∃ p, m.run.stage.isCapture = true ∧
      (step plan s m d).value = ({ m with capturing := some p }, d) := by
  rw [step]
  cases hp : m.capturing with
  | some p =>
    have hcapture := hcapturing (by rw [hp]; rfl)
    dsimp only
    split
    · exact .inl ⟨_, _, rfl, Run.left_settle hcapture _⟩
    · exact .inr ⟨_, hcapture, rfl⟩
  | none =>
    dsimp only
    split
    · rename_i hcapture
      rw [Logged.value_bind]
      cases (Capture.start d (Run.limits plan) (m.run.surroundings s) plan.root).value with
      | error f => exact .inl ⟨_, _, rfl, Run.left_settle hcapture _⟩
      | ok p => exact .inr ⟨p, hcapture, rfl⟩
    · exact .inl ⟨_, _, rfl, Run.left_step plan s m.run d⟩

/-- A round of a run comes nearer to the end. -/
theorem left_round (plan : Plan) (s : Setting) (d : Disk)
    (hcapturing : m.capturing.isSome = true → m.run.stage.isCapture = true) :
    (round plan s m d).value.1.run.stage.left ≤ m.run.stage.left - 1 := by
  rw [round, Logged.value_bind]
  rcases step_cases plan s d hcapturing with
    ⟨r, d', hstep, hleft⟩ | ⟨p, hcapture, hstep⟩
  · rw [hstep]
    exact hleft
  · rw [hstep]
    dsimp only [left]
    rw [value_advance_of_capturing rfl]
    exact Run.left_settle hcapture _

end Rounds

end Member

end CacheAudit
