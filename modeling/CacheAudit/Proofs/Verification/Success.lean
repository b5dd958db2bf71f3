import CacheAudit.Proofs.Capture.Contents
import CacheAudit.Proofs.Verification.Progress

/-!
# Runs in which nothing fails

When every step succeeds, the outcome of a run is settled by what its two captures found. If all
files were recorded, and under every key the files of both captures have one digest, then the run
passes without warnings as soon as each key of the first capture is one of the second.
-/

namespace CacheAudit

open Capture
open WalkItem (key)

/-- An answer with success and in time, which leaves a disk behind. -/
structure Reply.Succeeds (reply : Reply) (timeout : Duration) (d : Disk) : Prop where
  answer : ∃ status, reply.answer = .response status true
  inTime : reply.elapsedNs ≤ timeout.nanos
  disk : reply.disk = d

/-- A run of a plan in which nothing fails: the root is emptied, which leaves `d₀`, the service
succeeds twice and leaves `d₁` and `d₂`, and both are captured. -/
structure Plan.Succeeds (plan : Plan) (s : Setting) (d d₀ d₁ d₂ : Disk) (before after : Snapshot) :
    Prop where
  clean : Run.emptyRoot (s.around 0).files d plan.root = (d₀, .ok ())
  first : (s.service (plan.request plan.firstPayload s.firstId) plan.invocationTimeout
    d₀).Succeeds plan.invocationTimeout d₁
  captureBefore : ∀ given, (capture d₁ (s.fingerprinter given)
    (Run.limits plan) (s.around 3) plan.root).value.snapshot = .ok before
  nonempty : before.isEmpty = false
  second : (s.service (plan.request plan.secondPayload s.secondId) plan.invocationTimeout
    d₁).Succeeds plan.invocationTimeout d₂
  captureAfter : ∀ given, (capture d₂ (s.fingerprinter given)
    (Run.limits plan) (s.around 6) plan.root).value.snapshot = .ok after

section Runs

variable {plan : Plan} {s : Setting} {d d₀ d₁ d₂ : Disk} {before after : Snapshot}

theorem Run.value_invoke_of_succeeds {phase : Phase} {payload : Json} {id : String} {next : Stage}
    {r : Run} (h : (s.service (plan.request payload id) plan.invocationTimeout d).Succeeds
      plan.invocationTimeout d₁) :
    ∃ reply, (Run.invoke plan s d phase payload id next r).value =
      ({ r.did (.invoke (plan.request payload id) reply) with stage := next }, d₁) := by
  obtain ⟨status, hanswer⟩ := h.answer
  obtain ⟨late, refused, -, -, -, -, hjudge⟩ :=
    Run.judge_response plan.invocationTimeout id status true
      (s.service (plan.request payload id) plan.invocationTimeout d).elapsedNs
  have hintime := h.inTime
  rw [if_neg (by omega), if_pos rfl] at hjudge
  refine ⟨s.service (plan.request payload id) plan.invocationTimeout d, ?_⟩
  rw [Run.value_invoke rfl (by rw [hanswer]; simp), hanswer, hjudge, h.disk]

theorem Run.value_step_clean {r : Run} (hstage : r.stage = .clean)
    (h : emptyRoot (s.around r.deeds.length).files d plan.root = (d₀, .ok ())) :
    (step plan s r d).value = ({ r.did (.clean (.ok ())) with stage := .invokeFirst }, d₀) := by
  simp only [step, hstage, surroundings, Logged.value_bind, h]
  rfl

theorem Run.value_step_captureBefore {r : Run} (hstage : r.stage = .captureBefore)
    (h : (takeSnapshot plan s d r).value.snapshot = .ok before)
    (hnonempty : before.isEmpty = false) :
    (step plan s r d).value = ({ r.did (.capture d (takeSnapshot plan s d r).value) with
      stage := .invokeSecond before }, d) := by
  simp only [step, settle, hstage, Logged.value_bind, h, hnonempty]
  rfl

theorem Run.value_step_captureAfter {r : Run} (hstage : r.stage = .captureAfter before)
    (h : (takeSnapshot plan s d r).value.snapshot = .ok after) :
    (step plan s r d).value = ({ r.did (.capture d (takeSnapshot plan s d r).value) with
      stage := .compare before after }, d) := by
  simp only [step, settle, hstage, Logged.value_bind, h]
  rfl

theorem Run.value_step_compare {r : Run} (hstage : r.stage = .compare before after)
    (h : before.algorithm = after.algorithm) :
    (step plan s r d).value = ({ r.did (.compare (.ok (.between before after))) with
      stage := .tearDown (verdict plan s before after (.between before after)) }, d) := by
  simp only [step, hstage, Logged.value_bind, Snapshot.value_diff, h, if_true]
  rfl

/-- After so many steps, each of which did one thing, a run has reached a stage and a disk, with
captures made of given disks. -/
def Plan.Reaches (plan : Plan) (s : Setting) (d : Disk) (made : Nat) (stage : Stage) (d' : Disk)
    (disks : List Disk) : Prop :=
  ∃ r, (Run.advance plan s made {} d).value = (r, d') ∧ r.stage = stage ∧ r.deeds.length = made ∧
    r.captured = disks

theorem Run.value_advance_succ (n : Nat) (r : Run) (d : Disk) :
    (advance plan s (n + 1) r d).value =
      (step plan s (advance plan s n r d).value.1 (advance plan s n r d).value.2).value := by
  induction n generalizing r d with
  | zero => rfl
  | succ n ih => exact ih (step plan s r d).value.1 (step plan s r d).value.2

theorem Plan.Reaches.next {made : Nat} {stage next : Stage} {d' d'' : Disk}
    {disks more : List Disk} (h : plan.Reaches s d made stage d' disks)
    (hstep : ∀ r : Run, r.stage = stage → r.deeds.length = made → ∃ deed,
      (Run.step plan s r d').value = ({ r.did deed with stage := next }, d'') ∧
        deed.disk?.toList = more) :
    plan.Reaches s d (made + 1) next d'' (disks ++ more) := by
  obtain ⟨r, hvalue, hstage, hmade, hcaptured⟩ := h
  obtain ⟨deed, hnext, hmore⟩ := hstep r hstage hmade
  refine ⟨{ r.did deed with stage := next }, ?_, rfl, ?_, ?_⟩
  · rw [Run.value_advance_succ, hvalue]
    exact hnext
  · simp [Run.did, hmade]
  · rw [← hcaptured, ← hmore]
    simp only [Run.captured, Run.did, List.filterMap_append]
    cases hdisk : deed.disk? <;> simp [hdisk]

/-- A run whose first two moves succeed comes to its first capture. -/
theorem Plan.reaches_captureBefore
    (hclean : Run.emptyRoot (s.around 0).files d plan.root = (d₀, .ok ()))
    (hfirst : (s.service (plan.request plan.firstPayload s.firstId) plan.invocationTimeout
      d₀).Succeeds plan.invocationTimeout d₁) :
    plan.Reaches s d 3 .captureBefore d₁ [] := by
  have hstart : plan.Reaches s d 0 .clean d [] := ⟨{}, rfl, rfl, rfl, rfl⟩
  have hinvoke : plan.Reaches s d 1 .invokeFirst d₀ [] := by
    refine hstart.next fun r hstage hmade => ⟨_, Run.value_step_clean hstage ?_, rfl⟩
    rw [hmade]
    exact hclean
  have hwait : plan.Reaches s d 2 .waitFirst d₁ [] := by
    refine hinvoke.next fun r hstage _ => ?_
    obtain ⟨reply, hvalue⟩ := Run.value_invoke_of_succeeds (r := r) hfirst
    rw [Run.step, hstage]
    exact ⟨_, hvalue, rfl⟩
  refine hwait.next fun r hstage _ => ⟨.wait plan.gracePeriod, ?_, rfl⟩
  simp only [Run.step, hstage, Logged.value_bind, Logged.value_pure, Run.value_wait]

/-- The outcome of a run in which nothing fails is the verdict on its two snapshots. -/
theorem Plan.Succeeds.outcome (h : plan.Succeeds s d d₀ d₁ d₂ before after) :
    (plan.verify s d).value.1.captured = [d₁, d₂] ∧
      (plan.verify s d).value.1.outcome? =
        some (Run.verdict plan s before after (.between before after)) := by
  have hbefore : plan.Reaches s d 4 (.invokeSecond before) d₁ [d₁] := by
    refine (Plan.reaches_captureBefore h.clean h.first).next fun r hstage hmade => ?_
    have hsnapshot : (Run.takeSnapshot plan s d₁ r).value.snapshot = .ok before := by
      rw [Run.takeSnapshot, Run.surroundings, hmade]
      exact h.captureBefore _
    exact ⟨_, Run.value_step_captureBefore hstage hsnapshot h.nonempty, rfl⟩
  have hsecond : plan.Reaches s d 5 (.waitSecond before) d₂ [d₁] := by
    refine hbefore.next fun r hstage _ => ?_
    obtain ⟨reply, hvalue⟩ := Run.value_invoke_of_succeeds (r := r) h.second
    rw [Run.step, hstage]
    exact ⟨_, hvalue, rfl⟩
  have hwait' : plan.Reaches s d 6 (.captureAfter before) d₂ [d₁] := by
    refine hsecond.next fun r hstage _ => ⟨.wait plan.gracePeriod, ?_, rfl⟩
    simp only [Run.step, hstage, Logged.value_bind, Logged.value_pure, Run.value_wait]
  have hafter : plan.Reaches s d 7 (.compare before after) d₂ [d₁, d₂] := by
    refine hwait'.next fun r hstage hmade => ?_
    have hsnapshot : (Run.takeSnapshot plan s d₂ r).value.snapshot = .ok after := by
      rw [Run.takeSnapshot, Run.surroundings, hmade]
      exact h.captureAfter _
    exact ⟨_, Run.value_step_captureAfter hstage hsnapshot, rfl⟩
  have hsame : before.algorithm = after.algorithm := by
    have hb := algorithm_of_untimed (capture_eq_ok (h.captureBefore [])).2
    have ha := algorithm_of_untimed (capture_eq_ok (h.captureAfter [])).2
    rw [hb, ha]
  have hcompare : plan.Reaches s d 8
      (.tearDown (Run.verdict plan s before after (.between before after))) d₂ [d₁, d₂] :=
    hafter.next fun r hstage _ => ⟨_, Run.value_step_compare hstage hsame, rfl⟩
  obtain ⟨r, hvalue, hstage, -, hcaptured⟩ := hcompare
  obtain ⟨d', hend⟩ := Run.value_tearDown plan s d₂ hstage
  have hverify : (plan.verify s d).value =
      ({ r with stage := .finished (Run.verdict plan s before after (.between before after)) },
        d') := by
    rw [Plan.verify, Run.length, Run.value_advance_succ, hvalue]
    exact hend
  rw [hverify]
  exact ⟨hcaptured, rfl⟩

end Runs

/-! ### Clean passes -/

/-- Every file of a walk was recorded, and the walk did not fail anywhere. -/
def Capture.AllRecorded (d : Disk) (fp : Fingerprinter) (items : List WalkItem) : Prop :=
  ∀ item ∈ items, item = .other ∨ ∃ path names r, item = .file path names ∧
    fp.fingerprint d path (key names) = .ok r

namespace Capture.AllRecorded

variable {d : Disk} {fp : Fingerprinter} {items : List WalkItem} (h : AllRecorded d fp items)

include h

theorem exists_record {path : Path} {names : List Bytes} (hitem : .file path names ∈ items) :
    ∃ r, fp.fingerprint d path (key names) = .ok r := by
  rcases h _ hitem with hother | ⟨_, _, r, heq, hr⟩
  · cases hother
  · cases heq
    exact ⟨r, hr⟩

/-- A walk whose files were all recorded has a snapshot without unreadable keys. -/
theorem exists_untimed (root : Path) :
    ∃ s, untimed d fp root items = .ok s ∧ ∀ k, k ∉ s.unreadable := by
  have hbearable : Bearable d fp items := by
    intro path names hitem f hf
    obtain ⟨r, hr⟩ := h.exists_record hitem
    cases hf.symm.trans hr
  obtain ⟨s, hs⟩ : ∃ s, untimed d fp root items = .ok s :=
    ⟨_, untimed_eq_ok_iff.2 ⟨hbearable, rfl⟩⟩
  refine ⟨s, hs, fun k hk => ?_⟩
  rcases (mem_unreadable hs).1 hk with ⟨place, e, hitem, -⟩ | ⟨path, names, f, hitem, rfl, hf⟩
  · rcases h _ hitem with hother | ⟨_, _, _, heq, -⟩
    · cases hother
    · cases heq
  · obtain ⟨r, hr⟩ := h.exists_record hitem
    cases hf.symm.trans hr

end Capture.AllRecorded

theorem Snapshot.isEmpty_of_get? {s : Snapshot} {k : String} {r : FileRecord}
    (h : s.get? k = some r) : s.isEmpty = false := by
  by_contra hempty
  have hentries : s.entries.entries = [] := by
    simpa [Snapshot.isEmpty, StringMap.isEmpty] using hempty
  have hpath := Snapshot.mem_paths.2 ⟨r, h⟩
  rw [Snapshot.paths, StringMap.keys, hentries] at hpath
  cases hpath

section Passing

variable {plan : Plan} {s : Setting} {d d₀ d₁ d₂ : Disk} {fp : Fingerprinter}

/-- A run passes without warnings when nothing fails, all files of both captures are recorded, the
files with one key have one digest, and every key of the first capture is one of the second. Which
files stand behind the keys plays no part. -/
theorem Plan.passes_of_keys (hfp : ∀ given, s.fingerprinter given = fp) (hkey : fp.FilesUnderKey)
    (hclean : Run.emptyRoot (s.around 0).files d plan.root = (d₀, .ok ()))
    (hfirst : (s.service (plan.request plan.firstPayload s.firstId) plan.invocationTimeout
      d₀).Succeeds plan.invocationTimeout d₁)
    (hsecond : (s.service (plan.request plan.secondPayload s.secondId) plan.invocationTimeout
      d₁).Succeeds plan.invocationTimeout d₂)
    (htime : ∀ i, Unhindered (Run.limits plan) (s.around i))
    (hroot₁ : requireRoot (s.around 3).files d₁ plan.root = .ok ())
    (hroot₂ : requireRoot (s.around 6).files d₂ plan.root = .ok ())
    (hfiles₁ : AllRecorded d₁ fp ((s.around 3).files.walk d₁ plan.root))
    (hfiles₂ : AllRecorded d₂ fp ((s.around 6).files.walk d₂ plan.root))
    (hsome : ∃ path names, .file path names ∈ (s.around 3).files.walk d₁ plan.root)
    (hkeys : ∀ path names, .file path names ∈ (s.around 3).files.walk d₁ plan.root →
      ∃ path' names', .file path' names' ∈ (s.around 6).files.walk d₂ plan.root ∧
        key names' = key names)
    (hsame : ∀ path names path' names' r r',
      .file path names ∈ (s.around 3).files.walk d₁ plan.root →
      .file path' names' ∈ (s.around 6).files.walk d₂ plan.root → key names' = key names →
      fp.fingerprint d₁ path (key names) = .ok r → fp.fingerprint d₂ path' (key names') = .ok r' →
      r.contentHash = r'.contentHash) :
    (plan.verify s d).value.1.captured = [d₁, d₂] ∧ ∃ report,
      (plan.verify s d).value.1.outcome? = some (.pass report) ∧ report.warnings = [] := by
  obtain ⟨before, hbefore, hread₁⟩ := hfiles₁.exists_untimed plan.root
  obtain ⟨after, hafter, hread₂⟩ := hfiles₂.exists_untimed plan.root
  have hsucceeds : plan.Succeeds s d d₀ d₁ d₂ before after := by
    refine ⟨hclean, hfirst, ?_, ?_, hsecond, ?_⟩
    · intro given
      rw [hfp, capture_of_unhindered (htime 3) hroot₁, hbefore]
      rfl
    · obtain ⟨path, names, hitem⟩ := hsome
      obtain ⟨r, hr⟩ := hfiles₁.exists_record hitem
      obtain ⟨r', hr'⟩ := exists_get?_of_file hbefore hkey hitem hr
      exact Snapshot.isEmpty_of_get? hr'
    · intro given
      rw [hfp, capture_of_unhindered (htime 6) hroot₂, hafter]
      rfl
  have hagrees : ∀ p ∈ before.paths, before.AgreesAt after p := by
    intro p hp
    obtain ⟨r, hr⟩ := Snapshot.mem_paths.1 hp
    obtain ⟨path, names, hitem, rfl, hfile⟩ := exists_file_of_get? hbefore hkey hr
    obtain ⟨path', names', hitem', heq⟩ := hkeys path names hitem
    obtain ⟨r₀, hr₀⟩ := hfiles₂.exists_record hitem'
    obtain ⟨r', hr'⟩ := exists_get?_of_file hafter hkey hitem' hr₀
    rw [heq] at hr'
    obtain ⟨path'', names'', hitem'', heq', hfile'⟩ := exists_file_of_get? hafter hkey hr'
    refine ⟨r, r', hr, hr', ?_⟩
    exact hsame _ _ _ _ _ _ hitem hitem'' heq'.symm hfile (heq' ▸ hfile')
  obtain ⟨hcaptured, houtcome⟩ := hsucceeds.outcome
  have hnone {x : Snapshot} (h : ∀ k, k ∉ x.unreadable) : x.unreadable.toList = [] :=
    List.eq_nil_iff_forall_not_mem.2 h
  have hwarnings : Run.warnings before after = [] := by
    rw [Run.warnings, hnone hread₁, hnone hread₂]
    rfl
  rw [Run.verdict, SnapshotDiff.violatesIsolation_between.2 hagrees] at houtcome
  exact ⟨hcaptured, _, houtcome, hwarnings⟩

end Passing

/-! ### Services that leave given disks -/

/-- A service that answers two requests at once and with success, and leaves a given disk after
each, with the digests in use and nothing that interferes. -/
def Setting.leaving (a : Algorithm) (d₁ d₂ : Disk) : Setting where
  service request _ _ :=
    { answer := .response 200 true
      elapsedNs := 0
      disk := if request.id = "first" then d₁ else d₂ }
  fingerprinter _ := a.fingerprinter
  runId := "run"
  firstId := "first"
  secondId := "second"

/-- Nothing hinders a capture whose deadline lies ahead and can be told while the clock stands
still. -/
theorem Capture.unhindered_of_still {workers : Nat} {t : Duration} (hahead : 0 < t.nanos)
    (htold : t.nanos < clockEnd) : Unhindered ⟨workers, some t⟩ {} := by
  have hlate : isLate ⟨workers, some t⟩ {} 0 = false := by
    simp [isLate, Nat.ne_of_gt hahead]
  exact ⟨by simp [canTell, htold], rfl, fun _ => hlate, fun _ => hlate, hlate⟩

theorem Capture.requireRoot_of_follow {files : FileAccess} {d : Disk} {root : Path} {l : Location}
    (h : files.follow d root = .ok (l, .directory)) : requireRoot files d root = .ok () := by
  rw [requireRoot, h]

/-- The walk of a root in a tree meets no failure and just the given files, which have the given
contents. -/
structure Disk.Finds (d : Disk) (root : Path) (files : List (List Bytes × Bytes)) : Prop where
  tree : d.IsTree
  listed : ∀ item ∈ d.walk root, item = .other ∨ ∃ f ∈ files, item = .file (root.descend f.1) f.1
  found : ∀ f ∈ files, .file (root.descend f.1) f.1 ∈ d.walk root
  content : ∀ f ∈ files, d.read (root.descend f.1) = .ok f.2

namespace Disk.Finds

variable {d : Disk} {root : Path} {files : List (List Bytes × Bytes)} (h : d.Finds root files)

include h

theorem walk_eq : ({} : FileAccess).walk d root = d.walk root :=
  FileAccess.walk_default h.tree root

theorem exists_open {f : List Bytes × Bytes} (hf : f ∈ files) :
    ∃ modified, d.open? (root.descend f.1) = .ok (f.2, modified) := by
  have hread := h.content f hf
  unfold read at hread
  cases hopen : d.open? (root.descend f.1) with
  | error e => rw [hopen] at hread; cases hread
  | ok opened =>
    rw [hopen] at hread
    have hcontent : opened.1 = f.2 := Except.ok.inj hread
    exact ⟨opened.2, by rw [← hcontent]⟩

theorem file_mem {f : List Bytes × Bytes} (hf : f ∈ files) :
    .file (root.descend f.1) f.1 ∈ ({} : FileAccess).walk d root :=
  h.walk_eq ▸ h.found f hf

theorem exists_of_file {path : Path} {names : List Bytes}
    (hitem : .file path names ∈ ({} : FileAccess).walk d root) :
    ∃ f ∈ files, path = root.descend f.1 ∧ names = f.1 := by
  rw [h.walk_eq] at hitem
  rcases h.listed _ hitem with hother | ⟨f, hf, heq⟩
  · cases hother
  · cases heq
    exact ⟨f, hf, rfl, rfl⟩

theorem allRecorded (a : Algorithm) :
    AllRecorded d a.fingerprinter (({} : FileAccess).walk d root) := by
  intro item hitem
  rw [h.walk_eq] at hitem
  rcases h.listed item hitem with hother | ⟨f, hf, rfl⟩
  · exact .inl hother
  · obtain ⟨modified, hopen⟩ := h.exists_open hf
    obtain ⟨size, hrecord⟩ := a.fingerprint_of_open (key f.1) hopen
    exact .inr ⟨_, _, _, rfl, hrecord⟩

end Disk.Finds

/-- A run passes without warnings for any two disks on which files with one key have one content,
provided every key of the first disk is one of the second. -/
theorem Plan.leaving_passes {plan : Plan} {a : Algorithm} {d d₀ d₁ d₂ : Disk} {l₁ l₂ : Location}
    {files₁ files₂ : List (List Bytes × Bytes)}
    (hclean : Run.emptyRoot {} d plan.root = (d₀, .ok ())) (htime : Unhindered (Run.limits plan) {})
    (hroot₁ : d₁.follow plan.root = .ok (l₁, .directory))
    (hroot₂ : d₂.follow plan.root = .ok (l₂, .directory))
    (hfinds₁ : d₁.Finds plan.root files₁) (hfinds₂ : d₂.Finds plan.root files₂)
    (hsome : files₁ ≠ []) (hkeys : ∀ f ∈ files₁, ∃ g ∈ files₂, key g.1 = key f.1)
    (hsame : ∀ f ∈ files₁, ∀ g ∈ files₂, key g.1 = key f.1 → g.2 = f.2) :
    (plan.verify (.leaving a d₁ d₂) d).value.1.captured = [d₁, d₂] ∧ ∃ report,
      (plan.verify (.leaving a d₁ d₂) d).value.1.outcome? = some (.pass report) ∧
        report.warnings = [] := by
  refine Plan.passes_of_keys (fun _ => rfl) a.digestsBy.filesUnderKey hclean
    ⟨⟨200, rfl⟩, Nat.zero_le _, rfl⟩ ⟨⟨200, rfl⟩, Nat.zero_le _, rfl⟩
    (fun _ => htime) (requireRoot_of_follow hroot₁) (requireRoot_of_follow hroot₂)
    (hfinds₁.allRecorded a) (hfinds₂.allRecorded a) ?_ ?_ ?_
  · obtain ⟨f, hf⟩ := List.exists_mem_of_ne_nil files₁ hsome
    exact ⟨_, _, hfinds₁.file_mem hf⟩
  · intro path names hitem
    obtain ⟨f, hf, -, rfl⟩ := hfinds₁.exists_of_file hitem
    obtain ⟨g, hg, hkey⟩ := hkeys f hf
    exact ⟨_, _, hfinds₂.file_mem hg, hkey⟩
  · intro path names path' names' r r' hitem hitem' hkey hr hr'
    obtain ⟨f, hf, rfl, rfl⟩ := hfinds₁.exists_of_file hitem
    obtain ⟨g, hg, rfl, rfl⟩ := hfinds₂.exists_of_file hitem'
    obtain ⟨modified, hopen⟩ := hfinds₁.exists_open hf
    obtain ⟨modified', hopen'⟩ := hfinds₂.exists_open hg
    obtain ⟨size, hrecord⟩ := a.fingerprint_of_open (key f.1) hopen
    obtain ⟨size', hrecord'⟩ := a.fingerprint_of_open (key g.1) hopen'
    cases hr.symm.trans hrecord
    cases hr'.symm.trans hrecord'
    rw [hsame f hf g hg hkey]

end CacheAudit
