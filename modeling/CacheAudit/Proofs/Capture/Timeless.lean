import CacheAudit.Capture.Steps
import CacheAudit.Proofs.Capture.Result
import CacheAudit.Proofs.Disk.Grown
import CacheAudit.Proofs.Snapshot.Difference

/-!
# Captures without regard to times

Two disks that hold the same at and below a place, apart from the times of the files, give captures
there that differ in nothing but times. No comparison of snapshots looks at a time.
-/

namespace CacheAudit

/-- A record without its time. -/
def FileRecord.timeless (r : FileRecord) : FileRecord :=
  { r with modifiedAt := none }

/-- A snapshot without its times. -/
def Snapshot.timeless (s : Snapshot) : Snapshot :=
  { s with capturedAt := .epoch, entries := s.entries.mapValues FileRecord.timeless }

/-- What became of a file, without times. -/
def Capture.FileResult.timeless : FileResult → FileResult
  | recorded r => recorded r.timeless
  | other => other

/-- A capture without times. -/
def Captured.timeless (c : Captured) : Captured :=
  { c with snapshot := c.snapshot.map Snapshot.timeless }

/-- What a fingerprinter makes of a file depends on nothing but the content that it reads, and the
time of the file is no more than noted. -/
def Fingerprinter.ReadsContents (fp : Fingerprinter) : Prop :=
  ∀ a d path key, a.read path = d.read path →
    (fp.fingerprint a path key).map FileRecord.timeless =
      (fp.fingerprint d path key).map FileRecord.timeless

/-- The digests in use depend on nothing but the content. -/
theorem Algorithm.readsContents (a : Algorithm) : a.fingerprinter.ReadsContents := by
  intro d d' path key h
  rw [Disk.read, Disk.read] at h
  show (a.fingerprint d path key).map _ = (a.fingerprint d' path key).map _
  rw [fingerprint, fingerprint]
  rcases hd : d.open? path with e | ⟨content, modified⟩ <;>
    rcases hd' : d'.open? path with e' | ⟨content', modified'⟩ <;>
    rw [hd, hd'] at h <;>
    simp only [Except.map, Except.ok.injEq, Except.error.injEq, reduceCtorEq] at h
  · rw [h]
  · subst h
    dsimp only
    rw [recordAt, recordAt]
    rcases a.ofReads (reads content) with e | ⟨digest, size⟩ <;> rfl

/-! ### Snapshots -/

theorem StringMap.mapValues_ofList {β γ : Type} (f : β → γ) (es : List (String × β)) :
    (ofList es).mapValues f = ofList (es.map fun e => (e.1, f e.2)) := by
  have hplace (k : String) (v : β) (entries : List (String × β)) :
      (place k (fun _ => v) entries).map (fun e => (e.1, f e.2)) =
        place k (fun _ => f v) (entries.map fun e => (e.1, f e.2)) := by
    induction entries with
    | nil => rfl
    | cons e rest ih =>
      rw [List.map_cons, place, place]
      split
      · rfl
      split
      · rfl
      · rw [List.map_cons, ih]
  have hfold (m : StringMap β) :
      (es.foldl (fun m e => m.insert e.1 e.2) m).mapValues f =
        (es.map fun e => (e.1, f e.2)).foldl (fun m e => m.insert e.1 e.2) (m.mapValues f) := by
    induction es generalizing m with
    | nil => rfl
    | cons e rest ih =>
      have hinsert : (m.insert e.1 e.2).mapValues f = (m.mapValues f).insert e.1 (f e.2) := by
        rw [mapValues, insert, insert, alter, alter]
        congr 1
        exact hplace ..
      rw [List.foldl_cons, ih, hinsert, List.map_cons, List.foldl_cons]
  exact hfold empty

namespace SnapshotDiff

theorem merge_timeless (before after : List (String × FileRecord)) :
    merge (before.map fun e => (e.1, e.2.timeless)) (after.map fun e => (e.1, e.2.timeless)) =
      merge before after := by
  fun_induction merge before after with
  | case1 after => simp [merge, List.map_map, Function.comp_def]
  | case2 before hne =>
    cases before with
    | nil => exact absurd rfl hne
    | cons e rest => simp [merge, List.map_map, Function.comp_def]
  | case3 r before p s after ih =>
    rw [List.map_cons, List.map_cons, merge, if_pos rfl, ih]
    rfl
  | case4 p r before q s after hne hlt ih =>
    rw [List.map_cons] at ih
    rw [List.map_cons, List.map_cons, merge, if_neg hne, if_pos hlt, ih]
  | case5 p r before q s after hne hlt ih =>
    rw [List.map_cons] at ih
    rw [List.map_cons, List.map_cons, merge, if_neg hne, if_neg hlt, ih]

/-- The difference of two snapshots has nothing to do with their times. -/
theorem between_timeless (before after : Snapshot) :
    between before.timeless after.timeless = between before after :=
  merge_timeless before.entries.entries after.entries.entries

end SnapshotDiff

namespace Snapshot

variable {s s' : Snapshot}

theorem paths_timeless (s : Snapshot) : s.timeless.paths = s.paths := by
  simp [paths, timeless, StringMap.keys, StringMap.mapValues]

theorem isEmpty_timeless (s : Snapshot) : s.timeless.isEmpty = s.isEmpty := by
  simp [isEmpty, timeless, StringMap.isEmpty, StringMap.mapValues]

theorem paths_eq_of_timeless (h : s.timeless = s'.timeless) : s.paths = s'.paths := by
  rw [← s.paths_timeless, h, s'.paths_timeless]

theorem isEmpty_eq_of_timeless (h : s.timeless = s'.timeless) : s.isEmpty = s'.isEmpty := by
  rw [← s.isEmpty_timeless, h, s'.isEmpty_timeless]

theorem unreadable_eq_of_timeless (h : s.timeless = s'.timeless) :
    s.unreadable = s'.unreadable := by
  show s.timeless.unreadable = s'.timeless.unreadable
  rw [h]

theorem algorithm_eq_of_timeless (h : s.timeless = s'.timeless) :
    s.algorithm = s'.algorithm := by
  show s.timeless.algorithm = s'.timeless.algorithm
  rw [h]

theorem timeless_ofRecords (root : String) (capturedAt : Timestamp) (algorithm : String)
    (records : List FileRecord) (unreadable : List String) :
    (ofRecords root capturedAt algorithm records unreadable).timeless =
      ofRecords root .epoch algorithm (records.map FileRecord.timeless) unreadable := by
  rw [ofRecords, timeless, ofRecords, StringMap.mapValues_ofList, List.map_map, List.map_map]
  rfl

end Snapshot

/-! ### Results of files -/

namespace Capture

/-- What is collected from results has no other times than theirs. -/
theorem value_collect_timeless (whenLate : Failure) (results : List FileResult) :
    (collect whenLate (results.map FileResult.timeless)).value =
      (collect whenLate results).value.map fun (records, keys) =>
        (records.map FileRecord.timeless, keys) := by
  induction results with
  | nil => rfl
  | cons result rest ih =>
    rw [List.map_cons]
    cases result with
    | recorded r =>
      simp only [FileResult.timeless, collect, Logged.value_bind, Logged.value_pure, ih]
      cases (collect whenLate rest).value <;> rfl
    | unreadable key f =>
      simp only [FileResult.timeless, collect, Logged.value_bind, Logged.value_pure, ih]
      cases (collect whenLate rest).value <;> rfl
    | failed f => rfl
    | late => rfl

/-- Files with one content are told apart by nothing but times. -/
theorem timeless_examine {fp : Fingerprinter} (hfp : fp.ReadsContents) {a d : Disk}
    {file : FoundFile} (h : a.read file.path = d.read file.path) :
    (examine a fp file).timeless = (examine d fp file).timeless := by
  have hfile := hfp a d file.path file.key h
  rw [examine, examine]
  cases ha : fp.fingerprint a file.path file.key <;>
    cases hd : fp.fingerprint d file.path file.key <;>
    rw [ha, hd] at hfile <;>
    simp only [Except.map, Except.ok.injEq, Except.error.injEq, reduceCtorEq] at hfile
  · subst hfile
    rfl
  · simp only [FileResult.timeless, hfile]

end Capture

/-- Captures that differ in nothing but times end in the same way, or with snapshots that differ in
nothing but times. -/
theorem Captured.cases_of_timeless {c c' : Captured} (h : c.timeless = c'.timeless) :
    (∃ h, c.snapshot = .error h ∧ c'.snapshot = .error h) ∨
      ∃ s s', c.snapshot = .ok s ∧ c'.snapshot = .ok s' ∧ s.timeless = s'.timeless := by
  have hsnapshot : c.snapshot.map Snapshot.timeless = c'.snapshot.map Snapshot.timeless := by
    show c.timeless.snapshot = c'.timeless.snapshot
    rw [h]
  cases hc : c.snapshot <;> cases hc' : c'.snapshot <;> rw [hc, hc'] at hsnapshot <;>
    simp only [Except.map, Except.ok.injEq, Except.error.injEq, reduceCtorEq] at hsnapshot
  · exact .inl ⟨_, rfl, congrArg _ hsnapshot.symm⟩
  · exact .inr ⟨_, _, rfl, rfl, hsnapshot⟩

end CacheAudit
