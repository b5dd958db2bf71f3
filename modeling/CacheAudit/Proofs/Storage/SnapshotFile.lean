import CacheAudit.Proofs.Snapshot.Document
import CacheAudit.Proofs.Storage.Replace

/-!
# Snapshots read back from their files

A snapshot that was saved is read back from its file: as it was if its entries are sound, and
otherwise with the complaint about the first entry that is not. This holds as long as no symbolic
link stands under the temporary name of the file and the file's path does not lead through a link
in the file's own place. A link under the temporary name takes the content elsewhere and then
becomes the file.
-/

namespace CacheAudit.Snapshot

/-- A saved snapshot is loaded again, or refused for its first entry that is not sound. -/
theorem load_of_save {s : Snapshot} {d d' : Disk} {path : Path} (hd : d.IsGrounded)
    (hsized : s.Sized) (htemporary : ¬(d.withParent path).EndsInLink path.temporary)
    (hapart : (d.withParent path).ReachedApart path) (hsave : s.save d path = (d', .ok ())) :
    (s.check = .ok () → load d' path = .ok s) ∧
      ∀ f, s.check = .error f → ∃ key r, s.FirstUnsound key r ∧
        load d' path = .error { kind := .invalidSnapshot, op := some "check_consistency"
                                path := some path.display, message := complaint key r } := by
  have hread : d'.read path = .ok s.fileContent := Disk.read_replace hd htemporary hapart hsave
  have hload : load d' path = ofContent path s.fileContent := by
    rw [load, hread]
  rw [hload, ofContent_fileContent hsized]
  constructor
  · intro hcheck
    rw [hcheck]
  · intro f hcheck
    obtain ⟨key, r, hfirst, rfl⟩ := exists_firstUnsound hcheck
    rw [hcheck]
    exact ⟨key, r, hfirst, rfl⟩

/-- A snapshot of one file, with one that could not be read. -/
def ofOneFile : Snapshot :=
  ofRecords "c" .epoch "sha256" [⟨"a\n", "00", 1, some .epoch⟩] ["b"]

/-- A disk that holds a symbolic link and nothing else. -/
def linkDisk (name target : String) : Disk where
  entries := [([Text.Utf8.ofString name], .link (.ofString target))]

theorem steps_name : Disk.steps (.ofString "s") = [Text.Utf8.ofString "s"] := by decide

theorem steps_temporaryName :
    Disk.steps (Path.ofString "s").temporary = [Text.Utf8.ofString "s.tmp"] := by decide

/-- A snapshot that is saved in the place of a link to another file is loaded again. -/
theorem load_of_save_over_link :
    load (ofOneFile.save (linkDisk "s" "o") (.ofString "s")).1 (.ofString "s") =
      .ok ofOneFile := by
  have hgrounded : (linkDisk "s" "o").IsGrounded := by decide
  have hsized : ofOneFile.Sized := by decide
  have hparent : (linkDisk "s" "o").withParent (.ofString "s") = linkDisk "s" "o" :=
    Disk.withParent_of_lone (by decide) _
  have htemporary : (linkDisk "s" "o").resolveSteps false (Path.ofString "s").temporary
      (Disk.steps (Path.ofString "s").temporary) = .ok (.free [Text.Utf8.ofString "s.tmp"]) := by
    simp +decide [steps_temporaryName, Disk.resolveSteps, Disk.lookup, Disk.entry?, linkDisk]
  have hpath : (linkDisk "s" "o").resolveSteps false (.ofString "s") (Disk.steps (.ofString "s")) =
      .ok (.found [Text.Utf8.ofString "s"] (.link (.ofString "o"))) := by
    simp +decide [steps_name, Disk.resolveSteps, Disk.lookup, Disk.entry?, linkDisk]
  have hfree : ((linkDisk "s" "o").erase [Text.Utf8.ofString "s"]).resolveSteps false
      (.ofString "s") (Disk.steps (.ofString "s")) = .ok (.free [Text.Utf8.ofString "s"]) := by
    simp +decide [steps_name, Disk.resolveSteps, Disk.lookup, Disk.entry?, linkDisk, Disk.erase]
  have hsave (content : Bytes) :
      ((linkDisk "s" "o").replace (.ofString "s") content).2 = .ok () := by
    rw [Disk.replace_of_lone (by decide)]
    simp +decide [DiskAction.runAll, DiskAction.run, Disk.write, Disk.rename, steps_temporaryName,
      steps_name, Disk.resolveSteps, Disk.lookup, Disk.entry?, linkDisk, Disk.put, pure,
      Except.pure, bind, Except.bind]
  have hcheck : ofOneFile.check = .ok () := rfl
  refine (load_of_save hgrounded hsized ?_ ?_ (Prod.ext rfl (hsave _))).1 hcheck
  · rw [hparent]
    rintro ⟨l, destination, hlink⟩
    rw [htemporary] at hlink
    cases hlink
  · rw [hparent]
    intro l destination hlink
    rw [hpath] at hlink
    cases hlink
    exact hfree

/-- A link that leads to itself leads nowhere. -/
theorem lookup_linkDisk_self (links : Nat) : (linkDisk "s" "s").lookup true links [] .directory
    [Text.Utf8.ofString "s"] = .error .tooManyLinks := by
  have hentry : Disk.entry? (linkDisk "s" "s") ([] ++ [Text.Utf8.ofString "s"]) =
      some (.link (.ofString "s")) := by decide
  induction links with
  | zero => rw [Disk.lookup_link (by decide) (by decide) (by decide) (by simp) hentry]
  | succ links ih =>
    have hsteps : Disk.strictSteps (.ofString "s") = [Text.Utf8.ofString "s"] := by decide
    rw [Disk.lookup_link (by decide) (by decide) (by decide) (by simp) hentry]
    simp only [hsteps]
    exact ih

/-- A link under the temporary name that leads to the file itself becomes the file, and nothing
can be read from it. -/
theorem load_of_save_fails :
    ofOneFile.check = .ok () ∧ ofOneFile.Sized ∧
      (ofOneFile.save (linkDisk "s.tmp" "s") (.ofString "s")).2 = .ok () ∧
      load (ofOneFile.save (linkDisk "s.tmp" "s") (.ofString "s")).1 (.ofString "s") =
        .error { kind := .io, op := some "load_snapshot", path := some "s"
                 message := "Too many levels of symbolic links (os error 40)" } := by
  have hsave (content : Bytes) : (linkDisk "s.tmp" "s").replace (.ofString "s") content =
      (linkDisk "s" "s", .ok ()) := by
    have hstrict : Disk.strictSteps (.ofString "s") = [Text.Utf8.ofString "s"] := by decide
    rw [Disk.replace_of_lone (by decide)]
    simp +decide [DiskAction.runAll, DiskAction.run, Disk.write, Disk.rename, Disk.moveTree,
      Disk.eraseTree, steps_temporaryName, steps_name, hstrict, Disk.resolveSteps, Disk.lookup,
      Disk.linkLimit, Disk.entry?, linkDisk, Disk.put, pure, Except.pure, bind, Except.bind]
  have hload : load (linkDisk "s" "s") (.ofString "s") =
      .error { kind := .io, op := some "load_snapshot", path := some "s"
               message := "Too many levels of symbolic links (os error 40)" } := by
    have hresolve : (linkDisk "s" "s").resolve (.ofString "s") = .error .tooManyLinks := by
      rw [Disk.resolve, Disk.resolveSteps, if_neg (by decide), if_neg (by decide)]
      exact lookup_linkDisk_self Disk.linkLimit
    rw [load, Disk.read, Disk.open?, Disk.follow, hresolve]
    rfl
  have hcheck : ofOneFile.check = .ok () := rfl
  rw [save, hsave]
  exact ⟨hcheck, by decide, rfl, hload⟩

end CacheAudit.Snapshot
