import CacheAudit.Proofs.Capture.Contents
import CacheAudit.Proofs.Verification.Success

/-!
# What a clean pass promises

A run that passes without warnings has found, for every key that its first capture recorded, the
same digest under that key at its second capture. A file is known by its key alone, so the file
itself is sure to be kept only if no other place shares its key. Text without U+FFFD is never
shared; any other key is.
-/

namespace CacheAudit

open Capture
open WalkItem (key)

/-- A snapshot was taken of the tree below `l`, as a walk from `root` listed it. -/
structure Snapshot.TakenOf (s : Snapshot) (d : Disk) (fp : Fingerprinter) (root : Path)
    (l : Location) (items : List WalkItem) : Prop where
  tree : d.IsTree
  leads : d.follow root = .ok (l, .directory)
  lists : d.Lists root l items
  result : untimed d fp root items = .ok s

section Captures

variable {d : Disk} {fp : Fingerprinter} {root : Path} {l : Location} {items : List WalkItem}
  {s : Snapshot} {digest : Bytes → String}

/-- A capture of a tree whose file operations tell the truth takes a snapshot of it. -/
theorem exists_takenOf_of_capture {limits : CaptureLimits} {around : Surroundings}
    (htree : d.IsTree) (haround : around.files.Truthful d root)
    (h : (capture d fp limits around root).value.snapshot = .ok s) :
    ∃ l, s.TakenOf d fp root l (around.files.walk d root) := by
  obtain ⟨hroot, hresult⟩ := capture_eq_ok h
  have hleads : ∃ l, d.follow root = .ok (l, .directory) := by
    rw [requireRoot, haround.follow] at hroot
    split at hroot
    · rename_i l hfollow
      exact ⟨l, hfollow⟩
    all_goals cases hroot
  obtain ⟨l, hleads⟩ := hleads
  exact ⟨l, htree, hleads, haround.lists l hleads, hresult⟩

namespace Snapshot.TakenOf

/-- The record under a key has the digest of a file with that key. -/
theorem exists_file (h : s.TakenOf d fp root l items) (hfp : fp.DigestsBy digest) {k : String}
    {r : FileRecord} (hr : s.get? k = some r) :
    ∃ names content modified, names ≠ [] ∧
      d.entry? (l ++ names) = some (.file content modified) ∧ key names = k ∧
      r.contentHash = digest content := by
  obtain ⟨path, names, hitem, rfl, hfile⟩ := exists_file_of_get? h.result hfp.filesUnderKey hr
  obtain ⟨rfl, hne, content, modified, hentry⟩ := h.lists.files _ _ hitem
  obtain ⟨-, content', modified', hopen, hdigest⟩ := hfp _ _ _ _ hfile
  refine ⟨names, content, modified, hne, hentry, rfl, ?_⟩
  rcases Disk.open?_descend h.tree h.leads hne hentry with hopen' | hlong
  · cases hopen.symm.trans hopen'
    exact hdigest
  · cases hopen.symm.trans hlong

/-- A file of the tree has a record under its key, unless something could not be read or the walk
failed in a way that leaves no key. -/
theorem exists_record (h : s.TakenOf d fp root l items) (hfp : fp.DigestsBy digest)
    (hread : ∀ k, k ∉ s.unreadable) (hwalk : ∀ item ∈ items, ¬item.Keyless) {names : List Bytes}
    (hne : names ≠ []) (hfile : d.IsFile (l ++ names)) : ∃ r, s.get? (key names) = some r := by
  rcases h.lists.complete names hne hfile with hitem | ⟨place, e, hitem, hhides⟩
  · cases hresult : fp.fingerprint d (root.descend names) (key names) with
    | ok r => exact exists_get?_of_file h.result hfp.filesUnderKey hitem hresult
    | error f =>
      have hunreadable := (mem_unreadable h.result).2 (.inr ⟨_, names, f, hitem, rfl, hresult⟩)
      exact absurd hunreadable (hread _)
  · have hkeyed : ∃ path above, place = some (path, above) ∧ above ≠ [] := by
      by_contra hnone
      refine hwalk _ hitem ⟨place, e, rfl, fun path above hplace => ?_⟩
      by_contra habove
      exact hnone ⟨path, above, hplace, habove⟩
    obtain ⟨path, above, rfl, habove⟩ := hkeyed
    obtain ⟨hnil | ⟨entry, hentry⟩, -⟩ := h.lists.failures _ _ _ hitem
    · exact absurd hnil habove
    have hkey : key above ≠ "" := WalkItem.key_ne_empty habove (h.tree.proper_of_entry? hentry)
    exact absurd ((mem_unreadable h.result).2 (.inl ⟨_, e, hitem, hkey, rfl⟩)) (hread _)

end Snapshot.TakenOf

end Captures

section Runs

variable {plan : Plan} {s : Setting} {d : Disk} {algorithm : String} {report : VerificationReport}

/-- A move that is no capture has neither a disk nor a snapshot. -/
theorem Played.other_at {moves : List Move} {d' : Disk} (h : Played plan s d moves d') {i : Nat}
    {m : Move} (hm : moves[i]? = some m) (haction : m.action ≠ .capture) :
    m.deed.disk? = .none ∧ m.deed.snapshot? = .none := by
  obtain ⟨d₁, d₂, hbrings⟩ := h.brings_at hm
  obtain ⟨phase, action, deed⟩ := m
  cases hbrings with
  | capture => exact absurd rfl haction
  | _ => exact ⟨rfl, rfl⟩

/-- A move that is a capture met what the setting has in store for its number. -/
theorem Played.capture_at {moves : List Move} {d' : Disk} (h : Played plan s d moves d') {i : Nat}
    {m : Move} (hm : moves[i]? = some m) (haction : m.action = .capture) :
    ∃ d₁ given, m.deed = .capture d₁ (capture d₁ (s.fingerprinter given)
      ⟨plan.workers, some plan.captureTimeout⟩ (s.around i) plan.root).value := by
  obtain ⟨d₁, d₂, hbrings⟩ := h.brings_at hm
  have hi : ((moves.take i).map Move.deed).length = i := by
    have hlt := (List.getElem?_eq_some_iff.1 hm).1
    rw [List.length_map, List.length_take]
    omega
  obtain ⟨phase, action, deed⟩ := m
  subst haction
  cases hbrings
  rw [hi]
  exact ⟨d₁, _, rfl⟩

/-- Moves that make up a whole course have captured twice, and took no other snapshots. -/
theorem Played.captures_of_course {moves : List Move} {d' : Disk} (h : Played plan s d moves d')
    (hcourse : moves.map Move.place = plan.course s) :
    ∃ (deed₁ deed₂ : Deed) (d₁ d₂ : Disk) (given₁ given₂ : List (List String)),
      ⟨.captureBefore, .capture, deed₁⟩ ∈ moves ∧
      deed₁ = .capture d₁ (capture d₁ (s.fingerprinter given₁)
        ⟨plan.workers, some plan.captureTimeout⟩ (s.around 3) plan.root).value ∧
      deed₂ = .capture d₂ (capture d₂ (s.fingerprinter given₂)
        ⟨plan.workers, some plan.captureTimeout⟩ (s.around 6) plan.root).value ∧
      (moves.map Move.deed).filterMap Deed.disk? = [d₁, d₂] ∧
      snapshots moves = deed₁.snapshot?.toList ++ deed₂.snapshot?.toList := by
  -- the course names the actions of the eight moves, and the play tells what each came to
  simp only [Plan.course, List.map_eq_cons_iff, List.map_eq_nil_iff] at hcourse
  obtain ⟨m₀, _, rfl, h₀, m₁, _, rfl, h₁, m₂, _, rfl, h₂, m₃, _, rfl, h₃, m₄, _, rfl, h₄,
    m₅, _, rfl, h₅, m₆, _, rfl, h₆, m₇, _, rfl, h₇, rfl⟩ := hcourse
  have hother {i : Nat} {m : Move} {action : Action}
      (hm : [m₀, m₁, m₂, m₃, m₄, m₅, m₆, m₇][i]? = some m) (haction : m.action = action)
      (hne : action ≠ .capture) : m.deed.disk? = .none ∧ m.deed.snapshot? = .none :=
    h.other_at hm (haction ▸ hne)
  have hclean := hother (i := 0) rfl (congrArg Prod.snd h₀) nofun
  have hfirst := hother (i := 1) rfl (congrArg Prod.snd h₁) nofun
  have hwait := hother (i := 2) rfl (congrArg Prod.snd h₂) nofun
  have hsecond := hother (i := 4) rfl (congrArg Prod.snd h₄) nofun
  have hwait' := hother (i := 5) rfl (congrArg Prod.snd h₅) nofun
  have hcompare := hother (i := 7) rfl (congrArg Prod.snd h₇) nofun
  obtain ⟨d₁, given₁, hbefore⟩ := h.capture_at (i := 3) rfl (congrArg Prod.snd h₃)
  obtain ⟨d₂, given₂, hafter⟩ := h.capture_at (i := 6) rfl (congrArg Prod.snd h₆)
  have hmove : ⟨.captureBefore, .capture, m₃.deed⟩ = m₃ := by
    obtain ⟨phase, action, deed⟩ := m₃
    cases h₃
    rfl
  refine ⟨m₃.deed, m₆.deed, d₁, d₂, given₁, given₂, by rw [hmove]; simp, hbefore, hafter, ?_, ?_⟩
  · have hd₁ : m₃.deed.disk? = some d₁ := by rw [hbefore, Deed.disk?]
    have hd₂ : m₆.deed.disk? = some d₂ := by rw [hafter, Deed.disk?]
    simp [hclean, hfirst, hwait, hd₁, hsecond, hwait', hd₂, hcompare]
  · simp only [snapshots, List.map_cons, List.map_nil, List.filterMap_cons, List.filterMap_nil,
      hclean, hfirst, hwait, hsecond, hwait', hcompare]
    cases m₃.deed.snapshot? <;> cases m₆.deed.snapshot? <;> rfl

/-- No move of a run with a report has failed. -/
theorem Account.fine_of_report {moves : List Move} {outcome : Outcome}
    (haccount : Account plan s d moves outcome) (hreport : outcome.report? = some report) :
    ∀ m ∈ moves, m.errorCode? plan = none := by
  intro m hm
  by_contra hfailed
  obtain ⟨run, rfl⟩ := haccount.aborted_iff.2 ⟨m, hm, hfailed⟩
  cases hreport

/-- A run that accounts for an outcome with a report has captured twice, and the report tells of its
two snapshots. -/
theorem Account.captures_of_report {moves : List Move} {outcome : Outcome} {r : Run}
    (haccount : Account plan s d moves outcome) (hdeeds : r.deeds = moves.map Move.deed)
    (hreport : outcome.report? = some report) :
    ∃ d₁ d₂ given₁ given₂ limits before after, r.captured = [d₁, d₂] ∧
      r.deeds.filterMap Deed.snapshot? = [before, after] ∧
      (capture d₁ (s.fingerprinter given₁) limits (s.around 3) plan.root).value.snapshot =
        .ok before ∧
      (capture d₂ (s.fingerprinter given₂) limits (s.around 6) plan.root).value.snapshot =
        .ok after ∧
      ((∃ r, outcome = .pass r) ↔ ∀ p ∈ before.paths, before.AgreesAt after p) ∧
      report.warnings = Run.warnings before after := by
  obtain ⟨hcourse, before, after, htaken, hverdict, -⟩ :=
    haccount.verdict (haccount.fine_of_report hreport)
  obtain ⟨before', after', htaken', -, -, -, hwarnings⟩ := haccount.report report hreport
  cases htaken.symm.trans htaken'
  obtain ⟨d', hplayed⟩ := haccount.played
  obtain ⟨deed₁, deed₂, d₁, d₂, given₁, given₂, -, hdeed₁, hdeed₂, hcaptured, hsnapshots⟩ :=
    hplayed.captures_of_course hcourse
  have hboth : deed₁.snapshot? = some before ∧ deed₂.snapshot? = some after := by
    rw [htaken] at hsnapshots
    cases hx : deed₁.snapshot? <;> cases hy : deed₂.snapshot? <;> simp_all
  rw [hdeed₁, hdeed₂, Deed.snapshot?_capture, Deed.snapshot?_capture] at hboth
  refine ⟨d₁, d₂, given₁, given₂, _, before, after, ?_, hdeeds ▸ htaken, hboth.1, hboth.2,
    hverdict, hwarnings⟩
  rw [Run.captured, hdeeds, hcaptured]

/-- A run that passes has captured twice, with snapshots that agree on all paths of the first. -/
theorem Plan.captures_of_pass (hs : s.Identifies algorithm)
    (hpass : (plan.verify s d).value.1.outcome? = some (.pass report)) :
    ∃ d₁ d₂ given₁ given₂ limits before after, (plan.verify s d).value.1.captured = [d₁, d₂] ∧
      (capture d₁ (s.fingerprinter given₁) limits (s.around 3) plan.root).value.snapshot =
        .ok before ∧
      (capture d₂ (s.fingerprinter given₂) limits (s.around 6) plan.root).value.snapshot =
        .ok after ∧
      (∀ p ∈ before.paths, before.AgreesAt after p) ∧
      report.warnings = Run.warnings before after := by
  obtain ⟨moves, hdeeds, haccount⟩ := Plan.account_of_outcome hs hpass
  obtain ⟨d₁, d₂, given₁, given₂, limits, before, after, hcaptured, -, hbefore, hafter, hverdict,
    hwarnings⟩ := haccount.captures_of_report hdeeds rfl
  exact ⟨d₁, d₂, given₁, given₂, limits, before, after, hcaptured, hbefore, hafter,
    hverdict.1 ⟨report, rfl⟩, hwarnings⟩

/-- Suppose that a run passes without warnings, that the file operations told the truth about the
two trees it captured, and that records carry digests of contents. Then a file of the first tree is
in the second one, in the same place and with the same digest, provided no other file of the two
trees has its key and the first walk did not fail in a way that leaves no key. The key of a file can
belong to no other place exactly when it is free of U+FFFD. -/
theorem Plan.clean_pass_keeps_files (plan : Plan) (s : Setting) (d : Disk)
    {digest : Bytes → String} (hs : s.Identifies algorithm)
    (hfp : ∀ given, (s.fingerprinter given).DigestsBy digest)
    (htrees : ∀ d' ∈ (plan.verify s d).value.1.captured, d'.IsTree)
    (haccess : ∀ i, ∀ d' ∈ (plan.verify s d).value.1.captured,
      (s.around i).files.Truthful d' plan.root)
    (hpass : (plan.verify s d).value.1.outcome? = some (.pass report))
    (hclean : report.warnings = []) :
    ∃ d₁ d₂ l₁ l₂, (plan.verify s d).value.1.captured = [d₁, d₂] ∧
      d₁.follow plan.root = .ok (l₁, .directory) ∧ d₂.follow plan.root = .ok (l₂, .directory) ∧
      ∀ names content modified, names ≠ [] →
        d₁.entry? (l₁ ++ names) = some (.file content modified) →
        ((∀ item ∈ (s.around 3).files.walk d₁ plan.root, ¬item.Keyless) →
          (∀ names', d₁.IsFile (l₁ ++ names') ∨ d₂.IsFile (l₂ ++ names') →
            key names' = key names → names' = names) →
          ∃ content' modified', d₂.entry? (l₂ ++ names) = some (.file content' modified') ∧
            digest content' = digest content) ∧
        ((∀ names', (∀ n ∈ names', ProperName n) → key names' = key names → names' = names) ↔
          Text.Utf8.replacement ∉ (key names).toList) := by
  obtain ⟨d₁, d₂, given₁, given₂, limits, before, after, hcaptured, hbefore, hafter, hagrees,
    hwarnings⟩ := Plan.captures_of_pass hs hpass
  rw [hcaptured] at htrees haccess
  obtain ⟨l₁, htaken₁⟩ :=
    exists_takenOf_of_capture (htrees d₁ (by simp)) (haccess 3 d₁ (by simp)) hbefore
  obtain ⟨l₂, htaken₂⟩ :=
    exists_takenOf_of_capture (htrees d₂ (by simp)) (haccess 6 d₂ (by simp)) hafter
  have hread : ∀ k, k ∉ before.unreadable := by
    intro k hk
    rw [hclean, Run.warnings, eq_comm, List.append_eq_nil_iff, List.map_eq_nil_iff] at hwarnings
    have hmem := StringSet.mem_toList.2 hk
    rw [hwarnings.1] at hmem
    cases hmem
  refine ⟨d₁, d₂, l₁, l₂, hcaptured, htaken₁.leads, htaken₂.leads, ?_⟩
  intro names content modified hne hfile
  refine ⟨fun hwalk hunshared => ?_, ?_⟩
  · obtain ⟨r, hr⟩ :=
      htaken₁.exists_record (hfp given₁) hread hwalk hne ⟨content, modified, hfile⟩
    obtain ⟨r₁, r₂, hr₁, hr₂, hsame⟩ := hagrees _ (Snapshot.mem_paths.2 ⟨r, hr⟩)
    obtain ⟨names₁, content₁, modified₁, -, hfile₁, hkey₁, hdigest₁⟩ :=
      htaken₁.exists_file (hfp given₁) hr₁
    obtain ⟨names₂, content₂, modified₂, -, hfile₂, hkey₂, hdigest₂⟩ :=
      htaken₂.exists_file (hfp given₂) hr₂
    cases hunshared names₁ (.inl ⟨_, _, hfile₁⟩) hkey₁
    cases hunshared names₂ (.inr ⟨_, _, hfile₂⟩) hkey₂
    cases hfile.symm.trans hfile₁
    exact ⟨content₂, modified₂, hfile₂, by rw [← hdigest₂, ← hsame, hdigest₁]⟩
  · exact WalkItem.unshared_iff (htaken₁.tree.proper_of_entry? hfile)

/-- A file with a plain name is kept. -/
theorem Plan.clean_pass_keeps_plain_file :
    let d₁ : Disk := { entries := [([[99]], .directory), ([[99], [97]], .file [65] .epoch)] }
    let d₂ : Disk := { entries := [([[99]], .directory), ([[99], [98]], .file [66] .epoch),
      ([[99], [97]], .file [65] .epoch)] }
    let plan : Plan := ⟨⟨[99]⟩, .null, .null, "", "", .ofMillis 0, .ofMillis 1000, .ofMillis 1000,
      1, false⟩
    let s : Setting := .leaving .sha256 d₁ d₂
    (s.Identifies "sha256" ∧
      (∀ given, (s.fingerprinter given).DigestsBy Algorithm.sha256.contentHash) ∧
      (∀ d ∈ (plan.verify s {}).value.1.captured, d.IsTree) ∧
      (∀ i, ∀ d ∈ (plan.verify s {}).value.1.captured, (s.around i).files.Truthful d plan.root) ∧
      ∃ report, (plan.verify s {}).value.1.outcome? = some (.pass report) ∧
        report.warnings = []) ∧
    ∃ content' modified', d₂.entry? ([[99]] ++ [[97]]) = some (.file content' modified') ∧
      Algorithm.sha256.contentHash content' = Algorithm.sha256.contentHash [65] := by
  intro d₁ d₂ plan s
  have htree₁ : d₁.IsTree := by decide
  have htree₂ : d₂.IsTree := by decide
  have hroot₁ : d₁.follow plan.root = .ok ([[99]], .directory) := by cbv
  have hroot₂ : d₂.follow plan.root = .ok ([[99]], .directory) := by cbv
  have hclean : Run.emptyRoot {} {} plan.root =
      ({ entries := [([[99]], .directory)] }, .ok ()) := by cbv
  have hfinds₁ : d₁.Finds plan.root [([[97]], [65])] := by
    have hwalk : d₁.walk plan.root = [.other, .file ⟨[99, 47, 97]⟩ [[97]]] := by cbv
    refine ⟨htree₁, by rw [hwalk]; decide, by rw [hwalk]; decide, ?_⟩
    rw [List.forall_mem_singleton]
    cbv
  have hfinds₂ : d₂.Finds plan.root [([[98]], [66]), ([[97]], [65])] := by
    have hwalk : d₂.walk plan.root =
        [.other, .file ⟨[99, 47, 98]⟩ [[98]], .file ⟨[99, 47, 97]⟩ [[97]]] := by cbv
    refine ⟨htree₂, by rw [hwalk]; decide, by rw [hwalk]; decide, ?_⟩
    rw [List.forall_mem_cons, List.forall_mem_singleton]
    exact ⟨by cbv, by cbv⟩
  have hpasses := Plan.leaving_passes (a := .sha256) hclean
    (unhindered_of_still (by decide) (by decide)) hroot₁ hroot₂ hfinds₁ hfinds₂
    (by decide) (by decide) (by decide)
  obtain ⟨hcaptured, report, hpass, hwarnings⟩ := hpasses
  have hs : s.Identifies "sha256" := fun _ => rfl
  have hfp : ∀ given, (s.fingerprinter given).DigestsBy Algorithm.sha256.contentHash :=
    fun _ => Algorithm.sha256.digestsBy
  have htrees : ∀ d ∈ (plan.verify s {}).value.1.captured, d.IsTree := by
    rw [hcaptured]
    simp [htree₁, htree₂]
  have haccess : ∀ i, ∀ d ∈ (plan.verify s {}).value.1.captured,
      (s.around i).files.Truthful d plan.root :=
    fun i d hd => FileAccess.truthful (htrees d hd) plan.root
  refine ⟨⟨hs, hfp, htrees, haccess, report, hpass, hwarnings⟩, ?_⟩
  obtain ⟨d₁', d₂', l₁, l₂, hcaptured', hleads₁, hleads₂, hkept⟩ :=
    plan.clean_pass_keeps_files s {} hs hfp htrees haccess hpass hwarnings
  cases hcaptured.symm.trans hcaptured'
  cases hroot₁.symm.trans hleads₁
  cases hroot₂.symm.trans hleads₂
  obtain ⟨hkept, hown⟩ := hkept [[97]] [65] .epoch (by decide) rfl
  have hwalk : (s.around 3).files.walk d₁ plan.root = d₁.walk plan.root := hfinds₁.walk_eq
  refine hkept (by rw [hwalk]; exact Disk.not_keyless_of_mem_walk htree₁ hroot₁) ?_
  intro names' hfile heq
  refine hown.2 (by decide) names' ?_ heq
  rcases hfile with ⟨_, _, hfile⟩ | ⟨_, _, hfile⟩
  · exact htree₁.proper_of_entry? hfile
  · exact htree₂.proper_of_entry? hfile

/-- A file whose name is the byte FF disappears between the captures, and the run passes without
warnings, as a file whose name is the byte FE has the same key. -/
theorem Plan.clean_pass_loses_file :
    let d₁ : Disk := { entries := [([[99]], .directory), ([[99], [0xFF]], .file [65] .epoch),
      ([[99], [0xFE]], .file [65] .epoch)] }
    let d₂ : Disk := { entries := [([[99]], .directory), ([[99], [0xFE]], .file [65] .epoch)] }
    let plan : Plan := ⟨⟨[99]⟩, .null, .null, "", "", .ofMillis 0, .ofMillis 1000, .ofMillis 1000,
      1, false⟩
    let s : Setting := .leaving .sha256 d₁ d₂
    (s.Identifies "sha256" ∧
      (∀ given, (s.fingerprinter given).DigestsBy Algorithm.sha256.contentHash) ∧
      (plan.verify s {}).value.1.captured = [d₁, d₂] ∧ d₁.IsTree ∧ d₂.IsTree ∧
      ∀ i, ∀ d ∈ [d₁, d₂], (s.around i).files.Truthful d plan.root) ∧
    (∃ report, (plan.verify s {}).value.1.outcome? = some (.pass report) ∧ report.warnings = []) ∧
    d₁.follow plan.root = .ok ([[99]], .directory) ∧
    d₂.follow plan.root = .ok ([[99]], .directory) ∧
    d₁.entry? ([[99]] ++ [[0xFF]]) = some (.file [65] .epoch) ∧
    d₂.entry? ([[99]] ++ [[0xFF]]) = none := by
  intro d₁ d₂ plan s
  have htree₁ : d₁.IsTree := by decide
  have htree₂ : d₂.IsTree := by decide
  have hroot₁ : d₁.follow plan.root = .ok ([[99]], .directory) := by cbv
  have hroot₂ : d₂.follow plan.root = .ok ([[99]], .directory) := by cbv
  have hclean : Run.emptyRoot {} {} plan.root =
      ({ entries := [([[99]], .directory)] }, .ok ()) := by cbv
  have hfinds₁ : d₁.Finds plan.root [([[0xFF]], [65]), ([[0xFE]], [65])] := by
    have hwalk : d₁.walk plan.root =
        [.other, .file ⟨[99, 47, 0xFF]⟩ [[0xFF]], .file ⟨[99, 47, 0xFE]⟩ [[0xFE]]] := by cbv
    refine ⟨htree₁, by rw [hwalk]; decide, by rw [hwalk]; decide, ?_⟩
    rw [List.forall_mem_cons, List.forall_mem_singleton]
    exact ⟨by cbv, by cbv⟩
  have hfinds₂ : d₂.Finds plan.root [([[0xFE]], [65])] := by
    have hwalk : d₂.walk plan.root = [.other, .file ⟨[99, 47, 0xFE]⟩ [[0xFE]]] := by cbv
    refine ⟨htree₂, by rw [hwalk]; decide, by rw [hwalk]; decide, ?_⟩
    rw [List.forall_mem_singleton]
    cbv
  have hpasses := Plan.leaving_passes (a := .sha256) hclean
    (unhindered_of_still (by decide) (by decide)) hroot₁ hroot₂ hfinds₁ hfinds₂
    (by decide) (by decide) (by decide)
  obtain ⟨hcaptured, hpass⟩ := hpasses
  refine ⟨⟨fun _ => rfl, fun _ => Algorithm.sha256.digestsBy, hcaptured, htree₁, htree₂, ?_⟩,
    hpass, hroot₁, hroot₂, rfl, rfl⟩
  intro i d hd
  have htree : d.IsTree := by
    rcases List.mem_pair.1 hd with rfl | rfl
    · exact htree₁
    · exact htree₂
  exact FileAccess.truthful htree plan.root

end Runs

end CacheAudit
