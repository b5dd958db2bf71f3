import CacheAudit.Proofs.Capture.Fingerprints
import CacheAudit.Proofs.Capture.Result
import CacheAudit.Proofs.Disk.Listing

/-!
# What the snapshot of a tree holds

When all names below the root are text, no two places share a key, so each file keeps its record and
is told apart from what could not be read. The snapshot is then settled by what the walk lists, and
neither its order nor the workers have a part in it.
-/

namespace CacheAudit

open Capture
open WalkItem (key)

/-- All names below a place are text. -/
def Disk.Utf8Below (d : Disk) (l : Location) : Prop :=
  ∀ names e, d.entry? (l ++ names) = some e → ∀ n ∈ names, IsUtf8 n

theorem Disk.utf8Below_of_entries {d : Disk} (h : ∀ e ∈ d.entries, ∀ n ∈ e.1, IsUtf8 n)
    (l : Location) : d.Utf8Below l := by
  intro names e he n hn
  have hne : l ++ names ≠ [] := List.append_ne_nil_of_right_ne_nil _ (List.ne_nil_of_mem hn)
  exact h _ (mem_entries hne he) n (List.mem_append_right _ hn)

/-- No file of a walk fails in a way that ends the capture. -/
def Capture.Bearable (d : Disk) (fp : Fingerprinter) (items : List WalkItem) : Prop :=
  ∀ path names, .file path names ∈ items → ∀ f, fp.fingerprint d path (key names) = .error f →
    f.kind = .fileUnreadable

/-- The files that a walk from `root` visited below `l`. -/
def Capture.Visited (d : Disk) (root : Path) (l : Location) (visits : List Visit)
    (names : List Bytes) : Prop :=
  d.IsFile (l ++ names) ∧ .file (root.descend names) ∈ visits

/-- What a snapshot tells of a tree below `l` of which a walk from `root` told by its visits. -/
structure Snapshot.Describes (d : Disk) (root : Path) (l : Location) (fp : Fingerprinter)
    (visits : List Visit) (s : Snapshot) : Prop where
  /-- The entries are the files that were fingerprinted, each with its own record. -/
  entries : ∀ k r, s.get? k = some r ↔ ∃ names, Visited d root l visits names ∧
    k = key names ∧ fp.fingerprint d (root.descend names) k = .ok r
  /-- Unreadable are the files that failed and the places below the root at which the walk did. -/
  unreadable : ∀ k, k ∈ s.unreadable ↔
    (∃ names f, Visited d root l visits names ∧ k = key names ∧
      fp.fingerprint d (root.descend names) k = .error f) ∨
    ∃ names entry e, names ≠ [] ∧ d.entry? (l ++ names) = some entry ∧
      .failed (some (root.descend names)) e ∈ visits ∧ k = key names
  /-- Links and directories are no entries. -/
  filesOnly : ∀ names e, d.entry? (l ++ names) = some e → key names ∈ s.paths →
    d.IsFile (l ++ names)
  /-- Different places have different keys. -/
  unshared : ∀ names names' e e', d.entry? (l ++ names) = some e →
    d.entry? (l ++ names') = some e' → key names = key names' → names = names'
  /-- Nothing is an entry and unreadable. -/
  disjoint : ∀ k ∈ s.paths, k ∉ s.unreadable
  /-- Every file is an entry or unreadable, unless it lies below a place where the walk failed. -/
  complete : ∀ names, names ≠ [] → d.IsFile (l ++ names) →
    key names ∈ s.paths ∨ key names ∈ s.unreadable ∨ ∃ visit ∈ visits, visit.Hides root names

/-- The digests in use fail in no other way than by leaving a file unreadable. -/
theorem Algorithm.bearable (a : Algorithm) (d : Disk) (items : List WalkItem) :
    Capture.Bearable d a.fingerprinter items :=
  fun _ _ _ _ h => Algorithm.fingerprint_eq_error h

/-- No file that a walk visited fails in a way that ends the capture. -/
def Capture.AllBearable (d : Disk) (fp : Fingerprinter) (root : Path) (l : Location)
    (visits : List Visit) : Prop :=
  ∀ names, Visited d root l visits names →
    ∀ f, fp.fingerprint d (root.descend names) (key names) = .error f → f.kind = .fileUnreadable

section Items

variable {d : Disk} {fp : Fingerprinter} {root : Path} {items : List WalkItem}

theorem Capture.mem_found {file : FoundFile} :
    file ∈ items.filterMap WalkItem.found? ↔
      ∃ path names, .file path names ∈ items ∧ file = ⟨path, key names⟩ := by
  rw [List.mem_filterMap]
  constructor
  · rintro ⟨item, hitem, hfound⟩
    cases item with
    | file path names => exact ⟨path, names, hitem, (Option.some.inj hfound).symm⟩
    | other => cases hfound
    | failed place e => cases hfound
  · rintro ⟨path, names, hitem, rfl⟩
    exact ⟨_, hitem, rfl⟩

theorem FoundFile.record?_eq_some {file : FoundFile} {r : FileRecord} :
    file.record? d fp = some r ↔ fp.fingerprint d file.path file.key = .ok r := by
  unfold FoundFile.record?
  cases fp.fingerprint d file.path file.key <;> simp

theorem FoundFile.unreadable?_eq_some {file : FoundFile} {k : String} :
    file.unreadable? d fp = some k ↔
      ∃ f, fp.fingerprint d file.path file.key = .error f ∧ f.kind = .fileUnreadable ∧
        file.key = k := by
  unfold FoundFile.unreadable?
  cases fp.fingerprint d file.path file.key with
  | ok r => simp
  | error f => by_cases hkind : f.kind = .fileUnreadable <;> simp [hkind]

theorem FoundFile.failure?_eq_some {file : FoundFile} {f : Failure} :
    file.failure? d fp = some f ↔
      fp.fingerprint d file.path file.key = .error f ∧ f.kind ≠ .fileUnreadable := by
  unfold FoundFile.failure?
  cases fp.fingerprint d file.path file.key with
  | ok r => simp
  | error g =>
    by_cases hkind : g.kind = .fileUnreadable
    · simp only [hkind, if_true, reduceCtorEq, Except.error.injEq, false_iff, not_and, not_not]
      rintro rfl
      exact hkind
    · simp only [hkind, if_false, Option.some.injEq, Except.error.injEq]
      exact ⟨fun heq => ⟨heq, heq ▸ hkind⟩, And.left⟩

theorem Capture.findSome?_of_bearable (h : Bearable d fp items) :
    (items.filterMap WalkItem.found?).findSome? (FoundFile.failure? d fp) = none := by
  rw [List.findSome?_eq_none_iff]
  intro file hfile
  obtain ⟨path, names, hitem, rfl⟩ := mem_found.1 hfile
  rw [Option.eq_none_iff_forall_ne_some]
  intro f hf
  obtain ⟨herror, hkind⟩ := FoundFile.failure?_eq_some.1 hf
  exact hkind (h path names hitem f herror)

theorem Capture.bearable_of_findSome?
    (h : (items.filterMap WalkItem.found?).findSome? (FoundFile.failure? d fp) = none) :
    Bearable d fp items := by
  rw [List.findSome?_eq_none_iff] at h
  intro path names hitem f hf
  by_contra hkind
  have hnone := h ⟨path, key names⟩ (mem_found.2 ⟨path, names, hitem, rfl⟩)
  have hfailure : FoundFile.failure? d fp ⟨path, key names⟩ = some f :=
    FoundFile.failure?_eq_some.2 ⟨hf, hkind⟩
  cases hnone.symm.trans hfailure

/-- A capture gives a snapshot when no failure ends it, namely that of the records and the
unreadable keys. -/
theorem Capture.untimed_eq_ok_iff {s : Snapshot} : untimed d fp root items = .ok s ↔
    Bearable d fp items ∧ s = .ofRecords root.display d.now fp.algorithm
      ((items.filterMap WalkItem.found?).filterMap (FoundFile.record? d fp))
      (items.filterMap WalkItem.unreadableKey? ++
        (items.filterMap WalkItem.found?).filterMap (FoundFile.unreadable? d fp)) := by
  simp only [untimed]
  constructor
  · intro h
    split at h
    · cases h
    · rename_i hnone
      cases h
      exact ⟨bearable_of_findSome? hnone, rfl⟩
  · rintro ⟨hbearable, rfl⟩
    rw [findSome?_of_bearable hbearable]

/-- The first file of a walk that fails unbearably ends the capture. -/
theorem Capture.untimed_of_failure {before after : List WalkItem} {path : Path}
    {names : List Bytes} {f : Failure} (hitems : items = before ++ .file path names :: after)
    (hfile : fp.fingerprint d path (key names) = .error f) (hkind : f.kind ≠ .fileUnreadable)
    (hbefore : Bearable d fp before) : untimed d fp root items = .error f := by
  have hcons : (.file path names :: after).filterMap WalkItem.found? =
      ⟨path, key names⟩ :: after.filterMap WalkItem.found? := rfl
  have hfailure : FoundFile.failure? d fp ⟨path, key names⟩ = some f :=
    FoundFile.failure?_eq_some.2 ⟨hfile, hkind⟩
  have hfirst : (items.filterMap WalkItem.found?).findSome? (FoundFile.failure? d fp) = some f := by
    rw [hitems, List.filterMap_append, List.findSome?_append, findSome?_of_bearable hbefore,
      Option.none_or, hcons, List.findSome?_cons, hfailure]
  simp only [untimed, hfirst]

theorem Capture.bearable_cons {item : WalkItem} :
    Bearable d fp (item :: items) ↔ Bearable d fp [item] ∧ Bearable d fp items := by
  simp only [Bearable, List.mem_cons, List.not_mem_nil, or_false]
  constructor
  · intro h
    exact ⟨fun path names hitem => h path names (.inl hitem),
      fun path names hitem => h path names (.inr hitem)⟩
  · rintro ⟨hitem, hitems⟩ path names (heq | hmem)
    · exact hitem path names heq
    · exact hitems path names hmem

/-- When a file of a walk fails unbearably, some file is the first to do so. -/
theorem Capture.exists_first_failure (h : ¬Bearable d fp items) :
    ∃ before path names after f, items = before ++ .file path names :: after ∧
      Bearable d fp before ∧ fp.fingerprint d path (key names) = .error f ∧
      f.kind ≠ .fileUnreadable := by
  induction items with
  | nil =>
    refine absurd ?_ h
    intro path names hitem
    cases hitem
  | cons item rest ih =>
    by_cases hitem : Bearable d fp [item]
    · have hrest : ¬Bearable d fp rest := fun hrest => h (bearable_cons.2 ⟨hitem, hrest⟩)
      obtain ⟨before, path, names, after, f, rfl, hbefore, hfile, hkind⟩ := ih hrest
      exact ⟨item :: before, path, names, after, f, rfl, bearable_cons.2 ⟨hitem, hbefore⟩, hfile,
        hkind⟩
    · simp only [Bearable, not_forall, List.mem_singleton] at hitem
      obtain ⟨path, names, rfl, f, hfile, hkind⟩ := hitem
      refine ⟨[], path, names, rest, f, rfl, ?_, hfile, hkind⟩
      intro path names hnone
      cases hnone

theorem Capture.mem_records {r : FileRecord} :
    r ∈ (items.filterMap WalkItem.found?).filterMap (FoundFile.record? d fp) ↔
      ∃ path names, .file path names ∈ items ∧ fp.fingerprint d path (key names) = .ok r := by
  rw [List.mem_filterMap]
  constructor
  · rintro ⟨file, hfile, hr⟩
    obtain ⟨path, names, hitem, rfl⟩ := mem_found.1 hfile
    exact ⟨path, names, hitem, FoundFile.record?_eq_some.1 hr⟩
  · rintro ⟨path, names, hitem, hr⟩
    exact ⟨_, mem_found.2 ⟨path, names, hitem, rfl⟩, FoundFile.record?_eq_some.2 hr⟩

/-- What a snapshot of a walk answers for a key is the record of a file with that key. -/
theorem Capture.exists_file_of_get? {s : Snapshot} (h : untimed d fp root items = .ok s)
    (hfp : fp.FilesUnderKey) {k : String} {r : FileRecord} (hr : s.get? k = some r) :
    ∃ path names, .file path names ∈ items ∧ k = key names ∧
      fp.fingerprint d path k = .ok r := by
  obtain ⟨-, rfl⟩ := untimed_eq_ok_iff.1 h
  obtain ⟨r', hrecord, heq⟩ := List.mem_map.1 (StringMap.mem_of_get?_ofList hr)
  cases heq
  obtain ⟨path, names, hitem, hr⟩ := mem_records.1 hrecord
  have hpath := hfp _ _ _ _ hr
  exact ⟨path, names, hitem, hpath, hpath ▸ hr⟩

/-- A file that was fingerprinted has an entry under its key. -/
theorem Capture.exists_get?_of_file {s : Snapshot} (h : untimed d fp root items = .ok s)
    (hfp : fp.FilesUnderKey) {path : Path} {names : List Bytes} {r : FileRecord}
    (hitem : .file path names ∈ items) (hr : fp.fingerprint d path (key names) = .ok r) :
    ∃ r', s.get? (key names) = some r' := by
  obtain ⟨-, rfl⟩ := untimed_eq_ok_iff.1 h
  have hrecord := mem_records.2 ⟨path, names, hitem, hr⟩
  exact hfp _ _ _ _ hr ▸
    StringMap.exists_get?_ofList (List.mem_map_of_mem (f := fun r => (r.path, r)) hrecord)

/-- What is unreadable is a file that failed or a place with a key at which the walk did. -/
theorem Capture.mem_unreadable {s : Snapshot} (h : untimed d fp root items = .ok s) {k : String} :
    k ∈ s.unreadable ↔
      (∃ place e, .failed place e ∈ items ∧ k ≠ "" ∧ k = key ((place.map Prod.snd).getD [])) ∨
      ∃ path names f, .file path names ∈ items ∧ k = key names ∧
        fp.fingerprint d path k = .error f := by
  obtain ⟨hbearable, rfl⟩ := untimed_eq_ok_iff.1 h
  rw [Snapshot.ofRecords, StringSet.mem_ofList, List.mem_append, List.mem_filterMap,
    List.mem_filterMap]
  refine or_congr ⟨?_, ?_⟩ ⟨?_, ?_⟩
  · rintro ⟨item, hitem, hkey⟩
    cases item with
    | file path names => cases hkey
    | other => cases hkey
    | failed place e =>
      simp only [WalkItem.unreadableKey?, Option.ite_none_left_eq_some, Option.some.injEq] at hkey
      obtain ⟨hne, rfl⟩ := hkey
      exact ⟨place, e, hitem, by simpa using hne, rfl⟩
  · rintro ⟨place, e, hitem, hne, rfl⟩
    refine ⟨_, hitem, ?_⟩
    rw [WalkItem.unreadableKey?, if_neg (by simpa using hne)]
  · rintro ⟨file, hfile, hkey⟩
    obtain ⟨path, names, hitem, rfl⟩ := mem_found.1 hfile
    obtain ⟨f, hf, -, rfl⟩ := FoundFile.unreadable?_eq_some.1 hkey
    exact ⟨path, names, f, hitem, rfl, hf⟩
  · rintro ⟨path, names, f, hitem, rfl, hf⟩
    refine ⟨_, mem_found.2 ⟨path, names, hitem, rfl⟩, FoundFile.unreadable?_eq_some.2 ?_⟩
    exact ⟨f, hf, hbearable path names hitem f hf, rfl⟩

/-- A failure of the walk that has no key leaves no trace in the snapshot. -/
theorem Capture.untimed_of_keyless {before after : List WalkItem} {item : WalkItem}
    (h : item.Keyless) :
    untimed d fp root (before ++ item :: after) = untimed d fp root (before ++ after) := by
  obtain ⟨place, e, rfl, hnil⟩ := h
  have hkey : WalkItem.unreadableKey? (.failed place e) = none := by
    cases place with
    | none => rfl
    | some place =>
      obtain ⟨path, names⟩ := place
      cases hnil path names rfl
      rfl
  have hfound : WalkItem.found? (.failed place e) = none := rfl
  simp only [untimed, List.filterMap_append, List.filterMap_cons, hkey, hfound]

/-- A file that was recorded leaves no trace in the snapshot when a later file of the walk has its
key and was recorded as well. -/
theorem Capture.untimed_of_shared_key (hfp : fp.FilesUnderKey) {before after : List WalkItem}
    {path path' : Path} {names names' : List Bytes} {r r' : FileRecord}
    (hfile : fp.fingerprint d path (key names) = .ok r)
    (hlater : .file path' names' ∈ after) (hfile' : fp.fingerprint d path' (key names') = .ok r')
    (hkey : key names' = key names) :
    untimed d fp root (before ++ .file path names :: after) =
      untimed d fp root (before ++ after) := by
  have hfound : WalkItem.found? (.file path names) = some ⟨path, key names⟩ := rfl
  have hnokey : WalkItem.unreadableKey? (.file path names) = none := rfl
  have hrecord : FoundFile.record? d fp ⟨path, key names⟩ = some r :=
    FoundFile.record?_eq_some.2 hfile
  have hfailure : FoundFile.failure? d fp ⟨path, key names⟩ = none := by
    rw [FoundFile.failure?, hfile]
  have hunreadable : FoundFile.unreadable? d fp ⟨path, key names⟩ = none := by
    rw [FoundFile.unreadable?, hfile]
  have hagain : r.path ∈ ((((after.filterMap WalkItem.found?).filterMap
      (FoundFile.record? d fp)).map fun r => (r.path, r)).map Prod.fst) := by
    rw [List.map_map]
    have hmem := List.mem_map_of_mem (f := fun r => r.path)
      (mem_records.2 ⟨path', names', hlater, hfile'⟩)
    rw [hfp _ _ _ _ hfile', hkey] at hmem
    rw [hfp _ _ _ _ hfile]
    exact hmem
  simp only [untimed, Snapshot.ofRecords, List.filterMap_append, List.filterMap_cons, hfound,
    hnokey, hrecord, hunreadable, List.findSome?_append, List.findSome?_cons, hfailure,
    List.map_append, List.map_cons, StringMap.ofList_of_mem_later hagain]

end Items

/-! ### Trees whose names are text -/

section Trees

variable {d : Disk} {fp : Fingerprinter} {root : Path} {l : Location} {visits : List Visit}
  {s : Snapshot}

/-- Different places below a root have different keys when their names are text. -/
theorem Disk.IsTree.names_eq_of_key_eq (h : d.IsTree) (hutf8 : d.Utf8Below l)
    {names names' : List Bytes} {e e' : Entry} (he : d.entry? (l ++ names) = some e)
    (he' : d.entry? (l ++ names') = some e') (heq : key names = key names') : names = names' :=
  WalkItem.key_injective (h.proper_of_entry? he) (h.proper_of_entry? he') (hutf8 _ _ he)
    (hutf8 _ _ he') heq

/-- The items of a walk are bearable exactly if all that it visited is. -/
theorem Capture.bearable_iff (htree : d.IsTree)
    (hfiles : ∀ path, .file path ∈ visits →
      ∃ names, path = root.descend names ∧ d.IsFile (l ++ names)) :
    Bearable d fp (visits.map (Visit.item root)) ↔ AllBearable d fp root l visits := by
  constructor
  · rintro h names ⟨hfile, hvisit⟩ f hf
    refine h (root.descend names) names (List.mem_map.2 ⟨_, hvisit, ?_⟩) f hf
    rw [Visit.item, Path.namesBelow_descend root (htree.proper_of_isFile hfile)]
  · intro h path names hitem f hf
    obtain ⟨visit, hvisit, heq⟩ := List.mem_map.1 hitem
    cases visit <;> cases heq
    obtain ⟨names, rfl, hfile⟩ := hfiles _ hvisit
    rw [Path.namesBelow_descend root (htree.proper_of_isFile hfile)] at hf
    exact h names ⟨hfile, hvisit⟩ f hf

/-- A file that a walk visited shares its key with nothing else below the root. -/
theorem Capture.Visited.eq_of_key_eq {names names' : List Bytes} {e : Entry}
    (h : Visited d root l visits names) (htree : d.IsTree) (hutf8 : d.Utf8Below l)
    (he : d.entry? (l ++ names') = some e) (heq : key names = key names') : names = names' := by
  obtain ⟨⟨content, modified, hentry⟩, -⟩ := h
  exact htree.names_eq_of_key_eq hutf8 hentry he heq

theorem Capture.visited_iff (htree : d.IsTree) (hshows : d.Shows root l visits) {path : Path}
    {names : List Bytes} : .file path names ∈ visits.map (Visit.item root) ↔
      path = root.descend names ∧ Visited d root l visits names := by
  rw [hshows.file_mem_iff htree, Visited]
  exact and_congr_right fun hpath => hpath ▸ Iff.rfl

/-- The entries of the snapshot that a walk of a tree determines. -/
theorem Capture.get?_of_untimed (htree : d.IsTree) (hutf8 : d.Utf8Below l)
    (hfp : fp.FilesUnderKey) (hshows : d.Shows root l visits)
    (h : untimed d fp root (visits.map (Visit.item root)) = .ok s) (k : String) (r : FileRecord) :
    s.get? k = some r ↔ ∃ names, Visited d root l visits names ∧ k = key names ∧
      fp.fingerprint d (root.descend names) k = .ok r := by
  constructor
  · intro hr
    obtain ⟨path, names, hitem, rfl, hfile⟩ := exists_file_of_get? h hfp hr
    obtain ⟨rfl, hvisited⟩ := (visited_iff htree hshows).1 hitem
    exact ⟨names, hvisited, rfl, hfile⟩
  · rintro ⟨names, hvisited, rfl, hfile⟩
    have hitem := (visited_iff htree hshows).2 ⟨rfl, hvisited⟩
    obtain ⟨r', hr'⟩ := exists_get?_of_file h hfp hitem hfile
    obtain ⟨path, names', hitem', heq, hfile'⟩ := exists_file_of_get? h hfp hr'
    obtain ⟨rfl, ⟨content, modified, he'⟩, -⟩ := (visited_iff htree hshows).1 hitem'
    cases hvisited.eq_of_key_eq htree hutf8 he' heq
    cases hfile.symm.trans hfile'
    exact hr'

/-- The unreadable keys of the snapshot that a walk of a tree determines. -/
theorem Capture.mem_unreadable_of_untimed (htree : d.IsTree) (hshows : d.Shows root l visits)
    (h : untimed d fp root (visits.map (Visit.item root)) = .ok s) (k : String) :
    k ∈ s.unreadable ↔
      (∃ names f, Visited d root l visits names ∧ k = key names ∧
        fp.fingerprint d (root.descend names) k = .error f) ∨
      ∃ names entry e, names ≠ [] ∧ d.entry? (l ++ names) = some entry ∧
        .failed (some (root.descend names)) e ∈ visits ∧ k = key names := by
  rw [mem_unreadable h, or_comm]
  refine or_congr ⟨?_, ?_⟩ ⟨?_, ?_⟩
  · rintro ⟨path, names, f, hitem, rfl, hfile⟩
    obtain ⟨rfl, hvisited⟩ := (visited_iff htree hshows).1 hitem
    exact ⟨names, f, hvisited, rfl, hfile⟩
  · rintro ⟨names, f, hvisited, rfl, hfile⟩
    exact ⟨_, names, f, (visited_iff htree hshows).2 ⟨rfl, hvisited⟩, rfl, hfile⟩
  · rintro ⟨place, e, hitem, hne, rfl⟩
    cases place with
    | none => exact absurd WalkItem.key_nil hne
    | some place =>
      obtain ⟨path, names⟩ := place
      have hnames : names ≠ [] := by
        rintro rfl
        exact hne WalkItem.key_nil
      obtain ⟨rfl, hplace, hvisit⟩ := (hshows.failed_mem_iff htree).1 hitem
      obtain ⟨entry, he⟩ := hplace.resolve_left hnames
      exact ⟨names, entry, e, hnames, he, hvisit, rfl⟩
  · rintro ⟨names, entry, e, hne, he, hvisit, rfl⟩
    have hitem := (hshows.failed_mem_iff htree).2 ⟨rfl, .inr ⟨entry, he⟩, hvisit⟩
    exact ⟨_, e, hitem, WalkItem.key_ne_empty hne (htree.proper_of_entry? he), rfl⟩

/-- The snapshot that a walk of a tree determines describes the tree. -/
theorem Capture.describes_of_untimed (htree : d.IsTree) (hutf8 : d.Utf8Below l)
    (hfp : fp.FilesUnderKey) (hshows : d.Shows root l visits)
    (h : untimed d fp root (visits.map (Visit.item root)) = .ok s) :
    s.Describes d root l fp visits := by
  have hentries := get?_of_untimed htree hutf8 hfp hshows h
  have hunreadable := mem_unreadable_of_untimed htree hshows h
  refine ⟨hentries, hunreadable, ?_, fun _ _ _ _ => htree.names_eq_of_key_eq hutf8, ?_, ?_⟩
  · intro names e he hpath
    obtain ⟨r, hr⟩ := Snapshot.mem_paths.1 hpath
    obtain ⟨names', hvisited, heq, -⟩ := (hentries _ _).1 hr
    cases hvisited.eq_of_key_eq htree hutf8 he heq.symm
    exact hvisited.1
  · intro k hpath hk
    obtain ⟨r, hr⟩ := Snapshot.mem_paths.1 hpath
    obtain ⟨names, hvisited, rfl, hfile⟩ := (hentries _ _).1 hr
    rcases (hunreadable _).1 hk with ⟨names', f, ⟨⟨content, modified, he'⟩, -⟩, heq, hfile'⟩ |
      ⟨names', entry, f, hne, he', hvisit', heq⟩
    · cases hvisited.eq_of_key_eq htree hutf8 he' heq
      cases hfile.symm.trans hfile'
    · cases hvisited.eq_of_key_eq htree hutf8 he' heq
      obtain ⟨-, -, -, hnot⟩ := hshows.failures _ _ hvisit'
      exact hnot hvisited.2
  · intro names hne hfile
    rcases hshows.complete names hne hfile with hvisit | hhidden
    · cases hresult : fp.fingerprint d (root.descend names) (key names) with
      | ok r =>
        have hentry := (hentries _ _).2 ⟨names, ⟨hfile, hvisit⟩, rfl, hresult⟩
        exact .inl (Snapshot.mem_paths.2 ⟨r, hentry⟩)
      | error f =>
        have hfailed := (hunreadable _).2 (.inl ⟨names, f, ⟨hfile, hvisit⟩, rfl, hresult⟩)
        exact .inr (.inl hfailed)
    · exact .inr (.inr hhidden)

/-- Descriptions of the same walk, whatever its order, agree on the entries and the unreadable
keys. -/
theorem Snapshot.Describes.agree {s s' : Snapshot} {visits' : List Visit}
    (h : s.Describes d root l fp visits) (h' : s'.Describes d root l fp visits')
    (hperm : visits.Perm visits') : s.entries = s'.entries ∧ s.unreadable = s'.unreadable := by
  constructor
  · refine StringMap.ext fun k => Option.ext fun r => ?_
    have hleft := h.entries k r
    have hright := h'.entries k r
    simp only [Visited, hperm.mem_iff] at hleft
    exact hleft.trans hright.symm
  · refine StringSet.ext fun k => ?_
    have hleft := h.unreadable k
    have hright := h'.unreadable k
    simp only [Visited, hperm.mem_iff] at hleft
    exact hleft.trans hright.symm

/-- Walks that tell the same in another order determine the same snapshot. -/
theorem Capture.untimed_perm (htree : d.IsTree) (hutf8 : d.Utf8Below l) (hfp : fp.FilesUnderKey)
    (hshows : d.Shows root l visits) {visits' : List Visit} (hperm : visits.Perm visits')
    (h : untimed d fp root (visits.map (Visit.item root)) = .ok s) :
    untimed d fp root (visits'.map (Visit.item root)) = .ok s := by
  have hitems := hperm.map (Visit.item root)
  obtain ⟨hbearable, hs⟩ := untimed_eq_ok_iff.1 h
  have hbearable' : Bearable d fp (visits'.map (Visit.item root)) := fun path names hitem =>
    hbearable path names (hitems.mem_iff.2 hitem)
  obtain ⟨s', hs'⟩ : ∃ s', untimed d fp root (visits'.map (Visit.item root)) = .ok s' :=
    ⟨_, untimed_eq_ok_iff.2 ⟨hbearable', rfl⟩⟩
  have hdescribes := describes_of_untimed htree hutf8 hfp hshows h
  have hdescribes' := describes_of_untimed htree hutf8 hfp (hshows.perm hperm) hs'
  obtain ⟨hentries, hunreadable⟩ := hdescribes.agree hdescribes' hperm
  obtain ⟨-, heq⟩ := untimed_eq_ok_iff.1 hs'
  have hsame : s = s' := by
    subst hs heq
    rw [Snapshot.ofRecords, Snapshot.ofRecords, Snapshot.mk.injEq]
    exact ⟨rfl, rfl, rfl, hentries, hunreadable⟩
  rw [hsame]
  exact hs'

/-- When something that a walk visited is not bearable, some file is the first that is not. -/
theorem Capture.exists_first_visited (htree : d.IsTree) (hshows : d.Shows root l visits)
    (h : ¬AllBearable d fp root l visits) : ∃ before names after f,
      visits = before ++ .file (root.descend names) :: after ∧
      d.IsFile (l ++ names) ∧ AllBearable d fp root l before ∧
      fp.fingerprint d (root.descend names) (key names) = .error f ∧ f.kind ≠ .fileUnreadable ∧
      untimed d fp root (visits.map (Visit.item root)) = .error f := by
  have hfiles (path : Path) (hvisit : .file path ∈ visits) :
      ∃ names, path = root.descend names ∧ d.IsFile (l ++ names) := by
    obtain ⟨names, hpath, -, hfile⟩ := hshows.files path hvisit
    exact ⟨names, hpath, hfile⟩
  rw [← bearable_iff htree hfiles] at h
  obtain ⟨before, path, names, after, f, hitems, hbefore, hf, hkind⟩ := exists_first_failure h
  obtain ⟨visitsBefore, rest, rfl, rfl, hrest⟩ := List.map_eq_append_iff.1 hitems
  obtain ⟨visit, visitsAfter, rfl, hvisit, rfl⟩ := List.map_eq_cons_iff.1 hrest
  have hitem : .file path names ∈ (visitsBefore ++ visit :: visitsAfter).map (Visit.item root) :=
    hitems ▸ List.mem_append_right _ List.mem_cons_self
  obtain ⟨rfl, hfile, -⟩ := (hshows.file_mem_iff htree).1 hitem
  obtain rfl : visit = .file (root.descend names) := by
    cases visit with
    | file path => exact congrArg Visit.file (WalkItem.file.inj hvisit).1
    | other => cases hvisit
    | failed path e => cases hvisit
  refine ⟨visitsBefore, names, visitsAfter, f, rfl, hfile, ?_, hf, hkind,
    untimed_of_failure hitems hf hkind hbefore⟩
  refine (bearable_iff htree fun path hmem => ?_).1 hbefore
  exact hfiles path (List.mem_append_left _ hmem)

/-- Below a root that is a directory in a tree whose names are text, a capture without a deadline
gives the snapshot that describes the tree, whatever the order of the walk, the number of workers
and the order in which they finish. When a file fails in another way than being unreadable, the
capture fails with the error of the first such file of the walk; when its workers cannot be had, it
fails for that. -/
theorem capture_describes_tree (htree : d.IsTree) (hroot : d.follow root = .ok (l, .directory))
    (hutf8 : d.Utf8Below l) (hfp : fp.FilesUnderKey) (limits : CaptureLimits)
    (hlimits : limits.timeout = none) (around : Surroundings)
    (hfollow : around.files.follow d root = d.follow root)
    (hshows : d.Shows root l (around.files.visits d root)) :
    (∀ message, around.pool (max limits.workers 1) = .error message →
      (capture d fp limits around root).value.snapshot =
        .error (.failed (poolFailure message))) ∧
    (around.pool (max limits.workers 1) = .ok () →
      (AllBearable d fp root l (around.files.visits d root) → ∃ s,
        (capture d fp limits around root).value.snapshot = .ok s ∧
        s.Describes d root l fp (around.files.visits d root) ∧
        ∀ limits' around', limits'.timeout = none →
          around'.pool (max limits'.workers 1) = .ok () →
          around'.files.follow d root = d.follow root →
          (around.files.visits d root).Perm (around'.files.visits d root) →
          (capture d fp limits' around' root).value.snapshot = .ok s) ∧
      (¬AllBearable d fp root l (around.files.visits d root) → ∃ before names after f,
        around.files.visits d root = before ++ .file (root.descend names) :: after ∧
        d.IsFile (l ++ names) ∧ AllBearable d fp root l before ∧
        fp.fingerprint d (root.descend names) (key names) = .error f ∧
        f.kind ≠ .fileUnreadable ∧
        (capture d fp limits around root).value.snapshot = .error (.failed f))) := by
  have hrequire (around' : Surroundings)
      (hfollow' : around'.files.follow d root = d.follow root) :
      requireRoot around'.files d root = .ok () := by
    rw [requireRoot, hfollow', hroot]
  have hcapture (limits' : CaptureLimits) (around' : Surroundings)
      (hlimits' : limits'.timeout = none)
      (hpool' : around'.pool (max limits'.workers 1) = .ok ())
      (hfollow' : around'.files.follow d root = d.follow root) :
      (capture d fp limits' around' root).value.snapshot =
        Halt.lift (untimed d fp root (around'.files.walk d root)) :=
    capture_of_unhindered (unhindered_of_no_deadline hlimits' hpool') (hrequire around' hfollow')
  refine ⟨fun message hpool => ?_, fun hpool => ⟨fun hbearable => ?_, fun hfails => ?_⟩⟩
  · rw [value_capture_of_root (hrequire around hfollow)]
    exact ofItems_of_no_workers (canTell_of_no_deadline hlimits _) hpool
      fun k _ => isLate_of_no_deadline hlimits _ _
  · have hitems : Bearable d fp ((around.files.visits d root).map (Visit.item root)) := by
      refine (bearable_iff htree fun path hvisit => ?_).2 hbearable
      obtain ⟨names, hpath, -, hfile⟩ := hshows.files path hvisit
      exact ⟨names, hpath, hfile⟩
    obtain ⟨s, h⟩ : ∃ s, untimed d fp root (around.files.walk d root) = .ok s :=
      ⟨_, untimed_eq_ok_iff.2 ⟨hitems, rfl⟩⟩
    refine ⟨s, ?_, describes_of_untimed htree hutf8 hfp hshows h, ?_⟩
    · rw [hcapture limits around hlimits hpool hfollow, h]
      rfl
    · intro limits' around' hlimits' hpool' hfollow' hperm
      have hsame : untimed d fp root (around'.files.walk d root) = .ok s :=
        untimed_perm htree hutf8 hfp hshows hperm h
      rw [hcapture limits' around' hlimits' hpool' hfollow', hsame]
      rfl
  · obtain ⟨before, names, after, f, hvisits, hfile, hbefore, hf, hkind, h⟩ :=
      exists_first_visited htree hshows hfails
    refine ⟨before, names, after, f, hvisits, hfile, hbefore, hf, hkind, ?_⟩
    rw [hcapture limits around hlimits hpool hfollow, FileAccess.walk, h]
    rfl

/-- A directory with a link and a directory that holds a file is described. -/
theorem capture_describes_tree_nested :
    let d : Disk := { entries := [([[99]], .directory), ([[99], [100]], .directory),
      ([[99], [100], [101]], .file [65] .epoch), ([[99], [102]], .link ⟨[103]⟩)] }
    let root : Path := ⟨[99]⟩
    let fp := Algorithm.sha256.fingerprinter
    let around : Surroundings := {}
    (d.IsTree ∧ d.follow root = .ok ([[99]], .directory) ∧ d.Utf8Below [[99]] ∧
      fp.FilesUnderKey ∧ d.Shows root [[99]] (around.files.visits d root)) ∧
    ∃ s, (capture d fp ⟨4, none⟩ around root).value.snapshot = .ok s ∧
      s.Describes d root [[99]] fp (around.files.visits d root) := by
  intro d root fp around
  have htree : d.IsTree := by decide
  have hroot : d.follow root = .ok ([[99]], .directory) := by cbv
  have hutf8 : d.Utf8Below [[99]] := Disk.utf8Below_of_entries (by decide) _
  have hfp : fp.FilesUnderKey := Algorithm.sha256.digestsBy.filesUnderKey
  have hshows : d.Shows root [[99]] (around.files.visits d root) := Disk.shows_walk htree hroot
  refine ⟨⟨htree, hroot, hutf8, hfp, hshows⟩, ?_⟩
  have hdescribed :=
    ((capture_describes_tree htree hroot hutf8 hfp ⟨4, none⟩ rfl around rfl hshows).2 rfl).1
  obtain ⟨s, hs, hdescribes, -⟩ :=
    hdescribed fun names _ f hf => Algorithm.fingerprint_eq_error hf
  exact ⟨s, hs, hdescribes⟩

end Trees

end CacheAudit
