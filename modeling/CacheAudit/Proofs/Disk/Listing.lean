import CacheAudit.Proofs.Disk.RelativeNames

/-!
# What a walk lists

A walk may list a tree in any order and may fail at places that it cannot look into. It lists
nothing but regular files as files, each by its own names, and leaves a file out only below a place
at which it reports a failure.
-/

namespace CacheAudit

/-- A failure of a walk at the root itself or at an unknown place, which has no key. -/
def WalkItem.Keyless (item : WalkItem) : Prop :=
  ∃ place e, item = .failed place e ∧ ∀ path names, place = some (path, names) → names = []

/-- A failure that leaves out what lies at or below a place: it arose there or above, or it is not
known where. -/
def Visit.Hides (root : Path) (names : List Bytes) (visit : Visit) : Prop :=
  ∃ path e, visit = .failed path e ∧
    ∀ p, path = some p → ∃ above, above <+: names ∧ p = root.descend above

namespace Disk

/-- The regular file that stands at a place. -/
def IsFile (d : Disk) (l : Location) : Prop :=
  ∃ content modified, d.entry? l = some (.file content modified)

/-- A failure that leaves out what lies at or below a place: it arose there or above, or it is not
known where. -/
def Hides (place : Option (Path × List Bytes)) (names : List Bytes) : Prop :=
  ∀ path above, place = some (path, above) → above <+: names

theorem IsTree.proper_of_isFile {d : Disk} {l : Location} {names : List Bytes} (h : d.IsTree)
    (hfile : d.IsFile (l ++ names)) : ∀ n ∈ names, ProperName n := by
  obtain ⟨content, modified, hentry⟩ := hfile
  exact h.proper_of_entry? hentry

theorem IsTree.proper_of_place {d : Disk} {l : Location} {names : List Bytes} (h : d.IsTree)
    (hplace : names = [] ∨ ∃ entry, d.entry? (l ++ names) = some entry) :
    ∀ n ∈ names, ProperName n := by
  rcases hplace with rfl | ⟨entry, hentry⟩
  · exact List.forall_mem_nil _
  · exact h.proper_of_entry? hentry

/-- The items of a walk of what lies below `l`, begun at the path `root`. -/
structure Lists (d : Disk) (root : Path) (l : Location) (items : List WalkItem) : Prop where
  files : ∀ path names, .file path names ∈ items →
    path = root.descend names ∧ names ≠ [] ∧ d.IsFile (l ++ names)
  failures : ∀ path names e, .failed (some (path, names)) e ∈ items →
    (names = [] ∨ ∃ entry, d.entry? (l ++ names) = some entry) ∧
      .file (root.descend names) names ∉ items
  complete : ∀ names, names ≠ [] → d.IsFile (l ++ names) →
    .file (root.descend names) names ∈ items ∨
      ∃ place e, .failed place e ∈ items ∧ Hides place names

/-- What a walk tells of what lies below `l`, begun at the path `root`: it spells a place by the
root and the names that lead on from there. -/
structure Shows (d : Disk) (root : Path) (l : Location) (visits : List Visit) : Prop where
  files : ∀ path, .file path ∈ visits →
    ∃ names, path = root.descend names ∧ names ≠ [] ∧ d.IsFile (l ++ names)
  failures : ∀ path e, .failed (some path) e ∈ visits →
    ∃ names, path = root.descend names ∧
      (names = [] ∨ ∃ entry, d.entry? (l ++ names) = some entry) ∧ .file path ∉ visits
  complete : ∀ names, names ≠ [] → d.IsFile (l ++ names) →
    .file (root.descend names) ∈ visits ∨ ∃ visit ∈ visits, visit.Hides root names

/-- What shows a tree shows it in any order. -/
theorem Shows.perm {d : Disk} {root : Path} {l : Location} {visits visits' : List Visit}
    (h : d.Shows root l visits) (hperm : visits.Perm visits') : d.Shows root l visits' where
  files := fun path hvisit => h.files path (hperm.mem_iff.2 hvisit)
  failures := fun path e hvisit => by
    obtain ⟨names, hpath, hplace, hnot⟩ := h.failures path e (hperm.mem_iff.2 hvisit)
    exact ⟨names, hpath, hplace, fun hfile => hnot (hperm.mem_iff.2 hfile)⟩
  complete := fun names hne hfile =>
    (h.complete names hne hfile).imp hperm.mem_iff.1
      fun ⟨visit, hvisit, hhides⟩ => ⟨visit, hperm.mem_iff.1 hvisit, hhides⟩

variable {d : Disk} {l : Location} {e : Entry}

theorem mem_children {n : Bytes} : (n, e) ∈ d.children l ↔ (l ++ [n], e) ∈ d.entries := by
  rw [children, List.mem_filterMap]
  constructor
  · rintro ⟨⟨m, e'⟩, hmem, hchild⟩
    cases hlast : m.getLast? with
    | none => simp [hlast] at hchild
    | some b =>
      by_cases hparent : m.dropLast = l
      · simp only [hlast, hparent, if_true, Option.some.injEq, Prod.mk.injEq] at hchild
        obtain ⟨rfl, rfl⟩ := hchild
        obtain ⟨before, rfl⟩ := List.getLast?_eq_some_iff.1 hlast
        rw [List.dropLast_concat] at hparent
        exact hparent ▸ hmem
      · simp [hlast, hparent] at hchild
  · intro hmem
    exact ⟨_, hmem, by simp⟩

/-- What the walk of a directory comes across: files below it, and directories below it that cannot
be opened, or only itself when its path is too long. -/
theorem mem_walkFrom (h : d.IsTree) {fuel : Nat} {p : Path} {names : List Bytes} {item : WalkItem}
    (hitem : item ∈ d.walkFrom p l names fuel) :
    item = .other ∨
    (∃ below, item = .file (p.descend below) (names ++ below) ∧ below ≠ [] ∧
      d.IsFile (l ++ below)) ∨
    ∃ below e, item = .failed (some (p.descend below, names ++ below)) e ∧
      (below = [] ∧ pathLimit ≤ p.bytes.length ∨
        below ≠ [] ∧ d.entry? (l ++ below) = some .directory) := by
  induction fuel generalizing p l names with
  | zero => cases hitem
  | succ fuel ih =>
    rw [walkFrom] at hitem
    split at hitem
    · rename_i hlong
      cases List.mem_singleton.1 hitem
      exact .inr (.inr ⟨[], .nameTooLong, by simp [Path.descend], .inl ⟨rfl, hlong⟩⟩)
    · obtain ⟨⟨n, e⟩, hchild, hitem⟩ := List.mem_flatMap.1 hitem
      have hentry := (h.entry?_eq_some_iff (by simp)).2 (mem_children.1 hchild)
      cases e with
      | file content modified =>
        cases List.mem_singleton.1 hitem
        exact .inr (.inl ⟨[n], rfl, by simp, _, _, hentry⟩)
      | link target =>
        exact .inl (List.mem_singleton.1 hitem)
      | directory =>
        rcases List.mem_cons.1 hitem with rfl | hitem
        · exact .inl rfl
        rcases ih hitem with rfl | ⟨below, rfl, hne, hfile⟩ | ⟨below, e, rfl, hbelow⟩
        · exact .inl rfl
        · rw [List.append_assoc] at hfile
          exact .inr (.inl ⟨n :: below, by simp [Path.descend], by simp, hfile⟩)
        · refine .inr (.inr ⟨n :: below, e, by simp [Path.descend], .inr ⟨by simp, ?_⟩⟩)
          rcases hbelow with ⟨rfl, -⟩ | ⟨-, hbelow⟩
          · exact hentry
          · rw [List.append_assoc] at hbelow
            exact hbelow

theorem file_mem_walkFrom {fuel : Nat} {p : Path} {names : List Bytes} {n content : Bytes}
    {modified : Timestamp} (hlong : ¬ pathLimit ≤ p.bytes.length)
    (hchild : (n, .file content modified) ∈ d.children l) :
    .file (p.join ⟨n⟩) (names ++ [n]) ∈ d.walkFrom p l names (fuel + 1) := by
  rw [walkFrom, if_neg hlong]
  exact List.mem_flatMap_of_mem hchild (List.mem_singleton.2 rfl)

theorem walkFrom_subset {fuel : Nat} {p : Path} {names : List Bytes} {n : Bytes}
    (hlong : ¬ pathLimit ≤ p.bytes.length) (hchild : (n, .directory) ∈ d.children l) :
    d.walkFrom (p.join ⟨n⟩) (l ++ [n]) (names ++ [n]) fuel ⊆
      d.walkFrom p l names (fuel + 1) := by
  intro item hitem
  rw [walkFrom, if_neg hlong]
  exact List.mem_flatMap_of_mem hchild (List.mem_cons_of_mem _ hitem)

/-- The walk of a directory comes across every file below it that is not below a directory which
cannot be opened. -/
theorem walkFrom_complete (h : d.IsTree) (fuel : Nat) (p : Path) (names : List Bytes)
    {below : List Bytes} (hne : below ≠ []) (hfile : d.IsFile (l ++ below))
    (hfuel : below.length ≤ fuel) :
    .file (p.descend below) (names ++ below) ∈ d.walkFrom p l names fuel ∨
      ∃ path above e, .failed (some (path, names ++ above)) e ∈ d.walkFrom p l names fuel ∧
        above <+: below := by
  induction fuel generalizing p l names below with
  | zero => exact absurd (List.length_eq_zero_iff.1 (Nat.le_zero.1 hfuel)) hne
  | succ fuel ih =>
    by_cases hlong : pathLimit ≤ p.bytes.length
    · rw [walkFrom, if_pos hlong]
      exact .inr ⟨p, [], .nameTooLong, by simp, List.nil_prefix⟩
    obtain ⟨n, rest, rfl⟩ := List.exists_cons_of_ne_nil hne
    obtain ⟨content, modified, hentry⟩ := hfile
    by_cases hrest : rest = []
    · subst hrest
      exact .inl (file_mem_walkFrom hlong (mem_children.2 (mem_entries (by simp) hentry)))
    · rw [List.append_cons] at hentry
      have hchild := mem_children.2 (mem_entries (by simp) (h.directory_above hrest hentry))
      rw [List.length_cons] at hfuel
      rcases ih (p.join ⟨n⟩) (names ++ [n]) hrest ⟨_, _, hentry⟩ (by omega) with
        hfound | ⟨path, above, e, hfailed, habove⟩
      · left
        have hmem := walkFrom_subset hlong hchild hfound
        rw [List.append_assoc] at hmem
        exact hmem
      · right
        have hmem := walkFrom_subset hlong hchild hfailed
        rw [List.append_assoc] at hmem
        exact ⟨path, n :: above, e, hmem, List.cons_prefix_cons.2 ⟨rfl, habove⟩⟩

end Disk

/-- An item is recovered from what the walk tells of it, since its path leads back to its names. -/
theorem Visit.item_visit {d : Disk} (h : d.IsTree) {root : Path} {item : WalkItem}
    (hitem : item ∈ d.walk root) : Visit.item root item.visit = item := by
  rw [Disk.walk] at hitem
  cases hroot : d.follow root with
  | error e =>
    rw [hroot] at hitem
    cases List.mem_singleton.1 hitem
    simp [WalkItem.visit, Visit.item, Path.namesBelow_self]
  | ok place =>
    obtain ⟨l, entry⟩ := place
    rw [hroot] at hitem
    cases entry with
    | file content modified =>
      cases List.mem_singleton.1 hitem
      rfl
    | link target =>
      cases List.mem_singleton.1 hitem
      rfl
    | directory =>
      rcases List.mem_cons.1 hitem with rfl | hitem
      · rfl
      rcases Disk.mem_walkFrom h hitem with rfl | ⟨below, rfl, -, hfile⟩ | ⟨below, e, rfl, hbelow⟩
      · rfl
      · obtain ⟨content, modified, hentry⟩ := hfile
        simp [WalkItem.visit, Visit.item,
          Path.namesBelow_descend root (h.proper_of_entry? hentry)]
      · have hproper := h.proper_of_place (hbelow.imp And.left fun h => ⟨_, h.2⟩)
        simp [WalkItem.visit, Visit.item, Path.namesBelow_descend root hproper]

/-- When nothing interferes, the items of a walk are those of the disk. -/
theorem FileAccess.walk_default {d : Disk} (h : d.IsTree) (root : Path) :
    ({} : FileAccess).walk d root = d.walk root := by
  rw [walk, List.map_map]
  exact (List.map_congr_left fun item hitem => Visit.item_visit h hitem).trans (List.map_id _)

namespace Disk

variable {d : Disk} {l : Location}

section Shows

variable {root path : Path} {names : List Bytes} {visits : List Visit} {error : SystemError}

/-- The files among the items of a walk are those among its visits, each by the names that lead to
it. -/
theorem Shows.file_mem_iff (h : d.Shows root l visits) (htree : d.IsTree) :
    .file path names ∈ visits.map (Visit.item root) ↔
      path = root.descend names ∧ d.IsFile (l ++ names) ∧ .file path ∈ visits := by
  constructor
  · intro hmem
    obtain ⟨visit, hvisit, hitem⟩ := List.mem_map.1 hmem
    cases visit <;> cases hitem
    obtain ⟨names, rfl, -, hfile⟩ := h.files _ hvisit
    rw [Path.namesBelow_descend root (htree.proper_of_isFile hfile)]
    exact ⟨rfl, hfile, hvisit⟩
  · rintro ⟨rfl, hfile, hvisit⟩
    refine List.mem_map.2 ⟨_, hvisit, ?_⟩
    rw [Visit.item, Path.namesBelow_descend root (htree.proper_of_isFile hfile)]

/-- The failures among the items of a walk are those among its visits, each at the place where it
arose. -/
theorem Shows.failed_mem_iff (h : d.Shows root l visits) (htree : d.IsTree) :
    .failed (some (path, names)) error ∈ visits.map (Visit.item root) ↔
      path = root.descend names ∧ (names = [] ∨ ∃ entry, d.entry? (l ++ names) = some entry) ∧
        .failed (some path) error ∈ visits := by
  constructor
  · intro hmem
    obtain ⟨visit, hvisit, hitem⟩ := List.mem_map.1 hmem
    cases visit with
    | file path => cases hitem
    | other => cases hitem
    | failed place e =>
      cases place <;> cases hitem
      obtain ⟨names, rfl, hplace, -⟩ := h.failures _ _ hvisit
      rw [Path.namesBelow_descend root (htree.proper_of_place hplace)]
      exact ⟨rfl, hplace, hvisit⟩
  · rintro ⟨rfl, hplace, hvisit⟩
    refine List.mem_map.2 ⟨_, hvisit, ?_⟩
    rw [Visit.item, Option.map_some, Path.namesBelow_descend root (htree.proper_of_place hplace)]

/-- A visit that leaves out what lies at a place is an item that does. -/
theorem exists_hides_of_visit {visit : Visit} (h : visit.Hides root names)
    (hproper : ∀ n ∈ names, ProperName n) :
    ∃ place e, visit.item root = .failed place e ∧ Hides place names := by
  obtain ⟨path, e, rfl, hhides⟩ := h
  refine ⟨_, e, rfl, ?_⟩
  intro p above hplace
  obtain ⟨p, rfl, heq⟩ := Option.map_eq_some_iff.1 hplace
  cases heq
  obtain ⟨above, habove, rfl⟩ := hhides p rfl
  rw [Path.namesBelow_descend root fun n hn => hproper n (habove.subset hn)]
  exact habove

/-- The items of a walk whose visits show what lies below a place are a list of that. -/
theorem Shows.lists (h : d.Shows root l visits) (htree : d.IsTree) :
    d.Lists root l (visits.map (Visit.item root)) where
  files := fun path names hmem => by
    obtain ⟨hpath, hfile, hvisit⟩ := (h.file_mem_iff htree).1 hmem
    obtain ⟨names', hpath', hne, hfile'⟩ := h.files _ hvisit
    cases root.descend_injective (htree.proper_of_isFile hfile) (htree.proper_of_isFile hfile')
      (hpath.symm.trans hpath')
    exact ⟨hpath, hne, hfile⟩
  failures := fun path names e hmem => by
    obtain ⟨rfl, hplace, hvisit⟩ := (h.failed_mem_iff htree).1 hmem
    obtain ⟨-, -, -, hnot⟩ := h.failures _ _ hvisit
    exact ⟨hplace, fun hfile => hnot ((h.file_mem_iff htree).1 hfile).2.2⟩
  complete := fun names hne hfile => by
    rcases h.complete names hne hfile with hfound | ⟨visit, hvisit, hhides⟩
    · exact .inl ((h.file_mem_iff htree).2 ⟨rfl, hfile, hfound⟩)
    · obtain ⟨place, e, hitem, hhides⟩ :=
        exists_hides_of_visit hhides (htree.proper_of_isFile hfile)
      exact .inr ⟨place, e, hitem ▸ List.mem_map_of_mem hvisit, hhides⟩

end Shows

/-- The visits of the walk of a tree show it. -/
theorem shows_walk (h : d.IsTree) {root : Path} (hroot : d.follow root = .ok (l, .directory)) :
    d.Shows root l ((d.walk root).map WalkItem.visit) := by
  have hwalk : d.walk root = .other :: d.walkFrom root l [] (d.entries.length + 1) := by
    rw [walk, hroot]
  have hvisit {visit : Visit} (hmem : visit ∈ (d.walk root).map WalkItem.visit)
      (hother : visit ≠ .other) :
      ∃ item ∈ d.walkFrom root l [] (d.entries.length + 1), item.visit = visit := by
    obtain ⟨item, hitem, rfl⟩ := List.mem_map.1 hmem
    refine ⟨item, List.mem_of_ne_of_mem ?_ (hwalk ▸ hitem), rfl⟩
    rintro rfl
    exact hother rfl
  have hfiles (path : Path) (hmem : .file path ∈ (d.walk root).map WalkItem.visit) :
      ∃ names, path = root.descend names ∧ names ≠ [] ∧ d.IsFile (l ++ names) := by
    obtain ⟨item, hitem, hpath⟩ := hvisit hmem nofun
    rcases mem_walkFrom h hitem with rfl | ⟨below, rfl, hne, hfile⟩ | ⟨below, e, rfl, -⟩
    · cases hpath
    · cases hpath
      exact ⟨below, rfl, hne, hfile⟩
    · cases hpath
  refine ⟨hfiles, ?_, ?_⟩
  · intro path e hmem
    obtain ⟨item, hitem, hpath⟩ := hvisit hmem nofun
    rcases mem_walkFrom h hitem with rfl | ⟨below, rfl, -⟩ | ⟨below, e, rfl, hbelow⟩
    · cases hpath
    · cases hpath
    · cases hpath
      have hplace : below = [] ∨ ∃ entry, d.entry? (l ++ below) = some entry :=
        hbelow.imp And.left fun h => ⟨_, h.2⟩
      refine ⟨below, rfl, hplace, fun hfile => ?_⟩
      obtain ⟨names, hpath, hne, hfile⟩ := hfiles _ hfile
      cases root.descend_injective (h.proper_of_place hplace) (h.proper_of_isFile hfile) hpath
      obtain ⟨content, modified, hentry⟩ := hfile
      cases hentry.symm.trans (hbelow.resolve_left fun hnil => hne hnil.1).2
  · intro names hne hfile
    obtain ⟨content, modified, hentry⟩ := hfile
    have hdepth := h.length_le hentry
    rw [List.length_append] at hdepth
    rcases walkFrom_complete h (d.entries.length + 1) root [] hne ⟨_, _, hentry⟩ (by omega) with
      hfound | ⟨path, above, e, hfailed, habove⟩
    · exact .inl (List.mem_map_of_mem (hwalk ▸ List.mem_cons_of_mem _ hfound))
    · rcases mem_walkFrom h hfailed with hother | ⟨below, heq, -⟩ | ⟨below, e, heq, -⟩
      · cases hother
      · cases heq
      · cases heq
        refine .inr ⟨_, List.mem_map_of_mem (hwalk ▸ List.mem_cons_of_mem _ hfailed), _, _, rfl, ?_⟩
        rintro p ⟨⟩
        exact ⟨above, habove, rfl⟩

/-- The walk of a tree lists it. -/
theorem lists_walk (h : d.IsTree) {root : Path} (hroot : d.follow root = .ok (l, .directory)) :
    d.Lists root l (d.walk root) :=
  FileAccess.walk_default h root ▸ (shows_walk h hroot).lists h

/-- The walk of a root that is a directory fails only at places below it. -/
theorem not_keyless_of_mem_walk (h : d.IsTree) {root : Path}
    (hroot : d.follow root = .ok (l, .directory)) : ∀ item ∈ d.walk root, ¬item.Keyless := by
  rintro _ hmem ⟨place, e, rfl, hnil⟩
  rw [walk, hroot] at hmem
  have hfailed := List.mem_of_ne_of_mem (by simp) hmem
  rcases mem_walkFrom h hfailed with hother | ⟨below, heq, -⟩ | ⟨below, e, heq, hbelow⟩
  · cases hother
  · cases heq
  · cases heq
    rcases hbelow with ⟨-, hlong⟩ | ⟨hne, -⟩
    · have hshort := (lookup_of_follow hroot).1.2
      omega
    · exact hne (hnil _ _ rfl)

end Disk

/-- File operations that tell the truth about a root: what it leads to and what lies below it. -/
structure FileAccess.Truthful (files : FileAccess) (d : Disk) (root : Path) : Prop where
  follow : files.follow d root = d.follow root
  lists : ∀ l, d.follow root = .ok (l, .directory) → d.Lists root l (files.walk d root)

/-- The operations that go by the disk alone tell the truth about a tree. -/
theorem FileAccess.truthful {d : Disk} (h : d.IsTree) (root : Path) :
    ({} : FileAccess).Truthful d root where
  follow := rfl
  lists := fun _ hroot => (walk_default h root).symm ▸ Disk.lists_walk h hroot

end CacheAudit
