import CacheAudit.Proofs.Text.ByteOrder
import CacheAudit.Snapshot.Difference
import Mathlib.Data.Set.Card

/-!
# The merge of two snapshots is their difference as sets

The merge reads both lists of entries once, from the lowest path on. It is shown equal to the
difference by its definition, which looks every path up on both sides. Main statement: the lists
of a difference are the paths that changed, appeared and disappeared, each once and in the order of
their bytes, and isolation holds exactly when every earlier path is still there with its content.
-/

namespace CacheAudit

namespace Snapshot

/-- Both snapshots record a path, with the same content. -/
def AgreesAt (before after : Snapshot) (p : String) : Prop :=
  ∃ r s, before.get? p = some r ∧ after.get? p = some s ∧ r.contentHash = s.contentHash

/-- Both snapshots record a path, with different contents. -/
def DiffersAt (before after : Snapshot) (p : String) : Prop :=
  ∃ r s, before.get? p = some r ∧ after.get? p = some s ∧ r.contentHash ≠ s.contentHash

end Snapshot

namespace SnapshotDiff

open StringMap

/-- Whether two records are there and agree on the content. -/
def agree : Option FileRecord → Option FileRecord → Bool
  | some r, some s => r.sameContent s
  | _, _ => false

/-- Whether two records are there and disagree on the content. -/
def differ : Option FileRecord → Option FileRecord → Bool
  | some r, some s => !r.sameContent s
  | _, _ => false

/-- Whether a record is there in the first place only. -/
def onlyBefore : Option FileRecord → Option FileRecord → Bool
  | some _, none => true
  | _, _ => false

/-- Whether a record is there in the second place only. -/
def onlyAfter : Option FileRecord → Option FileRecord → Bool
  | none, some _ => true
  | _, _ => false

/-- The difference of two lists of entries by its definition, one path at a time. -/
def byPath (before after : List (String × FileRecord)) : SnapshotDiff where
  changed := (before.map Prod.fst).filter fun p => differ (find p before) (find p after)
  added := (after.map Prod.fst).filter fun p => onlyAfter (find p before) (find p after)
  removed := (before.map Prod.fst).filter fun p => onlyBefore (find p before) (find p after)
  unchanged :=
    ((before.map Prod.fst).filter fun p => agree (find p before) (find p after)).length

/-- An entry in front of the others does not matter to what stands under the others' keys. -/
theorem find_cons_of_lt {p q : String} {r : FileRecord} {es : List (String × FileRecord)}
    (h : p < q) : find q ((p, r) :: es) = find q es := by
  have hne : q ≠ p := fun heq => String.lt_irrefl p (heq ▸ h)
  simp [find, hne]

/-- Lookups matter to a selection of paths only where they are made. -/
theorem filter_lookup_congr {keys : List String} {f f' g g' : String → Option FileRecord}
    (test : Option FileRecord → Option FileRecord → Bool)
    (h : ∀ k ∈ keys, f k = f' k ∧ g k = g' k) :
    (keys.filter fun k => test (f k) (g k)) = keys.filter fun k => test (f' k) (g' k) :=
  List.filter_congr fun k hk => by rw [(h k hk).1, (h k hk).2]

theorem byPath_cons_shared {p : String} {r s : FileRecord}
    {before after : List (String × FileRecord)} (hbefore : ∀ k ∈ before.map Prod.fst, p < k)
    (hafter : ∀ k ∈ after.map Prod.fst, p < k) :
    byPath ((p, r) :: before) ((p, s) :: after) = (byPath before after).consShared r s p := by
  have hb : ∀ k ∈ before.map Prod.fst, find k ((p, r) :: before) = find k before ∧
      find k ((p, s) :: after) = find k after := fun k hk =>
    ⟨find_cons_of_lt (hbefore k hk), find_cons_of_lt (hbefore k hk)⟩
  have ha : ∀ k ∈ after.map Prod.fst, find k ((p, r) :: before) = find k before ∧
      find k ((p, s) :: after) = find k after := fun k hk =>
    ⟨find_cons_of_lt (hafter k hk), find_cons_of_lt (hafter k hk)⟩
  have hr : find p ((p, r) :: before) = some r := by simp [find]
  have hs : find p ((p, s) :: after) = some s := by simp [find]
  simp only [byPath, List.map_cons, List.filter_cons, hr, hs, filter_lookup_congr differ hb,
    filter_lookup_congr agree hb, filter_lookup_congr onlyAfter ha,
    filter_lookup_congr onlyBefore hb]
  cases h : r.sameContent s <;> simp [consShared, differ, agree, onlyBefore, onlyAfter, h]

theorem byPath_cons_removed {p : String} {r : FileRecord}
    {before after : List (String × FileRecord)} (hbefore : ∀ k ∈ before.map Prod.fst, p < k)
    (hafter : ∀ k ∈ after.map Prod.fst, p < k) :
    byPath ((p, r) :: before) after = (byPath before after).consRemoved p := by
  have hb : ∀ k ∈ before.map Prod.fst, find k ((p, r) :: before) = find k before ∧
      find k after = find k after := fun k hk => ⟨find_cons_of_lt (hbefore k hk), rfl⟩
  have ha : ∀ k ∈ after.map Prod.fst, find k ((p, r) :: before) = find k before ∧
      find k after = find k after := fun k hk => ⟨find_cons_of_lt (hafter k hk), rfl⟩
  have hr : find p ((p, r) :: before) = some r := by simp [find]
  have hnone : find p after = none := find_eq_none_of_lt hafter
  simp only [byPath, List.map_cons, List.filter_cons, hr, hnone, filter_lookup_congr differ hb,
    filter_lookup_congr agree hb, filter_lookup_congr onlyAfter ha,
    filter_lookup_congr onlyBefore hb]
  simp [consRemoved, differ, agree, onlyBefore]

theorem byPath_cons_added {q : String} {s : FileRecord}
    {before after : List (String × FileRecord)} (hbefore : ∀ k ∈ before.map Prod.fst, q < k)
    (hafter : ∀ k ∈ after.map Prod.fst, q < k) :
    byPath before ((q, s) :: after) = (byPath before after).consAdded q := by
  have hb : ∀ k ∈ before.map Prod.fst, find k before = find k before ∧
      find k ((q, s) :: after) = find k after := fun k hk => ⟨rfl, find_cons_of_lt (hbefore k hk)⟩
  have ha : ∀ k ∈ after.map Prod.fst, find k before = find k before ∧
      find k ((q, s) :: after) = find k after := fun k hk => ⟨rfl, find_cons_of_lt (hafter k hk)⟩
  have hs : find q ((q, s) :: after) = some s := by simp [find]
  have hnone : find q before = none := find_eq_none_of_lt hbefore
  simp only [byPath, List.map_cons, List.filter_cons, hs, hnone, filter_lookup_congr differ hb,
    filter_lookup_congr agree hb, filter_lookup_congr onlyAfter ha,
    filter_lookup_congr onlyBefore hb]
  simp [consAdded, onlyAfter]

theorem byPath_nil_left (after : List (String × FileRecord)) :
    byPath [] after = { added := after.map Prod.fst } := by
  have hall : ∀ p ∈ after.map Prod.fst, onlyAfter none (find p after) = true := by
    intro p hp
    cases h : find p after with
    | none => exact absurd hp (find_eq_none_iff.1 h)
    | some s => rfl
  simp [byPath, find, List.filter_eq_self.2 hall]

theorem byPath_nil_right (before : List (String × FileRecord)) :
    byPath before [] = { removed := before.map Prod.fst } := by
  have hall : ∀ p ∈ before.map Prod.fst, onlyBefore (find p before) none = true := by
    intro p hp
    cases h : find p before with
    | none => exact absurd hp (find_eq_none_iff.1 h)
    | some r => rfl
  simp [byPath, find, differ, agree, List.filter_eq_self.2 hall]

/-- The merge of two ascending lists is their difference path by path. The induction follows the
two cursors; the path at the lower one lies below everything that is left on the other side. -/
theorem merge_eq_byPath {before after : List (String × FileRecord)}
    (hbefore : (before.map Prod.fst).Pairwise (· < ·))
    (hafter : (after.map Prod.fst).Pairwise (· < ·)) :
    merge before after = byPath before after := by
  induction before, after using merge.induct with
  | case1 after => rw [merge, byPath_nil_left]
  | case2 before hne => rw [merge, byPath_nil_right]; exact hne
  | case3 r before q s after ih =>
    obtain ⟨hb, hbefore⟩ := List.pairwise_cons.1 hbefore
    obtain ⟨ha, hafter⟩ := List.pairwise_cons.1 hafter
    rw [merge, if_pos rfl, ih hbefore hafter, byPath_cons_shared hb ha]
  | case4 p r before q s after hne hlt ih =>
    obtain ⟨hb, hbefore⟩ := List.pairwise_cons.1 hbefore
    have ha : ∀ k ∈ ((q, s) :: after).map Prod.fst, p < k := by
      intro k hk
      rcases List.mem_cons.1 hk with rfl | hk
      · exact hlt
      · exact String.lt_trans hlt ((List.pairwise_cons.1 hafter).1 k hk)
    rw [merge, if_neg hne, if_pos hlt, ih hbefore hafter, byPath_cons_removed hb ha]
  | case5 p r before q s after hne hnlt ih =>
    obtain ⟨ha, hafter⟩ := List.pairwise_cons.1 hafter
    have hlt : q < p := lt_of_not_lt_of_ne hnlt hne
    have hb : ∀ k ∈ ((p, r) :: before).map Prod.fst, q < k := by
      intro k hk
      rcases List.mem_cons.1 hk with rfl | hk
      · exact hlt
      · exact String.lt_trans hlt ((List.pairwise_cons.1 hbefore).1 k hk)
    rw [merge, if_neg hne, if_neg hnlt, ih hbefore hafter, byPath_cons_added hb ha]

/-- The paths that both sides record with the same content, which a difference only counts. -/
def agreeing (before after : Snapshot) : List String :=
  before.paths.filter fun p => agree (before.get? p) (after.get? p)

theorem between_eq_byPath (before after : Snapshot) :
    between before after = byPath before.entries.entries after.entries.entries :=
  merge_eq_byPath before.entries.ascending after.entries.ascending

theorem mem_changed {before after : Snapshot} {p : String} :
    p ∈ (between before after).changed ↔ before.DiffersAt after p := by
  rw [between_eq_byPath]
  show p ∈ before.paths.filter (fun p => differ (before.get? p) (after.get? p)) ↔ _
  rw [List.mem_filter]
  unfold Snapshot.DiffersAt
  constructor
  · rintro ⟨-, h⟩
    cases hr : before.get? p <;> cases hs : after.get? p <;>
      simp_all [differ, FileRecord.sameContent]
  · rintro ⟨r, s, hr, hs, hne⟩
    refine ⟨Snapshot.mem_paths.2 ⟨r, hr⟩, ?_⟩
    simpa [hr, hs, differ, FileRecord.sameContent] using hne

theorem mem_agreeing {before after : Snapshot} {p : String} :
    p ∈ agreeing before after ↔ before.AgreesAt after p := by
  unfold agreeing Snapshot.AgreesAt
  rw [List.mem_filter]
  constructor
  · rintro ⟨-, h⟩
    cases hr : before.get? p <;> cases hs : after.get? p <;>
      simp_all [agree, FileRecord.sameContent]
  · rintro ⟨r, s, hr, hs, heq⟩
    refine ⟨Snapshot.mem_paths.2 ⟨r, hr⟩, ?_⟩
    simpa [hr, hs, agree, FileRecord.sameContent] using heq

theorem mem_added {before after : Snapshot} {p : String} :
    p ∈ (between before after).added ↔ p ∈ after.paths ∧ p ∉ before.paths := by
  rw [between_eq_byPath]
  show p ∈ after.paths.filter (fun p => onlyAfter (before.get? p) (after.get? p)) ↔ _
  rw [List.mem_filter, and_congr_right_iff]
  intro hp
  obtain ⟨s, hs⟩ := Snapshot.mem_paths.1 hp
  rw [Snapshot.not_mem_paths]
  cases hr : before.get? p <;> simp [hs, onlyAfter]

theorem mem_removed {before after : Snapshot} {p : String} :
    p ∈ (between before after).removed ↔ p ∈ before.paths ∧ p ∉ after.paths := by
  rw [between_eq_byPath]
  show p ∈ before.paths.filter (fun p => onlyBefore (before.get? p) (after.get? p)) ↔ _
  rw [List.mem_filter, and_congr_right_iff]
  intro hp
  obtain ⟨r, hr⟩ := Snapshot.mem_paths.1 hp
  rw [Snapshot.not_mem_paths]
  cases hs : after.get? p <;> simp [hr, onlyBefore]

/-- Whether a list ascends in the order of the UTF-8 bytes. -/
def AscendsInBytes (paths : List String) : Prop :=
  paths.Pairwise fun p q => Text.Utf8.ofString p < Text.Utf8.ofString q

theorem ascendsInBytes_of_pairwise {paths : List String} (h : paths.Pairwise (· < ·)) :
    AscendsInBytes paths :=
  h.imp fun hlt => Text.Utf8.ofString_lt_iff.2 hlt

theorem changed_ascending (before after : Snapshot) :
    (between before after).changed.Pairwise (· < ·) := by
  rw [between_eq_byPath]
  exact before.entries.ascending.filter _

theorem added_ascending (before after : Snapshot) :
    (between before after).added.Pairwise (· < ·) := by
  rw [between_eq_byPath]
  exact after.entries.ascending.filter _

theorem removed_ascending (before after : Snapshot) :
    (between before after).removed.Pairwise (· < ·) := by
  rw [between_eq_byPath]
  exact before.entries.ascending.filter _

theorem agreeing_ascending (before after : Snapshot) :
    (agreeing before after).Pairwise (· < ·) :=
  before.entries.ascending.filter _

theorem unchanged_eq_length (before after : Snapshot) :
    (between before after).unchanged = (agreeing before after).length := by
  rw [between_eq_byPath]
  rfl

theorem nodup_of_ascending {paths : List String} (h : paths.Pairwise (· < ·)) : paths.Nodup :=
  List.Pairwise.imp (fun {_ _} hlt => String.ne_of_lt hlt) h

theorem ncard_setOf_mem {paths : List String} (h : paths.Nodup) :
    {p | p ∈ paths}.ncard = paths.length := by
  have hset : {p | p ∈ paths} = (paths.toFinset : Set String) := by
    ext p
    simp
  rw [hset, Set.ncard_coe_finset, List.toFinset_card_of_nodup h]

theorem not_differsAt_of_agreesAt {before after : Snapshot} {p : String}
    (h : before.AgreesAt after p) : ¬before.DiffersAt after p := by
  obtain ⟨r, s, hr, hs, heq⟩ := h
  rintro ⟨r', s', hr', hs', hne⟩
  cases hr.symm.trans hr'
  cases hs.symm.trans hs'
  exact hne heq

theorem agreesAt_or_differsAt {before after : Snapshot} {p : String} (hb : p ∈ before.paths)
    (ha : p ∈ after.paths) : before.AgreesAt after p ∨ before.DiffersAt after p := by
  obtain ⟨r, hr⟩ := Snapshot.mem_paths.1 hb
  obtain ⟨s, hs⟩ := Snapshot.mem_paths.1 ha
  by_cases heq : r.contentHash = s.contentHash
  · exact .inl ⟨r, s, hr, hs, heq⟩
  · exact .inr ⟨r, s, hr, hs, heq⟩

theorem mem_paths_of_agreesAt {before after : Snapshot} {p : String}
    (h : before.AgreesAt after p) : p ∈ before.paths ∧ p ∈ after.paths := by
  obtain ⟨r, s, hr, hs, -⟩ := h
  exact ⟨Snapshot.mem_paths.2 ⟨r, hr⟩, Snapshot.mem_paths.2 ⟨s, hs⟩⟩

theorem mem_paths_of_differsAt {before after : Snapshot} {p : String}
    (h : before.DiffersAt after p) : p ∈ before.paths ∧ p ∈ after.paths := by
  obtain ⟨r, s, hr, hs, -⟩ := h
  exact ⟨Snapshot.mem_paths.2 ⟨r, hr⟩, Snapshot.mem_paths.2 ⟨s, hs⟩⟩

theorem disjoint_changed_added (before after : Snapshot) :
    (between before after).changed.Disjoint (between before after).added := fun _ hc ha =>
  (mem_added.1 ha).2 (mem_paths_of_differsAt (mem_changed.1 hc)).1

theorem disjoint_changed_removed (before after : Snapshot) :
    (between before after).changed.Disjoint (between before after).removed := fun _ hc hr =>
  (mem_removed.1 hr).2 (mem_paths_of_differsAt (mem_changed.1 hc)).2

theorem disjoint_added_removed (before after : Snapshot) :
    (between before after).added.Disjoint (between before after).removed := fun _ ha hr =>
  (mem_added.1 ha).2 (mem_removed.1 hr).1

/-- Every path of either side, under the one heading that a difference gives it. -/
def allPaths (before after : Snapshot) : List String :=
  agreeing before after ++ ((between before after).changed ++ ((between before after).added ++
    (between before after).removed))

theorem nodup_allPaths (before after : Snapshot) : (allPaths before after).Nodup := by
  have hagree := nodup_of_ascending (agreeing_ascending before after)
  have hchanged := nodup_of_ascending (changed_ascending before after)
  have hadded := nodup_of_ascending (added_ascending before after)
  have hremoved := nodup_of_ascending (removed_ascending before after)
  refine hagree.append (hchanged.append (hadded.append hremoved ?_) ?_) ?_
  · exact disjoint_added_removed before after
  · intro p hc hrest
    rcases List.mem_append.1 hrest with ha | hr
    · exact disjoint_changed_added before after hc ha
    · exact disjoint_changed_removed before after hc hr
  · intro p hp hrest
    have hagrees := mem_agreeing.1 hp
    have hpaths := mem_paths_of_agreesAt hagrees
    rcases List.mem_append.1 hrest with hc | hrest
    · exact not_differsAt_of_agreesAt hagrees (mem_changed.1 hc)
    · rcases List.mem_append.1 hrest with ha | hr
      · exact (mem_added.1 ha).2 hpaths.1
      · exact (mem_removed.1 hr).2 hpaths.2

theorem mem_allPaths {before after : Snapshot} {p : String} :
    p ∈ allPaths before after ↔ p ∈ before.paths ∨ p ∈ after.paths := by
  simp only [allPaths, List.mem_append, mem_agreeing, mem_changed, mem_added, mem_removed]
  constructor
  · rintro (h | h | h | h)
    · exact .inl (mem_paths_of_agreesAt h).1
    · exact .inl (mem_paths_of_differsAt h).1
    · exact .inr h.1
    · exact .inl h.1
  · intro h
    by_cases hb : p ∈ before.paths <;> by_cases ha : p ∈ after.paths
    · rcases agreesAt_or_differsAt hb ha with h | h
      · exact .inl h
      · exact .inr (.inl h)
    · exact .inr (.inr (.inr ⟨hb, ha⟩))
    · exact .inr (.inr (.inl ⟨ha, hb⟩))
    · rcases h with h | h
      · exact absurd h hb
      · exact absurd h ha

theorem totalPaths_between (before after : Snapshot) :
    (between before after).totalPaths = {p | p ∈ before.paths ∨ p ∈ after.paths}.ncard := by
  have hset : {p | p ∈ before.paths ∨ p ∈ after.paths} = {p | p ∈ allPaths before after} := by
    ext p
    exact mem_allPaths.symm
  rw [hset, ncard_setOf_mem (nodup_allPaths before after), totalPaths, unchanged_eq_length]
  simp only [allPaths, List.length_append]
  omega

/-- Isolation holds when every path of the first snapshot is in the second with its content. -/
theorem violatesIsolation_between {before after : Snapshot} :
    (between before after).violatesIsolation = false ↔
      ∀ p ∈ before.paths, before.AgreesAt after p := by
  have hempty : (between before after).violatesIsolation = false ↔
      (between before after).changed = [] ∧ (between before after).removed = [] := by
    simp [violatesIsolation]
  rw [hempty, List.eq_nil_iff_forall_not_mem, List.eq_nil_iff_forall_not_mem]
  simp only [mem_changed, mem_removed]
  constructor
  · rintro ⟨hchanged, hremoved⟩ p hb
    have ha : p ∈ after.paths := Classical.byContradiction fun ha => hremoved p ⟨hb, ha⟩
    exact (agreesAt_or_differsAt hb ha).resolve_right (hchanged p)
  · intro h
    refine ⟨fun p hd => ?_, fun p hr => hr.2 (mem_paths_of_agreesAt (h p hr.1)).2⟩
    exact not_differsAt_of_agreesAt (h p (mem_paths_of_differsAt hd).1) hd

end SnapshotDiff

/-- A comparison fails exactly when the digests come from different algorithms. -/
theorem Snapshot.value_diff (before after : Snapshot) :
    (before.diff after).value =
      if before.algorithm = after.algorithm then .ok (SnapshotDiff.between before after)
      else .error (Problem.algorithmMismatch before.algorithm after.algorithm).toFailure := by
  unfold Snapshot.diff
  by_cases h : before.algorithm = after.algorithm <;> simp [h]

/-- The comparison of two snapshots gives a result exactly when their digests come from one
algorithm, and the result is the difference as sets: which paths are on either side and whether the
digests agree decides everything, and each path has one place in it. -/
theorem Snapshot.diff_is_set_difference (before after : Snapshot) :
    let d := SnapshotDiff.between before after
    ((before.diff after).value = .ok d ↔ before.algorithm = after.algorithm) ∧
    ((∃ f, (before.diff after).value = .error f ∧ f.kind = .invalidSnapshot) ↔
      before.algorithm ≠ after.algorithm) ∧
    (∀ p, p ∈ d.changed ↔ before.DiffersAt after p) ∧
    (∀ p, p ∈ d.added ↔ p ∈ after.paths ∧ p ∉ before.paths) ∧
    (∀ p, p ∈ d.removed ↔ p ∈ before.paths ∧ p ∉ after.paths) ∧
    d.unchanged = {p | before.AgreesAt after p}.ncard ∧
    SnapshotDiff.AscendsInBytes d.changed ∧ SnapshotDiff.AscendsInBytes d.added ∧
    SnapshotDiff.AscendsInBytes d.removed ∧
    d.changed.Disjoint d.added ∧ d.changed.Disjoint d.removed ∧ d.added.Disjoint d.removed ∧
    d.totalPaths = {p | p ∈ before.paths ∨ p ∈ after.paths}.ncard ∧
    (d.violatesIsolation = false ↔ ∀ p ∈ before.paths, before.AgreesAt after p) := by
  open SnapshotDiff in
  refine ⟨?_, ?_, fun _ => mem_changed, fun _ => mem_added, fun _ => mem_removed, ?_,
    ascendsInBytes_of_pairwise (changed_ascending before after),
    ascendsInBytes_of_pairwise (added_ascending before after),
    ascendsInBytes_of_pairwise (removed_ascending before after),
    disjoint_changed_added before after, disjoint_changed_removed before after,
    disjoint_added_removed before after, totalPaths_between before after,
    violatesIsolation_between⟩
  · rw [value_diff]
    split <;> simp_all
  · rw [value_diff]
    split
    · simp_all
    · rename_i hne
      simp [hne, Problem.toFailure, Problem.kind]
  · have hset : {p | before.AgreesAt after p} = {p | p ∈ agreeing before after} := by
      ext p
      exact mem_agreeing.symm
    rw [hset, ncard_setOf_mem (nodup_of_ascending (agreeing_ascending before after)),
      unchanged_eq_length]

end CacheAudit
