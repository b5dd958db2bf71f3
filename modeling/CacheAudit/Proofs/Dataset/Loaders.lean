import CacheAudit.Dataset.Loading
import CacheAudit.Proofs.Ordered.Finite

/-!
# What the weighted loaders keep of the keys

A table and a log can each be read with or without weights. The two readers of a source meet the
same members, but only the plain one puts a key into its dataset before it has met a member. So the
weighted dataset, its weights dropped, is the plain one without the keys that have no members.
-/

namespace CacheAudit

namespace StringMap

variable {β γ : Type}

theorem get?_mapValues (m : StringMap β) (f : β → γ) (k : String) :
    (m.mapValues f).get? k = (m.get? k).map f := by
  show find k (m.entries.map fun e => (e.1, f e.2)) = (find k m.entries).map f
  induction m.entries with
  | nil => rfl
  | cons e rest ih =>
    by_cases h : k = e.1 <;> simp [find, h, ih]

theorem keySet_alter (m : StringMap β) (k : String) (f : Option β → β) :
    (m.alter k f).keySet = m.keySet.insert k := by
  refine StringSet.ext fun x => ?_
  show x ∈ (place k f m.entries).map Prod.fst ↔ x ∈ StringSet.place k (m.entries.map Prod.fst)
  rw [keys_place]

end StringMap

namespace WeightedDataset

variable {w w' : WeightedDataset} {k k' : KeyedDataset}

/-- The members of a weighted dataset are those of a keyed one, whose keys without members it
lacks. -/
def Follows (w : WeightedDataset) (k : KeyedDataset) : Prop :=
  ∀ key, w.toKeyed.get? key = (k.get? key).filter fun s => !s.isEmpty

theorem get?_toKeyed (w : WeightedDataset) (key : String) :
    w.toKeyed.get? key = (w.get? key).map StringMap.keySet :=
  StringMap.get?_mapValues ..

theorem follows_empty (label label' : String) : (empty label).Follows (.empty label') :=
  fun _ => rfl

/-- A key without members does not count. -/
theorem Follows.ensureKey (h : w.Follows k) (key : String) : w.Follows (k.ensureKey key) := by
  intro key'
  rw [h]
  by_cases heq : key' = key
  · subst heq
    have hget : (k.ensureKey key').get? key' = some ((k.get? key').getD ∅) :=
      StringMap.get?_alter_self ..
    rw [hget]
    cases k.get? key' <;> rfl
  · have hget : (k.ensureKey key).get? key' = k.get? key' := StringMap.get?_alter_of_ne _ heq _
    rw [hget]

/-- Both sides have the same members under a key, if any. -/
theorem Follows.keySet_getD (h : w.Follows k) (key : String) :
    ((w.get? key).getD ∅).keySet = (k.get? key).getD ∅ := by
  have hkey := h key
  rw [get?_toKeyed] at hkey
  cases hk : k.get? key with
  | none =>
    rw [hk, Option.filter_none, Option.map_eq_none_iff] at hkey
    rw [hkey]
    rfl
  | some s =>
    rw [hk, Option.filter_some] at hkey
    split at hkey
    · obtain ⟨m, hm, rfl⟩ := Option.map_eq_some_iff.1 hkey
      rw [hm]
      rfl
    · rename_i hempty
      rw [Option.map_eq_none_iff] at hkey
      rw [Bool.not_eq_true', Bool.not_eq_false] at hempty
      rw [hkey, Option.getD_some, StringSet.isEmpty_iff.1 hempty]
      rfl

/-- A member with a weight on one side is the member on the other. -/
theorem Follows.add (h : w.Follows k) (key member : String) (weight : Float) :
    (w.add key member weight).Follows (k.insert key member) := by
  intro key'
  rw [get?_toKeyed]
  by_cases heq : key' = key
  · subst heq
    have hweighted : (w.add key' member weight).get? key' = some (((w.get? key').getD ∅).alter
        member fun sum => sum.getD 0.0 + weight) := StringMap.get?_alter_self ..
    have hkeyed : (k.insert key' member).get? key' = some (((k.get? key').getD ∅).insert member) :=
      StringMap.get?_alter_self ..
    have hmember : member ∈ ((k.get? key').getD ∅).insert member :=
      StringSet.mem_insert.2 (.inl rfl)
    have hsome : (((k.get? key').getD ∅).insert member).isEmpty = false := by
      rw [Bool.eq_false_iff]
      intro hempty
      rw [StringSet.isEmpty_iff.1 hempty] at hmember
      cases hmember
    rw [hweighted, hkeyed, Option.map_some, StringMap.keySet_alter, h.keySet_getD,
      Option.filter_some, hsome]
    rfl
  · have hweighted : (w.add key member weight).get? key' = w.get? key' :=
      StringMap.get?_alter_of_ne _ heq _
    have hkeyed : (k.insert key member).get? key' = k.get? key' :=
      StringMap.get?_alter_of_ne _ heq _
    rw [hweighted, hkeyed, ← h, get?_toKeyed]

/-- Two readers that keep to each other at every item do so over a list of them. -/
theorem follows_foldlM {α ε : Type} {f : WeightedDataset → α → Except ε WeightedDataset}
    {g : KeyedDataset → α → Except ε KeyedDataset}
    (hstep : ∀ x w k w' k', w.Follows k → f w x = .ok w' → g k x = .ok k' → w'.Follows k')
    {xs : List α} (h : w.Follows k) (hw : xs.foldlM f w = .ok w') (hk : xs.foldlM g k = .ok k') :
    w'.Follows k' := by
  induction xs generalizing w k with
  | nil =>
    cases hw
    cases hk
    exact h
  | cons x xs ih =>
    rw [List.foldlM_cons] at hw hk
    cases hfx : f w x with
    | error p => rw [hfx] at hw; cases hw
    | ok w₁ =>
      cases hgx : g k x with
      | error p => rw [hgx] at hk; cases hk
      | ok k₁ =>
        rw [hfx] at hw
        rw [hgx] at hk
        exact ih (hstep x w k w₁ k₁ h hfx hgx) hw hk

/-- The keys of a weighted dataset are those of the keyed one that have members. -/
theorem Follows.mem_keys (h : w.Follows k) {key : String} :
    key ∈ w.keys ↔ ∃ s, k.get? key = some s ∧ s ≠ ∅ := by
  have hkey := h key
  rw [get?_toKeyed] at hkey
  have hsome : key ∈ w.keys ↔ ((w.get? key).map StringMap.keySet).isSome = true := by
    rw [Option.isSome_map]
    exact StringMap.mem_keys
  rw [hsome, hkey]
  cases hk : k.get? key with
  | none => simp
  | some s => simp [Option.filter_some, ← StringSet.isEmpty_iff]

end WeightedDataset

namespace Dataset

open WeightedDataset (Follows follows_empty follows_foldlM)

variable {w w' : WeightedDataset} {k k' : KeyedDataset} {name label : String} {bytes : Bytes}

theorem exists_of_bind_eq_ok {α β ε : Type} {x : Except ε α} {f : α → Except ε β} {b : β}
    (h : x >>= f = .ok b) : ∃ a, x = .ok a ∧ f a = .ok b := by
  cases x with
  | error p => cases h
  | ok a => exact ⟨a, rfl, h⟩

namespace Table

theorem follows_addCell (source : String) (row : Row) (h : w.Follows k) {cell : String × String}
    (hw : addCell source row w cell = .ok w') : w'.Follows (k.insert row.key cell.1) := by
  unfold addCell at hw
  split at hw
  · cases hw
    exact h.add _ _ _
  · cases hw

theorem follows_addMembers (source : String) (row : Row) (h : w.Follows k)
    (hw : row.cells.foldlM (addCell source row) w = .ok w') :
    w'.Follows (addMembers k row) := by
  refine follows_foldlM (g := fun k cell => pure (k.insert row.key cell.1)) ?_
    (h.ensureKey row.key) hw List.foldlM_pure
  rintro cell w k w' _ h hw ⟨⟩
  exact follows_addCell source row h hw

/-- A table has the same members with and without weights, but keys without members only without
weights. -/
theorem follows_weighted (t : Table) (hk : t.keyed name label bytes = .ok k)
    (hw : t.weighted name label bytes = .ok w) : w.Follows k := by
  obtain ⟨rows, hrows, hw⟩ := exists_of_bind_eq_ok hw
  rw [keyed, hrows] at hk
  cases hk
  refine follows_foldlM (g := fun k row => pure (addMembers k row)) ?_ (follows_empty label label)
    hw List.foldlM_pure
  rintro row w k w' _ h hw ⟨⟩
  exact follows_addMembers name row h hw

end Table

namespace LineLog

/-- The word of a line at a position that it has. -/
def LogLine.word (line : LogLine) (i : UInt64) : String :=
  line.words[i.toNat]?.getD ""

theorem LogLine.word_of_item {line : LogLine} {i : UInt64} {word : String}
    (h : (Halt.item line.words i : Except (Halt Problem) String) = .ok word) :
    LogLine.word line i = word := by
  rw [LogLine.word, Halt.item_eq_ok_iff.1 h, Option.getD_some]

/-- A line that is added without a weight has its key and its member. -/
theorem eq_of_addMember (l : LineLog) {source : String} {line : LogLine}
    (h : l.addMember source k line = .ok k') :
    k' = if l.excluded.contains (LogLine.word line l.memberField) then
        k.ensureKey (LogLine.word line l.keyField)
      else k.insert (LogLine.word line l.keyField) (LogLine.word line l.memberField) := by
  obtain ⟨-, -, h⟩ := exists_of_bind_eq_ok h
  obtain ⟨member, hmember, h⟩ := exists_of_bind_eq_ok h
  obtain ⟨key, hkey, h⟩ := exists_of_bind_eq_ok h
  rw [LogLine.word_of_item hmember, LogLine.word_of_item hkey]
  cases h
  rfl

/-- A line that is added with a weight has an excluded member, or its key, its member and a weight
for it. -/
theorem cases_of_addWeight (l : LineLog) {source : String} {line : LogLine}
    (h : l.addWeight source w line = .ok w') :
    (l.excluded.contains (LogLine.word line l.memberField) = true ∧ w' = w) ∨
      ∃ x, l.excluded.contains (LogLine.word line l.memberField) = false ∧
        weight? (LogLine.word line l.weightField).toList = some x ∧
        w' = w.add (LogLine.word line l.keyField) (LogLine.word line l.memberField) x := by
  obtain ⟨-, -, h⟩ := exists_of_bind_eq_ok h
  obtain ⟨member, hmember, h⟩ := exists_of_bind_eq_ok h
  rw [LogLine.word_of_item hmember]
  cases hexcluded : l.excluded.contains member with
  | true =>
    rw [hexcluded, if_pos rfl] at h
    cases h
    exact .inl ⟨rfl, rfl⟩
  | false =>
    rw [hexcluded, if_neg Bool.false_ne_true] at h
    obtain ⟨cell, hcell, h⟩ := exists_of_bind_eq_ok h
    rw [LogLine.word_of_item hcell]
    split at h
    · rename_i x hx
      obtain ⟨key, hkey, h⟩ := exists_of_bind_eq_ok h
      rw [LogLine.word_of_item hkey]
      cases h
      exact .inr ⟨x, rfl, hx, rfl⟩
    · cases h

theorem follows_addMember (l : LineLog) (source : String) (line : LogLine) (h : w.Follows k)
    (hw : l.addWeight source w line = .ok w') (hk : l.addMember source k line = .ok k') :
    w'.Follows k' := by
  rw [l.eq_of_addMember hk]
  rcases l.cases_of_addWeight hw with ⟨hexcluded, rfl⟩ | ⟨x, hexcluded, -, rfl⟩
  · rw [hexcluded, if_pos rfl]
    exact h.ensureKey _
  · rw [hexcluded, if_neg Bool.false_ne_true]
    exact h.add _ _ _

/-- A log has the same members with and without weights, but keys without members only without
weights. -/
theorem follows_weighted (l : LineLog) (hk : l.keyedBytes name label bytes = .ok k)
    (hw : l.weightedBytes name label bytes = .ok w) : w.Follows k := by
  obtain ⟨text, htext, hk⟩ := exists_of_bind_eq_ok hk
  obtain ⟨text', htext', hw⟩ := exists_of_bind_eq_ok hw
  cases htext.symm.trans htext'
  exact follows_foldlM (fun line _ _ _ _ h hw hk => l.follows_addMember name line h hw hk)
    (follows_empty label label) hw hk

end LineLog

/-- A source of datasets, with its settings. -/
inductive Source
  | table (t : Table)
  | log (l : LineLog)

namespace Source

/-- The members of the source in a file. -/
def keyedAt (source : Source) (d : Disk) (path : Path) (label : String) :
    Except (Halt Failure) KeyedDataset :=
  match source with
  | .table t => (t.keyedAt d path label).value
  | .log l => (l.keyedAt d path label).value

/-- The weights of the source in a file. -/
def weightedAt (source : Source) (d : Disk) (path : Path) (label : String) :
    Except (Halt Failure) WeightedDataset :=
  match source with
  | .table t => (t.weightedAt d path label).value
  | .log l => (l.weightedAt d path label).value

end Source

/-- A dataset is loaded by reading the content of its file. -/
theorem load_eq_ok_iff {α : Type} {op label : String} {d : Disk} {path : Path} {size : α → Nat}
    {read : Bytes → Except (Halt Problem) α} {a : α} :
    (load op label d path size read).value = .ok a ↔
      ∃ bytes, content d path = .ok bytes ∧ read bytes = .ok a := by
  unfold load
  cases hcontent : content d path with
  | error f => simp
  | ok bytes => cases hread : read bytes <;> simp [hread]

/-- Both datasets of a file have the same members. -/
theorem Source.follows_weightedAt (source : Source) {d : Disk} {path : Path}
    (hk : source.keyedAt d path label = .ok k) (hw : source.weightedAt d path label = .ok w) :
    w.Follows k := by
  cases source with
  | table t =>
    obtain ⟨bytes, hcontent, hk⟩ := load_eq_ok_iff.1 hk
    obtain ⟨bytes', hcontent', hw⟩ := load_eq_ok_iff.1 hw
    cases hcontent.symm.trans hcontent'
    exact t.follows_weighted (Halt.lift_eq_ok_iff.1 hk) (Halt.lift_eq_ok_iff.1 hw)
  | log l =>
    obtain ⟨bytes, hcontent, hk⟩ := load_eq_ok_iff.1 hk
    obtain ⟨bytes', hcontent', hw⟩ := load_eq_ok_iff.1 hw
    cases hcontent.symm.trans hcontent'
    exact l.follows_weighted hk hw

end Dataset

end CacheAudit
