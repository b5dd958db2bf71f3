import CacheAudit.Dataset.Keyed

/-!
# Gathering members

A reader goes through rows or lines one after the other, stops at the first one with a fault and
otherwise puts each into the dataset. Whether an item has a fault does not depend on what was
gathered before it, so such a reader either reports the first fault or gathers everything. What a
keyed dataset holds is told by its keys and by which members are under which key.
-/

namespace CacheAudit

/-! ### Stopping at the first fault -/

section Faults

variable {α β ε : Type} {fault? : α → Option ε}

/-- Steps that fail for a reason of their item alone fail with the first such reason, and otherwise
gather all items. -/
theorem foldlM_eq_elim {f : β → α → Except ε β} {g : β → α → β}
    (hstep : ∀ b x, f b x = (fault? x).elim (.ok (g b x)) .error) (xs : List α) (b : β) :
    xs.foldlM f b = (xs.findSome? fault?).elim (.ok (xs.foldl g b)) .error := by
  induction xs generalizing b with
  | nil => rfl
  | cons x xs ih =>
    rw [List.foldlM_cons, hstep, List.findSome?_cons]
    cases fault? x with
    | none => exact ih (g b x)
    | some e => rfl

theorem mapM_eq_elim {f : α → Except ε β} {g : α → β}
    (hstep : ∀ x, f x = (fault? x).elim (.ok (g x)) .error) (xs : List α) :
    xs.mapM f = (xs.findSome? fault?).elim (.ok (xs.map g)) .error := by
  induction xs with
  | nil => rfl
  | cons x xs ih =>
    rw [List.mapM_cons, hstep, List.findSome?_cons, ih]
    cases fault? x with
    | none => cases xs.findSome? fault? <;> rfl
    | some e => rfl

/-- The first fault in nested lists is the first of the first list that has one. -/
theorem findSome?_flatMap {γ : Type} {parts : γ → List α} (xs : List γ) :
    (xs.flatMap parts).findSome? fault? = xs.findSome? fun x => (parts x).findSome? fault? := by
  induction xs with
  | nil => rfl
  | cons x xs ih =>
    rw [List.flatMap_cons, List.findSome?_append, List.findSome?_cons, ih]
    cases (parts x).findSome? fault? <;> rfl

end Faults

/-! ### What items make hold -/

/-- Where each item makes something hold or leaves it as it was, all items together make it hold if
one of them does. -/
theorem foldl_iff {α β : Type} (P : β → Prop) {Q : α → Prop} {f : β → α → β}
    (hstep : ∀ b x, P (f b x) ↔ Q x ∨ P b) {xs : List α} {b : β} :
    P (xs.foldl f b) ↔ (∃ x ∈ xs, Q x) ∨ P b := by
  induction xs generalizing b with
  | nil => simp
  | cons x xs ih =>
    rw [List.foldl_cons, ih, hstep, or_left_comm, ← or_assoc]
    simp [or_and_right, exists_or]

/-! ### What a dataset holds -/

theorem StringMap.mem_keys_alter {β : Type} {m : StringMap β} {k k' : String}
    {f : Option β → β} : k' ∈ (m.alter k f).keys ↔ k' = k ∨ k' ∈ m.keys := by
  rw [keys, alter, keys_place, StringSet.mem_place, keys]

namespace KeyedDataset

/-- Whether a member is under a key. -/
def Has (d : KeyedDataset) (key member : String) : Prop :=
  member ∈ (d.get? key).getD ∅

variable {d d' : KeyedDataset} {key key' member member' : String}

theorem not_mem_keys_empty (label : String) : key ∉ (empty label).keys :=
  List.not_mem_nil

theorem not_has_empty (label : String) : ¬(empty label).Has key member :=
  List.not_mem_nil

theorem mem_keys_ensureKey : key' ∈ (d.ensureKey key).keys ↔ key' = key ∨ key' ∈ d.keys :=
  StringMap.mem_keys_alter

theorem mem_keys_insert : key' ∈ (d.insert key member).keys ↔ key' = key ∨ key' ∈ d.keys :=
  StringMap.mem_keys_alter

theorem has_ensureKey : (d.ensureKey key).Has key' member' ↔ d.Has key' member' := by
  unfold Has
  by_cases heq : key' = key
  · subst heq
    have hget : (d.ensureKey key').get? key' = some ((d.get? key').getD ∅) :=
      StringMap.get?_alter_self ..
    rw [hget, Option.getD_some]
  · have hget : (d.ensureKey key).get? key' = d.get? key' := StringMap.get?_alter_of_ne _ heq _
    rw [hget]

theorem has_insert : (d.insert key member).Has key' member' ↔
    (key' = key ∧ member' = member) ∨ d.Has key' member' := by
  unfold Has
  by_cases heq : key' = key
  · subst heq
    have hget : (d.insert key' member).get? key' = some (((d.get? key').getD ∅).insert member) :=
      StringMap.get?_alter_self ..
    rw [hget, Option.getD_some, StringSet.mem_insert, and_iff_right rfl]
  · have hget : (d.insert key member).get? key' = d.get? key' :=
      StringMap.get?_alter_of_ne _ heq _
    rw [hget, or_iff_right fun h => heq h.1]

theorem mem_keys_insertScalar :
    key' ∈ (d.insertScalar key member).keys ↔ key' = key ∨ key' ∈ d.keys :=
  StringMap.mem_keys_alter

theorem has_insertScalar : (d.insertScalar key member).Has key' member' ↔
    (key' = key ∧ member' = member) ∨ (key' ≠ key ∧ d.Has key' member') := by
  unfold Has
  by_cases heq : key' = key
  · subst heq
    have hget : (d.insertScalar key' member).get? key' = some (.singleton member) :=
      StringMap.get?_insert_self ..
    rw [hget, Option.getD_some, ← StringSet.mem_toList]
    simp [StringSet.singleton]
  · have hget : (d.insertScalar key member).get? key' = d.get? key' :=
      StringMap.get?_insert_of_ne _ heq _
    rw [hget, or_iff_right fun h => heq h.1, and_iff_right heq]

theorem label_insertAll (d : KeyedDataset) (key : String) (members : List String) :
    (d.insertAll key members).label = d.label :=
  List.foldlRecOn (motive := fun d' : KeyedDataset => d'.label = d.label) members _ rfl
    fun _ h _ _ => h

theorem mem_keys_insertAll {members : List String} :
    key' ∈ (d.insertAll key members).keys ↔ key' = key ∨ key' ∈ d.keys := by
  rw [insertAll, foldl_iff (key' ∈ KeyedDataset.keys ·) fun _ _ => mem_keys_insert,
    mem_keys_ensureKey, ← or_assoc]
  refine or_congr_left (or_iff_right_of_imp ?_)
  rintro ⟨-, -, hkey⟩
  exact hkey

theorem has_insertAll {members : List String} : (d.insertAll key members).Has key' member' ↔
    (key' = key ∧ member' ∈ members) ∨ d.Has key' member' := by
  have hinsert (d : KeyedDataset) (member : String) : (d.insert key member).Has key' member' ↔
      (key' = key ∧ member' = member) ∨ d.Has key' member' := has_insert
  rw [insertAll, foldl_iff (KeyedDataset.Has · key' member') hinsert, has_ensureKey]
  refine or_congr_left ?_
  constructor
  · rintro ⟨member, hmember, hkey, rfl⟩
    exact ⟨hkey, hmember⟩
  · rintro ⟨hkey, hmember⟩
    exact ⟨member', hmember, hkey, rfl⟩

theorem isSome_get?_iff : (d.get? key).isSome = true ↔ key ∈ d.keys :=
  StringMap.mem_keys.symm

/-- The keys and the members under each key are all that the entries say. -/
theorem get?_eq_of_has {members : Option StringSet} (hkey : key ∈ d.keys ↔ members.isSome = true)
    (hhas : ∀ member, d.Has key member ↔ member ∈ members.getD ∅) : d.get? key = members := by
  rw [← isSome_get?_iff] at hkey
  unfold Has at hhas
  cases hget : d.get? key with
  | none =>
    rw [hget] at hkey
    cases members with
    | none => rfl
    | some s => cases hkey.2 rfl
  | some s =>
    rw [hget] at hkey hhas
    obtain ⟨s', rfl⟩ := Option.isSome_iff_exists.1 (hkey.1 rfl)
    exact congrArg some (StringSet.ext hhas)

theorem eq_of_has (hlabel : d.label = d'.label) (hkeys : ∀ key, key ∈ d.keys ↔ key ∈ d'.keys)
    (hhas : ∀ key member, d.Has key member ↔ d'.Has key member) : d = d' := by
  obtain ⟨label, entries⟩ := d
  obtain ⟨label', entries'⟩ := d'
  have hentries : entries = entries' := by
    refine StringMap.ext fun key => get?_eq_of_has ?_ (hhas key)
    exact (hkeys key).trans isSome_get?_iff.symm
  rw [hentries]
  exact congrArg (KeyedDataset.mk · entries') hlabel

/-- A dataset with the keys of two others, and under each key the members of both, is their union
key by key. -/
theorem get?_eq_merge {both : KeyedDataset} (hkey : key ∈ both.keys ↔ key ∈ d.keys ∨ key ∈ d'.keys)
    (hhas : ∀ member, both.Has key member ↔ d.Has key member ∨ d'.Has key member) :
    both.get? key = Option.merge StringSet.union (d.get? key) (d'.get? key) := by
  refine get?_eq_of_has ?_ fun member => ?_
  · rw [hkey, ← isSome_get?_iff (d := d), ← isSome_get?_iff (d := d')]
    cases d.get? key <;> cases d'.get? key <;> simp
  · have hempty : member ∉ (∅ : StringSet) := List.not_mem_nil
    rw [hhas, Has, Has]
    cases d.get? key <;> cases d'.get? key <;> simp [hempty]

end KeyedDataset

end CacheAudit
