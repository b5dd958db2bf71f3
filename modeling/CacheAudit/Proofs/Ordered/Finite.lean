import CacheAudit.Ordered.Map
import Mathlib.Data.Finset.Card

/-!
# Ordered collections as finite sets

An ordered set is the finite set of its members: the operations on ordered sets are those on finite
sets, and its size is the number of its members. Putting the members of a set, or the entries of
a map, into an empty collection gives that collection back.
-/

namespace CacheAudit

namespace StringSet

theorem nodup_toList (s : StringSet) : s.toList.Nodup :=
  s.ascending.imp fun hlt => String.ne_of_lt hlt

/-- The members as a finite set. -/
def toFinset (s : StringSet) : Finset String :=
  s.toList.toFinset

@[simp] theorem mem_toFinset {s : StringSet} {x : String} : x ∈ s.toFinset ↔ x ∈ s := by
  simp [toFinset]

@[simp] theorem toFinset_difference (s t : StringSet) :
    (s.difference t).toFinset = s.toFinset \ t.toFinset := by
  ext x
  simp

@[simp] theorem toFinset_union (s t : StringSet) :
    (s.union t).toFinset = s.toFinset ∪ t.toFinset := by
  ext x
  simp

theorem card_toFinset (s : StringSet) : s.toFinset.card = s.size :=
  List.toFinset_card_of_nodup s.nodup_toList

theorem size_eq_zero_iff {s : StringSet} : s.size = 0 ↔ s = ∅ := by
  constructor
  · intro h
    have hnil : s.toList = [] := List.length_eq_zero_iff.1 h
    exact ext fun x => by rw [← mem_toList, hnil]; rfl
  · rintro rfl
    rfl

theorem isEmpty_iff {s : StringSet} : s.isEmpty = true ↔ s = ∅ := by
  rw [← size_eq_zero_iff, isEmpty, size, List.isEmpty_iff_length_eq_zero]

theorem ofList_toList (s : StringSet) : ofList s.toList = s :=
  ext fun _ => mem_ofList.trans mem_toList

end StringSet

namespace StringMap

variable {β : Type}

theorem ofList_entries (m : StringMap β) : ofList m.entries = m := by
  refine ext fun k => ?_
  cases h : m.get? k with
  | none =>
    refine get?_eq_none_iff.2 fun hk => ?_
    obtain ⟨v, hv⟩ := Option.isSome_iff_exists.1 (mem_keys.1 hk)
    rw [get?_eq_some_iff.2 (mem_of_get?_ofList hv)] at h
    cases h
  | some v =>
    obtain ⟨w, hw⟩ := exists_get?_ofList (get?_eq_some_iff.1 h)
    have hm : m.get? k = some w := get?_eq_some_iff.2 (mem_of_get?_ofList hw)
    rw [hw, ← hm, h]

end StringMap

end CacheAudit
