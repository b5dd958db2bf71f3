import CacheAudit.Proofs.Disk.Key
import Mathlib.Data.List.Nodup
import Mathlib.Data.List.Induction
import Mathlib.Data.List.Perm.Subperm

/-!
# Disks that are trees

On a disk as operating systems keep it, every place is listed once, its names are names that a
directory can hold, and it lies in a directory. A path that goes on from a directory by names leads
to the place below that these names reach, unless it is too long to be looked up.
-/

namespace CacheAudit

/-- The path that goes on from another by names. -/
def Path.descend (p : Path) (names : List Bytes) : Path :=
  names.foldl (fun p n => p.join ⟨n⟩) p

namespace Disk

/-- A disk that is a tree. -/
structure IsTree (d : Disk) : Prop where
  distinct : (d.entries.map Prod.fst).Nodup
  rooted : ∀ e ∈ d.entries, e.1 ≠ []
  proper : ∀ e ∈ d.entries, ∀ n ∈ e.1, ProperName n
  parents : ∀ e ∈ d.entries, d.entry? e.1.dropLast = some .directory

instance (d : Disk) : Decidable d.IsTree :=
  decidable_of_iff
    ((d.entries.map Prod.fst).Nodup ∧ (∀ e ∈ d.entries, e.1 ≠ []) ∧
      (∀ e ∈ d.entries, ∀ n ∈ e.1, ProperName n) ∧
      ∀ e ∈ d.entries, d.entry? e.1.dropLast = some .directory)
    ⟨fun ⟨hdistinct, hrooted, hproper, hparents⟩ => ⟨hdistinct, hrooted, hproper, hparents⟩,
      fun h => ⟨h.distinct, h.rooted, h.proper, h.parents⟩⟩

variable {d : Disk} {l : Location} {e : Entry} {names : List Bytes}

theorem mem_entries (hl : l ≠ []) (h : d.entry? l = some e) : (l, e) ∈ d.entries := by
  unfold entry? at h
  rw [if_neg (by simpa using hl)] at h
  obtain ⟨⟨m, e'⟩, hfind, rfl⟩ := Option.map_eq_some_iff.1 h
  have hm : m = l := by simpa using List.find?_some hfind
  exact hm ▸ List.mem_of_find?_eq_some hfind

namespace IsTree

theorem entry?_eq_some_iff (h : d.IsTree) (hl : l ≠ []) :
    d.entry? l = some e ↔ (l, e) ∈ d.entries := by
  refine ⟨mem_entries hl, fun hmem => ?_⟩
  have hsome : (d.entries.find? fun f => f.1 == l).isSome := by
    rw [List.find?_isSome]
    exact ⟨(l, e), hmem, by simp⟩
  obtain ⟨⟨m, e'⟩, hfind⟩ := Option.isSome_iff_exists.1 hsome
  have hm : m = l := by simpa using List.find?_some hfind
  subst hm
  have heq := List.inj_on_of_nodup_map h.distinct (List.mem_of_find?_eq_some hfind) hmem rfl
  unfold entry?
  rw [if_neg (by simpa using hl), hfind, heq]
  rfl

/-- Everything above a place is a directory. -/
theorem directory_above (h : d.IsTree) {below : List Bytes} (hbelow : below ≠ [])
    (he : d.entry? (l ++ below) = some e) : d.entry? l = some .directory := by
  induction below using List.reverseRecOn generalizing e with
  | nil => exact absurd rfl hbelow
  | append_singleton rest n ih =>
    have hmem := mem_entries (by simp) he
    have hparent := h.parents _ hmem
    rw [← List.append_assoc, List.dropLast_concat] at hparent
    by_cases hrest : rest = []
    · rw [hrest, List.append_nil] at hparent
      exact hparent
    · exact ih hrest hparent

/-- The names on the way to a place are names that a directory can hold. -/
theorem proper_of_entry? (h : d.IsTree) (he : d.entry? (l ++ names) = some e) :
    ∀ n ∈ names, ProperName n := by
  intro n hn
  have hne : l ++ names ≠ [] := List.append_ne_nil_of_right_ne_nil _ (List.ne_nil_of_mem hn)
  exact h.proper _ (mem_entries hne he) n (List.mem_append_right _ hn)

/-- No place is deeper than there are entries. -/
theorem length_le (h : d.IsTree) (he : d.entry? l = some e) : l.length ≤ d.entries.length := by
  let above := (List.range l.length).map fun k => l.take (k + 1)
  have hnodup : above.Nodup := by
    refine List.Nodup.map_on ?_ List.nodup_range
    intro j hj k hk heq
    have hlength := congrArg List.length heq
    simp only [List.length_take, List.mem_range] at hlength hj hk
    omega
  have hsubset : above ⊆ d.entries.map Prod.fst := by
    intro m hm
    obtain ⟨k, hk, rfl⟩ := List.mem_map.1 hm
    have hk := List.mem_range.1 hk
    have hne : l.take (k + 1) ≠ [] := by
      intro hnil
      have hlength := congrArg List.length hnil
      simp only [List.length_take, List.length_nil] at hlength
      omega
    have hentry : ∃ e, d.entry? (l.take (k + 1)) = some e := by
      by_cases hrest : l.drop (k + 1) = []
      · rw [← List.take_append_drop (k + 1) l, hrest, List.append_nil] at he
        exact ⟨e, he⟩
      · rw [← List.take_append_drop (k + 1) l] at he
        exact ⟨_, h.directory_above hrest he⟩
    obtain ⟨e', he'⟩ := hentry
    exact List.mem_map_of_mem (mem_entries hne he')
  have hlength := (hnodup.subperm hsubset).length_le
  simpa [above] using hlength

end IsTree

end Disk

end CacheAudit
