import CacheAudit.Proofs.Disk.Tree

/-!
# What a change of a disk leaves in its places

Putting something at a place, erasing a place and moving a place change what stands there and
nothing else. A disk is grounded when everything on it lies in a directory, so nothing stands below
a file, a link or a free place, and moving a file takes nothing else along.
-/

namespace CacheAudit

namespace Disk

variable {d : Disk} {l l' : Location} {e : Entry}

theorem entry?_of_ne_nil (hl : l ≠ []) :
    d.entry? l = (d.entries.find? fun f => f.1 == l).map Prod.snd := by
  rw [ entry?, if_neg (by simpa using hl)]

/-! ### Putting and erasing -/

theorem entry?_put_self (hl : l ≠ []) : Disk.entry? (d.put l e) l = some e := by
  rw [entry?_of_ne_nil hl]
  unfold put
  split
  · rename_i hany
    have hsame : ((fun f => f.1 == l) ∘ fun f : Location × Entry =>
        if f.1 == l then (l, e) else f) = fun f => f.1 == l := by
      funext f
      by_cases hf : f.1 = l <;> simp [hf]
    obtain ⟨f, hfind⟩ := Option.isSome_iff_exists.1 (List.find?_isSome.2 (List.any_eq_true.1 hany))
    have hf : f.1 = l := by simpa using List.find?_some hfind
    rw [List.find?_map, hsame, hfind]
    simp [hf]
  · rename_i hany
    have hnone : (d.entries.find? fun f => f.1 == l) = none := by
      rw [List.find?_eq_none]
      exact fun f hf heq => hany (List.any_eq_true.2 ⟨f, hf, heq⟩)
    simp [List.find?_append, hnone]

theorem entry?_put_of_ne (hne : l' ≠ l) : Disk.entry? (d.put l e) l' = d.entry? l' := by
  by_cases hl' : l' = []
  · subst hl'
    rfl
  have hlast : ((l, e).1 == l') = false := by simpa using hne.symm
  rw [entry?_of_ne_nil hl', entry?_of_ne_nil hl']
  unfold put
  split
  · have hsame : ((fun f => f.1 == l') ∘ fun f : Location × Entry =>
        if f.1 == l then (l, e) else f) = fun f => f.1 == l' := by
      funext f
      by_cases hf : f.1 = l
      · simp [hf]
      · simp [hf]
    rw [List.find?_map, hsame]
    cases hfind : d.entries.find? fun f => f.1 == l' with
    | none => rfl
    | some f =>
      have hf : f.1 = l' := by simpa using List.find?_some hfind
      simp [hf, hne]
  · simp [List.find?_append, hlast]

@[simp] theorem cwd_put (d : Disk) (l : Location) (e : Entry) : (d.put l e).cwd = d.cwd := by
  unfold put
  split <;> rfl

theorem mem_entries_put {f : Location × Entry} (hf : f ∈ (d.put l e).entries) :
    f = (l, e) ∨ f ∈ d.entries := by
  unfold put at hf
  split at hf
  · obtain ⟨g, hg, rfl⟩ := List.mem_map.1 hf
    split
    · exact .inl rfl
    · exact .inr hg
  · simpa [or_comm] using hf

theorem entry?_erase_self (hl : l ≠ []) : Disk.entry? (d.erase l) l = none := by
  rw [entry?_of_ne_nil hl, erase, List.find?_filter]
  simp

theorem entry?_erase_of_ne (hne : l' ≠ l) : Disk.entry? (d.erase l) l' = d.entry? l' := by
  by_cases hl' : l' = []
  · subst hl'
    rfl
  rw [entry?_of_ne_nil hl', entry?_of_ne_nil hl', erase, List.find?_filter]
  congr 2
  funext f
  by_cases hf : f.1 = l'
  · simp [hf, hne]
  · simp [hf]

/-! ### Grounded disks -/

/-- A disk on which everything lies in a directory, the current directory being one. -/
structure IsGrounded (d : Disk) : Prop where
  parents : ∀ e ∈ d.entries, d.entry? e.1.dropLast = some .directory
  cwd : d.entry? d.cwd = some .directory

instance (d : Disk) : Decidable d.IsGrounded :=
  decidable_of_iff
    ((∀ e ∈ d.entries, d.entry? e.1.dropLast = some .directory) ∧
      d.entry? d.cwd = some .directory)
    ⟨fun ⟨hparents, hcwd⟩ => ⟨hparents, hcwd⟩, fun h => ⟨h.parents, h.cwd⟩⟩

namespace IsGrounded

theorem entry?_dropLast (h : d.IsGrounded) (he : d.entry? l = some e) :
    d.entry? l.dropLast = some .directory := by
  by_cases hl : l = []
  · subst hl
    rfl
  · exact h.parents _ (mem_entries hl he)

/-- Nothing stands below what is no directory. -/
theorem not_mem_below (h : d.IsGrounded) (hl : d.entry? l ≠ some .directory) {below : List Bytes}
    (hbelow : below ≠ []) : d.entry? (l ++ below) = none := by
  induction below using List.reverseRecOn with
  | nil => exact absurd rfl hbelow
  | append_singleton rest n ih =>
    cases hentry : d.entry? (l ++ (rest ++ [n])) with
    | none => rfl
    | some e =>
      have hparent := h.entry?_dropLast hentry
      rw [← List.append_assoc, List.dropLast_concat] at hparent
      by_cases hrest : rest = []
      · rw [hrest, List.append_nil] at hparent
        exact absurd hparent hl
      · rw [ih hrest] at hparent
        cases hparent

/-- A directory, or anything in the place of what is no directory, keeps a disk grounded when it
comes to lie in a directory. -/
theorem put (h : d.IsGrounded) (hne : l ≠ []) (hparent : d.entry? l.dropLast = some .directory)
    (hl : d.entry? l ≠ some .directory) : (d.put l e).IsGrounded := by
  have hkept {l' : Location} (hl' : d.entry? l' = some .directory) :
      Disk.entry? (d.put l e) l' = some .directory := by
    rw [entry?_put_of_ne, hl']
    rintro rfl
    exact hl hl'
  refine ⟨fun f hf => ?_, ?_⟩
  · rcases mem_entries_put hf with rfl | hf
    · exact hkept hparent
    · exact hkept (h.parents f hf)
  · rw [cwd_put]
    exact hkept h.cwd

/-- What lies at or below a place that is no directory is that place. -/
theorem isWithin_iff (h : d.IsGrounded) (hl : d.entry? l ≠ some .directory) {f : Location × Entry}
    (hf : f ∈ d.entries) : f.1.isWithin l = true ↔ f.1 = l := by
  rw [Location.isWithin, List.isPrefixOf_iff_prefix]
  constructor
  · rintro ⟨below, hbelow⟩
    by_cases hnil : below = []
    · rw [← hbelow, hnil, List.append_nil]
    · have hne : f.1 ≠ [] := hbelow ▸ List.append_ne_nil_of_right_ne_nil _ hnil
      have hnone := h.not_mem_below hl hnil
      rw [hbelow, entry?_of_ne_nil hne, Option.map_eq_none_iff, List.find?_eq_none] at hnone
      exact absurd (beq_self_eq_true f.1) (hnone f hf)
  · exact fun heq => heq ▸ List.prefix_rfl

end IsGrounded

/-! ### Moving -/

section Move

variable {base : Location} {m n : Bytes}

/-- A move of a file within a directory changes nothing but its name. -/
theorem entries_moveTree (h : d.IsGrounded) (hm : d.entry? (base ++ [m]) ≠ some .directory)
    (hn : d.entry? (base ++ [n]) ≠ some .directory) :
    (d.moveTree (base ++ [m]) (base ++ [n])).entries =
      (d.entries.filter fun f => f.1 != base ++ [n]).map fun f =>
        if f.1 = base ++ [m] then (base ++ [n], f.2) else f := by
  have hkept : (d.entries.filter fun f => !f.1.isWithin (base ++ [n])) =
      d.entries.filter fun f => f.1 != base ++ [n] := by
    refine List.filter_congr fun f hf => ?_
    rw [bne, Bool.eq_iff_iff.2 ((h.isWithin_iff hn hf).trans beq_iff_eq.symm)]
  unfold moveTree eraseTree
  dsimp only
  rw [hkept]
  refine List.map_congr_left fun f hf => ?_
  have hwithin := h.isWithin_iff hm (List.mem_filter.1 hf).1
  by_cases heq : f.1 = base ++ [m]
  · rw [if_pos (hwithin.2 heq), if_pos heq, heq, List.drop_length, List.append_nil]
  · rw [if_neg (mt hwithin.1 heq), if_neg heq]

/-- A file that takes the name of another, or a free name in its directory, leaves its own name
free, and everything else stays where it is. -/
theorem entry?_moveTree (h : d.IsGrounded) (hm : d.entry? (base ++ [m]) ≠ some .directory)
    (hn : d.entry? (base ++ [n]) ≠ some .directory) (hmn : m ≠ n) (l : Location) :
    Disk.entry? (d.moveTree (base ++ [m]) (base ++ [n])) l =
      if l = base ++ [n] then d.entry? (base ++ [m])
      else if l = base ++ [m] then none else d.entry? l := by
  by_cases hl : l = []
  · subst hl
    simp [ entry?]
  have hsecond : (Prod.snd ∘ fun f : Location × Entry =>
      if f.1 = base ++ [m] then (base ++ [n], f.2) else f) = Prod.snd := by
    funext f
    by_cases hf : f.1 = base ++ [m] <;> simp [hf]
  rw [entry?_of_ne_nil hl, entries_moveTree h hm hn, List.find?_map, List.find?_filter,
    Option.map_map, hsecond]
  split
  · -- what stands at the new name stood at the old one
    rename_i htarget
    rw [entry?_of_ne_nil (by simp)]
    congr 2
    funext f
    by_cases hf : f.1 = base ++ [m]
    · simp [hf, htarget, hmn]
    · simp [hf, htarget]
  split
  · rename_i htarget hsource
    rw [List.find?_eq_none.2]
    · rfl
    · intro f hf
      by_cases hf : f.1 = base ++ [m]
      · simp [hf, hsource, hmn, hmn.symm]
      · simp [hf, hsource]
  · rename_i htarget hsource
    rw [entry?_of_ne_nil hl]
    congr 2
    funext f
    by_cases hf : f.1 = base ++ [m]
    · simp [hf, Ne.symm hsource, Ne.symm htarget]
    · by_cases hl' : f.1 = l
      · simp [hl', hsource, htarget]
      · simp [hf, hl']

end Move

end Disk

end CacheAudit
