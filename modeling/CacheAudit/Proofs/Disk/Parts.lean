import CacheAudit.Proofs.Disk.Entries
import CacheAudit.Proofs.Disk.Listing

/-!
# Parts of a disk

A place divides a disk into the part at and below it and what lies outside. What changes one part
leaves every other part alone that neither holds it nor lies in it, apart from new directories on
the way. Parts are compared without the times of their files.
-/

namespace CacheAudit

theorem Location.isWithin_iff {l m : Location} : l.isWithin m = true ↔ m <+: l := by
  rw [isWithin, List.isPrefixOf_iff_prefix]

/-- An entry without its time. -/
def Entry.timeless : Entry → Entry
  | file content _ => file content .epoch
  | e => e

theorem Entry.timeless_eq_directory {e : Entry} : e.timeless = .directory ↔ e = .directory := by
  cases e <;> simp [timeless]

namespace Disk

/-- What lies at or below a place, without times, in the order of the disk. -/
def part (d : Disk) (l : Location) : List (Location × Entry) :=
  (d.entries.filter fun f => f.1.isWithin l).map fun f => (f.1, f.2.timeless)

/-- What lies neither at nor below a place, in the order of the disk. -/
def outside (d : Disk) (l : Location) : List (Location × Entry) :=
  d.entries.filter fun f => !f.1.isWithin l

/-- What stands at a place, without its time. -/
def kindAt (d : Disk) (l : Location) : Option Entry :=
  (d.entry? l).map Entry.timeless

/-- A change at and below a place. Outside, it brings no more than directories on the way there. -/
structure Spares (l : Location) (d d' : Disk) : Prop where
  cwd : d'.cwd = d.cwd
  outside : ∃ made : List Location, (∀ m ∈ made, m <+: l) ∧
    d'.outside l = d.outside l ++ made.map fun m => (m, .directory)

/-- Two places of which neither is, or lies below, the other. -/
def Apart (l l' : Location) : Prop :=
  ¬l <+: l' ∧ ¬l' <+: l

variable {a d d' d'' : Disk} {l l' m : Location} {e : Entry}

theorem Apart.symm (h : Apart l l') : Apart l' l :=
  ⟨h.2, h.1⟩

/-- Nothing lies at or below two places that are apart. -/
theorem Apart.not_prefix (h : Apart l l') (hm : l <+: m) : ¬l' <+: m := fun hm' =>
  (List.prefix_or_prefix_of_prefix hm hm').elim h.1 h.2

/-! ### What stands at a place -/

theorem kindAt_eq_directory : d.kindAt l = some .directory ↔ d.entry? l = some .directory := by
  simp [kindAt, Entry.timeless_eq_directory]

theorem kindAt_eq_link {target : Path} :
    d.kindAt l = some (.link target) ↔ d.entry? l = some (.link target) := by
  rw [kindAt]
  rcases d.entry? l with - | - | - | - <;> simp [Entry.timeless]

theorem kindAt_eq_none : d.kindAt l = none ↔ d.entry? l = none :=
  Option.map_eq_none_iff

theorem entry?_outside (hne : m ≠ []) (hm : ¬l <+: m) :
    d.entry? m = ((d.outside l).find? fun f => f.1 == m).map Prod.snd := by
  rw [entry?_of_ne_nil hne, outside, List.find?_filter]
  congr 2
  funext f
  by_cases hf : f.1 = m
  · have hwithin : f.1.isWithin l = false := by
      rw [← Bool.not_eq_true, Location.isWithin_iff, hf]
      exact hm
    simp [hwithin, beq_eq_decide]
  · simp [hf]

theorem entry?_of_outside (h : d'.outside l = d.outside l) (hm : ¬l <+: m) :
    d'.entry? m = d.entry? m := by
  by_cases hne : m = []
  · subst hne
    rfl
  · rw [entry?_outside hne hm, entry?_outside hne hm, h]

theorem kindAt_part (hne : m ≠ []) (hm : l <+: m) :
    d.kindAt m = ((d.part l).find? fun f => f.1 == m).map Prod.snd := by
  rw [kindAt, entry?_of_ne_nil hne, part, List.find?_map, List.find?_filter, Option.map_map,
    Option.map_map]
  refine congrArg (Option.map (Entry.timeless ∘ Prod.snd)) ?_
  congr 1
  funext f
  by_cases hf : f.1 = m
  · simp [hf, Location.isWithin_iff.2 hm]
  · simp [hf]

/-- Equal parts hold the same at every place. -/
theorem kindAt_of_part (h : a.part l = d.part l) (hm : l <+: m) : a.kindAt m = d.kindAt m := by
  by_cases hne : m = []
  · subst hne
    rfl
  · rw [kindAt_part hne hm, kindAt_part hne hm, h]

/-- What a directory of a part holds, without times. -/
theorem children_part (hm : l <+: m) :
    (d.children m).map (fun c => (c.1, c.2.timeless)) = (d.part l).filterMap fun (m', e) =>
      match m'.getLast? with
      | some n => if m'.dropLast = m then some (n, e) else none
      | none => none := by
  rw [children, part, List.map_filterMap, List.filterMap_map, List.filterMap_filter]
  refine List.filterMap_congr fun f _ => ?_
  obtain ⟨m', e⟩ := f
  dsimp only [Function.comp]
  cases hlast : m'.getLast? with
  | none => simp
  | some n =>
    by_cases hparent : m'.dropLast = m
    · have hwithin : m'.isWithin l = true :=
        Location.isWithin_iff.2 (hm.trans (hparent ▸ List.dropLast_prefix m'))
      simp [hparent, hwithin]
    · simp [hparent]

/-! ### What a change leaves alone -/

theorem Spares.refl (l : Location) (d : Disk) : d.Spares l d :=
  ⟨rfl, [], by simp, by simp⟩

theorem spares_of_outside (hcwd : d'.cwd = d.cwd) (h : d'.outside l = d.outside l) :
    Spares l d d' :=
  ⟨hcwd, [], by simp, by simp [h]⟩

theorem Spares.trans (h : Spares l d d') (h' : Spares l d' d'') : Spares l d d'' := by
  obtain ⟨made, hmade, houtside⟩ := h.outside
  obtain ⟨made', hmade', houtside'⟩ := h'.outside
  refine ⟨h'.cwd.trans h.cwd, made ++ made', ?_, ?_⟩
  · intro m hm
    exact (List.mem_append.1 hm).elim (hmade m) (hmade' m)
  · rw [houtside', houtside, List.map_append, List.append_assoc]

/-- What stands outside stays, and what is new there are directories on the way. -/
theorem Spares.entry? (h : Spares l d d') (hm : ¬l <+: m) :
    d'.entry? m = d.entry? m ∨
      d.entry? m = none ∧ d'.entry? m = some .directory ∧ m <+: l := by
  by_cases hne : m = []
  · subst hne
    exact .inl rfl
  obtain ⟨made, hmade, houtside⟩ := h.outside
  rw [entry?_outside hne hm, entry?_outside hne hm, houtside, List.find?_append]
  cases (d.outside l).find? fun f => f.1 == m with
  | some f => exact .inl rfl
  | none =>
    cases hnew : (made.map fun m => (m, Entry.directory)).find? fun f => f.1 == m with
    | none => exact .inl rfl
    | some f =>
      obtain ⟨m', hm', rfl⟩ := List.mem_map.1 (List.mem_of_find?_eq_some hnew)
      have heq : m' = m := by simpa using List.find?_some hnew
      exact .inr ⟨rfl, rfl, heq ▸ hmade m' hm'⟩

/-- Parts that are apart from a change stay as they are. -/
theorem Spares.part (h : Spares l d d') (hapart : Apart l l') : d'.part l' = d.part l' := by
  obtain ⟨made, hmade, houtside⟩ := h.outside
  have hpart (d : Disk) : d.part l' =
      ((d.outside l).filter fun f => f.1.isWithin l').map fun f => (f.1, f.2.timeless) := by
    rw [Disk.part, Disk.outside, List.filter_filter]
    congr 1
    refine List.filter_congr fun f _ => ?_
    by_cases hf : l' <+: f.1
    · have hnot : f.1.isWithin l = false := by
        rw [← Bool.not_eq_true, Location.isWithin_iff]
        exact hapart.symm.not_prefix hf
      simp [hnot]
    · have hnot : f.1.isWithin l' = false := by
        rw [← Bool.not_eq_true, Location.isWithin_iff]
        exact hf
      simp [hnot]
  have hnew : (made.map fun m => (m, Entry.directory)).filter (fun f => f.1.isWithin l') = [] := by
    rw [List.filter_eq_nil_iff]
    rintro f hf
    obtain ⟨m, hm, rfl⟩ := List.mem_map.1 hf
    rw [Location.isWithin_iff]
    exact fun hlies => hapart.2 (hlies.trans (hmade m hm))
  rw [hpart, hpart, houtside, List.filter_append, hnew, List.append_nil]

/-! ### New directories -/

theorem put_of_free (hne : l ≠ []) (h : d.entry? l = none) :
    d.put l e = { d with entries := d.entries ++ [(l, e)] } := by
  rw [entry?_of_ne_nil hne, Option.map_eq_none_iff, List.find?_eq_none] at h
  rw [put, if_neg]
  rw [List.any_eq_true]
  exact fun ⟨f, hf, heq⟩ => h f hf heq

theorem part_put (hne : m ≠ []) (h : d.entry? m = none) :
    (d.put m e).part l = d.part l ++ if l <+: m then [(m, e.timeless)] else [] := by
  rw [put_of_free hne h, part, List.filter_append, List.map_append, ← part]
  congr 1
  by_cases hm : l <+: m
  · simp [Location.isWithin_iff.2 hm, hm]
  · have hnot : m.isWithin l = false := by
      rw [← Bool.not_eq_true, Location.isWithin_iff]
      exact hm
    simp [hnot, hm]

/-- A new directory on the way to a place spares what lies outside. -/
theorem spares_put (hne : m ≠ []) (h : d.entry? m = none) (hm : m <+: l) :
    Spares l d (d.put m .directory) := by
  refine ⟨cwd_put .., ?_⟩
  rw [put_of_free hne h, outside, List.filter_append, ← outside]
  by_cases hwithin : m.isWithin l = true
  · exact ⟨[], by simp, by simp [hwithin]⟩
  · exact ⟨[m], by simpa using hm, by simp [hwithin]⟩

/-- Something new in a directory leaves a tree. -/
theorem IsTree.put (h : d.IsTree) {n : Bytes} (hn : ProperName n)
    (hparent : d.entry? l = some .directory) (hfree : d.entry? (l ++ [n]) = none) :
    (d.put (l ++ [n]) e).IsTree := by
  have hkept {m : Location} (hm : d.entry? m = some .directory) :
      Disk.entry? (d.put (l ++ [n]) e) m = some .directory := by
    rw [entry?_put_of_ne, hm]
    rintro rfl
    cases hm.symm.trans hfree
  have hnot : (l ++ [n]) ∉ d.entries.map Prod.fst := by
    intro hmem
    obtain ⟨⟨m, e'⟩, hmem, rfl⟩ := List.mem_map.1 hmem
    cases ((h.entry?_eq_some_iff (by simp)).2 hmem).symm.trans hfree
  refine { distinct := ?distinct, rooted := ?rooted, proper := ?proper, parents := ?parents }
  case distinct =>
    rw [put_of_free (by simp) hfree, List.map_append, List.nodup_append]
    refine ⟨h.distinct, by simp, ?_⟩
    rintro m hm m' hm' rfl
    obtain rfl : m = l ++ [n] := by simpa using hm'
    exact hnot hm
  case rooted =>
    intro f hf
    rcases mem_entries_put hf with rfl | hf
    · simp
    · exact h.rooted f hf
  case proper =>
    intro f hf
    rcases mem_entries_put hf with rfl | hf
    · intro n' hn'
      rcases List.mem_append.1 hn' with hn' | hn'
      · by_cases hl : l = []
        · subst hl
          cases hn'
        · exact h.proper _ (mem_entries hl hparent) n' hn'
      · exact List.mem_singleton.1 hn' ▸ hn
    · exact h.proper f hf
  case parents =>
    intro f hf
    rcases mem_entries_put hf with rfl | hf
    · rw [List.dropLast_concat]
      exact hkept hparent
    · exact hkept (h.parents f hf)

/-! ### Removals -/

/-- The disk without the places that a test does not keep. -/
def restrict (d : Disk) (keep : Location → Bool) : Disk :=
  { d with entries := d.entries.filter fun f => keep f.1 }

section Restrict

variable {keep : Location → Bool}

theorem entry?_restrict (hm : keep m = true) : Disk.entry? (d.restrict keep) m = d.entry? m := by
  by_cases hne : m = []
  · subst hne
    rfl
  rw [entry?_of_ne_nil hne, entry?_of_ne_nil hne, restrict, List.find?_filter]
  congr 2
  funext f
  by_cases hf : f.1 = m <;> simp [hf, hm]

/-- A removal brings nothing new. -/
theorem entry?_of_restrict (h : Disk.entry? (d.restrict keep) m = some e) :
    d.entry? m = some e := by
  by_cases hm : keep m = true
  · rw [← h, entry?_restrict hm]
  by_cases hne : m = []
  · subst hne
    exact h
  · have hmem := (List.mem_filter.1 (mem_entries hne h)).2
    exact absurd hmem hm

/-- A removal that takes along what lies below leaves a tree. -/
theorem IsTree.restrict (h : d.IsTree) (hkeep : ∀ m n, keep (m ++ [n]) = true → keep m = true) :
    (d.restrict keep).IsTree := by
  have hmem {f : Location × Entry} (hf : f ∈ (d.restrict keep).entries) :=
    List.mem_filter.1 hf
  refine ⟨?_, fun f hf => h.rooted f (hmem hf).1, fun f hf => h.proper f (hmem hf).1, ?_⟩
  · exact h.distinct.sublist (List.filter_sublist.map _)
  · intro f hf
    obtain ⟨hf, hkept⟩ := hmem hf
    have hsplit := List.dropLast_append_getLast (h.rooted f hf)
    rw [← hsplit] at hkept
    rw [entry?_restrict (hkeep _ _ hkept)]
    exact h.parents f hf

end Restrict

end Disk

end CacheAudit
