import CacheAudit.Proofs.Disk.NewDirectories

/-!
# Removing a tree by its path

Where no link is in the way, the removal of a tree touches nothing but the place of its path, and
what becomes of that place follows from what stands there and from the spelling of the path.
-/

namespace CacheAudit

namespace Disk

open CacheAudit.Path (below endsInName)

variable {d : Disk} {l m : Location} {p : Path}

/-- The disk without the tree at a path, if the path leads anywhere. -/
def vacate (d : Disk) (p : Path) : Disk × Except SystemError Unit :=
  match d.follow p with
  | .ok _ => d.removeTree p
  | .error _ => (d, .ok ())

/-- The error of removing a directory by a path that can be emptied and not removed. -/
def stubborn? (p : Path) : Option SystemError :=
  if steps p = [] then some .busy
  else (lastDots? p).map fun part => if part = Path.dot then .invalidArgument else .notEmpty

/-! ### What a removal keeps -/

theorem clear_eq_restrict (d : Disk) (l : Location) :
    d.clear l = d.restrict fun m => m == l || !m.isWithin l := rfl

theorem eraseTree_eq_restrict (d : Disk) (l : Location) :
    d.eraseTree l = d.restrict fun m => !m.isWithin l := rfl

theorem part_restrict (keep : Location → Bool) :
    (d.restrict keep).part l = (d.part l).filter fun f => keep f.1 := by
  rw [part, part, restrict, List.filter_map, List.filter_filter, List.filter_filter]
  congr 1
  exact List.filter_congr fun f _ => Bool.and_comm ..

/-- A removal within a place spares what lies outside. -/
theorem spares_restrict {keep : Location → Bool} (hkeep : ∀ m, ¬l <+: m → keep m = true) :
    Spares l d (d.restrict keep) := by
  refine ⟨rfl, [], by simp, ?_⟩
  rw [List.map_nil, List.append_nil, outside, outside, restrict, List.filter_filter]
  refine List.filter_congr fun f _ => ?_
  by_cases hf : l <+: f.1
  · simp [Location.isWithin_iff.2 hf]
  · rw [hkeep _ hf, Bool.and_true]

theorem not_isWithin (hm : ¬l <+: m) : m.isWithin l = false := by
  rw [← Bool.not_eq_true, Location.isWithin_iff]
  exact hm

theorem keeps_clear (hm : ¬l <+: m) : (m == l || !m.isWithin l) = true := by
  simp [not_isWithin hm]

theorem keeps_eraseTree (hm : ¬l <+: m) : (!m.isWithin l) = true := by
  simp [not_isWithin hm]

theorem closed_clear (m : Location) (n : Bytes)
    (h : (m ++ [n] == l || !(m ++ [n]).isWithin l) = true) : (m == l || !m.isWithin l) = true := by
  by_cases hm : l <+: m
  · have hnot : m ++ [n] ≠ l := by
      rintro rfl
      have hlength := hm.length_le
      rw [List.length_append, List.length_singleton] at hlength
      omega
    have hwithin := Location.isWithin_iff.2 (hm.trans (List.prefix_append m [n]))
    simp [hnot, hwithin] at h
  · exact keeps_clear hm

theorem closed_eraseTree (m : Location) (n : Bytes) (h : (!(m ++ [n]).isWithin l) = true) :
    (!m.isWithin l) = true := by
  by_cases hm : l <+: m
  · rw [Location.isWithin_iff.2 (hm.trans (List.prefix_append m [n]))] at h
    cases h
  · exact keeps_eraseTree hm

theorem children_clear (d : Disk) (l : Location) : (d.clear l).children l = [] := by
  rw [List.eq_nil_iff_forall_not_mem]
  rintro ⟨n, e⟩ hchild
  have hkept : (l ++ [n] == l || !(l ++ [n]).isWithin l) = true :=
    (List.mem_filter.1 (mem_children.1 hchild)).2
  rw [Location.isWithin_iff.2 (List.prefix_append l [n]), Bool.not_true, Bool.or_false,
    beq_iff_eq] at hkept
  simp at hkept

theorem erase_clear (d : Disk) (l : Location) : (d.clear l).erase l = d.eraseTree l := by
  rw [erase, clear, eraseTree, List.filter_filter]
  congr 1
  refine List.filter_congr fun f _ => ?_
  by_cases hf : f.1 = l
  · have hwithin : l.isWithin l = true := Location.isWithin_iff.2 List.prefix_rfl
    simp [hf, hwithin]
  · have hne : (f.1 == l) = false := beq_eq_false_iff_ne.2 hf
    rw [bne, hne, Bool.not_false, Bool.true_and, Bool.false_or]

/-! ### What the path has to do with it -/

theorem Leads.lookup {links links' : Nat} {l' : Location} {parts : List Bytes}
    (h : d.Leads links l parts links' l') :
    d.lookup true links l .directory parts = .ok (.found l' .directory) := by
  induction h with
  | here links l => exact lookup_nil ..
  | dot _ ih => rw [lookup_dot, ih]
  | up _ ih => rw [lookup_dotDot, ih]
  | enter hdot hdots hlong hentry _ ih => rw [lookup_entry hdot hdots hlong (by simp) hentry, ih]
  | follow hdot hdots hlong hentry hempty _ ih =>
    rw [lookup_link hdot hdots hlong (by simp) hentry]
    simp only [hempty]
    exact ih

theorem resolve_eq_directory
    (h : (d.resolve p).map Place.timeless = .ok (.found l .directory)) :
    d.resolve p = .ok (.found l .directory) := by
  rcases hplace : d.resolve p with error | ⟨l', e⟩ | l' <;> rw [hplace] at h <;>
    simp only [Except.map, Place.timeless, Except.ok.injEq, Place.found.injEq, reduceCtorEq] at h
  rw [h.1, Entry.timeless_eq_directory.1 h.2]

/-- The removal of an empty directory comes to an error that its path alone decides, or erases the
place. -/
theorem removeDirectory_eq (hp : p.Forward) (hlink : d.LinkFree (Location.ofPath d.cwd p))
    (hempty : d.children l = []) (hfound : d.resolve p = .ok (.found l .directory)) :
    d.removeDirectory p = match stubborn? p with
      | some e => .error e
      | none => .ok (d.erase l) := by
  have hresolve : d.resolve p = _ := resolveSteps_eq_seek hp hlink (nil_not_mem_strictSteps p)
    (meaningful_strictSteps p)
  rw [hfound] at hresolve
  split at hresolve
  · cases hresolve
  rename_i hnonempty
  split at hresolve
  · cases hresolve
  rename_i hshort
  have hsteps (follow : Bool) : d.resolveSteps follow p (steps p) = .ok (.found l .directory) := by
    rw [resolveSteps_eq_seek hp hlink (nil_not_mem_steps p) (meaningful_steps p), if_neg hnonempty,
      if_neg hshort]
    exact seek_directory hresolve.symm _
  rw [removeDirectory, stubborn?]
  by_cases hnil : steps p = []
  · rw [if_pos hnil, if_pos hnil, if_neg hnonempty]
  rw [if_neg hnil, if_neg hnil]
  obtain ⟨-, hlookup⟩ := lookup_of_resolveSteps (hsteps true)
  obtain ⟨-, links, above, hleads⟩ := exists_leads hnil hlookup
  have habove : d.resolveSteps true p (steps p).dropLast = .ok (.found above .directory) := by
    rw [resolveSteps, if_neg hnonempty, if_neg hshort]
    exact hleads.lookup
  rw [habove]
  dsimp only
  cases lastDots? p with
  | some part => rfl
  | none =>
    dsimp only [Option.map_none]
    rw [hsteps false]
    dsimp only
    rw [hempty]
    rfl

/-- The removal of a tree, by what its path leads to. -/
theorem removeTree_eq (hp : p.Forward) (hlink : d.LinkFree (Location.ofPath d.cwd p)) :
    d.removeTree p = match d.follow p with
      | .error e => (d, .error e)
      | .ok (l, .directory) => match stubborn? p with
        | some e => (d.clear l, .error e)
        | none => (d.eraseTree l, .ok ())
      | .ok _ => (d, .error .notDirectory) := by
  have hresolve : d.resolveSteps false p (strictSteps p) = d.resolve p := by
    rw [resolve, resolveSteps_eq_seek hp hlink (nil_not_mem_strictSteps p)
      (meaningful_strictSteps p), resolveSteps_eq_seek hp hlink (nil_not_mem_strictSteps p)
      (meaningful_strictSteps p)]
  rw [removeTree, hresolve]
  rcases hplace : d.resolve p with e | ⟨l, e⟩ | l
  · simp [follow, hplace]
  · have hfollow : d.follow p = .ok (l, e) := by rw [follow, hplace]
    obtain ⟨rfl, hnil, hcons⟩ := place_of_follow hp hlink hfollow
    rw [hfollow]
    cases e with
    | file content modified => rfl
    | link target =>
      by_cases hbelow : below p.parts = []
      · cases hnil hbelow
      · exact absurd (hcons hbelow) (hlink _ List.prefix_rfl target)
    | directory =>
      have hway (m : Location) (hm : m <+: Location.ofPath d.cwd p) :
          d.kindAt m = (d.clear (Location.ofPath d.cwd p)).kindAt m := by
        rw [kindAt, kindAt, clear_eq_restrict, entry?_restrict]
        by_cases heq : m = Location.ofPath d.cwd p
        · simp [heq]
        · exact keeps_clear fun hm' => heq (hm.eq_of_length_le hm'.length_le)
      have hcleared := resolve_congr (a := d) (d := d.clear (Location.ofPath d.cwd p)) hp rfl
        hlink hway
      rw [hplace] at hcleared
      have hempty : (d.clear (Location.ofPath d.cwd p)).LinkFree (Location.ofPath d.cwd p) :=
        linkFree_of_kindAt hway hlink
      dsimp only
      rw [removeDirectory_eq (d := d.clear (Location.ofPath d.cwd p)) hp hempty (children_clear ..)
        (resolve_eq_directory hcleared.symm), erase_clear]
      cases stubborn? p <;> rfl
  · simp [follow, hplace]

/-! ### Paths that end in a name -/

/-- A path by which a directory can be removed ends in a name. -/
theorem below_ne_nil_of_stubborn? (h : stubborn? p = none) : below p.parts ≠ [] := by
  rw [stubborn?] at h
  split at h
  · cases h
  rename_i hsteps
  rw [Option.map_eq_none_iff, lastDots?, List.getLast?_eq_getLast_of_ne_nil hsteps] at h
  dsimp only at h
  split at h
  · cases h
  rename_i hdots
  rw [not_or] at hdots
  have hmem := List.getLast_mem hsteps
  have hname : (steps p).getLast hsteps ∈ Path.meaningful p.parts := by
    rw [← meaningful_steps, Path.meaningful, List.mem_filter]
    refine ⟨hmem, ?_⟩
    have hpart : ¬((steps p).getLast hsteps = [] ∨ (steps p).getLast hsteps = Path.dot) :=
      not_or.2 ⟨fun hnil => nil_not_mem_steps p (hnil ▸ hmem), hdots.1⟩
    rw [Path.component?, if_neg hpart, if_neg hdots.2]
    rfl
  intro hnil
  have hall := List.dropWhile_eq_nil_iff.1 hnil _ hname
  exact hdots.2 (by simpa using hall)

/-- A path without names leads to the directory where its names would begin. -/
theorem follow_of_below_eq_nil (hp : p.Forward) (hlink : d.LinkFree (Location.ofPath d.cwd p))
    (hne : p.bytes ≠ []) (hshort : p.bytes.length < pathLimit) (hnil : below p.parts = []) :
    d.follow p = .ok (d.base p, .directory) := by
  have hresolve : d.resolve p = .ok (.found (d.base p) .directory) := by
    rw [resolve, resolveSteps_eq_seek hp hlink (nil_not_mem_strictSteps p)
      (meaningful_strictSteps p), if_neg (by simpa using hne), if_neg (by omega), hnil, seek]
  rw [Disk.follow, hresolve]

/-- The removal of a tree by a path that leads to a directory and does not end in a name fails. -/
theorem below_ne_nil_of_removeTree (hp : p.Forward) (hlink : d.LinkFree (Location.ofPath d.cwd p))
    (hok : (d.removeTree p).2 = .ok ()) : below p.parts ≠ [] := by
  rw [removeTree_eq hp hlink] at hok
  split at hok
  · cases hok
  · cases hstubborn : stubborn? p with
    | some e =>
      rw [hstubborn] at hok
      cases hok
    | none => exact below_ne_nil_of_stubborn? hstubborn
  · cases hok

/-- Where the names of the path begin, there is a directory still after the removal of the tree. -/
theorem base_directory_removeTree (hp : p.Forward) (hlink : d.LinkFree (Location.ofPath d.cwd p))
    (hspares : Spares (Location.ofPath d.cwd p) d (d.removeTree p).1)
    (hok : (d.removeTree p).2 = .ok ()) (hbase : d.entry? (d.base p) = some .directory) :
    Disk.entry? (d.removeTree p).1 (d.base p) = some .directory := by
  have hbelow := below_ne_nil_of_removeTree hp hlink hok
  have hnot : ¬Location.ofPath d.cwd p <+: d.base p := by
    intro hlies
    have hlength := hlies.length_le
    have hpos := List.length_pos_of_ne_nil hbelow
    rw [← base_append hp d, List.length_append] at hlength
    omega
  rcases hspares.entry? hnot with hsame | ⟨hnone, -⟩
  · rw [hsame, hbase]
  · cases hbase.symm.trans hnone

end Disk

end CacheAudit
