import CacheAudit.Proofs.Disk.Removal

/-!
# A part of a disk on which others work

When others work on places apart from a given one, what lies at and below it stays as it would be
without them, and all that changes on the way there is that missing directories appear. Emptying the
place and making it anew then comes to the same with the others and without.
-/

namespace CacheAudit

namespace Disk

open CacheAudit.Path (below endsInName)

/-- A disk `d` that differs from `a`, as far as a place is concerned, by no more than directories
on the way there. -/
structure Grown (l : Location) (a d : Disk) : Prop where
  /-- Both disks are trees. -/
  tree : a.IsTree
  tree' : d.IsTree
  cwd : d.cwd = a.cwd
  /-- They agree on what lies at and below the place. -/
  part : d.part l = a.part l
  linkFree : a.LinkFree l
  /-- Above the place, `d` may have a directory where `a` has nothing. -/
  above : ∀ m, m <+: l → m ≠ l →
    d.entry? m = a.entry? m ∨ a.entry? m = none ∧ d.entry? m = some .directory

variable {a d d' : Disk} {l l' m here : Location} {e : Entry} {n : Bytes} {names : List Bytes}
  {p : Path}

theorem Grown.refl (htree : d.IsTree) (hlink : d.LinkFree l) : Grown l d d :=
  ⟨htree, htree, rfl, rfl, hlink, fun _ _ _ => .inl rfl⟩

/-- The names of a path that the system can take are names that a directory can hold. -/
theorem proper_below (hp : p.Forward) (hnul : 0 ∉ p.bytes) : ∀ n ∈ below p.parts, ProperName n := by
  intro n hn
  have hmeaning : n ∈ Path.meaningful p.parts := (List.dropWhile_sublist _).subset hn
  obtain ⟨hparts, hsome⟩ := List.mem_filter.1 hmeaning
  have hpart : ¬(n = [] ∨ n = Path.dot) := by
    intro heq
    rw [Path.component?, if_pos heq] at hsome
    cases hsome
  rw [not_or] at hpart
  refine ⟨hpart.1, Path.slash_not_mem_parts hparts, fun hzero => hnul ?_, hpart.2, ?_⟩
  · exact Path.subset_of_mem_parts hparts hzero
  · rintro rfl
    exact hp hn

/-- A place at which something stands is reached through directories. -/
theorem IsTree.reaches (h : d.IsTree) (he : d.entry? l = some e) : d.Reaches l := by
  rintro m ⟨rest, rfl⟩ hne
  exact h.directory_above (fun hnil => hne (by rw [hnil, List.append_nil])) he

/-- The names of a path begin in a directory. -/
theorem IsTree.base_directory (h : d.IsTree) (hcwd : d.entry? d.cwd = some .directory)
    (p : Path) : d.entry? (d.base p) = some .directory := by
  have hgrounded : d.IsGrounded := ⟨h.parents, hcwd⟩
  have hclimb (ups : List Bytes) {l : Location} (hl : d.entry? l = some .directory) :
      d.entry? (ups.foldl (fun l _ => l.dropLast) l) = some .directory := by
    induction ups generalizing l with
    | nil => exact hl
    | cons n rest ih => exact ih (hgrounded.entry?_dropLast hl)
  exact hclimb _ (hgrounded.start p)

/-- A place without names of its own is there when its base is. -/
theorem reaches_of_below_eq_nil (htree : a.IsTree) (hp : p.Forward)
    (hbase : a.entry? (a.base p) = some .directory) (hnil : below p.parts = []) :
    a.Reaches (Location.ofPath a.cwd p) := by
  rw [← base_append hp a, hnil, List.append_nil]
  exact htree.reaches hbase

/-- A place whose own directory is reached is reached itself. -/
theorem Reaches.spares (h : d.Reaches l) (hspares : Spares l' d d') (hapart : Apart l' l) :
    d'.Reaches l := by
  intro m hm hne
  have hnot : ¬l' <+: m := fun hwithin => hapart.1 (hwithin.trans hm)
  rcases hspares.entry? hnot with hsame | ⟨hnone, -⟩
  · rw [hsame, h m hm hne]
  · cases (h m hm hne).symm.trans hnone

/-- What happens at and below a place leaves it within reach. -/
theorem Reaches.spares_self (h : d.Reaches l) (hspares : Spares l d d') : d'.Reaches l := by
  intro m hm hne
  have hnot : ¬l <+: m := fun hwithin => hne (hm.eq_of_length_le hwithin.length_le)
  rcases hspares.entry? hnot with hsame | ⟨hnone, -⟩
  · rw [hsame, h m hm hne]
  · cases (h m hm hne).symm.trans hnone

theorem LinkFree.spares (h : d.LinkFree l) (hspares : Spares l' d d') (hapart : Apart l' l) :
    d'.LinkFree l := by
  intro m hm target hlink
  have hnot : ¬l' <+: m := fun hwithin => hapart.1 (hwithin.trans hm)
  rcases hspares.entry? hnot with hsame | ⟨-, hdirectory, -⟩
  · exact h m hm target (hsame.symm.trans hlink)
  · cases hdirectory.symm.trans hlink

theorem LinkFree.put (h : d.LinkFree l) : (d.put m .directory).LinkFree l := by
  intro m' hm' target hlink
  by_cases heq : m' = m
  · subst heq
    by_cases hne : m' = []
    · subst hne
      cases hlink
    · cases (entry?_put_self hne).symm.trans hlink
  · exact h m' hm' target ((entry?_put_of_ne heq).symm.trans hlink)

/-! ### Walks -/

/-- What the walk of a directory makes of a child. -/
def childItems (d : Disk) (p : Path) (l : Location) (names : List Bytes) (fuel : Nat) :
    Bytes × Entry → List WalkItem
  | (n, .file ..) => [.file (p.join ⟨n⟩) (names ++ [n])]
  | (_, .link _) => [.other]
  | (n, .directory) => .other :: d.walkFrom (p.join ⟨n⟩) (l ++ [n]) (names ++ [n]) fuel

/-- The walk of a directory has no regard for the times of its children. -/
theorem walkFrom_eq_flatMap (hlong : ¬pathLimit ≤ p.bytes.length) (fuel : Nat) :
    d.walkFrom p l names (fuel + 1) =
      ((d.children l).map fun c => (c.1, c.2.timeless)).flatMap (d.childItems p l names fuel) := by
  rw [walkFrom, if_neg hlong, List.flatMap_map]
  refine List.flatMap_congr fun c _ => ?_
  obtain ⟨n, - | - | -⟩ := c <;> rfl

/-- The walk of a directory of a part that two trees share comes across the same on both. -/
theorem walkFrom_congr (ha : a.IsTree) (hd : d.IsTree) (hpart : d.part l = a.part l)
    (hm : l <+: m) (hentry : a.entry? m = some .directory) {fuel fuel' : Nat}
    (hfuel : a.entries.length < m.length + fuel) (hfuel' : d.entries.length < m.length + fuel') :
    a.walkFrom p m names fuel = d.walkFrom p m names fuel' := by
  induction fuel generalizing m p names fuel' with
  | zero =>
    have hdepth := ha.length_le hentry
    omega
  | succ fuel ih =>
    have hentry' : d.entry? m = some .directory := by
      rw [← kindAt_eq_directory, kindAt_of_part hpart hm, kindAt_eq_directory, hentry]
    cases fuel' with
    | zero =>
      have hdepth := hd.length_le hentry'
      omega
    | succ fuel' =>
      by_cases hlong : pathLimit ≤ p.bytes.length
      · rw [walkFrom, walkFrom, if_pos hlong, if_pos hlong]
      have hchildren : (a.children m).map (fun c => (c.1, c.2.timeless)) =
          (d.children m).map fun c => (c.1, c.2.timeless) := by
        rw [children_part hm, children_part hm, hpart]
      rw [walkFrom_eq_flatMap hlong, walkFrom_eq_flatMap hlong, ← hchildren]
      refine List.flatMap_congr fun c hc => ?_
      obtain ⟨⟨n, e⟩, hchild, rfl⟩ := List.mem_map.1 hc
      cases e with
      | file content modified => rfl
      | link target => rfl
      | directory =>
        have hbelow := (ha.entry?_eq_some_iff (by simp)).2 (mem_children.1 hchild)
        refine congrArg (WalkItem.other :: ·) (ih (hm.trans (List.prefix_append _ _)) hbelow ?_ ?_)
        · rw [List.length_append, List.length_singleton]
          omega
        · rw [List.length_append, List.length_singleton]
          omega

namespace Grown

theorem kindAt_self (h : Grown l a d) : a.kindAt l = d.kindAt l :=
  kindAt_of_part h.part.symm List.prefix_rfl

/-- Once the place is reached without the others, nothing on the way changes any more. -/
theorem kindAt (h : Grown l a d) (ha : a.Reaches l) (hm : m <+: l) : a.kindAt m = d.kindAt m := by
  by_cases hne : m = l
  · exact hne ▸ h.kindAt_self
  rcases h.above m hm hne with hsame | ⟨hnone, -⟩
  · rw [Disk.kindAt, Disk.kindAt, hsame]
  · cases (ha m hm hne).symm.trans hnone

theorem reaches (h : Grown l a d) (ha : a.Reaches l) : d.Reaches l := by
  intro m hm hne
  rw [← kindAt_eq_directory, ← h.kindAt ha hm, kindAt_eq_directory]
  exact ha m hm hne

theorem linkFree' (h : Grown l a d) : d.LinkFree l := by
  intro m hm target hlink
  by_cases hne : m = l
  · rw [hne, ← kindAt_eq_link, ← h.kindAt_self, kindAt_eq_link] at hlink
    exact h.linkFree l List.prefix_rfl target hlink
  rcases h.above m hm hne with hsame | ⟨-, hdirectory⟩
  · exact h.linkFree m hm target (hsame.symm.trans hlink)
  · cases hdirectory.symm.trans hlink

/-- What others do to places apart from this one lets the disk grow. -/
theorem spares (h : Grown l a d) (htree : d'.IsTree) (hspares : Spares l' d d')
    (hapart : Apart l' l) : Grown l a d' := by
  refine ⟨h.tree, htree, hspares.cwd.trans h.cwd, (hspares.part hapart).trans h.part, h.linkFree,
    fun m hm hne => ?_⟩
  have hnot : ¬l' <+: m := fun hwithin => hapart.1 (hwithin.trans hm)
  rcases hspares.entry? hnot with hsame | ⟨hnone, hdirectory, -⟩
  · rw [hsame]
    exact h.above m hm hne
  · rcases h.above m hm hne with hsame | ⟨hfree, -⟩
    · exact .inr ⟨hsame.symm.trans hnone, hdirectory⟩
    · exact .inr ⟨hfree, hdirectory⟩

/-- A change at and below the place that comes to the same with the others and without. -/
theorem within {a' : Disk} (h : Grown l a d) (htree : a'.IsTree) (htree' : d'.IsTree)
    (hcwd : a'.cwd = a.cwd) (hcwd' : d'.cwd = d.cwd) (houtside : a'.outside l = a.outside l)
    (houtside' : d'.outside l = d.outside l) (hlink : a'.LinkFree l)
    (hpart : d'.part l = a'.part l) : Grown l a' d' := by
  refine ⟨htree, htree', by rw [hcwd, hcwd', h.cwd], hpart, hlink, fun m hm hne => ?_⟩
  have hnot : ¬l <+: m := fun hwithin => hne (hm.eq_of_length_le hwithin.length_le)
  rw [entry?_of_outside houtside hnot, entry?_of_outside houtside' hnot]
  exact h.above m hm hne

/-! ### Removals -/

/-- A removal of the same places within the given one. -/
theorem restrict (h : Grown l a d) {keep : Location → Bool}
    (hclosed : ∀ m n, keep (m ++ [n]) = true → keep m = true)
    (hkeep : ∀ m, ¬l <+: m → keep m = true) : Grown l (a.restrict keep) (d.restrict keep) := by
  refine ⟨h.tree.restrict hclosed, h.tree'.restrict hclosed, h.cwd, ?_, ?_, ?_⟩
  · rw [part_restrict, part_restrict, h.part]
  · exact fun m hm target hlink => h.linkFree m hm target (entry?_of_restrict hlink)
  · intro m hm hne
    have hnot : ¬l <+: m := fun hwithin => hne (hm.eq_of_length_le hwithin.length_le)
    rw [entry?_restrict (hkeep m hnot), entry?_restrict (hkeep m hnot)]
    exact h.above m hm hne

/-- Whether the path of the place leads anywhere is the same with the others and without, and so is
what it leads to. -/
theorem follow (h : Grown (Location.ofPath a.cwd p) a d) (hp : p.Forward)
    (hnear : below p.parts = [] → a.Reaches (Location.ofPath a.cwd p)) :
    (a.follow p).map (fun (l, e) => (l, e.timeless)) =
        (d.follow p).map (fun (l, e) => (l, e.timeless)) ∨
      (∃ e, a.follow p = .error e) ∧ ∃ e, d.follow p = .error e := by
  by_cases hreaches : a.Reaches (Location.ofPath a.cwd p)
  · exact .inl (follow_congr hp h.cwd h.linkFree fun m hm => h.kindAt hreaches hm)
  -- nothing stands at the place, so its path cannot be followed to the end
  have hbelow : below p.parts ≠ [] := fun hnil => hreaches (hnear hnil)
  have hnone : a.entry? (Location.ofPath a.cwd p) = none := by
    cases hentry : a.entry? (Location.ofPath a.cwd p) with
    | none => rfl
    | some e => exact absurd (h.tree.reaches hentry) hreaches
  have hnone' : d.entry? (Location.ofPath d.cwd p) = none := by
    rw [h.cwd, ← kindAt_eq_none, ← h.kindAt_self, kindAt_eq_none, hnone]
  refine .inr ⟨?_, ?_⟩
  · cases hfollow : a.follow p with
    | error e => exact ⟨e, rfl⟩
    | ok found =>
      obtain ⟨m, e⟩ := found
      obtain ⟨rfl, -, hentry⟩ := place_of_follow hp h.linkFree hfollow
      cases (hentry hbelow).symm.trans hnone
  · cases hfollow : d.follow p with
    | error e => exact ⟨e, rfl⟩
    | ok found =>
      obtain ⟨m, e⟩ := found
      obtain ⟨rfl, -, hentry⟩ := place_of_follow hp (h.cwd ▸ h.linkFree') hfollow
      cases (hentry hbelow).symm.trans hnone'

/-- A removal of the tree at the place comes to the same with the others and without. -/
theorem removeTree (h : Grown (Location.ofPath a.cwd p) a d) (hp : p.Forward)
    (hfollow : (a.follow p).map (fun (l, e) => (l, e.timeless)) =
      (d.follow p).map fun (l, e) => (l, e.timeless)) :
    (a.removeTree p).2 = (d.removeTree p).2 ∧
      Grown (Location.ofPath a.cwd p) (a.removeTree p).1 (d.removeTree p).1 ∧
      Spares (Location.ofPath a.cwd p) a (a.removeTree p).1 ∧
      Spares (Location.ofPath a.cwd p) d (d.removeTree p).1 := by
  rw [removeTree_eq hp h.linkFree, removeTree_eq hp (h.cwd ▸ h.linkFree')]
  rcases ha : a.follow p with error | ⟨l, e⟩ <;> rcases hd : d.follow p with error' | ⟨l', e'⟩ <;>
    rw [ha, hd] at hfollow <;>
    simp only [Except.map, Except.ok.injEq, Except.error.injEq, Prod.mk.injEq,
      reduceCtorEq] at hfollow
  · exact ⟨by rw [hfollow], h, .refl .., .refl ..⟩
  obtain ⟨rfl, hkind⟩ := hfollow
  obtain ⟨rfl, -⟩ := place_of_follow hp h.linkFree ha
  cases e <;> cases e' <;> simp only [Entry.timeless, reduceCtorEq] at hkind
  · exact ⟨rfl, h, .refl .., .refl ..⟩
  · dsimp only
    cases stubborn? p with
    | some error =>
      simp only [clear_eq_restrict]
      exact ⟨trivial, h.restrict closed_clear fun _ => keeps_clear,
        spares_restrict fun _ => keeps_clear, spares_restrict fun _ => keeps_clear⟩
    | none =>
      simp only [eraseTree_eq_restrict]
      exact ⟨trivial, h.restrict closed_eraseTree fun _ => keeps_eraseTree,
        spares_restrict fun _ => keeps_eraseTree, spares_restrict fun _ => keeps_eraseTree⟩
  · exact ⟨rfl, h, .refl .., .refl ..⟩

/-- Whatever the removal of the tree comes to, the place stays as it would be without the others. -/
theorem removeTree_of_near (h : Grown (Location.ofPath a.cwd p) a d) (hp : p.Forward)
    (hnear : below p.parts = [] → a.Reaches (Location.ofPath a.cwd p)) :
    Grown (Location.ofPath a.cwd p) (a.removeTree p).1 (d.removeTree p).1 ∧
      Spares (Location.ofPath a.cwd p) a (a.removeTree p).1 ∧
      Spares (Location.ofPath a.cwd p) d (d.removeTree p).1 := by
  rcases h.follow hp hnear with hsame | ⟨⟨e, ha⟩, e', hd⟩
  · exact (h.removeTree hp hsame).2
  · rw [removeTree_eq hp h.linkFree, removeTree_eq hp (h.cwd ▸ h.linkFree'), ha, hd]
    exact ⟨h, .refl .., .refl ..⟩

/-! ### New directories -/

/-- What stands at a place on the way, with the others and without. -/
theorem cases (h : Grown l a d) (hm : m <+: l) :
    (a.entry? m = none ∧ d.entry? m = none) ∨
    (a.entry? m = some .directory ∧ d.entry? m = some .directory) ∨
    (∃ e e', e ≠ .directory ∧ e' ≠ .directory ∧ a.entry? m = some e ∧ d.entry? m = some e') ∨
    (m ≠ l ∧ a.entry? m = none ∧ d.entry? m = some .directory) := by
  have hsplit (hkind : a.kindAt m = d.kindAt m) : (a.entry? m = none ∧ d.entry? m = none) ∨
      (a.entry? m = some .directory ∧ d.entry? m = some .directory) ∨
      ∃ e e', e ≠ .directory ∧ e' ≠ .directory ∧ a.entry? m = some e ∧ d.entry? m = some e' := by
    cases ha : a.entry? m with
    | none =>
      rw [← kindAt_eq_none, hkind, kindAt_eq_none] at ha
      exact .inl ⟨rfl, ha⟩
    | some e =>
      rw [Disk.kindAt, Disk.kindAt, ha] at hkind
      obtain ⟨e', hd, htimeless⟩ := Option.map_eq_some_iff.1 hkind.symm
      by_cases he : e = .directory
      · subst he
        exact .inr (.inl ⟨rfl, hd.trans (congrArg some (Entry.timeless_eq_directory.1 htimeless))⟩)
      · refine .inr (.inr ⟨e, e', he, fun he' => he ?_, rfl, hd⟩)
        exact Entry.timeless_eq_directory.1
          (htimeless.symm.trans (Entry.timeless_eq_directory.2 he'))
  by_cases hne : m = l
  · rcases hsplit (hne ▸ h.kindAt_self) with hcase | hcase | hcase
    · exact .inl hcase
    · exact .inr (.inl hcase)
    · exact .inr (.inr (.inl hcase))
  rcases h.above m hm hne with hsame | ⟨hnone, hdirectory⟩
  · rcases hsplit (by rw [Disk.kindAt, Disk.kindAt, hsame]) with hcase | hcase | hcase
    · exact .inl hcase
    · exact .inr (.inl hcase)
    · exact .inr (.inr (.inl hcase))
  · exact .inr (.inr (.inr ⟨hne, hnone, hdirectory⟩))

/-- A new directory on the way, with the others and without. -/
theorem put (h : Grown l a d) (hn : ProperName n) (hhere : a.entry? here = some .directory)
    (hhere' : d.entry? here = some .directory)
    (hfree : a.entry? (here ++ [n]) = none) (hfree' : d.entry? (here ++ [n]) = none) :
    Grown l (a.put (here ++ [n]) .directory) (d.put (here ++ [n]) .directory) := by
  refine ⟨h.tree.put hn hhere hfree, h.tree'.put hn hhere' hfree', ?_, ?_, ?_, ?_⟩
  · rw [cwd_put, cwd_put, h.cwd]
  · rw [part_put (by simp) hfree, part_put (by simp) hfree', h.part]
  · exact h.linkFree.put
  · intro m hm' hne
    by_cases heq : m = here ++ [n]
    · subst heq
      exact .inl ((entry?_put_self (by simp)).trans (entry?_put_self (by simp)).symm)
    · rw [entry?_put_of_ne heq, entry?_put_of_ne heq]
      exact h.above m hm' hne

/-- A directory on the way that the others have made before. -/
theorem put_left (h : Grown l a d) (hn : ProperName n) (hm : here ++ [n] <+: l)
    (hne : here ++ [n] ≠ l) (hhere : a.entry? here = some .directory)
    (hfree : a.entry? (here ++ [n]) = none) (hthere : d.entry? (here ++ [n]) = some .directory) :
    Grown l (a.put (here ++ [n]) .directory) d := by
  refine ⟨h.tree.put hn hhere hfree, h.tree', ?_, ?_, h.linkFree.put, ?_⟩
  · rw [cwd_put, h.cwd]
  · have hnot : ¬l <+: here ++ [n] := fun hwithin => hne (hm.eq_of_length_le hwithin.length_le)
    rw [part_put (by simp) hfree, if_neg hnot, List.append_nil, h.part]
  · intro m hm' hne
    by_cases heq : m = here ++ [n]
    · subst heq
      exact .inl (hthere.trans (entry?_put_self (by simp)).symm)
    · rw [entry?_put_of_ne heq]
      exact h.above m hm' hne

/-- Making the directories of the names that lead to the place comes to the same with the others
and without. -/
theorem raise (h : Grown l a d) (bare : Bool) (hl : here ++ names = l)
    (hnames : ∀ n ∈ names, ProperName n)
    (hhere : a.entry? here = some .directory) (hhere' : d.entry? here = some .directory) :
    (a.raise bare here names).2 = (d.raise bare here names).2 ∧
      Grown l (a.raise bare here names).1 (d.raise bare here names).1 ∧
      Spares l a (a.raise bare here names).1 ∧ Spares l d (d.raise bare here names).1 := by
  induction names generalizing here a d with
  | nil => exact ⟨rfl, h, .refl .., .refl ..⟩
  | cons n rest ih =>
    have hn := hnames n List.mem_cons_self
    have hrest : ∀ n ∈ rest, ProperName n := fun m hm => hnames m (List.mem_cons_of_mem _ hm)
    rw [List.append_cons] at hl
    have hm : here ++ [n] <+: l := hl ▸ List.prefix_append _ _
    rw [Disk.raise, Disk.raise]
    by_cases hlong : nameLimit < n.length
    · rw [if_pos hlong, if_pos hlong]
      exact ⟨rfl, h, .refl .., .refl ..⟩
    rw [if_neg hlong, if_neg hlong]
    have hmade {d : Disk} : Disk.entry? (d.put (here ++ [n]) .directory) (here ++ [n]) =
        some .directory := entry?_put_self (by simp)
    rcases h.cases hm with ⟨ha, hd⟩ | ⟨ha, hd⟩ | ⟨e, e', he, he', ha, hd⟩ | ⟨hne, ha, hd⟩
    · -- the directory is missing from both, and both get it
      rw [ha, hd]
      dsimp only
      split
      · exact ⟨rfl, h, .refl .., .refl ..⟩
      · obtain ⟨hresult, hgrown, hspares, hspares'⟩ :=
          ih (h.put hn hhere hhere' ha hd) hl hrest hmade hmade
        exact ⟨hresult, hgrown, (spares_put (by simp) ha hm).trans hspares,
          (spares_put (by simp) hd hm).trans hspares'⟩
    · rw [ha, hd]
      exact ih h hl hrest ha hd
    · rw [ha, hd]
      cases e <;> cases e' <;> first
        | exact absurd rfl he
        | exact absurd rfl he'
        | exact ⟨rfl, h, .refl .., .refl ..⟩
    · -- the others have made the directory already, so only the disk without them gets it
      have hmore : rest ≠ [] := by
        rintro rfl
        exact hne (by rw [← hl, List.append_nil])
      have hnonempty : rest.isEmpty = false := by simpa using hmore
      rw [ha, hd]
      simp only [hnonempty, Bool.false_and, Bool.false_eq_true, if_false]
      obtain ⟨hresult, hgrown, hspares, hspares'⟩ :=
        ih (h.put_left hn hm hne hhere ha hd) hl hrest hmade hd
      exact ⟨hresult, hgrown, (spares_put (by simp) ha hm).trans hspares, hspares'⟩

theorem base_eq (h : Grown l a d) (p : Path) : d.base p = a.base p := by
  rw [base, base, start, start, h.cwd]

/-- The names of a path begin in a directory with the others as well. -/
theorem base_directory (h : Grown (Location.ofPath a.cwd p) a d) (hp : p.Forward)
    (hbase : a.entry? (a.base p) = some .directory) : d.entry? (d.base p) = some .directory := by
  have hwithin : a.base p <+: Location.ofPath a.cwd p := base_append hp a ▸ List.prefix_append _ _
  rw [h.base_eq]
  by_cases heq : a.base p = Location.ofPath a.cwd p
  · rw [heq, ← kindAt_eq_directory] at hbase ⊢
    rw [← h.kindAt_self, hbase]
  · rcases h.above _ hwithin heq with hsame | ⟨hnone, -⟩
    · rw [hsame, hbase]
    · cases hbase.symm.trans hnone

/-- Making the place with its parents comes to the same with the others and without. Afterwards it
is there. -/
theorem createDirectories (h : Grown (Location.ofPath a.cwd p) a d) (hp : p.Forward)
    (hnul : 0 ∉ p.bytes) (hbase : a.entry? (a.base p) = some .directory) :
    (a.createDirectories p).2 = (d.createDirectories p).2 ∧
      Grown (Location.ofPath a.cwd p) (a.createDirectories p).1 (d.createDirectories p).1 ∧
      Spares (Location.ofPath a.cwd p) a (a.createDirectories p).1 ∧
      Spares (Location.ofPath a.cwd p) d (d.createDirectories p).1 ∧
      ((a.createDirectories p).2 = .ok () →
        Disk.entry? (a.createDirectories p).1 (Location.ofPath a.cwd p) = some .directory) := by
  by_cases hempty : p.bytes = []
  · have hnothing (d : Disk) : d.createDirectories p = (d, .ok ()) := by
      rw [Disk.createDirectories, makeDirectories, if_pos (by simpa using hempty)]
    rw [hnothing, hnothing]
    refine ⟨rfl, h, .refl .., .refl .., fun _ => ?_⟩
    obtain ⟨bytes⟩ := p
    subst hempty
    have hbelow : below (Path.parts ⟨[]⟩) = [] := rfl
    rw [← base_append hp a, hbelow, List.append_nil]
    exact hbase
  by_cases hlong : pathLimit ≤ p.bytes.length
  · rw [createDirectories_of_long hempty hlong, createDirectories_of_long hempty hlong]
    exact ⟨rfl, h, .refl .., .refl .., fun hok => by cases hok⟩
  rw [createDirectories_eq_raise h.tree hp h.linkFree hempty (by omega),
    createDirectories_eq_raise h.tree' hp (h.cwd ▸ h.linkFree') hempty (by omega), h.base_eq]
  obtain ⟨hresult, hgrown, hspares, hspares'⟩ := h.raise (endsInName (steps p))
    (base_append hp a) (proper_below hp hnul) hbase (h.base_eq p ▸ h.base_directory hp hbase)
  refine ⟨hresult, hgrown, hspares, hspares', fun hok => ?_⟩
  rcases hraise : a.raise (endsInName (steps p)) (a.base p) (below p.parts) with ⟨a', result⟩
  rw [hraise] at hok
  cases hok
  by_cases hbelow : below p.parts = []
  · rw [hbelow, Disk.raise] at hraise
    cases hraise
    rw [← base_append hp a, hbelow, List.append_nil]
    exact hbase
  · rw [← base_append hp a]
    exact (seek_eq_found (seek_of_raise hraise true)).2.2 hbelow

/-! ### Emptying the place -/

/-- Vacating the place comes to the same with the others and without. -/
theorem vacate (h : Grown (Location.ofPath a.cwd p) a d) (hp : p.Forward)
    (hbase : a.entry? (a.base p) = some .directory) :
    (a.vacate p).2 = (d.vacate p).2 ∧
      Grown (Location.ofPath a.cwd p) (a.vacate p).1 (d.vacate p).1 ∧
      Spares (Location.ofPath a.cwd p) a (a.vacate p).1 ∧
      Spares (Location.ofPath a.cwd p) d (d.vacate p).1 ∧
      ((a.vacate p).2 = .ok () → Disk.entry? (a.vacate p).1 (a.base p) = some .directory) := by
  rw [Disk.vacate, Disk.vacate]
  rcases h.follow hp (reaches_of_below_eq_nil h.tree hp hbase) with hsame | ⟨⟨e, ha⟩, e', hd⟩
  · have hremoved := h.removeTree hp hsame
    cases ha : a.follow p with
    | error e =>
      cases hd : d.follow p with
      | error e' => exact ⟨rfl, h, .refl .., .refl .., fun _ => hbase⟩
      | ok found =>
        rw [ha, hd] at hsame
        cases hsame
    | ok found =>
      cases hd : d.follow p with
      | error e' =>
        rw [ha, hd] at hsame
        cases hsame
      | ok found' =>
        obtain ⟨hresult, hgrown, hspares, hspares'⟩ := hremoved
        exact ⟨hresult, hgrown, hspares, hspares',
          fun hok => base_directory_removeTree hp h.linkFree hspares hok hbase⟩
  · rw [ha, hd]
    exact ⟨rfl, h, .refl .., .refl .., fun _ => hbase⟩

/-! ### What is seen below the place -/

/-- Once the place is reached without the others, its path leads to the same. -/
theorem follow_of_reaches (h : Grown (Location.ofPath a.cwd p) a d) (hp : p.Forward)
    (ha : a.Reaches (Location.ofPath a.cwd p)) :
    (a.follow p).map (fun (l, e) => (l, e.timeless)) =
      (d.follow p).map fun (l, e) => (l, e.timeless) :=
  follow_congr hp h.cwd h.linkFree fun _ hm => h.kindAt ha hm

/-- Once the place is reached without the others, the walk from it comes across the same. -/
theorem walk (h : Grown (Location.ofPath a.cwd p) a d) (hp : p.Forward)
    (ha : a.Reaches (Location.ofPath a.cwd p)) (hnamed : below p.parts = [] → p.bytes = []) :
    a.walk p = d.walk p := by
  have hfollow := h.follow_of_reaches hp ha
  rw [Disk.walk, Disk.walk]
  rcases ha' : a.follow p with error | ⟨l, e⟩ <;>
    rcases hd' : d.follow p with error' | ⟨l', e'⟩ <;>
    rw [ha', hd'] at hfollow <;>
    simp only [Except.map, Except.ok.injEq, Except.error.injEq, Prod.mk.injEq,
      reduceCtorEq] at hfollow
  · rw [hfollow]
  obtain ⟨rfl, hkind⟩ := hfollow
  obtain ⟨rfl, -, hentry⟩ := place_of_follow hp h.linkFree ha'
  cases e <;> cases e' <;> simp only [Entry.timeless, reduceCtorEq] at hkind
  · rfl
  · have hbelow : below p.parts ≠ [] := fun hnil => (lookup_of_follow ha').1.1 (hnamed hnil)
    exact congrArg _ (walkFrom_congr h.tree h.tree' h.part List.prefix_rfl (hentry hbelow)
      (by omega) (by omega))
  · rfl

/-- The files below the place have the same contents. -/
theorem read (h : Grown (Location.ofPath a.cwd p) a d) (hp : p.Forward) (hne : p.bytes ≠ [])
    (ha : a.Reaches (Location.ofPath a.cwd p))
    (hfile : a.IsFile (Location.ofPath a.cwd p ++ names)) :
    a.read (p.descend names) = d.read (p.descend names) := by
  obtain ⟨content, modified, hentry⟩ := hfile
  have hproper := h.tree.proper_of_entry? hentry
  have hplace := Location.ofPath_descend hp hne hproper a.cwd
  have hlink : a.LinkFree (Location.ofPath a.cwd (p.descend names)) := by
    rw [hplace]
    intro m hm target hlink
    by_cases hself : m = Location.ofPath a.cwd p ++ names
    · cases hlink.symm.trans (hself ▸ hentry)
    · cases hlink.symm.trans (h.tree.reaches hentry m hm hself)
  have hway : ∀ m, m <+: Location.ofPath a.cwd (p.descend names) → a.kindAt m = d.kindAt m := by
    rw [hplace]
    intro m hm
    rcases List.prefix_or_prefix_of_prefix hm (List.prefix_append _ names) with habove | hbelow
    · exact h.kindAt ha habove
    · exact kindAt_of_part h.part.symm hbelow
  have hfollow := follow_congr (hp.descend hproper) h.cwd hlink hway
  rw [Disk.read, Disk.read, open?, open?]
  rcases ha' : a.follow (p.descend names) with error | ⟨l, e⟩ <;>
    rcases hd' : d.follow (p.descend names) with error' | ⟨l', e'⟩ <;>
    rw [ha', hd'] at hfollow <;>
    simp only [Except.map, Except.ok.injEq, Except.error.injEq, Prod.mk.injEq,
      reduceCtorEq] at hfollow
  · rw [hfollow]
  obtain ⟨rfl, hkind⟩ := hfollow
  cases e <;> cases e' <;>
    simp only [Entry.timeless, reduceCtorEq, Entry.file.injEq, and_true] at hkind
  · rw [hkind]
    rfl
  · rfl
  · rfl

end Grown

end Disk

end CacheAudit
