import CacheAudit.Proofs.Disk.ForwardPaths
import CacheAudit.Proofs.Storage.Replace

/-!
# The directories above a target

The directories above a path are made one after the other, at prefixes of the path. Making them adds
directories at free places and changes nothing else. A path that goes up only at its beginning leads
to no file once a directory has been made on its way, since a new directory is empty.
-/

namespace CacheAudit

namespace Path

/-! ### Ancestors -/

/-- A path, its parent, the parent of that and so on. -/
inductive Ancestor (p : Path) : Path → Prop
  | self : p.Ancestor p
  | parent {q r : Path} (h : p.Ancestor q) (hparent : q.parent? = some r) : p.Ancestor r

variable {p q r : Path} {c : Component} {start stop : Nat} {parts : List Bytes}

theorem Ancestor.of_parent (hparent : p.parent? = some q) (h : q.Ancestor r) : p.Ancestor r := by
  induction h with
  | self => exact .parent .self hparent
  | parent _ hparent' ih => exact .parent ih hparent'

/-- A component ends where a part does. -/
theorem exists_of_mem_located (h : (c, stop) ∈ located start parts) :
    ∃ front part back, parts = front ++ part :: back ∧
      stop = start + (spelled front ++ part).length := by
  induction parts generalizing start with
  | nil => cases h
  | cons part rest ih =>
    have hrest (h : (c, stop) ∈ located (start + part.length + 1) rest) :
        ∃ front part' back, part :: rest = front ++ part' :: back ∧
          stop = start + (spelled front ++ part').length := by
      obtain ⟨front, part', back, rfl, rfl⟩ := ih h
      refine ⟨part :: front, part', back, by simp, ?_⟩
      simp [spelled_cons]
      omega
    rw [located] at h
    split at h
    · rcases List.mem_cons.1 h with heq | h
      · cases heq
        exact ⟨[], part, rest, by simp, by simp [spelled]⟩
      · exact hrest h
    · exact hrest h

/-- A component of a path is the root or ends where a part of the path does. -/
theorem exists_of_mem_locatedComponents (h : (c, stop) ∈ p.locatedComponents) :
    (p.isAbsolute = true ∧ stop = 1) ∨ ∃ front part back, p.parts = front ++ part :: back ∧
      stop = (spelled front ++ part).length := by
  obtain ⟨first, rest, hparts⟩ := List.exists_cons_of_ne_nil p.parts_ne_nil
  have hlater {start : Nat} (hstart : start = (first ++ [slash]).length)
      (h : (c, stop) ∈ located start rest) : ∃ front part back, p.parts = front ++ part :: back ∧
        stop = (spelled front ++ part).length := by
    obtain ⟨front, part, back, rfl, rfl⟩ := exists_of_mem_located h
    refine ⟨first :: front, part, back, hparts, ?_⟩
    rw [hstart]
    simp [spelled_cons]
    omega
  rw [locatedComponents, hparts] at h
  dsimp only at h
  split at h
  · rename_i hfirst
    subst hfirst
    split at h
    · cases h
    rename_i hrest
    rcases List.mem_cons.1 h with heq | h
    · cases heq
      exact .inl ⟨(isAbsolute_of_parts_cons hparts (by simpa using hrest)).2 rfl, rfl⟩
    · exact .inr (hlater rfl h)
  split at h
  · rename_i hdot
    subst hdot
    rcases List.mem_cons.1 h with heq | h
    · cases heq
      exact .inr ⟨[], dot, rest, hparts, rfl⟩
    · exact .inr (hlater rfl h)
  · obtain ⟨front, part, back, hfront, rfl⟩ := exists_of_mem_located h
    exact .inr ⟨front, part, back, hparts.trans hfront, by simp⟩

/-- The first parts of a path are spelled by its first bytes. -/
theorem take_spelled {front back : List Bytes} {part : Bytes}
    (h : p.parts = front ++ part :: back) :
    p.bytes.take (spelled front ++ part).length = spelled front ++ part := by
  by_cases hback : back = []
  · subst hback
    obtain ⟨front', last, hparts, hbytes, -⟩ := exists_spelling p.bytes
    obtain ⟨rfl, hlast⟩ := List.append_inj' (hparts.symm.trans h) rfl
    obtain rfl : last = part := by simpa using hlast
    rw [hbytes, List.take_length]
  · rw [List.append_cons] at h
    obtain ⟨tail, hbytes⟩ := exists_tail h hback
    have hspelled : p.bytes = (spelled front ++ part) ++ slash :: tail := by
      rw [hbytes, spelled_append]
      simp [spelled]
    rw [hspelled, List.take_left' rfl]

/-- A path cut off at the end of one of its components has the first of its parts. -/
theorem steps_take_isPrefix (h : (c, stop) ∈ p.locatedComponents) :
    Disk.steps ⟨p.bytes.take stop⟩ <+: Disk.steps p := by
  rcases exists_of_mem_locatedComponents h with ⟨habsolute, rfl⟩ | ⟨front, part, back, hparts, rfl⟩
  · obtain ⟨bytes⟩ := p
    obtain ⟨rest, rfl⟩ : ∃ rest, bytes = slash :: rest := by
      apply List.head?_eq_some_iff.1
      simpa [isAbsolute] using habsolute
    exact List.nil_prefix
  · have hslash : ∀ part' ∈ front ++ [part], slash ∉ part' := by
      intro part' hpart'
      apply slash_not_mem_parts (p := p)
      rw [hparts, List.append_cons]
      exact List.mem_append_left _ hpart'
    have hstart : front ++ [part] <+: p.parts := by
      rw [hparts]
      exact ⟨back, by simp⟩
    rw [take_spelled hparts, Disk.steps, parts_spelled hslash]
    exact hstart.filter _

/-- The parent of a path begins where the path does and has the first of its parts. -/
theorem steps_parent_prefix (hparent : p.parent? = some q) (hq : q.bytes ≠ []) :
    Disk.steps q <+: Disk.steps p ∧ q.isAbsolute = p.isAbsolute ∧ p.bytes ≠ [] := by
  unfold parent? at hparent
  split at hparent
  · cases hparent
  · cases hparent
  · cases hparent
    exact absurd rfl hq
  · rename_i c stop _ _ hlocated
    cases hparent
    have hmem : (c, stop) ∈ p.locatedComponents := by
      rw [← List.mem_reverse, hlocated]
      exact List.mem_cons_of_mem _ List.mem_cons_self
    have hstop : stop ≠ 0 := by
      rintro rfl
      exact hq rfl
    refine ⟨steps_take_isPrefix hmem, ?_, ?_⟩
    · rw [isAbsolute, isAbsolute, List.head?_take, if_neg hstop]
    · intro hbytes
      rw [hbytes] at hq
      exact hq List.take_nil

/-- An ancestor of a path begins where the path does and has the first of its parts. -/
theorem Ancestor.steps_prefix (h : p.Ancestor q) (hq : q.bytes ≠ []) :
    Disk.steps q <+: Disk.steps p ∧ q.isAbsolute = p.isAbsolute := by
  induction h with
  | self => exact ⟨List.prefix_rfl, rfl⟩
  | parent _ hparent ih =>
    obtain ⟨hstart, habsolute, hne⟩ := steps_parent_prefix hparent hq
    obtain ⟨hstart', habsolute'⟩ := ih hne
    exact ⟨hstart.trans hstart', habsolute.trans habsolute'⟩

end Path

namespace Disk

open CacheAudit.Path (meaningful below dotDot)

variable {d d' d'' : Disk} {p q : Path} {l : Location} {n : Bytes}

/-! ### Directories made above a path -/

/-- A disk on which some directories at or above a path have been made. -/
inductive Builds (d : Disk) (p : Path) : Disk → Prop
  | none : d.Builds p d
  | make {d' d'' : Disk} {q : Path} (h : d.Builds p d') (hq : p.Ancestor q)
      (hmade : d'.makeDirectory q = .ok d'') : d.Builds p d''

theorem Builds.of_parent (hparent : p.parent? = some q) (h : d.Builds q d') : d.Builds p d' := by
  induction h with
  | none => exact .none
  | make _ hq hmade ih => exact .make ih (.of_parent hparent hq) hmade

/-- Making a directory with its parents makes directories at or above its path, also when it
fails. -/
theorem builds_makeDirectories (d : Disk) (p : Path) (fuel : Nat) :
    d.Builds p (d.makeDirectories p fuel).1 := by
  induction fuel generalizing p with
  | zero => exact .none
  | succ fuel ih =>
    unfold makeDirectories
    split
    · exact .none
    split
    · rename_i hmade
      exact .make .none .self hmade
    · split
      · exact .none
      · rename_i parent hparent
        have habove : d.Builds p (d.makeDirectories parent fuel).1 := (ih parent).of_parent hparent
        split
        · rename_i hfailed
          rw [hfailed] at habove
          exact habove
        · rename_i hdone
          rw [hdone] at habove
          split
          · rename_i hmade
            exact .make habove .self hmade
          · split <;> exact habove
    · split <;> exact .none

/-- A disk with more directories, at places that were free, and everything else in its place. -/
structure Extends (d d' : Disk) : Prop where
  entry? : ∀ l, d'.entry? l = d.entry? l ∨ d.entry? l = none ∧ d'.entry? l = some .directory
  cwd : d'.cwd = d.cwd

/-- A directory is made at a free place under the last name of its path. -/
theorem exists_of_makeDirectory (hmade : d.makeDirectory p = .ok d') :
    ∃ front n links base, steps p = front ++ [n] ∧ n ≠ Path.dot ∧ n ≠ dotDot ∧
      ¬nameLimit < n.length ∧ p.bytes ≠ [] ∧ d.Leads linkLimit (d.start p) front links base ∧
      d.entry? (base ++ [n]) = none ∧ d' = d.put (base ++ [n]) .directory := by
  unfold makeDirectory at hmade
  split at hmade
  · cases hmade
  · cases hmade
  · rename_i l hfree
    cases hmade
    obtain ⟨front, n, hsteps, hdot, hdots⟩ := exists_name_of_resolveSteps hfree (by simp)
    obtain ⟨links, base, hleads, hlong, hp, hlookup⟩ := exists_way hsteps hdot hdots hfree
    obtain ⟨rfl, hentry⟩ := free_of_lookup_last hlookup
    exact ⟨front, n, links, base, hsteps, hdot, hdots, hlong, hp.1, hleads, hentry, rfl⟩

namespace Extends

theorem refl (d : Disk) : d.Extends d :=
  ⟨fun _ => .inl rfl, rfl⟩

theorem makeDirectory (h : d.Extends d') (hmade : d'.makeDirectory q = .ok d'') :
    d.Extends d'' := by
  obtain ⟨_, n, _, base, -, -, -, -, -, -, hfree, rfl⟩ := exists_of_makeDirectory hmade
  refine ⟨fun l => ?_, by rw [cwd_put, h.cwd]⟩
  by_cases hl : l = base ++ [n]
  · subst hl
    have hput : Disk.entry? (d'.put (base ++ [n]) .directory) (base ++ [n]) = some .directory :=
      entry?_put_self (by simp)
    rcases h.entry? (base ++ [n]) with hsame | ⟨hnone, -⟩
    · exact .inr ⟨hsame.symm.trans hfree, hput⟩
    · exact .inr ⟨hnone, hput⟩
  · rw [entry?_put_of_ne hl]
    exact h.entry? l

theorem start (h : d.Extends d') (p : Path) : d'.start p = d.start p := by
  rw [Disk.start, Disk.start, h.cwd]

/-- What stands at a place stays there. -/
theorem entry?_of_some (h : d.Extends d') {e : Entry} (he : d.entry? l = some e) :
    d'.entry? l = some e := by
  rcases h.entry? l with hsame | ⟨hnone, -⟩
  · rw [hsame, he]
  · cases he.symm.trans hnone

/-- What is no directory was there before. -/
theorem of_entry? (h : d.Extends d') {e : Entry} (he : d'.entry? l = some e)
    (hfile : e ≠ .directory) : d.entry? l = some e := by
  rcases h.entry? l with hsame | ⟨-, hdirectory⟩
  · rw [← hsame, he]
  · cases he.symm.trans hdirectory
    exact absurd rfl hfile

theorem leads {links links' : Nat} {l' : Location} {parts : List Bytes} (h : d.Extends d')
    (hleads : d.Leads links l parts links' l') : d'.Leads links l parts links' l' :=
  hleads.mono (fun _ hl => h.entry?_of_some hl) fun _ _ hl => h.entry?_of_some hl

end Extends

theorem Builds.toExtends (h : d.Builds p d') : d.Extends d' := by
  induction h with
  | none => exact .refl d
  | make _ _ hmade ih => exact ih.makeDirectory hmade

theorem Builds.isGrounded (h : d.Builds p d') (hd : d.IsGrounded) : d'.IsGrounded := by
  induction h with
  | none => exact hd
  | make _ _ hmade ih => exact ih.makeDirectory hmade

/-! ### New directories are empty -/

theorem mem_dropWhile {part : Bytes} (hn : n ≠ dotDot) {front rest : List Bytes}
    (h : part ∈ rest) : part ∈ (front ++ n :: rest).dropWhile (· == dotDot) := by
  induction front with
  | nil =>
    rw [List.nil_append, List.dropWhile_cons_of_neg (by simpa using hn)]
    exact List.mem_cons_of_mem n h
  | cons x front ih =>
    rw [List.cons_append, List.dropWhile_cons]
    split
    · exact ih
    · simp [h]

/-- Below an empty directory names lead to no file. -/
theorem seek_empty {bare : Bool} {here : Location} {names : List Bytes}
    (hempty : ∀ n, d.entry? (here ++ [n]) = none) {content : Bytes} {modified : Timestamp} :
    d.seek bare here names ≠ .ok (.found l (.file content modified)) := by
  cases names with
  | nil => simp [seek]
  | cons n rest =>
    rw [seek, hempty n]
    by_cases hlong : nameLimit < n.length
    · simp [hlong]
    · by_cases hlast : (rest.isEmpty && bare) = true <;> simp [hlong, hlast]

/-- On a grounded disk no link stands on the way to a directory or below an empty one. -/
theorem linkFree_of_empty (hd : d.IsGrounded) {here : Location}
    (hdirectory : d.entry? here = some .directory)
    (hempty : ∀ names, names ≠ [] → d.entry? (here ++ names) = none) (names : List Bytes) :
    d.LinkFree (here ++ names) := by
  intro m hm target hlink
  have hnot : d.entry? m ≠ some .directory := by simp [hlink]
  rcases List.prefix_or_prefix_of_prefix hm (List.prefix_append here names) with
    ⟨rest, rfl⟩ | ⟨rest, rfl⟩
  · by_cases hrest : rest = []
    · rw [hrest, List.append_nil] at hdirectory
      exact hnot hdirectory
    · rw [hd.not_mem_below hnot hrest] at hdirectory
      cases hdirectory
  · by_cases hrest : rest = []
    · rw [hrest, List.append_nil] at hnot
      exact hnot hdirectory
    · rw [hempty rest hrest] at hlink
      cases hlink

/-- A path that is read leads to a file. -/
theorem resolve_of_read {content : Bytes} (h : d.read p = .ok content) :
    ∃ l modified, d.resolve p = .ok (.found l (.file content modified)) := by
  unfold read open? Disk.follow at h
  cases hresolve : d.resolve p with
  | error e =>
    rw [hresolve] at h
    cases h
  | ok place =>
    rw [hresolve] at h
    cases place with
    | free l => cases h
    | found l e =>
      cases e with
      | file content modified =>
        cases h
        exact ⟨l, modified, rfl⟩
      | directory => cases h
      | link target => cases h

/-- A path that goes up only at its beginning does not go up after a name. -/
theorem not_mem_of_forward {front rest : List Bytes} {n : Bytes} (hp : p.Forward)
    (hsteps : front ++ n :: rest = strictSteps p) (hdot : n ≠ Path.dot) (hdots : n ≠ dotDot)
    (hne : n ≠ []) : dotDot ∉ rest := by
  intro hmem
  apply hp
  have hpart : ¬(n = [] ∨ n = Path.dot) := by
    rintro (hnil | hdot')
    · exact hne hnil
    · exact hdot hdot'
  have hmeaning : meaningful p.parts = meaningful front ++ n :: meaningful rest := by
    rw [← meaningful_strictSteps, ← hsteps, ← Path.meaningful_cons rest hpart, meaningful,
      List.filter_append]
    rfl
  rw [below, hmeaning]
  apply mem_dropWhile hdots
  exact List.mem_filter.2 ⟨hmem, by decide⟩

/-- A path that goes up only at its beginning leads to no file when a directory has just been made
on its way. -/
theorem read_of_makeDirectory (hd : d.IsGrounded) (hp : p.Forward) (hq : p.Ancestor q)
    (hmade : d.makeDirectory q = .ok d') (content : Bytes) : d'.read p ≠ .ok content := by
  have hd' : d'.IsGrounded := hd.makeDirectory hmade
  have hextends : d.Extends d' := (Extends.refl d).makeDirectory hmade
  obtain ⟨front, n, links, base, hsteps, hdot, hdots, hlong, hne, hleads, hfree, rfl⟩ :=
    exists_of_makeDirectory hmade
  obtain ⟨hparts, habsolute⟩ := hq.steps_prefix hne
  -- the new directory stands on the way of the path and nothing stands below it
  have hstrict : steps q <+: strictSteps p := by
    rw [strictSteps]
    split
    · exact hparts.trans (List.prefix_append _ _)
    · exact hparts
  obtain ⟨rest, hrest⟩ := hstrict
  rw [hsteps, List.append_assoc, List.singleton_append] at hrest
  have hnew : Disk.entry? (d.put (base ++ [n]) .directory) (base ++ [n]) = some .directory :=
    entry?_put_self (by simp)
  have hempty : ∀ names, names ≠ [] →
      Disk.entry? (d.put (base ++ [n]) .directory) (base ++ [n] ++ names) = none := by
    intro names hnames
    rw [entry?_put_of_ne (by simpa using hnames)]
    exact hd.not_mem_below (by simp [hfree]) hnames
  have hforward : dotDot ∉ rest := by
    apply not_mem_of_forward hp hrest hdot hdots
    rintro rfl
    exact nil_not_mem_steps q (by simp [hsteps])
  intro hread
  obtain ⟨l, modified, hfound⟩ := resolve_of_read hread
  obtain ⟨-, hlookup⟩ := lookup_of_resolveSteps hfound
  have hway := hextends.leads hleads
  have hstart : d.start q = (d.put (base ++ [n]) .directory).start p := by
    rw [start_put, start, start, habsolute]
  rw [hstart] at hway
  have hnil : [] ∉ rest := by
    intro hmem
    apply nil_not_mem_strictSteps p
    rw [← hrest]
    exact List.mem_append_right _ (List.mem_cons_of_mem n hmem)
  rw [← hrest, hway.lookup_append, lookup_entry hdot hdots hlong (by simp) hnew,
    lookup_eq_seek_of_names hnil hforward (linkFree_of_empty hd' hnew hempty _)] at hlookup
  exact seek_empty (fun n' => hempty [n'] (by simp)) hlookup

end Disk

end CacheAudit
