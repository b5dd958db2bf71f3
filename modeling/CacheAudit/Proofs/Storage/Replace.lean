import CacheAudit.Storage.Replace
import CacheAudit.Proofs.Disk.Siblings

/-!
# What a replaced file holds

A replacement that succeeds has written its content under the temporary name and then changed the
name, and both names stand in the directory to which the target's path leads. So the target holds
the content, unless a symbolic link stands under the temporary name and takes the content
elsewhere, or the target's own path leads through a link that stands in the target's place.
-/

namespace CacheAudit

namespace Disk

variable {d d' : Disk} {p source target : Path} {front : List Bytes} {n m : Bytes}
  {content : Bytes}

/-- Whether a symbolic link stands at the end of a path. -/
def EndsInLink (d : Disk) (p : Path) : Prop :=
  ∃ l destination, d.resolveSteps false p (steps p) = .ok (.found l (.link destination))

/-- Whether a path leads to its place without a link that may stand there: once that link is gone,
the place is free. -/
def ReachedApart (d : Disk) (p : Path) : Prop :=
  ∀ l destination, d.resolveSteps false p (steps p) = .ok (.found l (.link destination)) →
    (d.erase l).resolveSteps false p (steps p) = .ok (.free l)

/-! ### Where a path with a last name leads -/

/-- A path that ends in a name leads to a directory in which that name is looked up. -/
theorem exists_way {follow : Bool} {place : Place} (hsteps : steps p = front ++ [n])
    (hdot : n ≠ Path.dot) (hdots : n ≠ Path.dotDot)
    (h : d.resolveSteps follow p (steps p) = .ok place) :
    ∃ links base, d.Leads linkLimit (d.start p) front links base ∧ ¬nameLimit < n.length ∧
      (p.bytes ≠ [] ∧ p.bytes.length < pathLimit) ∧
      d.lookup follow links base .directory [n] = .ok place := by
  obtain ⟨hp, hlookup⟩ := lookup_of_resolveSteps h
  rw [hsteps] at hlookup
  obtain ⟨-, links, base, hleads⟩ := exists_leads (by simp) hlookup
  rw [List.dropLast_concat] at hleads
  rw [hleads.lookup_append] at hlookup
  refine ⟨links, base, hleads, fun hlong => ?_, hp, hlookup⟩
  rw [lookup_long hdot hdots hlong] at hlookup
  cases hlookup

/-- Where a way leads to a directory, a path that goes this way leads to the place under its last
name. -/
theorem resolveSteps_of_leads (follow : Bool) {links : Nat} {base : Location}
    (hsteps : steps p = front ++ [n]) (hdot : n ≠ Path.dot) (hdots : n ≠ Path.dotDot)
    (hlong : ¬nameLimit < n.length) (hp : p.bytes ≠ [] ∧ p.bytes.length < pathLimit)
    (hleads : d.Leads linkLimit (d.start p) front links base)
    (hlink : ∀ l, d.entry? (base ++ [n]) = some (.link l) → follow = false) :
    d.resolveSteps follow p (steps p) = .ok (d.placeAt (base ++ [n])) := by
  rw [resolveSteps, if_neg (by simpa using hp.1), if_neg (by omega), hsteps]
  show d.lookup follow linkLimit (d.start p) .directory (front ++ [n]) = _
  rw [hleads.lookup_append, lookup_last hdot hdots hlong hlink]

/-- What is no directory is reached under a name. -/
theorem exists_name_of_resolveSteps {follow : Bool} {place : Place}
    (h : d.resolveSteps follow p (steps p) = .ok place)
    (hplace : ∀ l, place ≠ .found l .directory) :
    ∃ front n, steps p = front ++ [n] ∧ n ≠ Path.dot ∧ n ≠ Path.dotDot := by
  obtain ⟨-, hlookup⟩ := lookup_of_resolveSteps h
  by_cases hsteps : steps p = []
  · rw [hsteps, lookup_nil] at hlookup
    cases hlookup
    exact absurd rfl (hplace _)
  obtain ⟨-, links, base, hleads⟩ := exists_leads hsteps hlookup
  have hlast := hleads.lookup_append follow ((steps p).getLast hsteps) []
  rw [List.dropLast_append_getLast hsteps, hlookup] at hlast
  refine ⟨_, _, (List.dropLast_append_getLast hsteps).symm, fun hdot => ?_, fun hdots => ?_⟩
  · rw [hdot, lookup_dot, lookup_nil] at hlast
    exact hplace base (Except.ok.inj hlast)
  · rw [hdots, lookup_dotDot, lookup_nil] at hlast
    exact hplace base.dropLast (Except.ok.inj hlast)

/-! ### Writing and renaming -/

theorem start_put (d : Disk) (l : Location) (e : Entry) (p : Path) :
    (d.put l e).start p = d.start p := by
  rw [start, start, cwd_put]

/-- A way leads on when something is put where neither a directory nor a link stands. -/
theorem Leads.put {links links' : Nat} {l l' place : Location} {parts : List Bytes} {e : Entry}
    (h : d.Leads links l parts links' l') (hdirectory : d.entry? place ≠ some .directory)
    (hlink : ∀ destination, d.entry? place ≠ some (.link destination)) :
    (d.put place e).Leads links l parts links' l' := by
  refine h.mono (fun l hl => ?_) fun l destination hl => ?_
  · rwa [entry?_put_of_ne]
    rintro rfl
    exact hdirectory hl
  · rwa [entry?_put_of_ne]
    rintro rfl
    exact hlink destination hl

/-- A file written at a path lies under the last name of the path in a directory to which the path
leads, when no link stands there. -/
theorem exists_of_write (hlink : ¬d.EndsInLink p) (h : d.write p content = .ok d') :
    ∃ front n links base, steps p = front ++ [n] ∧
      d.Leads linkLimit (d.start p) front links base ∧ ¬nameLimit < n.length ∧
      (d.entry? (base ++ [n]) ≠ some .directory ∧
        ∀ destination, d.entry? (base ++ [n]) ≠ some (.link destination)) ∧
      d' = d.put (base ++ [n]) (.file content d.now) ∧
      d'.resolveSteps false p (steps p) = .ok (.found (base ++ [n]) (.file content d.now)) := by
  unfold write at h
  have hplace : ∃ place l, d.resolveSteps true p (steps p) = .ok place ∧
      (place = .free l ∨ ∃ c t, place = .found l (.file c t)) ∧
      d' = d.put l (.file content d.now) := by
    split at h
    · cases h
    · rename_i l c t hfound
      split at h
      · cases h
      · cases h
        exact ⟨_, l, hfound, .inr ⟨c, t, rfl⟩, rfl⟩
    · rename_i l hfree
      split at h
      · cases h
      · cases h
        exact ⟨_, l, hfree, .inl rfl, rfl⟩
    · cases h
  obtain ⟨place, l, hresolved, hplace, rfl⟩ := hplace
  obtain ⟨front, n, hsteps, hdot, hdots⟩ := exists_name_of_resolveSteps hresolved (by
    rcases hplace with rfl | ⟨c, t, rfl⟩ <;> simp)
  obtain ⟨links, base, hleads, hlong, hp, hlookup⟩ := exists_way hsteps hdot hdots hresolved
  have hnolink : ∀ destination, d.entry? (base ++ [n]) ≠ some (.link destination) := by
    intro destination hentry
    refine hlink ⟨base ++ [n], destination, ?_⟩
    rw [resolveSteps_of_leads false hsteps hdot hdots hlong hp hleads fun _ _ => rfl, placeAt,
      hentry]
  rw [lookup_last hdot hdots hlong fun destination hentry => absurd hentry (hnolink destination)]
    at hlookup
  cases hlookup
  have hentry : l = base ++ [n] ∧ d.entry? (base ++ [n]) ≠ some .directory := by
    rcases hplace with hfree | ⟨c, t, hfound⟩
    · obtain ⟨hl, hentry⟩ := placeAt_eq_free.1 hfree
      exact ⟨hl, by simp [hentry]⟩
    · obtain ⟨hl, hentry⟩ := placeAt_eq_found.1 hfound
      exact ⟨hl, by simp [hentry]⟩
  obtain ⟨rfl, hdirectory⟩ := hentry
  refine ⟨front, n, links, base, hsteps, hleads, hlong, ⟨hdirectory, hnolink⟩, rfl, ?_⟩
  have hput := hleads.put (e := .file content d.now) hdirectory hnolink
  rw [← start_put d (base ++ [n]) (.file content d.now) p] at hput
  rw [resolveSteps_of_leads false hsteps hdot hdots hlong hp hput fun _ _ => rfl, placeAt,
    entry?_put_self (by simp)]

theorem exists_name_of_lastDots? (hne : steps p ≠ []) (h : lastDots? p = none) :
    ∃ front n, steps p = front ++ [n] ∧ n ≠ Path.dot ∧ n ≠ Path.dotDot := by
  refine ⟨_, _, (List.dropLast_append_getLast hne).symm, ?_⟩
  rw [lastDots?, List.getLast?_eq_some_getLast hne] at h
  simpa [not_or] using h

/-- A renamed file or link has gone to the place of its new name, which was no directory. -/
theorem exists_of_rename {origin : Location} {e : Entry} (he : e ≠ .directory)
    (hsource : d.resolveSteps false source (steps source) = .ok (.found origin e))
    (h : d.rename source target = .ok d') :
    (endsInSlash target = false ∧ lastDots? target = none ∧ steps target ≠ []) ∧
      ((∃ goal, d.resolveSteps false target (steps target) = .ok (.free goal) ∧
          d' = d.moveTree origin goal) ∨
        ∃ goal old, d.resolveSteps false target (steps target) = .ok (.found goal old) ∧
          (goal = origin ∧ d' = d ∨
            goal ≠ origin ∧ old ≠ .directory ∧ d' = d.moveTree origin goal)) := by
  have hfile : decide (e = .directory) = false := decide_eq_false he
  unfold rename at h
  rw [hsource] at h
  simp only [bind, Except.bind, throw, throwThe, MonadExceptOf.throw, pure, Except.pure, hfile,
    Bool.false_eq_true, false_and, if_false, Bool.not_false, true_and] at h
  split at h
  · cases h
  rename_i place hplace
  split at h
  · cases h
  rename_i hdots
  split at h
  · cases h
  rename_i hslash
  simp only [not_or, Bool.not_eq_true, Option.isSome_eq_false_iff, Option.isNone_iff_eq_none]
    at hdots hslash
  refine ⟨⟨hslash.2, hdots.2.1, hdots.2.2.2⟩, ?_⟩
  split at h
  · rename_i goal
    cases h
    exact .inl ⟨goal, hplace, rfl⟩
  · rename_i goal old
    refine .inr ⟨goal, old, hplace, ?_⟩
    split at h
    · rename_i hgoal
      cases h
      exact .inl ⟨hgoal, rfl⟩
    · rename_i hgoal
      split at h
      · cases h
      cases old with
      | directory => cases h
      | file content modified =>
        cases h
        exact .inr ⟨hgoal, by simp, rfl⟩
      | link destination =>
        cases h
        exact .inr ⟨hgoal, by simp, rfl⟩

/-! ### Replacing -/

/-- The temporary file of a path stands beside what the path names. -/
theorem steps_temporary (hsteps : steps target = front ++ [n]) (hend : endsInSlash target = false)
    (hdot : n ≠ Path.dot) (hdots : n ≠ Path.dotDot) :
    target.temporary.isAbsolute = target.isAbsolute ∧
      ∃ front', steps target.temporary = front' ++ [n ++ temporaryEnding] ∧
        Path.meaningful front' = Path.meaningful front := by
  have hslash : Path.slash ∉ n ++ temporaryEnding := by
    have hn : n ∈ target.parts :=
      (List.mem_filter.1 (hsteps ▸ List.mem_append_right _ List.mem_cons_self : n ∈ steps target)).1
    rw [List.mem_append, not_or]
    exact ⟨Path.slash_not_mem_parts hn, by decide⟩
  have hne : n ++ temporaryEnding ≠ [] := by simp [temporaryEnding]
  obtain ⟨hname, hbeside⟩ := Path.steps_withFileName hsteps hend hdot hdots hne hslash
  have htemporary : target.temporary = target.withFileName (n ++ temporaryEnding) := by
    rw [Path.temporary, hname]
    rfl
  rw [htemporary]
  exact hbeside

/-- A path that is reached apart from what stands at its end has a way there without it. -/
theorem ReachedApart.exists_leads {links : Nat} {base : Location} (hapart : d.ReachedApart target)
    (hsteps : steps target = front ++ [n]) (hdot : n ≠ Path.dot) (hdots : n ≠ Path.dotDot)
    (hlong : ¬nameLimit < n.length)
    (hp : target.bytes ≠ [] ∧ target.bytes.length < pathLimit)
    (hleads : d.Leads linkLimit (d.start target) front links base)
    (hdirectory : d.entry? (base ++ [n]) ≠ some .directory) :
    ∃ links', (d.erase (base ++ [n])).Leads linkLimit (d.start target) front links' base := by
  by_cases hlink : ∃ destination, d.entry? (base ++ [n]) = some (.link destination)
  · obtain ⟨destination, hentry⟩ := hlink
    have hplace := resolveSteps_of_leads false hsteps hdot hdots hlong hp hleads fun _ _ => rfl
    rw [placeAt, hentry] at hplace
    obtain ⟨links', base', hleads', -, -, hlookup⟩ :=
      exists_way hsteps hdot hdots (hapart _ _ hplace)
    obtain ⟨hbase, -⟩ := free_of_lookup_last hlookup
    obtain rfl := List.append_cancel_right hbase
    exact ⟨links', hleads'⟩
  · refine ⟨links, hleads.mono (fun l hl => ?_) fun l destination hl => ?_⟩
    · rwa [entry?_erase_of_ne]
      rintro rfl
      exact hdirectory hl
    · rwa [entry?_erase_of_ne]
      rintro rfl
      exact hlink ⟨destination, hl⟩

/-- What a path that goes a known way to a file reads. -/
theorem read_of_leads {links : Nat} {base : Location} {modified : Timestamp}
    (hsteps : steps p = front ++ [n]) (hend : endsInSlash p = false) (hdot : n ≠ Path.dot)
    (hdots : n ≠ Path.dotDot) (hlong : ¬nameLimit < n.length)
    (hp : p.bytes ≠ [] ∧ p.bytes.length < pathLimit)
    (hleads : d.Leads linkLimit (d.start p) front links base)
    (hentry : d.entry? (base ++ [n]) = some (.file content modified)) :
    d.read p = .ok content := by
  have hplace := resolveSteps_of_leads true hsteps hdot hdots hlong hp hleads
    (by simp [hentry])
  rw [placeAt, hentry] at hplace
  have hstrict : strictSteps p = steps p := by rw [strictSteps, hend]; rfl
  unfold read open? Disk.follow resolve
  rw [hstrict, hplace]
  rfl

/-- A renamed file or link goes to the place of its new name in the directory to which the new path
leads, unless it stands there already. -/
theorem exists_of_rename_file {origin base : Location} {links : Nat} {e : Entry}
    (he : e ≠ .directory) (hsteps : steps target = front ++ [n])
    (hdot : n ≠ Path.dot) (hdots : n ≠ Path.dotDot)
    (hlong : ¬nameLimit < n.length)
    (hleads : d.Leads linkLimit (d.start target) front links base) (horigin : base ++ [n] ≠ origin)
    (hsource : d.resolveSteps false source (steps source) = .ok (.found origin e))
    (h : d.rename source target = .ok d') :
    (target.bytes ≠ [] ∧ target.bytes.length < pathLimit) ∧
      d.entry? (base ++ [n]) ≠ some .directory ∧ d' = d.moveTree origin (base ++ [n]) := by
  obtain ⟨-, hmoved⟩ := exists_of_rename he hsource h
  rcases hmoved with ⟨goal, hfree, rfl⟩ | ⟨goal, old, hfound, hmoved⟩
  · have hp := (lookup_of_resolveSteps hfree).1
    rw [resolveSteps_of_leads false hsteps hdot hdots hlong hp hleads fun _ _ => rfl] at hfree
    obtain ⟨rfl, hentry⟩ := placeAt_eq_free.1 (Except.ok.inj hfree)
    exact ⟨hp, by simp [hentry], rfl⟩
  · have hp := (lookup_of_resolveSteps hfound).1
    rw [resolveSteps_of_leads false hsteps hdot hdots hlong hp hleads fun _ _ => rfl] at hfound
    obtain ⟨rfl, hentry⟩ := placeAt_eq_found.1 (Except.ok.inj hfound)
    rcases hmoved with ⟨hgoal, -⟩ | ⟨-, hold, rfl⟩
    · exact absurd hgoal horigin
    · exact ⟨hp, by simpa [hentry] using hold, rfl⟩

section Renamed

variable {base : Location} (content : Bytes) (modified : Timestamp)

/-- The disk after a file was put under a name in a directory and then got another name there, place
by place. -/
theorem entry?_moveTree_put (hd : d.IsGrounded) (hbase : d.entry? base = some .directory)
    (hm : d.entry? (base ++ [m]) ≠ some .directory)
    (hn : d.entry? (base ++ [n]) ≠ some .directory) (hmn : m ≠ n) (l : Location) :
    Disk.entry? ((d.put (base ++ [m]) (.file content modified)).moveTree (base ++ [m])
      (base ++ [n])) l =
      if l = base ++ [n] then some (.file content modified)
      else if l = base ++ [m] then none else d.entry? l := by
  have hapart : base ++ [n] ≠ base ++ [m] := by simpa using hmn.symm
  have hgrounded : (d.put (base ++ [m]) (.file content modified)).IsGrounded :=
    hd.put (by simp) (by rwa [List.dropLast_concat]) hm
  rw [entry?_moveTree hgrounded (by simp [entry?_put_self]) (by rwa [entry?_put_of_ne hapart]) hmn,
    entry?_put_self (by simp)]
  split
  · rfl
  split
  · rfl
  · rename_i hne
    rw [entry?_put_of_ne hne]

/-- A way that does without the second name, and under whose first name neither a directory nor a
link stands, is the same afterwards. -/
theorem Leads.moveTree_put {links links' : Nat} {l l' : Location} {parts : List Bytes}
    (hd : d.IsGrounded) (hbase : d.entry? base = some .directory)
    (hm : d.entry? (base ++ [m]) ≠ some .directory)
    (hlink : ∀ destination, d.entry? (base ++ [m]) ≠ some (.link destination))
    (hn : d.entry? (base ++ [n]) ≠ some .directory) (hmn : m ≠ n)
    (h : (d.erase (base ++ [n])).Leads links l parts links' l') :
    ((d.put (base ++ [m]) (.file content modified)).moveTree (base ++ [m]) (base ++ [n])).Leads
      links l parts links' l' := by
  have hkept {l : Location} {e : Entry} (he : Disk.entry? (d.erase (base ++ [n])) l = some e)
      (hne : d.entry? (base ++ [m]) ≠ some e) :
      Disk.entry? ((d.put (base ++ [m]) (.file content modified)).moveTree (base ++ [m])
        (base ++ [n])) l = some e := by
    have hsecond : l ≠ base ++ [n] := by
      rintro rfl
      rw [entry?_erase_self (by simp)] at he
      cases he
    rw [entry?_erase_of_ne hsecond] at he
    have hfirst : l ≠ base ++ [m] := by
      rintro rfl
      exact hne he
    rw [entry?_moveTree_put content modified hd hbase hm hn hmn, if_neg hsecond, if_neg hfirst, he]
  exact h.mono (fun l hl => hkept hl hm) fun l destination hl => hkept hl (hlink destination)

end Renamed

/-- A file that is written under the temporary name of a target, and then gets the target's name,
is what the target holds. -/
theorem read_of_rename (hd : d.IsGrounded) (htemporary : ¬d.EndsInLink target.temporary)
    (hapart : d.ReachedApart target) (hwrite : d.write target.temporary content = .ok d')
    {d'' : Disk} (hrename : d'.rename target.temporary target = .ok d'') :
    d''.read target = .ok content := by
  obtain ⟨front', m, links, base, hsteps', hleads', hlong', ⟨hdirectory, hlink⟩, rfl, hsource⟩ :=
    exists_of_write htemporary hwrite
  obtain ⟨⟨hend, hlast, hne⟩, -⟩ := exists_of_rename (by simp) hsource hrename
  obtain ⟨front, n, hsteps, hdot, hdots⟩ := exists_name_of_lastDots? hne hlast
  -- the target and its temporary are two names in one directory
  obtain ⟨habsolute, front₁, hsteps₁, hmeaning⟩ := steps_temporary hsteps hend hdot hdots
  obtain ⟨rfl, hm⟩ := List.append_inj' (hsteps'.symm.trans hsteps₁) rfl
  obtain rfl : m = n ++ temporaryEnding := by simpa using hm
  have hnm : n ++ temporaryEnding ≠ n := by simp [temporaryEnding]
  have hapart' : base ++ [n] ≠ base ++ [n ++ temporaryEnding] := by simpa using hnm.symm
  have hstart : d.start target.temporary = d.start target := by rw [start, start, habsolute]
  have hleads : d.Leads linkLimit (d.start target) front links base := by
    rw [← hstart]
    refine (leads_congr ?_ ?_ hmeaning).1 hleads'
    · exact fun hnil => nil_not_mem_steps target.temporary
        (hsteps' ▸ List.mem_append_left _ hnil)
    · exact fun hnil => nil_not_mem_steps target (hsteps ▸ List.mem_append_left _ hnil)
  have hlong : ¬nameLimit < n.length := by
    rw [List.length_append] at hlong'
    omega
  have hput := hleads.put (e := .file content d.now) hdirectory hlink
  obtain ⟨hp, hgoal, rfl⟩ := exists_of_rename_file (by simp) hsteps hdot hdots hlong
    (by rwa [start_put]) hapart' hsource hrename
  rw [entry?_put_of_ne hapart'] at hgoal
  have hbase : d.entry? base = some .directory := hleads.directory hd (hd.start target)
  -- the way to the target needs neither of the two names
  obtain ⟨links', herased⟩ := hapart.exists_leads hsteps hdot hdots hlong hp hleads hgoal
  have hway := herased.moveTree_put content d.now hd hbase hdirectory hlink hgoal hnm
  rw [← start_put d (base ++ [n ++ temporaryEnding]) (.file content d.now) target] at hway
  have hentry := entry?_moveTree_put content d.now hd hbase hdirectory hgoal hnm (base ++ [n])
  rw [if_pos rfl] at hentry
  exact read_of_leads hsteps hend hdot hdots hlong hp hway hentry

/-- The disk with the directory above a path, on which a replacement writes. -/
def withParent (d : Disk) (p : Path) : Disk :=
  match p.parent? with
  | some parent => if parent.bytes.isEmpty then d else (d.createDirectories parent).1
  | none => d

theorem IsGrounded.withParent (hd : d.IsGrounded) (p : Path) : (d.withParent p).IsGrounded := by
  unfold Disk.withParent
  split
  · split
    · exact hd
    · exact hd.createDirectories _
  · exact hd

/-- A target in the current directory needs no other directory. -/
theorem withParent_of_lone {p : Path} (h : p.parent? = some ⟨[]⟩) (d : Disk) :
    d.withParent p = d := by
  rw [withParent, h]
  rfl

theorem replace_of_lone {p : Path} (h : p.parent? = some ⟨[]⟩) (d : Disk) (content : Bytes) :
    d.replace p content =
      DiskAction.runAll d [.write p.temporary content, .rename p.temporary p] := by
  rw [replace, replacement, h]
  rfl

theorem exists_of_runAll
    (h : DiskAction.runAll d [.write source content, .rename source target] = (d', .ok ())) :
    ∃ written, d.write source content = .ok written ∧ written.rename source target = .ok d' := by
  simp only [DiskAction.runAll, DiskAction.run] at h
  cases hwrite : d.write source content with
  | error e =>
    rw [hwrite] at h
    cases h
  | ok written =>
    rw [hwrite] at h
    cases hrename : written.rename source target with
    | error e =>
      simp only [hrename] at h
      cases h
    | ok d'' =>
      simp only [hrename] at h
      cases h
      exact ⟨written, rfl, hrename⟩

/-- A replacement that succeeds has written the temporary file and changed its name. -/
theorem exists_of_replace (h : d.replace target content = (d', .ok ())) :
    ∃ written, (d.withParent target).write target.temporary content = .ok written ∧
      written.rename target.temporary target = .ok d' := by
  unfold replace replacement at h
  unfold withParent
  cases hparent : target.parent? with
  | none =>
    rw [hparent] at h
    exact exists_of_runAll h
  | some parent =>
    rw [hparent] at h
    dsimp only at h ⊢
    by_cases hempty : parent.bytes.isEmpty = true
    · rw [if_pos hempty] at h ⊢
      exact exists_of_runAll h
    · rw [if_neg hempty] at h ⊢
      rw [List.singleton_append, DiskAction.runAll, DiskAction.run] at h
      split at h
      · rename_i made hmade
        rw [hmade]
        exact exists_of_runAll h
      · cases h

/-- A target that was replaced holds the new content, when no symbolic link stands under its
temporary name and its path does not lead through a link in its own place. -/
theorem read_replace (hd : d.IsGrounded)
    (htemporary : ¬(d.withParent target).EndsInLink target.temporary)
    (hapart : (d.withParent target).ReachedApart target)
    (h : d.replace target content = (d', .ok ())) : d'.read target = .ok content := by
  obtain ⟨written, hwrite, hrename⟩ := exists_of_replace h
  exact read_of_rename (hd.withParent target) htemporary hapart hwrite hrename

end Disk

end CacheAudit
