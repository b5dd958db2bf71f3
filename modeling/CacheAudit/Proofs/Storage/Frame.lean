import CacheAudit.Proofs.Storage.Interruption

/-!
# What a replacement leaves alone

A replacement makes the directories above its target and then writes a file that lies beside the
target, which takes the target's name at last. Everything else is left alone as long as that file is
its own: as long as nothing stands under the temporary name before, and the name can be changed in
the end. What stands under the temporary name is lost, and a temporary file whose name cannot be
changed stays.
-/

namespace CacheAudit

namespace Disk

variable {d d' : Disk} {p target : Path} {l : Location} {content : Bytes}

/-! ### Where a lookup ends -/

/-- A place on a disk: what is found stands there, and what is free is a name in a directory. -/
def Holds (d : Disk) : Place → Prop
  | .found l e => d.entry? l = some e
  | .free l => d.entry? l = none ∧ d.entry? l.dropLast = some .directory

/-- On a grounded disk a lookup ends in a place on the disk. -/
theorem Resolves.holds {follow : Bool} {links : Nat} {here : Location} {entry : Entry}
    {parts : List Bytes} {place : Place} (h : d.Resolves follow links here entry parts place)
    (hd : d.IsGrounded) (hhere : d.entry? here = some entry) : d.Holds place := by
  induction h with
  | here => exact hhere
  | dot _ ih => exact ih hhere
  | up _ ih => exact ih (hd.entry?_dropLast hhere)
  | free _ _ _ hentry => exact ⟨hentry, by rwa [List.dropLast_concat]⟩
  | link _ _ _ _ hentry => exact hentry
  | @follow _ l _ _ target _ _ _ _ _ _ _ _ ih =>
    apply ih
    split
    · rfl
    · exact hhere
  | enter _ _ _ _ hentry _ ih => exact ih hentry

theorem holds_of_resolveSteps {follow : Bool} {parts : List Bytes} {place : Place}
    (hd : d.IsGrounded) (h : d.resolveSteps follow p parts = .ok place) : d.Holds place := by
  obtain ⟨-, hlookup⟩ := lookup_of_resolveSteps h
  exact (resolves_of_lookup hlookup).holds hd (hd.start p)

/-! ### Writing -/

/-- A file written at a path: the place to which the path leads, links followed, holds it now. -/
structure Writes (d : Disk) (p : Path) (content : Bytes) (l : Location) (d' : Disk) : Prop where
  resolved : d.resolveSteps true p (steps p) = .ok (d.placeAt l)
  not_slash : endsInSlash p = false
  inside : d.entry? l.dropLast = some .directory
  not_directory : d.entry? l ≠ some .directory
  not_link : ∀ destination, d.entry? l ≠ some (.link destination)
  eq : d' = d.put l (.file content d.now)

theorem exists_writes (hd : d.IsGrounded) (h : d.write p content = .ok d') :
    ∃ l, d.Writes p content l d' := by
  unfold write at h
  split at h
  · cases h
  · rename_i l old modified hfound
    split at h
    · cases h
    rename_i hslash
    cases h
    have hentry : d.entry? l = some (.file old modified) := holds_of_resolveSteps hd hfound
    refine ⟨l, ?_, by simpa using hslash, hd.entry?_dropLast hentry, ?_, ?_, rfl⟩
    · rw [placeAt, hentry]
      exact hfound
    · simp [hentry]
    · simp [hentry]
  · rename_i l hfree
    split at h
    · cases h
    rename_i hslash
    cases h
    obtain ⟨hentry, hinside⟩ := holds_of_resolveSteps hd hfree
    refine ⟨l, ?_, by simpa using hslash, hinside, ?_, ?_, rfl⟩
    · rw [placeAt, hentry]
      exact hfree
    · simp [hentry]
    · simp [hentry]
  · cases h

namespace Writes

theorem ne_nil (h : d.Writes p content l d') : l ≠ [] := by
  rintro rfl
  exact h.not_directory rfl

theorem isGrounded (h : d.Writes p content l d') (hd : d.IsGrounded) : d'.IsGrounded := by
  rw [h.eq]
  exact hd.put h.ne_nil h.inside h.not_directory

theorem entry?_self (h : d.Writes p content l d') :
    d'.entry? l = some (.file content d.now) := by
  rw [h.eq, entry?_put_self h.ne_nil]

theorem entry?_of_ne (h : d.Writes p content l d') {l' : Location} (hne : l' ≠ l) :
    d'.entry? l' = d.entry? l' := by
  rw [h.eq, entry?_put_of_ne hne]

theorem endsAt (h : d.Writes p content l d') {q : Path} {base : Location} {n : Bytes} :
    d'.EndsAt q base n ↔ d.EndsAt q base n := by
  rw [h.eq]
  exact endsAt_put_file h.ne_nil h.not_directory h.not_link

/-- A path that can be written ends in a name. It is written there, or there is a link. -/
theorem exists_endsAt (h : d.Writes p content l d') : ∃ base n, d.EndsAt p base n ∧
    (l = base ++ [n] ∨ ∃ destination, d.entry? (base ++ [n]) = some (.link destination)) := by
  have hplace : ∀ l', d.placeAt l ≠ .found l' .directory := by
    rintro l' hfound
    obtain ⟨-, hentry⟩ := placeAt_eq_found.1 hfound
    exact h.not_directory hentry
  obtain ⟨base, n, hends, hlast⟩ := Disk.exists_endsAt h.resolved hplace
  refine ⟨base, n, hends, ?_⟩
  by_cases hlink : ∃ destination, d.entry? (base ++ [n]) = some (.link destination)
  · exact .inr hlink
  · left
    have hsame := hlast fun destination hentry => absurd ⟨destination, hentry⟩ hlink
    cases hentry : d.entry? l with
    | none =>
      rw [placeAt, hentry] at hsame
      exact (placeAt_eq_free.1 hsame.symm).1
    | some e =>
      rw [placeAt, hentry] at hsame
      exact (placeAt_eq_found.1 hsame.symm).1

/-- A path that was written leads without following a last link to a file or a link. -/
theorem exists_found (h : d.Writes p content l d') {base : Location} {n : Bytes}
    (hends : d.EndsAt p base n)
    (hlast : l = base ++ [n] ∨ ∃ destination, d.entry? (base ++ [n]) = some (.link destination)) :
    ∃ e, e ≠ .directory ∧ d'.entry? (base ++ [n]) = some e ∧
      d'.resolveSteps false p (steps p) = .ok (.found (base ++ [n]) e) := by
  have hentry : ∃ e, e ≠ Entry.directory ∧ d'.entry? (base ++ [n]) = some e := by
    rcases hlast with rfl | ⟨destination, hlink⟩
    · exact ⟨_, by simp, h.entry?_self⟩
    · have hne : base ++ [n] ≠ l := by
        rintro rfl
        exact h.not_link destination hlink
      exact ⟨_, by simp, (h.entry?_of_ne hne).trans hlink⟩
  obtain ⟨e, he, hentry⟩ := hentry
  refine ⟨e, he, hentry, ?_⟩
  rw [(h.endsAt.2 hends).resolveSteps false fun _ _ => rfl, placeAt, hentry]

/-- What is read at a path before it is written there. -/
theorem read_iff (h : d.Writes p content l d') {old : Bytes} :
    d.read p = .ok old ↔ ∃ modified, d.entry? l = some (.file old modified) := by
  have hresolve : d.resolve p = .ok (d.placeAt l) := by
    rw [resolve, strictSteps, h.not_slash, if_neg (by simp), h.resolved]
  unfold read open? Disk.follow
  rw [hresolve, placeAt]
  cases hentry : d.entry? l with
  | none => simp [Except.map]
  | some e =>
    cases e with
    | file old' modified => simp [Except.map]
    | directory => exact absurd hentry h.not_directory
    | link destination => exact absurd hentry (h.not_link destination)

/-- To write a file touches nothing only where the file has its content already. -/
theorem kindAt_iff (h : d.Writes p content l d') :
    (∀ l', d'.kindAt l' = d.kindAt l') ↔ d.read p = .ok content := by
  have hself : d'.kindAt l = some (.file content .epoch) := by
    rw [kindAt, h.entry?_self]
    rfl
  rw [h.read_iff]
  constructor
  · intro hsame
    have hkind := (hsame l).symm.trans hself
    obtain ⟨e, hentry, htimeless⟩ := Option.map_eq_some_iff.1 hkind
    cases e with
    | file old modified =>
      cases htimeless
      exact ⟨modified, hentry⟩
    | directory => cases htimeless
    | link destination => cases htimeless
  · rintro ⟨modified, hentry⟩ l'
    by_cases hl : l' = l
    · rw [hl, hself, kindAt, hentry]
      rfl
    · rw [kindAt, kindAt, h.entry?_of_ne hl]

end Writes

/-! ### Changing the name -/

/-- The place that a path names: a name in the directory to which its parts before lead. -/
def Names (d : Disk) (p : Path) (l : Location) : Prop :=
  ∃ base n, d.EndsAt p base n ∧ l = base ++ [n]

/-- A path under whose name nothing stands. -/
def IsVacant (d : Disk) (p : Path) : Prop :=
  ∀ l, d.Names p l → d.entry? l = none

theorem isVacant_of_free (h : d.resolveSteps false p (steps p) = .ok (.free l)) : d.IsVacant p := by
  rintro l' ⟨base, n, hends, rfl⟩
  rw [hends.resolveSteps false fun _ _ => rfl] at h
  obtain ⟨-, hentry⟩ := placeAt_eq_free.1 (Except.ok.inj h)
  exact hentry

/-- A target that can take a file: it names a place at which no directory stands, and does not end
in a slash. -/
structure Receives (d : Disk) (target : Path) : Prop where
  not_slash : endsInSlash target = false
  names : ∃ l, d.Names target l ∧ d.entry? l ≠ some .directory

namespace EndsAt

variable {base base' : Location} {n n' : Bytes}

theorem name_eq (h : d.EndsAt p base n) (h' : d.EndsAt p base' n') : n' = n := by
  have hsteps := h.steps_eq.symm.trans h'.steps_eq
  simpa using hsteps.symm

theorem names_iff (h : d.EndsAt p base n) : d.Names p l ↔ l = base ++ [n] := by
  constructor
  · rintro ⟨base', n', h', rfl⟩
    obtain ⟨links, hleads⟩ := h'.leads
    rw [h.base_eq hleads, h.name_eq h']
  · rintro rfl
    exact ⟨base, n, h, rfl⟩

theorem isVacant_iff (h : d.EndsAt p base n) : d.IsVacant p ↔ d.entry? (base ++ [n]) = none := by
  simp [IsVacant, h.names_iff]

theorem lastDots? (h : d.EndsAt p base n) : Disk.lastDots? p = none := by
  rw [Disk.lastDots?, h.steps_eq, List.getLast?_concat]
  exact if_neg (not_or.2 ⟨h.not_dot, h.not_dotDot⟩)

theorem steps_ne_nil (h : d.EndsAt p base n) : steps p ≠ [] := by
  rw [h.steps_eq]
  exact List.append_ne_nil_of_right_ne_nil _ (List.cons_ne_nil _ _)

/-- The directory of a temporary file is that of its target. -/
theorem of_temporary {m : Bytes} (h : d.EndsAt target.temporary base m)
    (hend : endsInSlash target = false) (hlast : Disk.lastDots? target = none)
    (hne : steps target ≠ []) (hproper : target.bytes ≠ [] ∧ target.bytes.length < pathLimit) :
    ∃ n, d.EndsAt target base n ∧ m = n ++ temporaryEnding := by
  obtain ⟨front, n, hsteps, hdot, hdots⟩ := exists_name_of_lastDots? hne hlast
  obtain ⟨habsolute, front', hsteps', hmeaning⟩ := steps_temporary hsteps hend hdot hdots
  obtain ⟨hfront, hm⟩ := List.append_inj' (h.steps_eq.symm.trans hsteps') rfl
  obtain rfl : m = n ++ temporaryEnding := by simpa using hm
  obtain ⟨links, hleads⟩ := h.leads
  have hlong := h.not_long
  rw [List.length_append] at hlong
  have hstart : d.start target.temporary = d.start target := by
    rw [Disk.start, Disk.start, habsolute]
  have hfront' : (steps target).dropLast = front := by rw [hsteps, List.dropLast_concat]
  refine ⟨n, ⟨by rw [hfront', hsteps], hdot, hdots, by omega, hproper, links, ?_⟩, rfl⟩
  rw [hfront', ← hstart]
  rw [hfront] at hleads
  refine (leads_congr ?_ ?_ hmeaning).1 hleads
  · exact fun hnil => nil_not_mem_steps target.temporary
      (hsteps' ▸ List.mem_append_left _ hnil)
  · exact fun hnil => nil_not_mem_steps target (hsteps ▸ List.mem_append_left _ hnil)

end EndsAt

/-- A file or link takes the name at which a path ends, unless a directory stands there or what is
moved lies below. -/
theorem rename_eq_moveTree {source : Path} {base base' : Location} {n m : Bytes} {e : Entry}
    (he : e ≠ .directory)
    (hsource : d.EndsAt source base' m) (hfound : d.entry? (base' ++ [m]) = some e)
    (htarget : d.EndsAt target base n) (hgoal : d.entry? (base ++ [n]) ≠ some .directory)
    (hslash : endsInSlash source = false) (hslash' : endsInSlash target = false)
    (hapart : ¬base ++ [n] <+: base' ++ [m]) :
    d.rename source target = .ok (d.moveTree (base' ++ [m]) (base ++ [n])) := by
  have hfile : decide (e = .directory) = false := decide_eq_false he
  have hplace : d.resolveSteps false source (steps source) = .ok (.found (base' ++ [m]) e) := by
    rw [hsource.resolveSteps false fun _ _ => rfl, placeAt, hfound]
  have hbelow : Location.isWithin (base' ++ [m]) (base ++ [n]) = false := by
    rwa [← Bool.not_eq_true, Location.isWithin_iff]
  have hne : base ++ [n] ≠ base' ++ [m] := by
    intro heq
    rw [heq] at hapart
    exact hapart List.prefix_rfl
  unfold rename
  rw [hplace, htarget.resolveSteps false fun _ _ => rfl]
  simp only [bind, Except.bind, pure, Except.pure, hsource.lastDots?, htarget.lastDots?,
    hsource.steps_ne_nil, htarget.steps_ne_nil, hslash, hslash', hfile, Option.isSome_none,
    Bool.false_eq_true, or_self, and_false, false_and, if_false]
  rw [placeAt]
  cases hold : d.entry? (base ++ [n]) with
  | none => rfl
  | some old =>
    dsimp only
    rw [if_neg hne, hbelow]
    cases old with
    | directory => exact absurd hold hgoal
    | file | link => rfl

/-- The two names of a replacement in their directory, on a disk with the temporary file written
at `l`: under the temporary name there is something to move, and the target's name can take it. -/
structure Ready (d written : Disk) (target : Path) (l base : Location) (n : Bytes) (e : Entry) :
    Prop where
  ends : d.EndsAt target base n
  temporary : d.EndsAt target.temporary base (n ++ temporaryEnding)
  last : l = base ++ [n ++ temporaryEnding] ∨
    ∃ destination, d.entry? (base ++ [n ++ temporaryEnding]) = some (.link destination)
  found : written.entry? (base ++ [n ++ temporaryEnding]) = some e
  not_directory : e ≠ .directory
  goal : written.entry? (base ++ [n]) ≠ some .directory

namespace Writes

variable {written : Disk} {base : Location} {n : Bytes} {e : Entry}

theorem exists_ready (h : d.Writes target.temporary content l written)
    (htarget : d.Receives target) : ∃ base n e, d.Ready written target l base n e := by
  obtain ⟨base, m, htemporary, hlast⟩ := h.exists_endsAt
  obtain ⟨l', hnames, hdirectory⟩ := htarget.names
  obtain ⟨base', n', hends', -⟩ := id hnames
  obtain ⟨n, hends, rfl⟩ := htemporary.of_temporary htarget.not_slash hends'.lastDots?
    hends'.steps_ne_nil hends'.proper
  obtain ⟨e, he, hfound, -⟩ := h.exists_found htemporary hlast
  refine ⟨base, n, e, hends, htemporary, hlast, hfound, he, ?_⟩
  rw [hends.names_iff.1 hnames] at hdirectory
  by_cases hl : base ++ [n] = l
  · rw [hl, h.entry?_self]
    simp
  · rwa [h.entry?_of_ne hl]

/-- A temporary file gets the name of a target that can take a file. -/
theorem rename_eq (h : d.Writes target.temporary content l written)
    (hready : d.Ready written target l base n e) (htarget : d.Receives target) :
    written.rename target.temporary target =
      .ok (written.moveTree (base ++ [n ++ temporaryEnding]) (base ++ [n])) := by
  refine rename_eq_moveTree hready.not_directory (h.endsAt.2 hready.temporary) hready.found
    (h.endsAt.2 hready.ends) hready.goal h.not_slash htarget.not_slash fun hprefix => ?_
  have heq := hprefix.eq_of_length (by simp)
  simp [temporaryEnding] at heq

/-- A temporary file gets no other name. -/
theorem receives_of_rename (h : d.Writes target.temporary content l written)
    (hrename : written.rename target.temporary target = .ok d') : d.Receives target := by
  obtain ⟨base, m, htemporary, hlast⟩ := h.exists_endsAt
  obtain ⟨e, he, hfound, hsource⟩ := h.exists_found htemporary hlast
  obtain ⟨⟨hslash, hdots, hsteps⟩, hplaces⟩ := exists_of_rename he hsource hrename
  have hresolved : ∃ place, written.resolveSteps false target (steps target) = .ok place := by
    rcases hplaces with ⟨goal, hfree, -⟩ | ⟨goal, old, hgoal, -⟩
    · exact ⟨_, hfree⟩
    · exact ⟨_, hgoal⟩
  obtain ⟨place, hplace⟩ := hresolved
  obtain ⟨n, hends, rfl⟩ := htemporary.of_temporary hslash hdots hsteps
    (lookup_of_resolveSteps hplace).1
  refine ⟨hslash, base ++ [n], ⟨base, n, hends, rfl⟩, fun hdirectory => ?_⟩
  have hne : base ++ [n] ≠ l := by
    rintro rfl
    exact h.not_directory hdirectory
  have hgoal := (h.endsAt.2 hends).resolveSteps false fun _ _ => rfl
  rw [placeAt, h.entry?_of_ne hne, hdirectory] at hgoal
  rcases hplaces with ⟨goal, hfree, -⟩ | ⟨goal, old, hold, hmoved⟩
  · cases hgoal.symm.trans hfree
  · cases hgoal.symm.trans hold
    rcases hmoved with ⟨hsame, -⟩ | ⟨-, hnot, -⟩
    · simp [temporaryEnding] at hsame
    · exact hnot rfl

/-- Once the temporary file has the target's name, the other places are as they were just if
nothing had stood under the temporary name. -/
theorem kindAt_rename_iff (h : d.Writes target.temporary content l written) (hd : d.IsGrounded)
    (hrename : written.rename target.temporary target = .ok d') :
    (∀ l', ¬d.Names target l' → d'.kindAt l' = d.kindAt l') ↔ d.IsVacant target.temporary := by
  have htarget := h.receives_of_rename hrename
  obtain ⟨base, n, e, hready⟩ := h.exists_ready htarget
  cases (h.rename_eq hready htarget).symm.trans hrename
  have hapart : n ++ temporaryEnding ≠ n := by simp [temporaryEnding]
  have hsource : written.entry? (base ++ [n ++ temporaryEnding]) ≠ some .directory := by
    rw [hready.found, Ne, Option.some_inj]
    exact hready.not_directory
  have hentry := entry?_moveTree (h.isGrounded hd) hsource hready.goal hapart
  rw [hready.temporary.isVacant_iff]
  constructor
  · intro hsame
    have hother : base ++ [n ++ temporaryEnding] ≠ base ++ [n] := by simpa using hapart
    have hkind := hsame (base ++ [n ++ temporaryEnding]) (mt hready.ends.names_iff.1 hother)
    rw [kindAt, hentry, if_neg hother, if_pos rfl] at hkind
    exact kindAt_eq_none.1 hkind.symm
  · intro hvacant l' hl'
    rw [hready.ends.names_iff] at hl'
    rw [kindAt, hentry, if_neg hl', kindAt]
    split
    · rename_i htemporary
      rw [htemporary, hvacant]
    · rename_i htemporary
      have hplace : l = base ++ [n ++ temporaryEnding] := by
        refine hready.last.resolve_right ?_
        rintro ⟨destination, hlink⟩
        cases hvacant.symm.trans hlink
      rw [h.entry?_of_ne (hplace ▸ htemporary)]

end Writes

/-! ### Replacements -/

theorem runAll_cases {source : Path} {answer : Except Failure Unit}
    (h : DiskAction.runAll d [.write source content, .rename source target] = (d', answer)) :
    (d' = d ∧ ∃ f, answer = .error f ∧ f.op ≠ some "rename_temp") ∨
      ∃ written, d.write source content = .ok written ∧
        ((answer = .ok () ∧ written.rename source target = .ok d') ∨
          d' = written ∧ ∃ e f, answer = .error f ∧ f.op = some "rename_temp" ∧
            written.rename source target = .error e) := by
  simp only [DiskAction.runAll, DiskAction.run] at h
  cases hwrite : d.write source content with
  | error e =>
    rw [hwrite] at h
    cases h
    exact .inl ⟨rfl, _, rfl, by simp [DiskAction.failure, DiskAction.op]⟩
  | ok written =>
    rw [hwrite] at h
    refine .inr ⟨written, rfl, ?_⟩
    cases hrename : written.rename source target with
    | error e =>
      simp only [hrename] at h
      cases h
      exact .inr ⟨rfl, e, _, rfl, rfl, rfl⟩
    | ok d'' =>
      simp only [hrename] at h
      cases h
      exact .inl ⟨rfl, rfl⟩

/-- A replacement fails before anything is written, or writes the temporary file and then changes
its name or fails to. -/
theorem replace_cases {answer : Except Failure Unit}
    (h : d.replace target content = (d', answer)) :
    (d' = d.withParent target ∧ ∃ f, answer = .error f ∧ f.op ≠ some "rename_temp") ∨
      ∃ written, (d.withParent target).write target.temporary content = .ok written ∧
        ((answer = .ok () ∧ written.rename target.temporary target = .ok d') ∨
          d' = written ∧ ∃ e f, answer = .error f ∧ f.op = some "rename_temp" ∧
            written.rename target.temporary target = .error e) := by
  unfold replace replacement at h
  unfold withParent
  cases hparent : target.parent? with
  | none =>
    rw [hparent] at h
    exact runAll_cases h
  | some parent =>
    rw [hparent] at h
    dsimp only at h ⊢
    by_cases hempty : parent.bytes.isEmpty = true
    · rw [if_pos hempty] at h ⊢
      exact runAll_cases h
    · rw [if_neg hempty] at h ⊢
      rw [List.singleton_append, DiskAction.runAll, DiskAction.run] at h
      split at h
      · rename_i made hmade
        rw [hmade]
        exact runAll_cases h
      · rename_i made e hmade
        rw [hmade]
        cases h
        exact .inl ⟨rfl, _, rfl, by simp [DiskAction.failure, DiskAction.op]⟩

/-- Before a replacement writes, it makes directories above its target and touches nothing else. If
it succeeds, the places other than the target's are as they were then, up to times, just if nothing
stood under the temporary name. If it fails, all places are, unless it fails to change the name of
the temporary file: then that file stays, and all is as it was just if the file had been there with
the same content. The name can be changed exactly if the target can take a file. -/
theorem replace_touches_only (hd : d.IsGrounded) {answer : Except Failure Unit}
    (h : d.replace target content = (d', answer)) :
    let made := d.withParent target
    (d.Prepares target made ∧ d.Extends made) ∧
      (answer = .ok () → made.Receives target ∧
        ((∀ l, ¬made.Names target l → d'.kindAt l = made.kindAt l) ↔
          made.IsVacant target.temporary)) ∧
      ∀ f, answer = .error f → (f.op = some "rename_temp" → ¬made.Receives target) ∧
        ((∀ l, d'.kindAt l = made.kindAt l) ↔
          (f.op = some "rename_temp" → made.read target.temporary = .ok content)) := by
  intro made
  have hprepares : d.Prepares target made := d.prepares_withParent target
  have hgrounded : made.IsGrounded := hd.withParent target
  refine ⟨⟨hprepares, hprepares.toExtends⟩, ?_⟩
  rcases replace_cases h with ⟨hmade, f, rfl, hop⟩ | ⟨written, hwrite, hcases⟩
  · -- nothing was written
    refine ⟨(fun hok => nomatch hok), fun f' hf => ?_⟩
    cases hf
    exact ⟨fun hrename => absurd hrename hop,
      iff_of_true (fun l => by rw [hmade]) fun hrename => absurd hrename hop⟩
  obtain ⟨l, hwrites⟩ := exists_writes hgrounded hwrite
  rcases hcases with ⟨rfl, hrename⟩ | ⟨rfl, e, f, rfl, hop, hrename⟩
  · refine ⟨fun _ => ⟨hwrites.receives_of_rename hrename, ?_⟩, fun f hf => nomatch hf⟩
    exact hwrites.kindAt_rename_iff hgrounded hrename
  · refine ⟨(fun hok => nomatch hok), fun f' hf => ?_⟩
    cases hf
    refine ⟨fun _ htarget => ?_, ?_⟩
    · obtain ⟨base, n, e', hready⟩ := hwrites.exists_ready htarget
      cases (hwrites.rename_eq hready htarget).symm.trans hrename
    · rw [hwrites.kindAt_iff, forall_prop_of_true hop]

theorem steps_name : steps (.ofString "x") = [Text.Utf8.ofString "x"] := by decide

theorem steps_temporaryName :
    steps (Path.ofString "x").temporary = [Text.Utf8.ofString "x.tmp"] := by decide

/-- A new file beside another one: everything else stays. -/
theorem replace_touches_only_new :
    (fileDisk [] "other" "old").IsGrounded ∧
      ∃ d', (fileDisk [] "other" "old").replace (.ofString "x") (Text.Utf8.ofString "new") =
        (d', .ok ()) ∧
      ∀ l, ¬(fileDisk [] "other" "old").Names (.ofString "x") l →
        d'.kindAt l = (fileDisk [] "other" "old").kindAt l := by
  have hd : (fileDisk [] "other" "old").IsGrounded := by decide
  have hmade : (fileDisk [] "other" "old").withParent (.ofString "x") = fileDisk [] "other" "old" :=
    withParent_of_lone (by decide) _
  have hvacant : (fileDisk [] "other" "old").IsVacant (Path.ofString "x").temporary :=
    isVacant_of_free (l := [Text.Utf8.ofString "x.tmp"]) <| by
      simp +decide [steps_temporaryName, resolveSteps, lookup, entry?, fileDisk, install, put]
  have hok : ((fileDisk [] "other" "old").replace (.ofString "x") (Text.Utf8.ofString "new")).2 =
      .ok () := by
    rw [replace_of_lone (by decide)]
    simp +decide [DiskAction.runAll, DiskAction.run, write, rename, steps_name, steps_temporaryName,
      resolveSteps, lookup, entry?, fileDisk, install, put, pure, Except.pure, bind, Except.bind]
  obtain ⟨d', hreplace⟩ : ∃ d', (fileDisk [] "other" "old").replace (.ofString "x")
      (Text.Utf8.ofString "new") = (d', .ok ()) := ⟨_, Prod.ext rfl hok⟩
  obtain ⟨-, hsuccess, -⟩ := replace_touches_only hd hreplace
  rw [hmade] at hsuccess
  exact ⟨hd, d', hreplace, (hsuccess rfl).2.2 hvacant⟩

/-- A directory in the target's place keeps the temporary file from its name, and it is left
behind. A file that stood under the temporary name is lost when the replacement succeeds. -/
theorem replace_leaves_or_loses_temporary :
    let d : Disk := install {} [Text.Utf8.ofString "x"] .directory
    (d.withParent (.ofString "x") = d ∧
      (d.replace (.ofString "x") (Text.Utf8.ofString "new")).2 =
        .error { kind := .io, op := some "rename_temp", path := some "x"
                 message := "Is a directory (os error 21)" } ∧
      d.kindAt [Text.Utf8.ofString "x.tmp"] = none ∧
      (d.replace (.ofString "x") (Text.Utf8.ofString "new")).1.kindAt
        [Text.Utf8.ofString "x.tmp"] = some (.file (Text.Utf8.ofString "new") .epoch)) ∧
    ((fileDisk [] "x.tmp" "old").replace (.ofString "x") (Text.Utf8.ofString "new")).2 = .ok () ∧
      (fileDisk [] "x.tmp" "old").kindAt [Text.Utf8.ofString "x.tmp"] =
        some (.file (Text.Utf8.ofString "old") .epoch) ∧
      ((fileDisk [] "x.tmp" "old").replace (.ofString "x") (Text.Utf8.ofString "new")).1.kindAt
        [Text.Utf8.ofString "x.tmp"] = none := by
  intro d
  have hlone : (Path.ofString "x").parent? = some ⟨[]⟩ := by decide
  have hkept : d.replace (.ofString "x") (Text.Utf8.ofString "new") =
      (d.put [Text.Utf8.ofString "x.tmp"] (.file (Text.Utf8.ofString "new") .epoch),
        .error { kind := .io, op := some "rename_temp", path := some "x"
                 message := "Is a directory (os error 21)" }) := by
    rw [replace_of_lone hlone]
    simp +decide [DiskAction.runAll, DiskAction.run, write, rename, steps_name, steps_temporaryName,
      resolveSteps, lookup, entry?, d, install, put, bind, Except.bind]
    rfl
  have hlost : (fileDisk [] "x.tmp" "old").replace (.ofString "x") (Text.Utf8.ofString "new") =
      (fileDisk [] "x" "new", .ok ()) := by
    rw [replace_of_lone hlone]
    simp +decide [DiskAction.runAll, DiskAction.run, write, rename, steps_name, steps_temporaryName,
      resolveSteps, lookup, entry?, fileDisk, install, put, moveTree, eraseTree, pure, Except.pure,
      bind, Except.bind]
  rw [hkept, hlost]
  exact ⟨⟨withParent_of_lone hlone _, rfl, by decide, by decide⟩, rfl, by decide, by decide⟩

end Disk

end CacheAudit
