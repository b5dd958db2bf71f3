import CacheAudit.Disk.Changes
import CacheAudit.Proofs.Storage.ParentDirectories

/-!
# Replacements that are cut short

A replacement may stop at any point, and any of its actions may fail: some of the directories above
the target have been made then, or a part of the content has been written, but a change of name is
done at once or not at all. Until then nothing is written but the temporary file, and that lies
under another name than the target. So the target holds what it held before, or the whole new
content once its name has been changed.

One thing can come to light that was not there before. Where the path of the target goes up again
after a name whose directory is missing, the directories made on the way may let the path lead to a
file that has been there all along.
-/

namespace CacheAudit

namespace DiskAction

/-- The disks that an action leaves when it fails or is cut short. -/
inductive Leaves (d : Disk) : DiskAction → Disk → Prop
  | nothing (a : DiskAction) : Leaves d a d
  | directories {p : Path} {d' : Disk} (h : d.Builds p d') : Leaves d (.createDirectories p) d'
  | part {p : Path} {content written : Bytes} {d' : Disk} (hpart : written <+: content)
      (h : d.write p written = .ok d') : Leaves d (.write p content) d'

/-- The disks on which a plan may stop: after its last action, or within the first one, or later. -/
inductive Stops : Disk → List DiskAction → Disk → Prop
  | finished {d : Disk} : Stops d [] d
  | within {d d' : Disk} {a : DiskAction} {rest : List DiskAction} (h : Leaves d a d') :
      Stops d (a :: rest) d'
  | later {d d' d'' : Disk} {a : DiskAction} {rest : List DiskAction}
      (hrun : a.run d = (d', .ok ())) (h : Stops d' rest d'') : Stops d (a :: rest) d''

variable {d d' : Disk} {a : DiskAction} {plan : List DiskAction} {p source target : Path}
  {content : Bytes}

theorem leaves_of_run {e : SystemError} (h : a.run d = (d', .error e)) : Leaves d a d' := by
  cases a with
  | createDirectories p =>
    have hbuilds := d.builds_makeDirectories p (p.bytes.length + 1)
    rw [run, Disk.createDirectories] at h
    rw [h] at hbuilds
    exact .directories hbuilds
  | write p content =>
    rw [run] at h
    split at h
    · cases h
    · cases h
      exact .nothing _
  | rename source target =>
    rw [run] at h
    split at h
    · cases h
    · cases h
      exact .nothing _

/-- A plan that fails has stopped. -/
theorem stops_of_runAll {f : Failure} (h : runAll d plan = (d', .error f)) : Stops d plan d' := by
  induction plan generalizing d with
  | nil => cases h
  | cons a rest ih =>
    rw [runAll] at h
    split at h
    · rename_i hrun
      exact .later hrun (ih h)
    · rename_i hrun
      cases h
      exact .within (leaves_of_run hrun)

/-- A plan stops within its first action or after it. -/
theorem Stops.cases_of_cons {rest : List DiskAction} (h : Stops d (a :: rest) d') :
    Leaves d a d' ∨ ∃ middle, a.run d = (middle, .ok ()) ∧ Stops middle rest d' := by
  cases h with
  | within h => exact .inl h
  | later hrun h => exact .inr ⟨_, hrun, h⟩

/-- Before a file's name is changed, no more than a part of its content has been written. -/
theorem Stops.of_write (h : Stops d [.write source content, .rename source target] d') :
    (d' = d ∨ ∃ written, written <+: content ∧ d.write source written = .ok d') ∨
      runAll d [.write source content, .rename source target] = (d', .ok ()) := by
  obtain hleaves | ⟨middle, hrun, h⟩ := h.cases_of_cons
  · cases hleaves with
    | nothing => exact .inl (.inl rfl)
    | part hpart hwrite => exact .inl (.inr ⟨_, hpart, hwrite⟩)
  have hwrite : d.write source content = .ok middle := by
    rw [run] at hrun
    split at hrun
    · rename_i hwrite
      cases hrun
      exact hwrite
    · cases hrun
  obtain hleaves | ⟨last, hrename, h⟩ := h.cases_of_cons
  · cases hleaves with
    | nothing => exact .inl (.inr ⟨content, List.prefix_rfl, hwrite⟩)
  · cases h
    right
    simp only [runAll, hrun, hrename]

end DiskAction

namespace Disk

open DiskAction (Stops stops_of_runAll)

variable {d d' : Disk} {p target : Path} {content written : Bytes}

/-- A disk on which some of the directories above a target have been made. -/
inductive Prepares (d : Disk) (target : Path) : Disk → Prop
  | nothing : d.Prepares target d
  | directories {parent : Path} {d' : Disk} (hparent : target.parent? = some parent)
      (h : d.Builds parent d') : d.Prepares target d'

/-- Whether the parts of a path before the last lead to a directory. -/
def HasDirectoryOf (d : Disk) (p : Path) : Prop :=
  ∃ links l, d.Leads linkLimit (d.start p) (steps p).dropLast links l

/-- A disk on which a target holds what it held before. What it may hold although it held nothing
is another file as it was, and only if the directory of the target was missing and its path goes up
after a name. -/
structure KeepsTarget (d d' : Disk) (target : Path) : Prop where
  old : ∀ content, d.read target = .ok content → d'.read target = .ok content
  new : ∀ content, d'.read target = .ok content → d.read target = .ok content ∨
    ¬target.Forward ∧ ¬d.HasDirectoryOf target ∧
      ∃ l modified, d.entry? l = some (.file content modified)

/-! ### Reading -/

/-- A path that leads to a directory in which its last name is looked up. -/
structure EndsAt (d : Disk) (p : Path) (base : Location) (n : Bytes) : Prop where
  steps_eq : steps p = (steps p).dropLast ++ [n]
  not_dot : n ≠ Path.dot
  not_dotDot : n ≠ Path.dotDot
  not_long : ¬nameLimit < n.length
  proper : p.bytes ≠ [] ∧ p.bytes.length < pathLimit
  leads : ∃ links, d.Leads linkLimit (d.start p) (steps p).dropLast links base

namespace EndsAt

variable {base base' : Location} {n n' : Bytes}

theorem resolveSteps (h : d.EndsAt p base n) (follow : Bool)
    (hlink : ∀ target, d.entry? (base ++ [n]) = some (.link target) → follow = false) :
    d.resolveSteps follow p (steps p) = .ok (d.placeAt (base ++ [n])) := by
  obtain ⟨links, hleads⟩ := h.leads
  exact resolveSteps_of_leads follow h.steps_eq h.not_dot h.not_dotDot h.not_long h.proper hleads
    hlink

/-- The directory in which a path ends is the one to which the parts before its last lead. -/
theorem base_eq {links : Nat} (h : d.EndsAt p base n)
    (hleads : d.Leads linkLimit (d.start p) (steps p).dropLast links base') : base' = base := by
  have h' : d.EndsAt p base' n := { h with leads := ⟨links, hleads⟩ }
  have hplace := (h.resolveSteps false fun _ _ => rfl).symm.trans
    (h'.resolveSteps false fun _ _ => rfl)
  have hsame : base ++ [n] = base' ++ [n] := by
    unfold placeAt at hplace
    split at hplace <;> split at hplace <;> simp_all
  exact (List.append_cancel_right hsame).symm

/-- A path ends in the same place where the way there is the same. -/
theorem congr (h : d.EndsAt p base n) (hcwd : d'.cwd = d.cwd)
    (hleads : ∀ links, d.Leads linkLimit (d.start p) (steps p).dropLast links base →
      d'.Leads linkLimit (d.start p) (steps p).dropLast links base) : d'.EndsAt p base n := by
  obtain ⟨links, hway⟩ := h.leads
  have hstart : d'.start p = d.start p := by rw [start, start, hcwd]
  refine { h with leads := ⟨links, ?_⟩ }
  rw [hstart]
  exact hleads links hway

/-- A path that ends in a file is read from it. -/
theorem read {modified : Timestamp} (h : d.EndsAt p base n) (hend : endsInSlash p = false)
    (hentry : d.entry? (base ++ [n]) = some (.file content modified)) : d.read p = .ok content := by
  obtain ⟨links, hleads⟩ := h.leads
  exact read_of_leads h.steps_eq hend h.not_dot h.not_dotDot h.not_long h.proper hleads hentry

end EndsAt

/-- What is no directory is found at the end of a path. -/
theorem exists_endsAt {follow : Bool} {place : Place}
    (h : d.resolveSteps follow p (steps p) = .ok place)
    (hplace : ∀ l, place ≠ .found l .directory) :
    ∃ base n, d.EndsAt p base n ∧
      ((∀ target, d.entry? (base ++ [n]) = some (.link target) → follow = false) →
        place = d.placeAt (base ++ [n])) := by
  obtain ⟨front, n, hsteps, hdot, hdots⟩ := exists_name_of_resolveSteps h hplace
  obtain ⟨links, base, hleads, hlong, hproper, -⟩ := exists_way hsteps hdot hdots h
  have hends : d.EndsAt p base n := by
    refine ⟨?_, hdot, hdots, hlong, hproper, links, ?_⟩
    · rw [hsteps, List.dropLast_concat]
    · rwa [hsteps, List.dropLast_concat]
  refine ⟨base, n, hends, fun hlink => ?_⟩
  rw [hends.resolveSteps follow hlink] at h
  exact (Except.ok.inj h).symm

theorem endsInLink_iff : d.EndsInLink p ↔ ∃ base n target, d.EndsAt p base n ∧
    d.entry? (base ++ [n]) = some (.link target) := by
  constructor
  · rintro ⟨l, target, hfound⟩
    obtain ⟨base, n, hends, hplace⟩ := exists_endsAt hfound (by simp)
    obtain ⟨-, hentry⟩ := placeAt_eq_found.1 (hplace fun _ _ => rfl).symm
    exact ⟨base, n, target, hends, hentry⟩
  · rintro ⟨base, n, target, hends, hentry⟩
    refine ⟨base ++ [n], target, ?_⟩
    rw [hends.resolveSteps false fun _ _ => rfl, placeAt, hentry]

/-- A path that does not end in a link is read from the file in which it ends. -/
theorem exists_of_read (hlink : ¬d.EndsInLink p) (h : d.read p = .ok content) :
    endsInSlash p = false ∧ ∃ base n modified, d.EndsAt p base n ∧
      d.entry? (base ++ [n]) = some (.file content modified) := by
  obtain ⟨l, modified, hfound⟩ := resolve_of_read h
  have hslash : endsInSlash p = false := by
    -- a path that ends in a slash is looked up to a dot, and leads to a directory
    by_contra hslash
    rw [Bool.not_eq_false] at hslash
    rw [resolve, strictSteps, if_pos hslash] at hfound
    obtain ⟨-, hlookup⟩ := lookup_of_resolveSteps hfound
    obtain ⟨-, links, base, hleads⟩ := exists_leads (by simp) hlookup
    rw [List.dropLast_concat] at hleads
    rw [hleads.lookup_append, lookup_dot, lookup_nil] at hlookup
    cases hlookup
  rw [resolve, strictSteps, hslash, if_neg (by simp)] at hfound
  obtain ⟨base, n, hends, hplace⟩ := exists_endsAt hfound (by simp)
  have hnot : ∀ target, d.entry? (base ++ [n]) ≠ some (.link target) := fun target hentry =>
    hlink (endsInLink_iff.2 ⟨base, n, target, hends, hentry⟩)
  obtain ⟨-, hentry⟩ := placeAt_eq_found.1 (hplace fun target h => absurd h (hnot target)).symm
  exact ⟨hslash, base, n, modified, hends, hentry⟩

/-! ### New directories -/

theorem Extends.endsAt (h : d.Extends d') {base : Location} {n : Bytes}
    (hends : d.EndsAt p base n) :
    d'.EndsAt p base n :=
  hends.congr h.cwd fun _ hleads => h.leads hleads

/-- What a target holds is kept when directories are made. -/
theorem Extends.read (h : d.Extends d') (hlink : ¬d.EndsInLink p) (hread : d.read p = .ok content) :
    d'.read p = .ok content := by
  obtain ⟨hend, base, n, modified, hends, hentry⟩ := exists_of_read hlink hread
  exact (h.endsAt hends).read hend (h.entry?_of_some hentry)

/-- A target that has its directory holds what it held before directories were made. -/
theorem Extends.read_of_hasDirectoryOf (h : d.Extends d') (hlink : ¬d'.EndsInLink p)
    (hdirectory : d.HasDirectoryOf p) (hread : d'.read p = .ok content) :
    d.read p = .ok content := by
  obtain ⟨hend, base, n, modified, hends, hentry⟩ := exists_of_read hlink hread
  obtain ⟨links, base', hleads⟩ := hdirectory
  have hleads' := h.leads hleads
  rw [← h.start p] at hleads'
  obtain rfl := hends.base_eq hleads'
  have hbefore : d.EndsAt p base' n := { hends with leads := ⟨links, hleads⟩ }
  exact hbefore.read hend (h.of_entry? hentry (by simp))

namespace Prepares

theorem toExtends (h : d.Prepares target d') : d.Extends d' := by
  cases h with
  | nothing => exact .refl d
  | directories _ h => exact h.toExtends

/-- New directories keep a target, or let it lead to a file that was there. -/
theorem keepsTarget (h : d.Prepares target d') (hd : d.IsGrounded)
    (hlink : ¬d.EndsInLink target) (hlink' : ¬d'.EndsInLink target) : d.KeepsTarget d' target where
  old _ hread := h.toExtends.read hlink hread
  new content hread := by
    by_cases hold : d.read target = .ok content
    · exact .inl hold
    right
    refine ⟨?_, ?_, ?_⟩
    · intro hforward
      cases h with
      | nothing => exact hold hread
      | directories hparent h =>
        cases h with
        | none => exact hold hread
        | make h hq hmade =>
          exact read_of_makeDirectory (h.isGrounded hd) hforward (.of_parent hparent hq) hmade
            content hread
    · intro hdirectory
      exact hold (h.toExtends.read_of_hasDirectoryOf hlink' hdirectory hread)
    · obtain ⟨-, base, n, modified, -, hentry⟩ := exists_of_read hlink' hread
      exact ⟨base ++ [n], modified, h.toExtends.of_entry? hentry (by simp)⟩

/-- On a disk without links no path ends in a link, whatever directories are made. -/
theorem not_endsInLink (h : d.Prepares target d')
    (hnone : ∀ e ∈ d.entries, ∀ destination, e.2 ≠ .link destination) (p : Path) :
    ¬d'.EndsInLink p := by
  intro hlink
  obtain ⟨base, n, destination, -, hentry⟩ := endsInLink_iff.1 hlink
  have hbefore := h.toExtends.of_entry? hentry (by simp)
  exact hnone _ (mem_entries (by simp) hbefore) destination rfl

end Prepares

/-! ### The temporary file -/

/-- Where neither a directory nor a link stands, a file changes no way. -/
theorem leads_put_file {links links' : Nat} {l l' place : Location} {parts : List Bytes}
    {modified : Timestamp} (hplace : place ≠ []) (hdirectory : d.entry? place ≠ some .directory)
    (hlink : ∀ destination, d.entry? place ≠ some (.link destination)) :
    (d.put place (.file content modified)).Leads links l parts links' l' ↔
      d.Leads links l parts links' l' := by
  have hother {l : Location} {e : Entry} (he : ∀ content modified, e ≠ .file content modified)
      (h : Disk.entry? (d.put place (.file content modified)) l = some e) :
      d.entry? l = some e := by
    rwa [entry?_put_of_ne] at h
    rintro rfl
    rw [entry?_put_self hplace] at h
    cases h
    exact he _ _ rfl
  constructor
  · intro h
    exact h.mono (fun _ hl => hother (by simp) hl) fun _ _ hl => hother (by simp) hl
  · intro h
    exact h.put hdirectory hlink

/-- Where neither a directory nor a link stands, a file changes no path's end. -/
theorem endsAt_put_file {base place : Location} {n : Bytes} {modified : Timestamp}
    (hplace : place ≠ []) (hdirectory : d.entry? place ≠ some .directory)
    (hlink : ∀ destination, d.entry? place ≠ some (.link destination)) :
    (d.put place (.file content modified)).EndsAt p base n ↔ d.EndsAt p base n := by
  constructor
  · intro h
    refine h.congr (cwd_put ..).symm fun links hleads => ?_
    exact (leads_put_file hplace hdirectory hlink).1 hleads
  · intro h
    refine h.congr (cwd_put ..) fun links hleads => ?_
    exact (leads_put_file hplace hdirectory hlink).2 hleads

/-- The temporary file has another name than its target, so it stands in another place. -/
theorem EndsAt.ne_temporary {base base' : Location} {n m : Bytes} {front : List Bytes}
    (h : d.EndsAt target base n) (hend : endsInSlash target = false)
    (hsteps : steps target.temporary = front ++ [m]) : base ++ [n] ≠ base' ++ [m] := by
  obtain ⟨-, front', hsteps', -⟩ := steps_temporary h.steps_eq hend h.not_dot h.not_dotDot
  obtain ⟨-, hm⟩ := List.append_inj' (hsteps.symm.trans hsteps') rfl
  intro heq
  obtain ⟨-, hn⟩ := List.append_inj' heq rfl
  rw [← hn] at hm
  simp [temporaryEnding] at hm

/-- Writing the temporary file of a target leaves the target alone. -/
theorem read_write_temporary (hlink : ¬d.EndsInLink target)
    (htemporary : ¬d.EndsInLink target.temporary)
    (hwrite : d.write target.temporary written = .ok d') :
    d'.read target = .ok content ↔ d.read target = .ok content := by
  obtain ⟨front, m, _, base', hsteps, -, -, ⟨hdirectory, hnot⟩, rfl, -⟩ :=
    exists_of_write htemporary hwrite
  have hends {base : Location} {n : Bytes} :
      (d.put (base' ++ [m]) (.file written d.now)).EndsAt target base n ↔
        d.EndsAt target base n :=
    endsAt_put_file (by simp) hdirectory hnot
  constructor
  · intro hread
    have hlink' : ¬(d.put (base' ++ [m]) (.file written d.now)).EndsInLink target := by
      rintro hlink'
      obtain ⟨base, n, destination, hends', hentry⟩ := endsInLink_iff.1 hlink'
      have hne : base ++ [n] ≠ base' ++ [m] := by
        intro heq
        rw [heq, entry?_put_self (by simp)] at hentry
        cases hentry
      rw [entry?_put_of_ne hne] at hentry
      exact hlink (endsInLink_iff.2 ⟨base, n, destination, hends.1 hends', hentry⟩)
    obtain ⟨hend, base, n, modified, hends', hentry⟩ := exists_of_read hlink' hread
    have hbefore := hends.1 hends'
    rw [entry?_put_of_ne (hbefore.ne_temporary hend hsteps)] at hentry
    exact hbefore.read hend hentry
  · intro hread
    obtain ⟨hend, base, n, modified, hends', hentry⟩ := exists_of_read hlink hread
    rw [← entry?_put_of_ne (hends'.ne_temporary hend hsteps)] at hentry
    exact (hends.2 hends').read hend hentry

/-! ### Replacements -/

/-- A replacement that stops has been carried out, or has made directories and written no more than
a part of the temporary file. -/
theorem exists_of_stops (h : Stops d (replacement target content) d') :
    (∃ prepared, d.Prepares target prepared ∧ (d' = prepared ∨
      ∃ written, written <+: content ∧ prepared.write target.temporary written = .ok d')) ∨
      d.replace target content = (d', .ok ()) := by
  unfold replace
  unfold replacement at h ⊢
  cases hparent : target.parent? with
  | none =>
    rw [hparent] at h
    exact h.of_write.imp_left fun hcases => ⟨d, .nothing, hcases⟩
  | some parent =>
    rw [hparent] at h
    dsimp only at h ⊢
    by_cases hempty : parent.bytes.isEmpty
    · rw [if_pos hempty] at h ⊢
      exact h.of_write.imp_left fun hcases => ⟨d, .nothing, hcases⟩
    · rw [if_neg hempty, List.singleton_append] at h ⊢
      obtain hleaves | ⟨made, hrun, h⟩ := h.cases_of_cons
      · left
        cases hleaves with
        | nothing => exact ⟨d, .nothing, .inl rfl⟩
        | directories h => exact ⟨d', .directories hparent h, .inl rfl⟩
      have hbuilds : d.Builds parent made := by
        have hall := d.builds_makeDirectories parent (parent.bytes.length + 1)
        rw [DiskAction.run, createDirectories] at hrun
        rwa [hrun] at hall
      refine h.of_write.imp (fun hcases => ⟨made, .directories hparent hbuilds, hcases⟩) ?_
      intro hall
      rw [DiskAction.runAll, hrun]
      exact hall

theorem prepares_withParent (d : Disk) (target : Path) :
    d.Prepares target (d.withParent target) := by
  unfold withParent
  split
  · rename_i parent hparent
    split
    · exact .nothing
    · exact .directories hparent (d.builds_makeDirectories parent _)
  · exact .nothing

/-- A disk with one file, in a directory or not. -/
def fileDisk (above : Location) (name : String) (content : String) : Disk :=
  install {} (above ++ [Text.Utf8.ofString name]) (.file (Text.Utf8.ofString content) .epoch)

end Disk

end CacheAudit
