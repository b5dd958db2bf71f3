import CacheAudit.Proofs.Disk.Removal
import CacheAudit.Proofs.Storage.Replace

/-!
# What is left when a path has been vacated

A path stands at the place of its last name, whether or not anything is there, also when part of
the way is still to be made. If a directory can be made at a path that has been vacated, then
nothing is left at or below the place where the path stands, and everything else is as it was.
-/

namespace CacheAudit

namespace Disk

open CacheAudit.Path (dotDot)

variable {d d' : Disk} {p : Path} {l : Location} {e : Entry} {follow : Bool} {links : Nat}
  {here : Location} {entry : Entry} {parts : List Bytes}

/-- The place at which a path stands on a disk. -/
inductive StandsAt (d : Disk) (p : Path) : Location → Prop
  /- The parts before the last lead to a directory, in which the last is a name. -/
  | last {front : List Bytes} {n : Bytes} {links : Nat} {here : Location}
      (hsteps : steps p = front ++ [n]) (hdot : n ≠ Path.dot) (hdots : n ≠ dotDot)
      (hleads : d.Leads linkLimit (d.start p) front links here) : d.StandsAt p (here ++ [n])
  /- A name is missing in the directory that the parts before it lead to, and no part after it goes
  up. -/
  | missing {front rest : List Bytes} {n : Bytes} {links : Nat} {here : Location}
      (hsteps : steps p = front ++ n :: rest) (hdot : n ≠ Path.dot) (hdots : n ≠ dotDot)
      (hleads : d.Leads linkLimit (d.start p) front links here)
      (hfree : d.entry? (here ++ [n]) = none) (hdown : dotDot ∉ rest) :
      d.StandsAt p (here ++ n :: rest.filter (· ≠ Path.dot))

/-- Two disks on which a path stands at one place, and which are the same apart from what lies at or
below it. -/
def SameElsewhere (p : Path) (a d : Disk) : Prop :=
  ∀ l, a.StandsAt p l → d.StandsAt p l ∧ a.eraseTree l = d.eraseTree l

/-! ### The place of a path -/

/-- A way leads to one directory. -/
theorem Leads.unique {links' links'' : Nat} {l' l'' : Location}
    (h : d.Leads links l parts links' l') (h' : d.Leads links l parts links'' l'') : l' = l'' := by
  cases h.lookup.symm.trans h'.lookup
  rfl

/-- Nothing is found by a name that is missing. -/
theorem not_found_of_free {rest : List Bytes} {n : Bytes} (hdot : n ≠ Path.dot)
    (hdots : n ≠ dotDot) (hfree : d.entry? (here ++ [n]) = none) :
    d.lookup follow links here .directory (n :: rest) ≠ .ok (.found l e) := by
  by_cases hlong : nameLimit < n.length
  · simp [lookup_long hdot hdots hlong]
  · rw [lookup_missing hdot hdots hlong hfree]
    split <;> simp

/-- No way leads past a name that is missing. -/
theorem Leads.not_past {front rest : List Bytes} {n : Bytes} {links' links'' : Nat} {l' : Location}
    (h : d.Leads links l front links' here) (hdot : n ≠ Path.dot) (hdots : n ≠ dotDot)
    (hfree : d.entry? (here ++ [n]) = none) : ¬d.Leads links l (front ++ n :: rest) links'' l' := by
  intro hpast
  have hlookup := hpast.lookup
  rw [h.lookup_append] at hlookup
  exact not_found_of_free hdot hdots hfree hlookup

/-- The parts before the first name that may be missing lead to a directory. -/
theorem StandsAt.exists_split (h : d.StandsAt p l) : ∃ front n rest links here,
    steps p = front ++ n :: rest ∧ n ≠ Path.dot ∧ n ≠ dotDot ∧
      d.Leads linkLimit (d.start p) front links here ∧
        (rest = [] ∨ d.entry? (here ++ [n]) = none) ∧
          l = here ++ n :: rest.filter (· ≠ Path.dot) := by
  cases h with
  | last hsteps hdot hdots hleads =>
    exact ⟨_, _, [], _, _, hsteps, hdot, hdots, hleads, .inl rfl, rfl⟩
  | missing hsteps hdot hdots hleads hfree hdown =>
    exact ⟨_, _, _, _, _, hsteps, hdot, hdots, hleads, .inr hfree, rfl⟩

/-- A path stands at one place. -/
theorem StandsAt.unique {l' : Location} (h : d.StandsAt p l) (h' : d.StandsAt p l') : l = l' := by
  -- a way that goes further than another one goes past a name that is missing
  have hnot {front more rest' : List Bytes} {n n' : Bytes} {links links' : Nat}
      {here here' : Location} (hleads : d.Leads linkLimit (d.start p) front links here)
      (hleads' : d.Leads linkLimit (d.start p) (front ++ n :: more) links' here')
      (hdot : n ≠ Path.dot) (hdots : n ≠ dotDot) :
      ¬(more ++ n' :: rest' = [] ∨ d.entry? (here ++ [n]) = none) := by
    rintro (hnil | hfree)
    · simp at hnil
    · exact hleads.not_past hdot hdots hfree hleads'
  obtain ⟨front, n, rest, links, here, hsteps, hdot, hdots, hleads, hend, rfl⟩ := h.exists_split
  obtain ⟨front', n', rest', links', here', hsteps', hdot', hdots', hleads', hend', rfl⟩ :=
    h'.exists_split
  rcases List.append_eq_append_iff.1 (hsteps.symm.trans hsteps') with
    ⟨_ | ⟨m, more⟩, hfront, hrest⟩ | ⟨_ | ⟨m, more⟩, hfront, hrest⟩
  · rw [List.append_nil] at hfront
    cases hrest
    rw [hleads.unique (hfront ▸ hleads')]
  · cases hrest
    exact absurd hend (hnot hleads (hfront ▸ hleads') hdot hdots)
  · rw [List.append_nil] at hfront
    cases hrest
    rw [hleads.unique (hfront ▸ hleads')]
  · cases hrest
    exact absurd hend' (hnot hleads' (hfront ▸ hleads) hdot' hdots')

/-! ### Looking up on a disk from which something is gone -/

/-- What is found where something is gone was found before. -/
theorem resolveSteps_of_restrict {keep : Location → Bool}
    (h : (d.restrict keep).resolveSteps follow p parts = .ok (.found l e)) :
    d.resolveSteps follow p parts = .ok (.found l e) := by
  obtain ⟨⟨hne, hshort⟩, hlookup⟩ := lookup_of_resolveSteps h
  rw [resolveSteps, if_neg (by simpa using hne), if_neg (by omega)]
  exact ((resolves_of_lookup hlookup).mono fun _ _ => entry?_of_restrict).lookup

/-! ### Vacating a path -/

/-- With its last slash, a path leads to the same directory, or to one where it led to a link. -/
theorem strict_of_directory (h : d.resolveSteps false p (steps p) = .ok (.found l .directory)) :
    d.resolveSteps false p (strictSteps p) = .ok (.found l .directory) := by
  rw [strictSteps]
  split
  · obtain ⟨⟨hne, hshort⟩, hlookup⟩ := lookup_of_resolveSteps h
    obtain ⟨-, links, hleads⟩ := (resolves_of_lookup hlookup).exists_leads
    rw [resolveSteps, if_neg (by simpa using hne), if_neg (by omega)]
    show d.lookup false linkLimit (d.start p) .directory _ = _
    rw [hleads.lookup_append, lookup_dot, lookup_nil]
  · exact h

/-- What is found by all parts of a path and is no directory is found without a last slash. -/
theorem steps_of_strict (h : d.resolveSteps false p (strictSteps p) = .ok (.found l e))
    (he : e ≠ .directory) : d.resolveSteps false p (steps p) = .ok (.found l e) := by
  rw [strictSteps] at h
  split at h
  · obtain ⟨-, hlookup⟩ := lookup_of_resolveSteps h
    obtain ⟨-, links, base, hleads⟩ := exists_leads (by simp) hlookup
    rw [List.dropLast_concat] at hleads
    rw [hleads.lookup_append, lookup_dot, lookup_nil] at hlookup
    cases hlookup
    exact absurd rfl he
  · exact h

/-- Whether the last part of a path is a name. -/
def HasLastName (p : Path) : Prop :=
  ∃ front n, steps p = front ++ [n] ∧ n ≠ Path.dot ∧ n ≠ dotDot

/-- A directory is removed at the place that its path leads to under its last name. -/
theorem exists_of_removeDirectory (h : d.removeDirectory p = .ok d') :
    HasLastName p ∧
      ∃ l, d.resolveSteps false p (steps p) = .ok (.found l .directory) ∧ d' = d.erase l := by
  unfold removeDirectory at h
  split at h
  · cases h
  rename_i hsteps
  split at h <;> try cases h
  split at h
  · cases h
  rename_i hdots
  split at h <;> try cases h
  rename_i l hfound
  split at h
  swap
  · cases h
  cases h
  rw [lastDots?, List.getLast?_eq_getLast_of_ne_nil hsteps] at hdots
  dsimp only at hdots
  split at hdots
  · cases hdots
  rename_i hname
  rw [not_or] at hname
  exact ⟨⟨_, _, (List.dropLast_append_getLast hsteps).symm, hname⟩, l, hfound, rfl⟩

/-- A tree is removed at the place that its path leads to under its last name: a directory with all
that it holds, or a link. -/
theorem exists_of_removeTree (h : d.removeTree p = (d', .ok ())) :
    HasLastName p ∧ ∃ l e, d.resolveSteps false p (steps p) = .ok (.found l e) ∧
      (e = .directory ∧ d' = d.eraseTree l ∨ e ≠ .directory ∧ d' = d.erase l) := by
  unfold removeTree at h
  split at h
  · cases h
  · cases h
  · cases h
  · rename_i l target hfound
    cases h
    have hlink := steps_of_strict hfound (by simp)
    exact ⟨exists_name_of_resolveSteps hlink (by simp), l, _, hlink, .inr ⟨by simp, rfl⟩⟩
  · rename_i l hfound
    dsimp only at h
    split at h
    · rename_i hremoved
      cases h
      obtain ⟨hname, l', hfound', rfl⟩ := exists_of_removeDirectory hremoved
      -- what the path leads to when the directory has been emptied it led to before
      rw [clear_eq_restrict] at hfound'
      have hbefore := resolveSteps_of_restrict hfound'
      have hsame := hfound.symm.trans (strict_of_directory hbefore)
      cases hsame
      exact ⟨hname, l, _, hbefore, .inl ⟨rfl, erase_clear d l⟩⟩
    · cases h

/-- What lies below a place lies in a directory. -/
theorem directory_of_isPrefix (h : d.IsTree) {f : Location × Entry} (hf : f ∈ d.entries)
    (hwithin : l <+: f.1) (hne : f.1 ≠ l) : d.entry? l = some .directory := by
  obtain ⟨below, hbelow⟩ := hwithin
  have hentry : d.entry? (l ++ below) = some f.2 := by
    rw [hbelow]
    exact (h.entry?_eq_some_iff (h.rooted f hf)).2 hf
  refine h.directory_above ?_ hentry
  rintro rfl
  rw [List.append_nil] at hbelow
  exact hne hbelow.symm

/-- Nothing lies below what is no directory. -/
theorem erase_eq_eraseTree (h : d.IsTree) (hl : d.entry? l ≠ some .directory) :
    d.erase l = d.eraseTree l := by
  rw [erase, eraseTree]
  congr 1
  refine List.filter_congr fun f hf => ?_
  by_cases hwithin : l <+: f.1
  · have hsame : f.1 = l := by
      by_contra hne
      exact hl (directory_of_isPrefix h hf hwithin hne)
    rw [hsame, bne_self_eq_false, Location.isWithin_iff.2 List.prefix_rfl, Bool.not_true]
  · have hne : f.1 ≠ l := by
      rintro rfl
      exact hwithin List.prefix_rfl
    rw [not_isWithin hwithin, Bool.not_false, bne_iff_ne.2 hne]

/-- Where nothing stands nothing is to be erased. -/
theorem eraseTree_of_free (h : d.IsTree) (hfree : d.entry? l = none) : d.eraseTree l = d := by
  have hnot : d.entry? l ≠ some .directory := by simp [hfree]
  rw [← erase_eq_eraseTree h hnot, erase]
  have hall : d.entries.filter (fun f => f.1 != l) = d.entries := by
    refine List.filter_eq_self.2 fun f hf => bne_iff_ne.2 fun hsame => ?_
    have hentry := (h.entry?_eq_some_iff (h.rooted f hf)).2 hf
    rw [hsame, hfree] at hentry
    cases hentry
  rw [hall]

/-- A path with parts is looked up. -/
theorem bytes_ne_nil_of_steps {front rest : List Bytes} {n : Bytes}
    (hsteps : steps p = front ++ n :: rest) : p.bytes ≠ [] := by
  intro hnil
  have hlength := length_steps_le p
  simp [hsteps, hnil] at hlength

/-- A path is looked up from where its first parts lead. -/
theorem resolveSteps_append {front rest : List Bytes} {n : Bytes} {links : Nat}
    (hshort : p.bytes.length < pathLimit) (hsteps : steps p = front ++ n :: rest)
    (hleads : d.Leads linkLimit (d.start p) front links here) (follow : Bool) :
    d.resolveSteps follow p (steps p) = d.lookup follow links here .directory (n :: rest) := by
  rw [resolveSteps, if_neg (by simpa using bytes_ne_nil_of_steps hsteps), if_neg (by omega), hsteps]
  exact hleads.lookup_append follow n rest

/-- A last slash adds no more than a dot. -/
theorem exists_strictSteps (p : Path) : ∃ dots, strictSteps p = steps p ++ dots := by
  rw [strictSteps]
  split
  · exact ⟨[Path.dot], rfl⟩
  · exact ⟨[], (List.append_nil _).symm⟩

/-- A path on whose way a name is missing leads nowhere. -/
theorem follow_of_missing {front rest : List Bytes} {n : Bytes} {links : Nat}
    (hsteps : steps p = front ++ n :: rest) (hdot : n ≠ Path.dot) (hdots : n ≠ dotDot)
    (hleads : d.Leads linkLimit (d.start p) front links here)
    (hfree : d.entry? (here ++ [n]) = none) : ∃ error, d.follow p = .error error := by
  rcases hfollow : d.follow p with error | ⟨l, e⟩
  · exact ⟨error, rfl⟩
  obtain ⟨dots, hstrict⟩ := exists_strictSteps p
  have hlookup : d.lookup true linkLimit (d.start p) .directory (strictSteps p) =
      .ok (.found l e) := (lookup_of_follow hfollow).2
  rw [hstrict, hsteps, List.append_assoc, List.cons_append, hleads.lookup_append] at hlookup
  exact absurd hlookup (not_found_of_free hdot hdots hfree)

/-- No directory is made at a path that is too long. -/
theorem length_lt_of_created (hne : p.bytes ≠ []) (hmade : (d.createDirectories p).2 = .ok ()) :
    p.bytes.length < pathLimit := by
  by_contra hlong
  rw [createDirectories_of_long hne (by omega)] at hmade
  cases hmade

/-- A directory that is not there and can be made with its parents lacks nothing but a parent. -/
theorem noEntry_of_created {error error' : SystemError} (hne : p.bytes ≠ [])
    (hfollow : d.follow p = .error error) (hmade : (d.createDirectories p).2 = .ok ())
    (hmake : d.makeDirectory p = .error error') : error' = .noEntry := by
  by_contra herror
  have hnot : ¬d.isDirectory p = true := by simp [isDirectory, hfollow]
  rw [createDirectories, makeDirectories_of_error _ hne hmake herror, if_neg hnot] at hmade
  cases hmade

/-- A path that leads nowhere, at which a directory can be made, has its last name free. -/
theorem free_of_created {front : List Bytes} {n : Bytes} {links : Nat} {error : SystemError}
    (hsteps : steps p = front ++ [n]) (hdot : n ≠ Path.dot) (hdots : n ≠ dotDot)
    (hleads : d.Leads linkLimit (d.start p) front links here)
    (hfollow : d.follow p = .error error) (hmade : (d.createDirectories p).2 = .ok ()) :
    d.entry? (here ++ [n]) = none := by
  have hne := bytes_ne_nil_of_steps hsteps
  have hshort := length_lt_of_created hne hmade
  have hlookup := resolveSteps_append hshort hsteps hleads false
  by_cases hlong : nameLimit < n.length
  · have hmake : d.makeDirectory p = .error .nameTooLong := by
      rw [makeDirectory, hlookup, lookup_long hdot hdots hlong]
    cases noEntry_of_created hne hfollow hmade hmake
  rw [lookup_last hdot hdots hlong fun _ _ => rfl, placeAt] at hlookup
  cases hentry : d.entry? (here ++ [n]) with
  | none => rfl
  | some e =>
    have hmake : d.makeDirectory p = .error .fileExists := by
      rw [makeDirectory, hlookup, hentry]
    cases noEntry_of_created hne hfollow hmade hmake

/-- If a directory can be made at a path that has been vacated, then nothing is left at or below the
place where the path stands, and everything else is as it was. -/
theorem vacate_eq_eraseTree (h : d.IsTree) (hstands : d.StandsAt p l)
    (hvacated : (d.vacate p).2 = .ok ())
    (hmade : ((d.vacate p).1.createDirectories p).2 = .ok ()) :
    (d.vacate p).1 = d.eraseTree l := by
  have hleft {error : SystemError} (hfollow : d.follow p = .error error) :
      d.vacate p = (d, .ok ()) := by
    rw [vacate, hfollow]
  cases hstands with
  | @missing front rest n links here hsteps hdot hdots hleads hfree hdown =>
    obtain ⟨error, hfollow⟩ := follow_of_missing hsteps hdot hdots hleads hfree
    rw [hleft hfollow]
    refine (eraseTree_of_free h ?_).symm
    by_contra hthere
    obtain ⟨e, he⟩ := Option.ne_none_iff_exists'.1 hthere
    rw [List.append_cons] at he
    by_cases hnames : rest.filter (· ≠ Path.dot) = []
    · rw [hnames, List.append_nil, hfree] at he
      cases he
    · rw [h.directory_above hnames he] at hfree
      cases hfree
  | @last front n links here hsteps hdot hdots hleads =>
    rcases hfollow : d.follow p with error | found
    · rw [hleft hfollow] at hmade ⊢
      exact (eraseTree_of_free h
        (free_of_created hsteps hdot hdots hleads hfollow hmade)).symm
    · rw [vacate, hfollow] at hvacated ⊢
      obtain ⟨-, l, e, hfound, hremoved⟩ := exists_of_removeTree (Prod.ext rfl hvacated)
      obtain ⟨-, hlookup⟩ := lookup_of_resolveSteps hfound
      rw [hsteps, hleads.lookup_append] at hlookup
      by_cases hlong : nameLimit < n.length
      · rw [lookup_long hdot hdots hlong] at hlookup
        cases hlookup
      rw [lookup_last hdot hdots hlong fun _ _ => rfl] at hlookup
      obtain ⟨rfl, hentry⟩ := placeAt_eq_found.1 (Except.ok.inj hlookup)
      rcases hremoved with ⟨-, hremoved⟩ | ⟨he, hremoved⟩
      · exact hremoved
      · rw [← erase_eq_eraseTree h (by rw [hentry]; simpa using he)]
        exact hremoved

end Disk

end CacheAudit
