import CacheAudit.Proofs.Disk.Entries
import CacheAudit.Proofs.Disk.Lookup

/-!
# The way to a directory

All parts of a path but the last lead to a directory, through directories and links alone. So the
way stays the same on every disk that keeps these, whatever becomes of the files. Directories made
along a path leave a disk grounded.
-/

namespace CacheAudit

namespace Disk

/-- Parts that lead from one directory to another through directories and links, and the number of
links that may still be followed before and after. -/
inductive Leads (d : Disk) : Nat → Location → List Bytes → Nat → Location → Prop
  | here (links : Nat) (l : Location) : d.Leads links l [] links l
  | dot {links links' : Nat} {l l' : Location} {rest : List Bytes}
      (more : d.Leads links l rest links' l') : d.Leads links l (Path.dot :: rest) links' l'
  | up {links links' : Nat} {l l' : Location} {rest : List Bytes}
      (more : d.Leads links l.dropLast rest links' l') :
      d.Leads links l (Path.dotDot :: rest) links' l'
  | enter {links links' : Nat} {l l' : Location} {part : Bytes} {rest : List Bytes}
      (hdot : part ≠ Path.dot) (hdots : part ≠ Path.dotDot) (hlong : ¬nameLimit < part.length)
      (hentry : d.entry? (l ++ [part]) = some .directory)
      (more : d.Leads links (l ++ [part]) rest links' l') :
      d.Leads links l (part :: rest) links' l'
  | follow {links links' : Nat} {l l' : Location} {part : Bytes} {rest : List Bytes} {target : Path}
      (hdot : part ≠ Path.dot) (hdots : part ≠ Path.dotDot) (hlong : ¬nameLimit < part.length)
      (hentry : d.entry? (l ++ [part]) = some (.link target)) (hempty : ¬target.bytes.isEmpty)
      (more : d.Leads links (if target.isAbsolute then [] else l) (strictSteps target ++ rest)
        links' l') :
      d.Leads (links + 1) l (part :: rest) links' l'

variable {d d' : Disk} {links links' : Nat} {l l' here : Location} {entry : Entry}
  {parts : List Bytes} {part : Bytes} {place : Place}

namespace Leads

/-- A way is the same on a disk that keeps the directories and links. -/
theorem mono (h : d.Leads links l parts links' l')
    (hdirectory : ∀ l, d.entry? l = some .directory → d'.entry? l = some .directory)
    (hlink : ∀ l target, d.entry? l = some (.link target) → d'.entry? l = some (.link target)) :
    d'.Leads links l parts links' l' := by
  induction h with
  | here links l => exact .here links l
  | dot _ ih => exact .dot ih
  | up _ ih => exact .up ih
  | enter hdot hdots hlong hentry _ ih =>
    exact .enter hdot hdots hlong (hdirectory _ hentry) ih
  | follow hdot hdots hlong hentry hempty _ ih =>
    exact .follow hdot hdots hlong (hlink _ _ hentry) hempty ih

/-- What goes on from a way is looked up where the way leads. -/
theorem lookup_append (h : d.Leads links l parts links' l') (follow : Bool) (part : Bytes)
    (more : List Bytes) : d.lookup follow links l .directory (parts ++ part :: more) =
      d.lookup follow links' l' .directory (part :: more) := by
  induction h with
  | here links l => rfl
  | dot _ ih => rw [List.cons_append, lookup_dot, ih]
  | up _ ih => rw [List.cons_append, lookup_dotDot, ih]
  | enter hdot hdots hlong hentry _ ih =>
    rw [List.cons_append, lookup_entry hdot hdots hlong (by simp) hentry, ih]
  | follow hdot hdots hlong hentry hempty _ ih =>
    rw [List.cons_append, lookup_link hdot hdots hlong (by simp) hentry]
    simp only [hempty]
    rw [← ih]
    simp

/-- A way on a grounded disk leads to a directory. -/
theorem directory (h : d.Leads links l parts links' l') (hd : d.IsGrounded)
    (hl : d.entry? l = some .directory) : d.entry? l' = some .directory := by
  induction h with
  | here links l => exact hl
  | dot _ ih => exact ih hl
  | up _ ih => exact ih (hd.entry?_dropLast hl)
  | enter _ _ _ hentry _ ih => exact ih hentry
  | follow _ _ _ _ _ _ ih =>
    refine ih ?_
    split
    · rfl
    · exact hl

/-- Two ways, the second from where the first leads, are one way. -/
theorem append {parts' : List Bytes} {links'' : Nat} {l'' : Location}
    (h : d.Leads links l parts links' l') (h' : d.Leads links' l' parts' links'' l'') :
    d.Leads links l (parts ++ parts') links'' l'' := by
  induction h with
  | here links l => exact h'
  | dot _ ih => exact .dot (ih h')
  | up _ ih => exact .up (ih h')
  | enter hdot hdots hlong hentry _ ih => exact .enter hdot hdots hlong hentry (ih h')
  | follow hdot hdots hlong hentry hempty _ ih =>
    have hmore := ih h'
    rw [List.append_assoc] at hmore
    exact .follow hdot hdots hlong hentry hempty hmore

/-- A way can be left anywhere. -/
theorem exists_append {parts' : List Bytes} {links'' : Nat} {l'' : Location}
    (h : d.Leads links l (parts ++ parts') links'' l'') :
    ∃ links' l', d.Leads links l parts links' l' ∧ d.Leads links' l' parts' links'' l'' := by
  generalize hall : parts ++ parts' = all at h
  induction h generalizing parts with
  | here links l =>
    obtain ⟨rfl, rfl⟩ := List.append_eq_nil_iff.1 hall
    exact ⟨_, _, .here _ _, .here _ _⟩
  | dot more ih =>
    cases parts with
    | nil =>
      rw [List.nil_append] at hall
      exact ⟨_, _, .here _ _, hall ▸ .dot more⟩
    | cons part parts =>
      cases hall
      obtain ⟨links', l', hfirst, hsecond⟩ := ih rfl
      exact ⟨links', l', .dot hfirst, hsecond⟩
  | up more ih =>
    cases parts with
    | nil =>
      rw [List.nil_append] at hall
      exact ⟨_, _, .here _ _, hall ▸ .up more⟩
    | cons part parts =>
      cases hall
      obtain ⟨links', l', hfirst, hsecond⟩ := ih rfl
      exact ⟨links', l', .up hfirst, hsecond⟩
  | enter hdot hdots hlong hentry more ih =>
    cases parts with
    | nil =>
      rw [List.nil_append] at hall
      exact ⟨_, _, .here _ _, hall ▸ .enter hdot hdots hlong hentry more⟩
    | cons part parts =>
      cases hall
      obtain ⟨links', l', hfirst, hsecond⟩ := ih rfl
      exact ⟨links', l', .enter hdot hdots hlong hentry hfirst, hsecond⟩
  | follow hdot hdots hlong hentry hempty more ih =>
    cases parts with
    | nil =>
      rw [List.nil_append] at hall
      exact ⟨_, _, .here _ _, hall ▸ .follow hdot hdots hlong hentry hempty more⟩
    | cons part parts =>
      cases hall
      obtain ⟨links', l', hfirst, hsecond⟩ := ih (List.append_assoc ..)
      exact ⟨links', l', .follow hdot hdots hlong hentry hempty hfirst, hsecond⟩

end Leads

/-! ### Lookups that succeed -/

/-- A lookup that succeeds, part by part, with the number of links that may still be followed. -/
inductive Resolves (d : Disk) (follow : Bool) : Nat → Location → Entry → List Bytes → Place → Prop
  | here (links : Nat) (l : Location) (e : Entry) : d.Resolves follow links l e [] (.found l e)
  | dot {links : Nat} {l : Location} {rest : List Bytes} {place : Place}
      (more : d.Resolves follow links l .directory rest place) :
      d.Resolves follow links l .directory (Path.dot :: rest) place
  | up {links : Nat} {l : Location} {rest : List Bytes} {place : Place}
      (more : d.Resolves follow links l.dropLast .directory rest place) :
      d.Resolves follow links l .directory (Path.dotDot :: rest) place
  | free {links : Nat} {l : Location} {part : Bytes} (hdot : part ≠ Path.dot)
      (hdots : part ≠ Path.dotDot) (hlong : ¬nameLimit < part.length)
      (hentry : d.entry? (l ++ [part]) = none) :
      d.Resolves follow links l .directory [part] (.free (l ++ [part]))
  | link {links : Nat} {l : Location} {part : Bytes} {target : Path} (hdot : part ≠ Path.dot)
      (hdots : part ≠ Path.dotDot) (hlong : ¬nameLimit < part.length) (hfollow : follow = false)
      (hentry : d.entry? (l ++ [part]) = some (.link target)) :
      d.Resolves follow links l .directory [part] (.found (l ++ [part]) (.link target))
  | follow {links : Nat} {l : Location} {part : Bytes} {rest : List Bytes} {target : Path}
      {place : Place} (hdot : part ≠ Path.dot) (hdots : part ≠ Path.dotDot)
      (hlong : ¬nameLimit < part.length) (hfollow : ¬(rest.isEmpty && !follow))
      (hentry : d.entry? (l ++ [part]) = some (.link target)) (hempty : ¬target.bytes.isEmpty)
      (more : d.Resolves follow links (if target.isAbsolute then [] else l) .directory
        (strictSteps target ++ rest) place) :
      d.Resolves follow (links + 1) l .directory (part :: rest) place
  | enter {links : Nat} {l : Location} {part : Bytes} {rest : List Bytes} {e : Entry}
      {place : Place} (hdot : part ≠ Path.dot) (hdots : part ≠ Path.dotDot)
      (hlong : ¬nameLimit < part.length) (hlink : ∀ target, e ≠ .link target)
      (hentry : d.entry? (l ++ [part]) = some e)
      (more : d.Resolves follow links (l ++ [part]) e rest place) :
      d.Resolves follow links l .directory (part :: rest) place

/-- What resolves is what the lookup answers. -/
theorem Resolves.lookup {follow : Bool} (h : d.Resolves follow links here entry parts place) :
    d.lookup follow links here entry parts = .ok place := by
  induction h with
  | here links l e => exact lookup_nil ..
  | dot _ ih => rw [lookup_dot, ih]
  | up _ ih => rw [lookup_dotDot, ih]
  | free hdot hdots hlong hentry =>
    rw [lookup_missing hdot hdots hlong hentry, List.isEmpty_nil, if_pos rfl]
  | link hdot hdots hlong hfollow hentry =>
    rw [Disk.lookup, if_neg hdot, if_neg hdots, if_neg hlong]
    simp [hentry, hfollow]
  | follow hdot hdots hlong hfollow hentry hempty _ ih =>
    rw [lookup_link hdot hdots hlong hfollow hentry]
    simp only [hempty]
    exact ih
  | enter hdot hdots hlong hlink hentry _ ih => rw [lookup_entry hdot hdots hlong hlink hentry, ih]

/-- Every lookup that succeeds resolves part by part. -/
theorem resolves_of_lookup {follow : Bool}
    (h : d.lookup follow links here entry parts = .ok place) :
    d.Resolves follow links here entry parts place := by
  induction links, here, entry, parts using lookup.induct d follow with
  | case1 links here entry =>
    rw [lookup_nil] at h
    cases h
    exact .here ..
  | case2 links here rest ih =>
    rw [lookup_dot] at h
    exact .dot (ih h)
  | case3 links here rest _ ih =>
    rw [lookup_dotDot] at h
    exact .up (ih h)
  | case4 links here part rest hdot hdots hlong =>
    rw [lookup_long hdot hdots hlong] at h
    cases h
  | case5 links here part rest hdot hdots hlong _ hentry hlast =>
    obtain rfl : rest = [] := by simpa using hlast
    rw [lookup_missing hdot hdots hlong hentry, if_pos hlast] at h
    cases h
    exact .free hdot hdots hlong hentry
  | case6 links here part rest hdot hdots hlong _ hentry hlast =>
    rw [lookup_missing hdot hdots hlong hentry, if_neg hlast] at h
    cases h
  | case7 links here part rest hdot hdots hlong _ target hentry hlast =>
    obtain ⟨rfl, rfl⟩ : rest = [] ∧ follow = false := by simpa using hlast
    have hlink : d.Resolves false links here .directory [part]
        (.found (here ++ [part]) (.link target)) := .link hdot hdots hlong rfl hentry
    cases hlink.lookup.symm.trans h
    exact hlink
  | case8 here part rest hdot hdots hlong _ target hentry hlast =>
    rw [lookup_link hdot hdots hlong hlast hentry] at h
    cases h
  | case9 here part rest hdot hdots hlong _ target hentry hlast links hempty =>
    rw [lookup_link hdot hdots hlong hlast hentry] at h
    simp [hempty] at h
  | case10 here part rest hdot hdots hlong _ target hentry hlast links hempty start ih =>
    rw [lookup_link hdot hdots hlong hlast hentry] at h
    simp only [hempty] at h
    exact .follow hdot hdots hlong hlast hentry hempty (ih h)
  | case11 links here part rest hdot hdots hlong there e hlink hentry ih =>
    rw [lookup_entry hdot hdots hlong hlink hentry] at h
    exact .enter hdot hdots hlong hlink hentry (ih h)
  | case12 links here entry part rest hentry =>
    rw [lookup_of_not_directory hentry] at h
    cases h

/-- What is found is found in the same way on a disk that holds more. -/
theorem Resolves.mono {follow : Bool} {e : Entry}
    (h : d.Resolves follow links here entry parts (.found l e))
    (hmore : ∀ l e, d.entry? l = some e → d'.entry? l = some e) :
    d'.Resolves follow links here entry parts (.found l e) := by
  generalize hplace : Place.found l e = place at h
  induction h with
  | here links l e => exact .here ..
  | dot _ ih => exact .dot (ih hplace)
  | up _ ih => exact .up (ih hplace)
  | free => cases hplace
  | link hdot hdots hlong hfollow hentry => exact .link hdot hdots hlong hfollow (hmore _ _ hentry)
  | follow hdot hdots hlong hfollow hentry hempty _ ih =>
    exact .follow hdot hdots hlong hfollow (hmore _ _ hentry) hempty (ih hplace)
  | enter hdot hdots hlong hlink hentry _ ih =>
    exact .enter hdot hdots hlong hlink (hmore _ _ hentry) (ih hplace)

/-- A lookup that ends at a directory has found its way through all parts. -/
theorem Resolves.exists_leads {follow : Bool}
    (h : d.Resolves follow links here entry parts (.found l .directory)) :
    entry = .directory ∧ ∃ links', d.Leads links here parts links' l := by
  generalize hplace : Place.found l .directory = place at h
  induction h with
  | here links l e =>
    cases hplace
    exact ⟨rfl, links, .here ..⟩
  | dot _ ih =>
    obtain ⟨-, links', hleads⟩ := ih hplace
    exact ⟨rfl, links', .dot hleads⟩
  | up _ ih =>
    obtain ⟨-, links', hleads⟩ := ih hplace
    exact ⟨rfl, links', .up hleads⟩
  | free | link => cases hplace
  | follow hdot hdots hlong _ hentry hempty _ ih =>
    obtain ⟨-, links', hleads⟩ := ih hplace
    exact ⟨rfl, links', .follow hdot hdots hlong hentry hempty hleads⟩
  | enter hdot hdots hlong _ hentry _ ih =>
    obtain ⟨rfl, links', hleads⟩ := ih hplace
    exact ⟨rfl, links', .enter hdot hdots hlong hentry hleads⟩

/-- A lookup that succeeds has found its way to its last part. -/
theorem exists_leads {follow : Bool} (hne : parts ≠ [])
    (h : d.lookup follow links here entry parts = .ok place) :
    entry = .directory ∧ ∃ links' l', d.Leads links here parts.dropLast links' l' := by
  have hresolves := resolves_of_lookup h
  clear h
  induction hresolves with
  | here links l e => exact absurd rfl hne
  | @dot links l rest _ _ ih =>
    by_cases hrest : rest = []
    · exact hrest ▸ ⟨rfl, _, _, .here _ _⟩
    · obtain ⟨-, links', l', hleads⟩ := ih hrest
      rw [List.dropLast_cons_of_ne_nil hrest]
      exact ⟨rfl, links', l', .dot hleads⟩
  | @up links l rest _ _ ih =>
    by_cases hrest : rest = []
    · exact hrest ▸ ⟨rfl, _, _, .here _ _⟩
    · obtain ⟨-, links', l', hleads⟩ := ih hrest
      rw [List.dropLast_cons_of_ne_nil hrest]
      exact ⟨rfl, links', l', .up hleads⟩
  | free | link => exact ⟨rfl, _, _, .here _ _⟩
  | @follow links l part rest target _ hdot hdots hlong _ hentry hempty _ ih =>
    by_cases hrest : rest = []
    · exact hrest ▸ ⟨rfl, _, _, .here _ _⟩
    · obtain ⟨-, links', l', hleads⟩ := ih (List.append_ne_nil_of_right_ne_nil _ hrest)
      rw [List.dropLast_append_of_ne_nil hrest] at hleads
      rw [List.dropLast_cons_of_ne_nil hrest]
      exact ⟨rfl, links', l', .follow hdot hdots hlong hentry hempty hleads⟩
  | @enter links l part rest e _ hdot hdots hlong _ hentry _ ih =>
    by_cases hrest : rest = []
    · exact hrest ▸ ⟨rfl, _, _, .here _ _⟩
    · obtain ⟨rfl, links', l', hleads⟩ := ih hrest
      rw [List.dropLast_cons_of_ne_nil hrest]
      exact ⟨rfl, links', l', .enter hdot hdots hlong hentry hleads⟩

/-! ### The last part -/

/-- What a lookup answers at a place at which it ends. -/
def placeAt (d : Disk) (l : Location) : Place :=
  match d.entry? l with
  | some e => .found l e
  | none => .free l

theorem placeAt_eq_free : d.placeAt l = .free l' ↔ l' = l ∧ d.entry? l = none := by
  unfold placeAt
  cases d.entry? l <;> simp [eq_comm]

theorem placeAt_eq_found : d.placeAt l = .found l' entry ↔ l' = l ∧ d.entry? l = some entry := by
  unfold placeAt
  cases d.entry? l <;> simp [eq_comm]

/-- A name that ends a lookup and is no link to follow. -/
theorem lookup_last {follow : Bool} (hdot : part ≠ Path.dot) (hdots : part ≠ Path.dotDot)
    (hlong : ¬nameLimit < part.length)
    (hlink : ∀ target, d.entry? (l ++ [part]) = some (.link target) → follow = false) :
    d.lookup follow links l .directory [part] = .ok (d.placeAt (l ++ [part])) := by
  cases hentry : d.entry? (l ++ [part]) with
  | none =>
    rw [lookup_missing hdot hdots hlong hentry, placeAt, hentry, List.isEmpty_nil, if_pos rfl]
  | some e =>
    by_cases he : ∃ target, e = .link target
    · obtain ⟨target, rfl⟩ := he
      have hfollow := hlink target hentry
      subst hfollow
      rw [lookup, if_neg hdot, if_neg hdots, if_neg hlong]
      simp [hentry, placeAt]
    · rw [lookup_entry hdot hdots hlong (fun target heq => he ⟨target, heq⟩) hentry, lookup_nil,
        placeAt, hentry]

/-- A free place is a name in a directory. -/
theorem free_of_lookup_last (h : d.lookup false links l .directory [part] = .ok (.free l')) :
    l' = l ++ [part] ∧ d.entry? l' = none := by
  by_cases hdot : part = Path.dot
  · rw [hdot, lookup_dot, lookup_nil] at h
    cases h
  by_cases hdots : part = Path.dotDot
  · rw [hdots, lookup_dotDot, lookup_nil] at h
    cases h
  by_cases hlong : nameLimit < part.length
  · rw [lookup_long hdot hdots hlong] at h
    cases h
  rw [lookup_last hdot hdots hlong fun _ _ => rfl] at h
  obtain ⟨rfl, hentry⟩ := placeAt_eq_free.1 (Except.ok.inj h)
  exact ⟨rfl, hentry⟩

/-- Where the lookup of a path begins. -/
def start (d : Disk) (p : Path) : Location :=
  if p.isAbsolute then [] else d.cwd

theorem IsGrounded.start (h : d.IsGrounded) (p : Path) :
    d.entry? (d.start p) = some .directory := by
  unfold Disk.start
  split
  · rfl
  · exact h.cwd

/-- A path is looked up when it is neither empty nor too long. -/
theorem lookup_of_resolveSteps {follow : Bool} {p : Path}
    (h : d.resolveSteps follow p parts = .ok place) :
    (p.bytes ≠ [] ∧ p.bytes.length < pathLimit) ∧
      d.lookup follow linkLimit (d.start p) .directory parts = .ok place := by
  unfold resolveSteps at h
  split at h
  · cases h
  · rename_i hempty
    split at h
    · cases h
    · rename_i hlong
      exact ⟨⟨by simpa using hempty, by omega⟩, h⟩

/-! ### New directories -/

theorem IsGrounded.makeDirectory (h : d.IsGrounded) {p : Path}
    (hmade : d.makeDirectory p = .ok d') : d'.IsGrounded := by
  unfold Disk.makeDirectory at hmade
  split at hmade
  · cases hmade
  · cases hmade
  · rename_i l hfree
    cases hmade
    obtain ⟨-, hlookup⟩ := lookup_of_resolveSteps hfree
    by_cases hsteps : steps p = []
    · rw [hsteps, lookup_nil] at hlookup
      cases hlookup
    obtain ⟨-, links, base, hleads⟩ := exists_leads hsteps hlookup
    have hlast := hleads.lookup_append false ((steps p).getLast hsteps) []
    rw [List.dropLast_append_getLast hsteps, hlookup] at hlast
    obtain ⟨rfl, hentry⟩ := free_of_lookup_last hlast.symm
    refine h.put (by simp) ?_ (by simp [hentry])
    rw [List.dropLast_concat]
    exact hleads.directory h (h.start p)

theorem IsGrounded.makeDirectories (h : d.IsGrounded) (p : Path) (fuel : Nat) :
    (d.makeDirectories p fuel).1.IsGrounded := by
  induction fuel generalizing d p with
  | zero => exact h
  | succ fuel ih =>
    unfold Disk.makeDirectories
    split
    · exact h
    split
    · rename_i hmade
      exact h.makeDirectory hmade
    · split
      · exact h
      · rename_i parent hparent
        have habove := ih h parent
        split
        · rename_i habove'
          rw [habove'] at habove
          exact habove
        · rename_i habove'
          rw [habove'] at habove
          split
          · rename_i hmade
            exact habove.makeDirectory hmade
          · split <;> exact habove
    · split <;> exact h

theorem IsGrounded.createDirectories (h : d.IsGrounded) (p : Path) :
    (d.createDirectories p).1.IsGrounded :=
  h.makeDirectories p _

end Disk

end CacheAudit
