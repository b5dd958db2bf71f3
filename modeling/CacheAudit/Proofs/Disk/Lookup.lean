import CacheAudit.Proofs.Disk.Tree

/-!
# Where paths below a directory lead

A path is looked up part by part, so a path that goes on by names is looked up like the path itself
and then by these names. In a tree that leads through directories alone to the place below, and
opening a path that names a file this way opens that file or fails because a name or the path is
too long.
-/

namespace CacheAudit

namespace Path

/-! ### The parts of a path -/

theorem parts_cons_slash (bytes : Bytes) : parts ⟨slash :: bytes⟩ = [] :: parts ⟨bytes⟩ := by
  simp [parts]

theorem parts_ne_nil (p : Path) : p.parts ≠ [] := by
  obtain ⟨bytes⟩ := p
  cases bytes with
  | nil => exact List.cons_ne_nil _ _
  | cons b rest =>
    by_cases hb : b = slash
    · rw [hb, parts_cons_slash]
      exact List.cons_ne_nil _ _
    · simp only [parts, List.foldr_cons, hb, if_false]
      split <;> exact List.cons_ne_nil _ _

theorem parts_cons {b : UInt8} (hb : b ≠ slash) {bytes part : Bytes} {rest : List Bytes}
    (h : parts ⟨bytes⟩ = part :: rest) : parts ⟨b :: bytes⟩ = (b :: part) :: rest := by
  simp only [parts, List.foldr_cons, hb, if_false] at h ⊢
  rw [h]

/-- A slash ends the parts before it. -/
theorem parts_append_slash (bytes bytes' : Bytes) :
    parts ⟨bytes ++ slash :: bytes'⟩ = parts ⟨bytes⟩ ++ parts ⟨bytes'⟩ := by
  induction bytes with
  | nil => exact parts_cons_slash bytes'
  | cons b rest ih =>
    by_cases hb : b = slash
    · rw [hb, List.cons_append, parts_cons_slash, parts_cons_slash, ih, List.cons_append]
    · obtain ⟨part, more, hparts⟩ := List.exists_cons_of_ne_nil (parts_ne_nil ⟨rest⟩)
      rw [List.cons_append, parts_cons hb hparts]
      refine parts_cons hb ?_
      rw [ih, hparts]
      rfl

/-- What has no slash is one part. -/
theorem parts_of_noSlash {bytes : Bytes} (h : slash ∉ bytes) : parts ⟨bytes⟩ = [bytes] := by
  induction bytes with
  | nil => rfl
  | cons b rest ih =>
    rw [List.mem_cons, not_or] at h
    exact parts_cons (Ne.symm h.1) (ih h.2)

theorem isAbsolute_of_noSlash {n : Bytes} (h : slash ∉ n) : isAbsolute ⟨n⟩ = false := by
  rw [isAbsolute, beq_eq_false_iff_ne]
  exact fun hhead => h (List.mem_of_head? hhead)

/-- A path joined with a name is the path, a slash unless it ends in one, and the name. -/
theorem steps_join (p : Path) {n : Bytes} (hne : n ≠ []) (hslash : slash ∉ n) :
    Disk.steps (p.join ⟨n⟩) = Disk.steps p ++ [n] := by
  have hname : [n].filter (fun part => !part.isEmpty) = [n] := by
    simp [hne]
  rw [join, isAbsolute_of_noSlash hslash, if_neg (by decide)]
  split
  · rename_i hend
    rcases hend with hempty | hend
    · have hp : p.bytes = [] := by simpa using hempty
      rw [Disk.steps, Disk.steps, hp, List.nil_append, parts_of_noSlash hslash, hname,
        show p = ⟨[]⟩ by cases p; simp_all]
      rfl
    · obtain ⟨before, hbefore⟩ := List.getLast?_eq_some_iff.1 hend
      obtain ⟨bytes⟩ := p
      simp only at hbefore
      subst hbefore
      rw [Disk.steps, Disk.steps, List.append_assoc, List.cons_append, List.nil_append,
        parts_append_slash, parts_append_slash, parts_of_noSlash hslash, List.filter_append,
        List.filter_append, hname]
      simp [parts]
  · rw [Disk.steps, Disk.steps, parts_append_slash, parts_of_noSlash hslash,
      List.filter_append, hname]

theorem steps_descend (p : Path) {names : List Bytes} (h : ∀ n ∈ names, ProperName n) :
    Disk.steps (p.descend names) = Disk.steps p ++ names := by
  induction names generalizing p with
  | nil => simp [descend]
  | cons n rest ih =>
    have hrest := ih (p.join ⟨n⟩) fun m hm => h m (List.mem_cons_of_mem _ hm)
    have hn := h n List.mem_cons_self
    rw [steps_join p hn.nonempty hn.noSlash] at hrest
    simpa [descend] using hrest

theorem bytes_join (p : Path) {n : Bytes} (h : ProperName n) :
    ∃ between, (p.join ⟨n⟩).bytes = p.bytes ++ between ++ n := by
  rw [join, isAbsolute_of_noSlash h.noSlash, if_neg (by decide)]
  split
  · exact ⟨[], by simp⟩
  · exact ⟨[slash], by simp⟩

theorem bytes_descend (p : Path) {names : List Bytes} (h : ∀ n ∈ names, ProperName n) :
    ∃ rest, (p.descend names).bytes = p.bytes ++ rest := by
  induction names generalizing p with
  | nil => exact ⟨[], (List.append_nil _).symm⟩
  | cons n names ih =>
    obtain ⟨rest, hrest⟩ := ih (p.join ⟨n⟩) fun m hm => h m (List.mem_cons_of_mem _ hm)
    obtain ⟨between, hjoin⟩ := bytes_join p (h n List.mem_cons_self)
    rw [hjoin, List.append_assoc, List.append_assoc] at hrest
    exact ⟨_, hrest⟩

/-- A path that ends in a name does not end in a slash. -/
theorem not_endsInSlash_join (p : Path) {n : Bytes} (h : ProperName n) :
    Disk.endsInSlash (p.join ⟨n⟩) = false := by
  obtain ⟨between, hjoin⟩ := bytes_join p h
  obtain ⟨b, hb⟩ := List.getLast?_isSome.2 h.nonempty |> Option.isSome_iff_exists.1
  rw [Disk.endsInSlash, hjoin, List.getLast?_append, hb, Option.some_or]
  simp only [beq_eq_false_iff_ne, ne_eq, Option.some.injEq]
  rintro rfl
  exact h.noSlash (List.mem_of_getLast? hb)

theorem strictSteps_descend (p : Path) {names : List Bytes} (hne : names ≠ [])
    (h : ∀ n ∈ names, ProperName n) :
    Disk.strictSteps (p.descend names) = Disk.steps p ++ names := by
  have hlast : Disk.endsInSlash (p.descend names) = false := by
    rw [← List.dropLast_append_getLast hne, descend, List.foldl_append]
    exact not_endsInSlash_join _ (h _ (List.getLast_mem hne))
  rw [Disk.strictSteps, hlast, steps_descend p h]
  rfl

end Path

namespace Disk

theorem nil_not_mem_steps (p : Path) : [] ∉ steps p := by
  simp [steps]

/-! ### Looking up -/

section Lookup

variable {d : Disk} {follow : Bool} {links : Nat} {here : Location} {part : Bytes}
  {rest : List Bytes}

theorem lookup_nil (d : Disk) (links : Nat) (here : Location) (entry : Entry) :
    d.lookup follow links here entry [] = .ok (.found here entry) := by
  rw [lookup]

theorem lookup_dot : d.lookup follow links here .directory (Path.dot :: rest) =
    d.lookup follow links here .directory rest := by
  rw [lookup, if_pos rfl]

theorem lookup_dotDot : d.lookup follow links here .directory (Path.dotDot :: rest) =
    d.lookup follow links here.dropLast .directory rest := by
  rw [lookup, if_neg (by decide), if_pos rfl]

theorem lookup_long (hdot : part ≠ Path.dot) (hdots : part ≠ Path.dotDot)
    (hlong : nameLimit < part.length) :
    d.lookup follow links here .directory (part :: rest) = .error .nameTooLong := by
  rw [lookup, if_neg hdot, if_neg hdots, if_pos hlong]

theorem lookup_missing (hdot : part ≠ Path.dot) (hdots : part ≠ Path.dotDot)
    (hlong : ¬nameLimit < part.length) (hentry : d.entry? (here ++ [part]) = none) :
    d.lookup follow links here .directory (part :: rest) =
      if rest.isEmpty then .ok (.free (here ++ [part])) else .error .noEntry := by
  rw [lookup, if_neg hdot, if_neg hdots, if_neg hlong]
  simp only [hentry]

theorem lookup_link {target : Path} (hdot : part ≠ Path.dot) (hdots : part ≠ Path.dotDot)
    (hlong : ¬nameLimit < part.length) (hfollow : ¬(rest.isEmpty && !follow))
    (hentry : d.entry? (here ++ [part]) = some (.link target)) :
    d.lookup follow links here .directory (part :: rest) =
      match links with
      | 0 => .error .tooManyLinks
      | links + 1 =>
        if target.bytes.isEmpty then .error .noEntry
        else d.lookup follow links (if target.isAbsolute then [] else here) .directory
          (strictSteps target ++ rest) := by
  rw [lookup, if_neg hdot, if_neg hdots, if_neg hlong]
  cases links with
  | zero => simp [hentry, hfollow]
  | succ links => simp [hentry, hfollow]

theorem lookup_entry {entry : Entry} (hdot : part ≠ Path.dot) (hdots : part ≠ Path.dotDot)
    (hlong : ¬nameLimit < part.length) (hlink : ∀ target, entry ≠ .link target)
    (hentry : d.entry? (here ++ [part]) = some entry) :
    d.lookup follow links here .directory (part :: rest) =
      d.lookup follow links (here ++ [part]) entry rest := by
  rw [lookup, if_neg hdot, if_neg hdots, if_neg hlong]
  simp only [hentry]

theorem lookup_of_not_directory {entry : Entry} (hentry : entry ≠ .directory) :
    d.lookup follow links here entry (part :: rest) = .error .notDirectory := by
  cases entry with
  | directory => exact absurd rfl hentry
  | file content modified => simp [lookup]
  | link target => simp [lookup]

/-- A lookup that gets past some parts goes on from where these lead. -/
theorem lookup_append (d : Disk) (links : Nat) (here : Location) (entry : Entry)
    (parts : List Bytes) (h : (∃ l e, d.lookup true links here entry parts = .ok (.found l e)) ∨
      ∃ part more place, d.lookup true links here entry (parts ++ part :: more) = .ok place) :
    ∃ links' l e, ∀ more, d.lookup true links here entry (parts ++ more) =
      d.lookup true links' l e more := by
  induction links, here, entry, parts using lookup.induct d true with
  | case1 links here entry => exact ⟨links, here, entry, fun _ => rfl⟩
  | case2 links here rest ih =>
    simp only [List.cons_append, lookup_dot] at h ⊢
    exact ih h
  | case3 links here rest _ ih =>
    simp only [List.cons_append, lookup_dotDot] at h ⊢
    exact ih h
  | case4 links here part rest hdot hdots hlong =>
    simp [lookup_long hdot hdots hlong] at h
  | case5 links here part rest hdot hdots hlong _ hentry hrest =>
    simp [lookup_missing hdot hdots hlong hentry, hrest] at h
  | case6 links here part rest hdot hdots hlong _ hentry hrest =>
    simp [lookup_missing hdot hdots hlong hentry, hrest] at h
  | case7 links here part rest _ _ _ _ target _ hlast =>
    simp at hlast
  | case8 here part rest hdot hdots hlong _ target hentry _ =>
    have hstep (more : List Bytes) :
        d.lookup true 0 here .directory (part :: more) = .error .tooManyLinks := by
      rw [lookup_link hdot hdots hlong (by simp) hentry]
    simp [hstep] at h
  | case9 here part rest hdot hdots hlong _ target hentry _ links hempty =>
    have hempty : target.bytes = [] := by simpa using hempty
    have hstep (more : List Bytes) :
        d.lookup true (links + 1) here .directory (part :: more) = .error .noEntry := by
      rw [lookup_link hdot hdots hlong (by simp) hentry]
      simp [hempty]
    simp [hstep] at h
  | case10 here part rest hdot hdots hlong _ target hentry _ links hempty start ih =>
    have hstep (more : List Bytes) :
        d.lookup true (links + 1) here .directory (part :: more) =
          d.lookup true links start .directory (strictSteps target ++ more) := by
      rw [lookup_link hdot hdots hlong (by simp) hentry]
      simp only [hempty, if_false, start, dite_eq_ite, Bool.false_eq_true]
    simp only [List.cons_append, hstep, ← List.append_assoc] at h ⊢
    exact ih h
  | case11 links here part rest hdot hdots hlong there e hlink hentry ih =>
    have hstep (more : List Bytes) :
        d.lookup true links here .directory (part :: more) = d.lookup true links there e more :=
      lookup_entry hdot hdots hlong hlink hentry
    simp only [List.cons_append, hstep] at h ⊢
    exact ih h
  | case12 links here entry part rest hentry =>
    simp [lookup_of_not_directory hentry] at h

/-- Names below a directory lead to what they reach, unless one is too long. -/
theorem lookup_names (h : d.IsTree) (links : Nat) {names : List Bytes} {l : Location}
    {content : Bytes} {modified : Timestamp} (hne : names ≠ [])
    (hfile : d.entry? (l ++ names) = some (.file content modified)) :
    d.lookup true links l .directory names = .ok (.found (l ++ names) (.file content modified)) ∨
      d.lookup true links l .directory names = .error .nameTooLong := by
  induction names generalizing l with
  | nil => exact absurd rfl hne
  | cons n rest ih =>
    have hproper := h.proper_of_entry? hfile n List.mem_cons_self
    by_cases hlong : nameLimit < n.length
    · exact .inr (lookup_long hproper.notDot hproper.notDotDot hlong)
    by_cases hrest : rest = []
    · subst hrest
      left
      rw [lookup_entry hproper.notDot hproper.notDotDot hlong (by simp) hfile, lookup_nil]
    · rw [List.append_cons] at hfile ⊢
      have habove := h.directory_above hrest hfile
      rw [lookup_entry hproper.notDot hproper.notDotDot hlong (by simp) habove]
      exact ih hrest hfile

end Lookup

/-! ### Opening files -/

/-- What a path leads to is found at the end of its lookup. The path has a proper length. -/
theorem lookup_of_follow {d : Disk} {p : Path} {l : Location} {e : Entry}
    (h : d.follow p = .ok (l, e)) : (p.bytes ≠ [] ∧ p.bytes.length < pathLimit) ∧
      d.lookup true linkLimit (if p.isAbsolute then [] else d.cwd) .directory (strictSteps p) =
        .ok (.found l e) := by
  unfold follow resolve resolveSteps at h
  by_cases hempty : p.bytes.isEmpty
  · simp [hempty] at h
  by_cases hlong : pathLimit ≤ p.bytes.length
  · simp [hempty, hlong] at h
  rw [if_neg hempty, if_neg hlong] at h
  refine ⟨⟨by simpa using hempty, by omega⟩, ?_⟩
  split at h
  · rename_i hfound
    cases h
    exact hfound
  · cases h
  · cases h

/-- What is read under a path of proper length is found at the end of its lookup. -/
theorem read_eq {d : Disk} {p : Path} (h : p.bytes ≠ [] ∧ p.bytes.length < pathLimit) :
    d.read p = match d.lookup true linkLimit (if p.isAbsolute then [] else d.cwd) .directory
        (strictSteps p) with
      | .ok (.found _ (.file content _)) => .ok content
      | .ok (.found ..) => .error .isDirectory
      | .ok (.free _) => .error .noEntry
      | .error e => .error e := by
  unfold read open? follow resolve resolveSteps
  rw [if_neg (by simpa using h.1), if_neg (Nat.not_le.2 h.2)]
  rcases d.lookup true linkLimit _ .directory (strictSteps p) with e | ⟨l, entry⟩ | l
  · rfl
  · cases entry <;> rfl
  · rfl

/-- What goes on from a path to a directory is looked up from the directory. -/
theorem exists_lookup_below {d : Disk} {p : Path} {l : Location}
    (h : d.follow p = .ok (l, .directory)) : ∃ links, ∀ part more,
      d.lookup true linkLimit (if p.isAbsolute then [] else d.cwd) .directory
        (steps p ++ part :: more) = d.lookup true links l .directory (part :: more) := by
  obtain ⟨-, hfound⟩ := lookup_of_follow h
  by_cases hslash : endsInSlash p
  · rw [strictSteps, if_pos hslash] at hfound
    obtain ⟨links, l', e, hmore⟩ :=
      lookup_append d _ _ _ (steps p) (.inr ⟨Path.dot, [], _, hfound⟩)
    rw [hmore] at hfound
    by_cases he : e = .directory
    · subst he
      rw [lookup_dot, lookup_nil] at hfound
      cases hfound
      exact ⟨links, fun part more => hmore _⟩
    · rw [lookup_of_not_directory he] at hfound
      cases hfound
  · rw [strictSteps, if_neg hslash] at hfound
    obtain ⟨links, l', e, hmore⟩ := lookup_append d _ _ _ (steps p) (.inl ⟨_, _, hfound⟩)
    have hhere := hmore []
    rw [List.append_nil, hfound, lookup_nil] at hhere
    cases hhere
    exact ⟨links, fun part more => hmore _⟩

/-- A path that goes on from a root by the names of a file opens that file, unless a name or the
whole path is too long. -/
theorem open?_descend {d : Disk} (h : d.IsTree) {root : Path} {l : Location}
    (hroot : d.follow root = .ok (l, .directory)) {names : List Bytes} {content : Bytes}
    {modified : Timestamp} (hne : names ≠ [])
    (hfile : d.entry? (l ++ names) = some (.file content modified)) :
    d.open? (root.descend names) = .ok (content, modified) ∨
      d.open? (root.descend names) = .error .nameTooLong := by
  have hproper := h.proper_of_entry? hfile
  obtain ⟨rest, hbytes⟩ := Path.bytes_descend root hproper
  have hnonempty := (lookup_of_follow hroot).1.1
  obtain ⟨b, bytes, hroot'⟩ := List.exists_cons_of_ne_nil hnonempty
  have habsolute : (root.descend names).isAbsolute = root.isAbsolute := by
    rw [Path.isAbsolute, Path.isAbsolute, hbytes, hroot']
    rfl
  have hempty : (root.descend names).bytes.isEmpty = false := by
    rw [hbytes, hroot']
    rfl
  unfold open? follow resolve resolveSteps
  rw [hempty, if_neg (by decide), habsolute, Path.strictSteps_descend root hne hproper]
  by_cases hlong : pathLimit ≤ (root.descend names).bytes.length
  · rw [if_pos hlong]
    exact .inr rfl
  rw [if_neg hlong]
  obtain ⟨links, hbelow⟩ := exists_lookup_below hroot
  obtain ⟨n, more, rfl⟩ := List.exists_cons_of_ne_nil hne
  rw [hbelow]
  rcases lookup_names h links hne hfile with hfound | hlongName
  · rw [hfound]
    exact .inl rfl
  · rw [hlongName]
    exact .inr rfl

end Disk

end CacheAudit
