import CacheAudit.Proofs.Disk.Parts
import CacheAudit.Proofs.Disk.Siblings

/-!
# Paths that go up only at their beginning

A path that has no upward step after a name leads, where no link is in the way, to the place that is
read off its spelling. Its lookup then goes from one name to the next, and what it answers depends
on nothing but what stands on the way to that place.
-/

namespace CacheAudit

namespace Path

/-- The upward steps at the beginning of parts. -/
def ups (parts : List Bytes) : List Bytes :=
  (meaningful parts).takeWhile (· == dotDot)

/-- The parts from the first name on. -/
def below (parts : List Bytes) : List Bytes :=
  (meaningful parts).dropWhile (· == dotDot)

/-- The place that upward steps at the beginning of parts lead to. -/
def climb (here : Location) (parts : List Bytes) : Location :=
  (ups parts).foldl (fun l _ => l.dropLast) here

/-- Whether parts do not end in a dot. -/
def endsInName (parts : List Bytes) : Bool :=
  parts.getLast? != some dot

/-- A path without upward steps after a name. -/
def Forward (p : Path) : Prop :=
  dotDot ∉ below p.parts

instance (p : Path) : Decidable p.Forward :=
  inferInstanceAs (Decidable (dotDot ∉ below p.parts))

variable {here : Location} {part : Bytes} {rest parts : List Bytes}

section Cons

variable (rest : List Bytes)

theorem meaningful_cons_of_none (hpart : part = [] ∨ part = dot) :
    meaningful (part :: rest) = meaningful rest := by
  simp [meaningful, component?, hpart]

theorem meaningful_cons (hpart : ¬(part = [] ∨ part = dot)) :
    meaningful (part :: rest) = part :: meaningful rest := by
  have hsome : (component? part).isSome = true := by
    rw [component?, if_neg hpart]
    split <;> rfl
  simp [meaningful, hsome]

theorem below_cons_of_none (hpart : part = [] ∨ part = dot) :
    below (part :: rest) = below rest := by
  rw [below, meaningful_cons_of_none rest hpart, below]

theorem climb_cons_of_none (hpart : part = [] ∨ part = dot) (here : Location) :
    climb here (part :: rest) = climb here rest := by
  rw [climb, ups, meaningful_cons_of_none rest hpart, climb, ups]

theorem below_up : below (dotDot :: rest) = below rest := by
  rw [below, meaningful_cons rest (by decide), List.dropWhile_cons_of_pos (by simp), below]

theorem climb_up (here : Location) :
    climb here (dotDot :: rest) = climb here.dropLast rest := by
  rw [climb, ups, meaningful_cons rest (by decide), List.takeWhile_cons_of_pos (by simp),
    List.foldl_cons, climb, ups]

theorem below_name (hpart : ¬(part = [] ∨ part = dot)) (hdots : part ≠ dotDot) :
    below (part :: rest) = meaningful (part :: rest) := by
  rw [below, meaningful_cons rest hpart, List.dropWhile_cons_of_neg (by simpa using hdots)]

theorem climb_name (hpart : ¬(part = [] ∨ part = dot)) (hdots : part ≠ dotDot)
    (here : Location) : climb here (part :: rest) = here := by
  rw [climb, ups, meaningful_cons rest hpart, List.takeWhile_cons_of_neg (by simpa using hdots),
    List.foldl_nil]

end Cons

theorem endsInName_cons (hrest : rest ≠ []) (part : Bytes) :
    endsInName (part :: rest) = endsInName rest := by
  obtain ⟨next, more, rfl⟩ := List.exists_cons_of_ne_nil hrest
  rw [endsInName, endsInName, List.getLast?_cons_cons]

/-- Parts that mean nothing end in a dot, if there are any. -/
theorem endsInName_of_meaningful_eq_nil (hempty : [] ∉ rest) (hmeaning : meaningful rest = []) :
    endsInName rest = true ↔ rest = [] := by
  constructor
  · intro h
    by_contra hne
    have hlast := List.getLast_mem hne
    have hnone : component? (rest.getLast hne) = none := by
      simpa using List.filter_eq_nil_iff.1 hmeaning _ hlast
    have hdot : rest.getLast hne = dot := by
      rw [component?] at hnone
      split at hnone
      · rename_i heq
        exact heq.resolve_left fun hnil => hempty (hnil ▸ hlast)
      · split at hnone <;> cases hnone
    rw [endsInName, List.getLast?_eq_getLast_of_ne_nil hne, hdot] at h
    simp at h
  · rintro rfl
    rfl

end Path

namespace Disk

open CacheAudit.Path (meaningful ups below climb endsInName dot dotDot)

/-- No link stands at a place or above it. -/
def LinkFree (d : Disk) (l : Location) : Prop :=
  ∀ m, m <+: l → ∀ target, d.entry? m ≠ some (.link target)

/-- A disk without links. -/
theorem linkFree_of_entries {d : Disk} (h : ∀ e ∈ d.entries, ∀ target, e.2 ≠ .link target)
    (l : Location) : d.LinkFree l := by
  intro m _ target hentry
  cases m with
  | nil => cases hentry
  | cons n rest => exact h _ (mem_entries (List.cons_ne_nil n rest) hentry) target rfl

/-- Everything above a place is a directory. -/
def Reaches (d : Disk) (l : Location) : Prop :=
  ∀ m, m <+: l → m ≠ l → d.entry? m = some .directory

/-- Names looked up from a directory without regard to links. The last must be a directory unless
`bare` says that it ends the path. -/
def seek (d : Disk) (bare : Bool) (here : Location) : List Bytes → Except SystemError Place
  | [] => .ok (.found here .directory)
  | n :: rest =>
    if nameLimit < n.length then .error .nameTooLong
    else match d.entry? (here ++ [n]) with
      | none => if rest.isEmpty && bare then .ok (.free (here ++ [n])) else .error .noEntry
      | some .directory => d.seek bare (here ++ [n]) rest
      | some e =>
        if rest.isEmpty && bare then .ok (.found (here ++ [n]) e) else .error .notDirectory

/-- A place without the time of what was found there. -/
def Place.timeless : Place → Place
  | found l e => .found l e.timeless
  | free l => .free l

variable {a d : Disk} {follow bare : Bool} {links : Nat} {here l m : Location} {e : Entry}
  {n : Bytes} {names parts : List Bytes}

/-! ### Lookups without links -/

/-- A name is the last part when nothing with a meaning follows and the parts end in a name. -/
theorem isEmpty_eq_of_name {part : Bytes} (hempty : [] ∉ rest) (hdot : part ≠ dot) :
    rest.isEmpty = ((meaningful rest).isEmpty && endsInName (part :: rest)) := by
  by_cases hrest : rest = []
  · subst hrest
    simp [meaningful, endsInName, hdot]
  · rw [Path.endsInName_cons hrest]
    by_cases hmeaning : meaningful rest = []
    · have hends := Path.endsInName_of_meaningful_eq_nil hempty hmeaning
      rw [hmeaning, Bool.eq_iff_iff, List.isEmpty_iff]
      simp [hends, hrest]
    · rw [List.isEmpty_eq_false_iff.2 hrest, List.isEmpty_eq_false_iff.2 hmeaning, Bool.false_and]

/-- The lookup of names and dots goes from one name to the next. -/
theorem lookup_eq_seek_of_names (hempty : [] ∉ parts) (hup : dotDot ∉ parts)
    (hlink : d.LinkFree (here ++ meaningful parts)) :
    d.lookup follow links here .directory parts =
      d.seek (endsInName parts) here (meaningful parts) := by
  induction parts generalizing here with
  | nil => rw [lookup_nil]; rfl
  | cons part rest ih =>
    rw [List.mem_cons, not_or] at hempty hup
    by_cases hdot : part = dot
    · subst hdot
      rw [Path.meaningful_cons_of_none _ (.inr rfl)] at hlink ⊢
      rw [lookup_dot, ih hempty.2 hup.2 hlink]
      by_cases hrest : rest = []
      · subst hrest
        rfl
      · rw [Path.endsInName_cons hrest]
    rw [Path.meaningful_cons _ (not_or.2 ⟨Ne.symm hempty.1, hdot⟩)] at hlink ⊢
    by_cases hlong : nameLimit < part.length
    · rw [lookup_long hdot (Ne.symm hup.1) hlong, seek, if_pos hlong]
    have hlast := isEmpty_eq_of_name hempty.2 hdot
    have hhere : here ++ [part] <+: here ++ part :: meaningful rest := by simp
    rw [seek, if_neg hlong]
    cases hentry : d.entry? (here ++ [part]) with
    | none => rw [lookup_missing hdot (Ne.symm hup.1) hlong hentry, hlast]
    | some e =>
      rw [lookup_entry hdot (Ne.symm hup.1) hlong
        (fun target heq => hlink _ hhere target (heq ▸ hentry)) hentry]
      cases e with
      | link target => exact absurd hentry (hlink _ hhere target)
      | file content modified =>
        rw [← hlast]
        by_cases hrest : rest = []
        · subst hrest
          rw [lookup_nil]
          rfl
        · obtain ⟨next, more, rfl⟩ := List.exists_cons_of_ne_nil hrest
          rw [lookup_of_not_directory (by simp)]
          rfl
      | directory =>
        rw [List.append_cons] at hlink
        rw [ih hempty.2 hup.2 hlink]
        by_cases hrest : rest = []
        · subst hrest
          rfl
        · rw [Path.endsInName_cons hrest]

/-- The lookup of parts that go up only at their beginning goes from one name to the next. -/
theorem lookup_eq_seek (hempty : [] ∉ parts) (hforward : dotDot ∉ below parts)
    (hlink : d.LinkFree (climb here parts ++ below parts)) :
    d.lookup follow links here .directory parts =
      d.seek (endsInName parts) (climb here parts) (below parts) := by
  induction parts generalizing here with
  | nil => rw [lookup_nil]; rfl
  | cons part rest ih =>
    have hrest : [] ∉ rest := fun h => hempty (List.mem_cons_of_mem _ h)
    by_cases hdot : part = dot
    · subst hdot
      rw [Path.below_cons_of_none _ (.inr rfl)] at hforward
      rw [Path.below_cons_of_none _ (.inr rfl), Path.climb_cons_of_none _ (.inr rfl)] at hlink ⊢
      rw [lookup_dot, ih hrest hforward hlink]
      by_cases hnil : rest = []
      · subst hnil
        rfl
      · rw [Path.endsInName_cons hnil]
    by_cases hdots : part = dotDot
    · subst hdots
      rw [Path.below_up] at hforward
      rw [Path.below_up, Path.climb_up] at hlink ⊢
      rw [lookup_dotDot, ih hrest hforward hlink]
      by_cases hnil : rest = []
      · subst hnil
        rfl
      · rw [Path.endsInName_cons hnil]
    · have hpart : ¬(part = [] ∨ part = dot) :=
        not_or.2 ⟨(List.ne_of_not_mem_cons hempty).symm, hdot⟩
      rw [Path.below_name _ hpart hdots] at hforward
      rw [Path.below_name _ hpart hdots, Path.climb_name _ hpart hdots] at hlink ⊢
      refine lookup_eq_seek_of_names hempty (fun hmem => hforward ?_) hlink
      exact List.mem_filter.2 ⟨hmem, by decide⟩

/-! ### What a lookup of names answers -/

/-- What is found at the end of names stands at the place that they reach. -/
theorem seek_eq_found (h : d.seek bare here names = .ok (.found m e)) :
    m = here ++ names ∧ (names = [] → e = .directory) ∧ (names ≠ [] → d.entry? m = some e) := by
  induction names generalizing here with
  | nil =>
    cases h
    simp
  | cons n rest ih =>
    rw [seek] at h
    split at h
    · cases h
    split at h
    · split at h <;> cases h
    · rename_i hentry
      obtain ⟨rfl, hnil, hcons⟩ := ih h
      refine ⟨by simp, by simp, fun _ => ?_⟩
      by_cases hrest : rest = []
      · rw [hrest, List.append_nil, hentry, hnil hrest]
      · exact hcons hrest
    · rename_i hentry
      split at h
      · rename_i hlast
        cases h
        obtain rfl : rest = [] := by simpa using (Bool.and_eq_true_iff.1 hlast).1
        exact ⟨rfl, by simp, fun _ => hentry⟩
      · cases h

/-- A directory is found whether or not it must be one. -/
theorem seek_directory (h : d.seek bare here names = .ok (.found m .directory)) (bare' : Bool) :
    d.seek bare' here names = .ok (.found m .directory) := by
  induction names generalizing here with
  | nil => exact h
  | cons n rest ih =>
    rw [seek] at h ⊢
    split at h
    · cases h
    · rename_i hlong
      rw [if_neg hlong]
      split at h
      · split at h <;> cases h
      · rename_i hentry
        exact ih h
      · rename_i e hne hentry
        split at h
        · cases h
          exact absurd rfl hne
        · cases h

/-- Disks that agree on the way to a place agree on what is found there. -/
theorem seek_congr (h : ∀ m, m <+: here ++ names → a.kindAt m = d.kindAt m) :
    (a.seek bare here names).map Place.timeless = (d.seek bare here names).map Place.timeless := by
  induction names generalizing here with
  | nil => rfl
  | cons n rest ih =>
    have hhere := h (here ++ [n]) (by simp)
    rw [List.append_cons] at h
    have hrest := ih h
    rw [kindAt, kindAt] at hhere
    rw [seek, seek]
    by_cases hlong : nameLimit < n.length
    · rw [if_pos hlong, if_pos hlong]
    rw [if_neg hlong, if_neg hlong]
    cases ha : a.entry? (here ++ [n]) with
    | none =>
      rw [ha] at hhere
      rw [Option.map_eq_none_iff.1 hhere.symm]
    | some e =>
      rw [ha] at hhere
      obtain ⟨e', hd, htimeless⟩ := Option.map_eq_some_iff.1 hhere.symm
      rw [hd]
      cases e <;> cases e' <;> simp only [Entry.timeless, reduceCtorEq] at htimeless
      case directory.directory => exact hrest
      case file.file | link.link =>
        dsimp only
        split
        · simp only [Except.map, Place.timeless, Entry.timeless, htimeless]
        · rfl

/-! ### Places read off paths -/

/-- Where the names of a path begin. -/
def base (d : Disk) (p : Path) : Location :=
  climb (d.start p) p.parts

end Disk

namespace Path

theorem follow_names {here : Location} {parts : List Bytes} (h : dotDot ∉ parts) :
    Location.follow here (parts.filterMap component?) = here ++ meaningful parts := by
  induction parts generalizing here with
  | nil => simp [Location.follow, meaningful]
  | cons part rest ih =>
    rw [List.mem_cons, not_or] at h
    by_cases hpart : part = [] ∨ part = dot
    · have hcomponent : component? part = none := by rw [component?, if_pos hpart]
      rw [List.filterMap_cons_none hcomponent, ih h.2, meaningful_cons_of_none _ hpart]
    · have hcomponent : component? part = some (.name part) := by
        rw [component?, if_neg hpart, if_neg (Ne.symm h.1)]
      rw [List.filterMap_cons_some hcomponent, Location.follow, ih h.2, meaningful_cons _ hpart,
        List.append_assoc, List.singleton_append]

theorem follow_parts {here : Location} {parts : List Bytes} (h : dotDot ∉ below parts) :
    Location.follow here (parts.filterMap component?) = climb here parts ++ below parts := by
  induction parts generalizing here with
  | nil => simp [Location.follow, climb, ups, below, meaningful]
  | cons part rest ih =>
    by_cases hpart : part = [] ∨ part = dot
    · have hcomponent : component? part = none := by rw [component?, if_pos hpart]
      rw [below_cons_of_none _ hpart] at h
      rw [List.filterMap_cons_none hcomponent, ih h, below_cons_of_none _ hpart,
        climb_cons_of_none _ hpart]
    by_cases hdots : part = dotDot
    · subst hdots
      have hcomponent : component? dotDot = some .up := rfl
      rw [below_up] at h
      rw [List.filterMap_cons_some hcomponent, Location.follow, ih h, below_up, climb_up]
    · rw [below_name _ hpart hdots] at h
      rw [below_name _ hpart hdots, climb_name _ hpart hdots]
      exact follow_names fun hmem => h (List.mem_filter.2 ⟨hmem, by decide⟩)

theorem subset_of_mem_parts {p : Path} {part : Bytes} (h : part ∈ p.parts) : part ⊆ p.bytes := by
  obtain ⟨front, last, hparts, hbytes, -⟩ := exists_spelling p.bytes
  intro b hb
  have hparts' : p.parts = front ++ [last] := hparts
  rw [hparts'] at h
  rw [hbytes]
  rcases List.mem_append.1 h with h | h
  · refine List.mem_append_left _ (List.mem_flatMap.2 ⟨part, h, ?_⟩)
    exact List.mem_append_left _ hb
  · exact List.mem_append_right _ (List.mem_singleton.1 h ▸ hb)

/-- A path is absolute when its first part is empty and not its only one. -/
theorem isAbsolute_of_parts_cons {p : Path} {first : Bytes} {rest : List Bytes}
    (h : p.parts = first :: rest) (hrest : rest ≠ []) : p.isAbsolute = true ↔ first = [] := by
  obtain ⟨bytes⟩ := p
  cases bytes with
  | nil =>
    cases h
    exact absurd rfl hrest
  | cons b bytes =>
    by_cases hb : b = slash
    · subst hb
      rw [parts_cons_slash] at h
      cases h
      simp [isAbsolute]
    · obtain ⟨part, more, hparts⟩ := List.exists_cons_of_ne_nil (parts_ne_nil ⟨bytes⟩)
      rw [parts_cons hb hparts] at h
      cases h
      simp [isAbsolute, hb]

end Path

/-- The place that a path names is the one that the components among its parts lead to. -/
theorem Location.ofPath_eq_follow (cwd : Location) (p : Path) : ofPath cwd p =
    follow (if p.isAbsolute then [] else cwd) (p.parts.filterMap Path.component?) := by
  rw [ofPath, Path.components, Path.locatedComponents]
  obtain ⟨first, rest, hparts⟩ := List.exists_cons_of_ne_nil p.parts_ne_nil
  rw [hparts]
  dsimp only
  by_cases hfirst : first = []
  · subst hfirst
    rw [if_pos rfl]
    by_cases hrest : rest = []
    · subst hrest
      rfl
    · have habsolute := (Path.isAbsolute_of_parts_cons hparts hrest).2 rfl
      have hnonempty : ¬(rest.isEmpty = true) := by simpa using hrest
      rw [if_neg hnonempty, List.map_cons, Path.map_fst_located, follow, habsolute]
      rfl
  rw [if_neg hfirst]
  by_cases hdot : first = Path.dot
  · subst hdot
    rw [if_pos rfl, List.map_cons, Path.map_fst_located, follow]
    rfl
  · rw [if_neg hdot, Path.map_fst_located]

/-- The place of a path that goes up only at its beginning. -/
theorem Location.ofPath_eq {cwd : Location} {p : Path} (hp : p.Forward) : ofPath cwd p =
    Path.climb (if p.isAbsolute then [] else cwd) p.parts ++ Path.below p.parts := by
  rw [ofPath_eq_follow, Path.follow_parts hp]

namespace Disk

open CacheAudit.Path (meaningful ups below climb endsInName dot dotDot)

variable {a d : Disk} {follow : Bool} {p : Path} {m : Location} {e : Entry} {parts : List Bytes}

/-- The names of a path lead from their base to the place of the path. -/
theorem base_append (hp : p.Forward) (d : Disk) :
    d.base p ++ below p.parts = Location.ofPath d.cwd p :=
  (Location.ofPath_eq hp).symm

theorem nil_not_mem_strictSteps (p : Path) : [] ∉ strictSteps p := by
  rw [strictSteps]
  split <;> simp [steps, dot]

theorem meaningful_steps (p : Path) : meaningful (steps p) = meaningful p.parts :=
  Path.meaningful_filter p.parts

theorem meaningful_strictSteps (p : Path) : meaningful (strictSteps p) = meaningful p.parts := by
  rw [strictSteps]
  split
  · rw [Path.meaningful_append_of_none _ (by simp [Path.component?]), meaningful_steps]
  · exact meaningful_steps p

/-- Parts that mean what a path does are looked up as its names are. -/
theorem resolveSteps_eq_seek (hp : p.Forward) (hlink : d.LinkFree (Location.ofPath d.cwd p))
    (hempty : [] ∉ parts) (hparts : meaningful parts = meaningful p.parts) :
    d.resolveSteps follow p parts =
      if p.bytes.isEmpty then .error .noEntry
      else if pathLimit ≤ p.bytes.length then .error .nameTooLong
      else d.seek (endsInName parts) (d.base p) (below p.parts) := by
  have hbelow : below parts = below p.parts := by rw [below, hparts, below]
  have hclimb : climb (d.start p) parts = d.base p := by rw [climb, ups, hparts, base, climb, ups]
  rw [← base_append hp d, ← hbelow, ← hclimb] at hlink
  have hlookup : d.lookup follow linkLimit (d.start p) .directory parts = _ :=
    lookup_eq_seek hempty (hbelow ▸ hp) hlink
  rw [hbelow, hclimb] at hlookup
  rw [resolveSteps, ← start, hlookup]

/-- What a path leads to stands at its place. -/
theorem place_of_follow (hp : p.Forward) (hlink : d.LinkFree (Location.ofPath d.cwd p))
    (h : d.follow p = .ok (m, e)) : m = Location.ofPath d.cwd p ∧
      (below p.parts = [] → e = .directory) ∧ (below p.parts ≠ [] → d.entry? m = some e) := by
  have hfound : d.resolve p = .ok (.found m e) := by
    unfold Disk.follow at h
    split at h
    · cases h
      assumption
    · cases h
    · cases h
  rw [resolve, resolveSteps_eq_seek hp hlink (nil_not_mem_strictSteps p)
    (meaningful_strictSteps p)] at hfound
  split at hfound
  · cases hfound
  split at hfound
  · cases hfound
  · rw [← base_append hp d]
    exact seek_eq_found hfound

theorem linkFree_of_kindAt {l : Location} (h : ∀ m, m <+: l → a.kindAt m = d.kindAt m)
    (hlink : a.LinkFree l) : d.LinkFree l := by
  intro m hm target hentry
  rw [← kindAt_eq_link, ← h m hm, kindAt_eq_link] at hentry
  exact hlink m hm target hentry

/-- Disks that agree on the way to the place of a path agree on where the path leads. -/
theorem resolve_congr (hp : p.Forward) (hcwd : d.cwd = a.cwd)
    (hlink : a.LinkFree (Location.ofPath a.cwd p))
    (h : ∀ m, m <+: Location.ofPath a.cwd p → a.kindAt m = d.kindAt m) :
    (a.resolve p).map Place.timeless = (d.resolve p).map Place.timeless := by
  have hlink' : d.LinkFree (Location.ofPath d.cwd p) := hcwd ▸ linkFree_of_kindAt h hlink
  have hbase : d.base p = a.base p := by rw [base, base, start, start, hcwd]
  rw [resolve, resolve,
    resolveSteps_eq_seek hp hlink (nil_not_mem_strictSteps p) (meaningful_strictSteps p),
    resolveSteps_eq_seek hp hlink' (nil_not_mem_strictSteps p) (meaningful_strictSteps p), hbase]
  split
  · rfl
  split
  · rfl
  · rw [← base_append hp a] at h
    exact seek_congr h

/-- Disks that agree on the way to the place of a path agree on what the path leads to. -/
theorem follow_congr (hp : p.Forward) (hcwd : d.cwd = a.cwd)
    (hlink : a.LinkFree (Location.ofPath a.cwd p))
    (h : ∀ m, m <+: Location.ofPath a.cwd p → a.kindAt m = d.kindAt m) :
    (a.follow p).map (fun (l, e) => (l, e.timeless)) =
      (d.follow p).map fun (l, e) => (l, e.timeless) := by
  have hresolve := resolve_congr hp hcwd hlink h
  unfold Disk.follow
  rcases ha : a.resolve p with error | ⟨l, e⟩ | l <;>
    rcases hd : d.resolve p with error' | ⟨l', e'⟩ | l' <;>
    rw [ha, hd] at hresolve <;>
    simp only [Except.map, Place.timeless, Except.ok.injEq, Except.error.injEq, Place.found.injEq,
      reduceCtorEq] at hresolve
  · rw [hresolve]
  · simp [Except.map, hresolve]

end Disk

/-! ### Paths that go on by names -/

namespace Path

variable {p : Path} {names : List Bytes}

theorem meaningful_of_proper (h : ∀ n ∈ names, ProperName n) : meaningful names = names := by
  rw [meaningful, List.filter_eq_self]
  intro n hn
  have hproper := h n hn
  rw [component?, if_neg (not_or.2 ⟨hproper.nonempty, hproper.notDot⟩), if_neg hproper.notDotDot]
  rfl

/-- The names by which a path goes on come after its own. -/
theorem below_descend (p : Path) (h : ∀ n ∈ names, ProperName n) :
    ups (p.descend names).parts = ups p.parts ∧
      below (p.descend names).parts = below p.parts ++ names := by
  have hmeaning : meaningful (p.descend names).parts = meaningful p.parts ++ names := by
    rw [← Disk.meaningful_steps, steps_descend p h, meaningful, List.filter_append, ← meaningful,
      ← meaningful, Disk.meaningful_steps, meaningful_of_proper h]
  have hstop : names.takeWhile (· == dotDot) = [] ∧ names.dropWhile (· == dotDot) = names := by
    cases names with
    | nil => exact ⟨rfl, rfl⟩
    | cons n rest =>
      have hn : ¬(n == dotDot) = true := by simpa using (h n List.mem_cons_self).notDotDot
      exact ⟨List.takeWhile_cons_of_neg hn, List.dropWhile_cons_of_neg hn⟩
  rw [ups, ups, below, below, hmeaning, List.takeWhile_append, List.dropWhile_append, hstop.1,
    hstop.2, List.append_nil]
  refine ⟨?_, ?_⟩
  · split <;> rename_i hall
    · exact ((List.takeWhile_prefix _).eq_of_length hall).symm
    · rfl
  · split <;> rename_i hall
    · rw [List.isEmpty_iff.1 hall, List.nil_append]
    · rfl

theorem Forward.descend (hp : p.Forward) (h : ∀ n ∈ names, ProperName n) :
    (p.descend names).Forward := by
  rw [Forward, (below_descend p h).2, List.mem_append, not_or]
  exact ⟨hp, fun hmem => (h _ hmem).notDotDot rfl⟩

theorem isAbsolute_descend (hne : p.bytes ≠ []) (h : ∀ n ∈ names, ProperName n) :
    (p.descend names).isAbsolute = p.isAbsolute := by
  obtain ⟨rest, hbytes⟩ := bytes_descend p h
  obtain ⟨b, bytes, hp⟩ := List.exists_cons_of_ne_nil hne
  rw [isAbsolute, isAbsolute, hbytes, hp]
  rfl

end Path

/-- The place of a path that goes on by names lies below the place of the path. -/
theorem Location.ofPath_descend {p : Path} {names : List Bytes} (hp : p.Forward)
    (hne : p.bytes ≠ []) (h : ∀ n ∈ names, ProperName n) (cwd : Location) :
    ofPath cwd (p.descend names) = ofPath cwd p ++ names := by
  obtain ⟨hups, hbelow⟩ := Path.below_descend p h
  rw [ofPath_eq (hp.descend h), ofPath_eq hp, Path.isAbsolute_descend hne h, hbelow, Path.climb,
    Path.climb, hups, List.append_assoc]

end CacheAudit
