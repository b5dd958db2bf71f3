import CacheAudit.Proofs.Disk.ForwardPaths
import Mathlib.Data.List.TakeWhile

/-!
# Directories made along a path

Where no link is in the way, making a directory with its parents makes the directories of the names
of its path that are missing, from the first on, until something stands in the way.
-/

namespace CacheAudit

namespace Disk

open CacheAudit.Path (meaningful ups below climb endsInName dot dotDot)

/-- The disk with directories for names, one below the other. The last of them is not made, and
must be there, if `bare` denies that it ends the path. -/
def raise (d : Disk) (bare : Bool) (here : Location) :
    List Bytes → Disk × Except SystemError Unit
  | [] => (d, .ok ())
  | n :: rest =>
    if nameLimit < n.length then (d, .error .nameTooLong)
    else match d.entry? (here ++ [n]) with
      | none =>
        if rest.isEmpty && !bare then (d, .error .noEntry)
        else raise (d.put (here ++ [n]) .directory) bare (here ++ [n]) rest
      | some .directory => d.raise bare (here ++ [n]) rest
      | some _ => (d, .error (if rest.isEmpty && bare then .fileExists else .notDirectory))

variable {d : Disk} {bare : Bool} {here l m : Location} {e : Entry} {n : Bytes}
  {names : List Bytes} {p : Path}

/-! ### Names from the first on -/

/-- Nothing becomes of what stands at a place when directories are made, and what is new is a
directory. -/
theorem entry?_raise (d : Disk) (bare : Bool) (here : Location) (names : List Bytes)
    (m : Location) : Disk.entry? (d.raise bare here names).1 m = d.entry? m ∨
      d.entry? m = none ∧ Disk.entry? (d.raise bare here names).1 m = some .directory := by
  induction names generalizing d here with
  | nil => exact .inl rfl
  | cons n rest ih =>
    rw [raise]
    split
    · exact .inl rfl
    split
    · rename_i hfree
      split
      · exact .inl rfl
      by_cases hm : m = here ++ [n]
      · subst hm
        have hput : Disk.entry? (d.put (here ++ [n]) .directory) (here ++ [n]) = some .directory :=
          entry?_put_self (by simp)
        rcases ih (d.put (here ++ [n]) .directory) (here ++ [n]) with hsame | ⟨hnone, -⟩
        · exact .inr ⟨hfree, hsame.trans hput⟩
        · cases hput.symm.trans hnone
      · rw [← entry?_put_of_ne (d := d) (e := .directory) hm]
        exact ih _ _
    · exact ih _ _
    · exact .inl rfl

theorem entry?_raise_directory (hm : d.entry? m = some .directory) :
    Disk.entry? (d.raise bare here names).1 m = some .directory := by
  rcases d.entry?_raise bare here names m with hsame | ⟨hnone, -⟩
  · rw [hsame, hm]
  · cases hm.symm.trans hnone

theorem LinkFree.raise (h : d.LinkFree l) (bare : Bool) (here : Location) (names : List Bytes) :
    (d.raise bare here names).1.LinkFree l := by
  intro m hm target hlink
  rcases d.entry?_raise bare here names m with hsame | ⟨-, hdirectory⟩
  · exact h m hm target (hsame.symm.trans hlink)
  · cases hdirectory.symm.trans hlink

theorem cwd_raise (d : Disk) (bare : Bool) (here : Location) (names : List Bytes) :
    (d.raise bare here names).1.cwd = d.cwd := by
  induction names generalizing d here with
  | nil => rfl
  | cons n rest ih =>
    rw [raise]
    split
    · rfl
    split
    · split
      · rfl
      · rw [ih, cwd_put]
    · exact ih _ _
    · rfl

/-- What is done for names that lead to a place, or into something that is no directory. -/
theorem raise_of_seek (h : d.seek bare here names ≠ .error .noEntry) :
    d.raise bare here names = match d.seek bare here names with
      | .ok (.found _ .directory) => (d, .ok ())
      | .ok (.found _ _) => (d, .error .fileExists)
      | .ok (.free m) => (d.put m .directory, .ok ())
      | .error error => (d, .error error) := by
  induction names generalizing here with
  | nil => rfl
  | cons n rest ih =>
    rw [raise]
    rw [seek] at h ⊢
    by_cases hlong : nameLimit < n.length
    · rw [if_pos hlong, if_pos hlong]
    rw [if_neg hlong] at h
    rw [if_neg hlong, if_neg hlong]
    cases hentry : d.entry? (here ++ [n]) with
    | none =>
      rw [hentry] at h
      by_cases hlast : (rest.isEmpty && bare) = true
      · obtain ⟨rfl, rfl⟩ : rest = [] ∧ bare = true := by simpa using hlast
        rfl
      · exact absurd (if_neg hlast) h
    | some e =>
      rw [hentry] at h
      cases e with
      | directory => exact ih h
      | file content modified => by_cases hlast : (rest.isEmpty && bare) = true <;> simp [hlast]
      | link target => by_cases hlast : (rest.isEmpty && bare) = true <;> simp [hlast]

/-- When names lead nowhere for want of an entry, only directories and free places are met. -/
theorem free_of_noEntry (h : d.IsTree) (hseek : d.seek bare here names = .error .noEntry) :
    ∀ ns, ns <+: names → ns ≠ [] →
      d.entry? (here ++ ns) = none ∨ d.entry? (here ++ ns) = some .directory := by
  induction names generalizing here with
  | nil => cases hseek
  | cons n rest ih =>
    intro ns hns hne
    obtain ⟨n', more, rfl⟩ := List.exists_cons_of_ne_nil hne
    obtain ⟨rfl, hmore⟩ := List.cons_prefix_cons.1 hns
    rw [seek] at hseek
    split at hseek
    · cases hseek
    split at hseek
    · rename_i hfree
      left
      by_cases hnil : more = []
      · rw [hnil, hfree]
      · rw [List.append_cons]
        cases hbelow : d.entry? (here ++ [n'] ++ more) with
        | none => rfl
        | some e => cases (h.directory_above hnil hbelow).symm.trans hfree
    · rename_i hdirectory
      by_cases hnil : more = []
      · rw [hnil]
        exact .inr hdirectory
      · rw [List.append_cons]
        exact ih hseek more hmore hnil
    · split at hseek <;> cases hseek

/-- Making the directories above the last name first comes to the same. -/
theorem raise_concat (h : ∀ ns, ns <+: names → ns ≠ [] →
      d.entry? (here ++ ns) = none ∨ d.entry? (here ++ ns) = some .directory) (n : Bytes) :
    d.raise bare here (names ++ [n]) = match d.raise true here names with
      | (d', .ok ()) => d'.raise bare here (names ++ [n])
      | (d', .error error) => (d', .error error) := by
  induction names generalizing d here with
  | nil => rfl
  | cons x rest ih =>
    have hrest : ∀ ns, ns <+: rest → ns ≠ [] → d.entry? (here ++ [x] ++ ns) = none ∨
        d.entry? (here ++ [x] ++ ns) = some .directory := by
      intro ns hns hne
      rw [← List.append_cons]
      exact h (x :: ns) (List.cons_prefix_cons.2 ⟨rfl, hns⟩) (by simp)
    -- once the first name has its directory, both sides go on from there
    have honward {d₀ : Disk} (hlong : ¬nameLimit < x.length)
        (hx : d₀.entry? (here ++ [x]) = some .directory)
        (hrest : ∀ ns, ns <+: rest → ns ≠ [] → d₀.entry? (here ++ [x] ++ ns) = none ∨
          d₀.entry? (here ++ [x] ++ ns) = some .directory) :
        d₀.raise bare (here ++ [x]) (rest ++ [n]) =
          match d₀.raise true (here ++ [x]) rest with
          | (d', .ok ()) => d'.raise bare here (x :: rest ++ [n])
          | (d', .error error) => (d', .error error) := by
      rw [ih hrest]
      have hkept : Disk.entry? (d₀.raise true (here ++ [x]) rest).1 (here ++ [x]) =
          some .directory :=
        entry?_raise_directory hx
      cases hraise : d₀.raise true (here ++ [x]) rest with
      | mk d' result =>
        rw [hraise] at hkept
        cases result with
        | error error => rfl
        | ok u =>
          dsimp only
          rw [List.cons_append, raise.eq_def d' bare here]
          dsimp only
          rw [if_neg hlong, hkept]
    rw [List.cons_append, raise, raise]
    by_cases hlong : nameLimit < x.length
    · rw [if_pos hlong, if_pos hlong]
    rw [if_neg hlong, if_neg hlong]
    rcases h [x] (by simp) (by simp) with hx | hx
    · rw [hx]
      have hmore : (rest ++ [n]).isEmpty = false := by simp
      simp only [hmore, Bool.false_and, Bool.not_true, Bool.and_false, Bool.false_eq_true, if_false]
      refine honward hlong (entry?_put_self (by simp)) fun ns hns hne => ?_
      rw [entry?_put_of_ne (by simpa using hne)]
      exact hrest ns hns hne
    · rw [hx]
      exact honward hlong hx hrest

/-- After a success the names lead to a directory. -/
theorem seek_of_raise {d' : Disk} (h : d.raise bare here names = (d', .ok ())) (bare' : Bool) :
    d'.seek bare' here names = .ok (.found (here ++ names) .directory) := by
  induction names generalizing d here with
  | nil => simp [seek]
  | cons n rest ih =>
    have honward (d₀ : Disk) (hn : d₀.entry? (here ++ [n]) = some .directory)
        (h : d₀.raise bare (here ++ [n]) rest = (d', .ok ())) (hlong : ¬nameLimit < n.length) :
        d'.seek bare' here (n :: rest) = .ok (.found (here ++ n :: rest) .directory) := by
      have hkept : Disk.entry? (d₀.raise bare (here ++ [n]) rest).1 (here ++ [n]) =
          some .directory :=
        entry?_raise_directory hn
      rw [h] at hkept
      rw [seek, if_neg hlong, hkept, List.append_cons here n rest]
      exact ih h
    rw [raise] at h
    by_cases hlong : nameLimit < n.length
    · rw [if_pos hlong] at h
      cases h
    rw [if_neg hlong] at h
    split at h
    · split at h
      · cases h
      · exact honward _ (entry?_put_self (by simp)) h hlong
    · rename_i hn
      exact honward d hn h hlong
    · cases h

/-- What goes on from names that lead to a directory is looked up, and made, from there. -/
theorem seek_raise_append (h : d.seek true here names = .ok (.found m .directory)) (bare : Bool)
    (more : List Bytes) :
    d.seek bare here (names ++ more) = d.seek bare m more ∧
      d.raise bare here (names ++ more) = d.raise bare m more := by
  induction names generalizing here with
  | nil =>
    cases h
    exact ⟨rfl, rfl⟩
  | cons n rest ih =>
    rw [seek] at h
    rw [List.cons_append, seek, raise]
    split at h
    · cases h
    rename_i hlong
    rw [if_neg hlong, if_neg hlong]
    cases hentry : d.entry? (here ++ [n]) with
    | none =>
      rw [hentry] at h
      dsimp only at h
      split at h <;> cases h
    | some e =>
      rw [hentry] at h
      cases e with
      | directory => exact ih h
      | file content modified =>
        dsimp only at h
        split at h <;> cases h
      | link target =>
        dsimp only at h
        split at h <;> cases h

/-- A name is not made when its lookup misses something. -/
theorem raise_of_noEntry (h : d.seek bare here [n] = .error .noEntry) :
    d.raise bare here [n] = (d, .error .noEntry) := by
  rw [seek] at h
  rw [raise]
  by_cases hlong : nameLimit < n.length
  · rw [if_pos hlong] at h
    cases h
  rw [if_neg hlong] at h ⊢
  cases hentry : d.entry? (here ++ [n]) with
  | none =>
    rw [hentry] at h
    cases bare with
    | true => cases h
    | false => rfl
  | some e =>
    rw [hentry] at h
    cases e with
    | directory => cases h
    | file content modified | link target => cases bare <;> cases h

/-! ### Paths -/

/-- A path has no more parts to look up than bytes. -/
theorem length_steps_le (p : Path) : (steps p).length ≤ p.bytes.length := by
  obtain ⟨bytes⟩ := p
  induction bytes with
  | nil => exact Nat.le_refl _
  | cons b rest ih =>
    rw [steps] at ih ⊢
    by_cases hb : b = Path.slash
    · rw [hb, Path.parts_cons_slash, List.filter_cons_of_neg (by simp)]
      exact Nat.le_succ_of_le ih
    · obtain ⟨part, more, hparts⟩ := List.exists_cons_of_ne_nil (Path.parts_ne_nil ⟨rest⟩)
      rw [Path.parts_cons hb hparts, List.filter_cons_of_pos (by simp), List.length_cons,
        List.length_cons, Nat.add_le_add_iff_right]
      rw [hparts] at ih
      exact ((List.sublist_cons_self part more).filter _).length_le.trans ih

theorem length_below_le (p : Path) : (below p.parts).length ≤ p.bytes.length := by
  refine le_trans ?_ (length_steps_le p)
  rw [below, ← meaningful_steps]
  exact ((List.dropWhile_sublist _).trans List.filter_sublist).length_le

theorem length_parent? {parent : Path} (h : p.parent? = some parent) :
    parent.bytes.length ≤ p.bytes.length := by
  unfold Path.parent? at h
  split at h
  · cases h
  · cases h
  · cases h
    exact Nat.zero_le _
  · cases h
    exact List.length_take_le' _ _

/-- The first name comes right after the upward steps at the beginning. -/
theorem ups_below_of_meaningful {parts parts' front : List Bytes}
    (h : meaningful parts' = ups parts ++ front) (hfront : dotDot ∉ front) :
    ups parts' = ups parts ∧ below parts' = front := by
  have hups : ∀ u ∈ ups parts, (u == dotDot) = true := fun u hu => by
    have htrue := List.mem_takeWhile_imp hu
    exact htrue
  have hstop : front.takeWhile (· == dotDot) = [] ∧ front.dropWhile (· == dotDot) = front := by
    cases front with
    | nil => exact ⟨rfl, rfl⟩
    | cons x more =>
      have hx : ¬(x == dotDot) = true := by
        rw [beq_iff_eq]
        rintro rfl
        exact hfront List.mem_cons_self
      exact ⟨List.takeWhile_cons_of_neg hx, List.dropWhile_cons_of_neg hx⟩
  rw [ups, below, h, List.takeWhile_append_of_pos hups, List.dropWhile_append_of_pos hups, hstop.1,
    hstop.2, List.append_nil]
  exact ⟨rfl, rfl⟩

theorem endsInName_steps {part : Bytes} {front : List Bytes} (hparts : p.parts = front ++ [part])
    (hpart : (Path.component? part).isSome = true) : endsInName (steps p) = true := by
  have hpart' : ¬(part = [] ∨ part = dot) := by
    intro heq
    rw [Path.component?, if_pos heq] at hpart
    cases hpart
  rw [not_or] at hpart'
  have hkept : [part].filter (fun q => !q.isEmpty) = [part] := by simp [hpart'.1]
  rw [steps, hparts, List.filter_append, hkept, endsInName, List.getLast?_concat]
  simpa using hpart'.2

/-- The parent of a path whose last component is a name goes the same way up to that name. -/
theorem exists_parent (hp : p.Forward) {front : List Bytes}
    (hnames : below p.parts = front ++ [n]) :
    ∃ parent, p.parent? = some parent ∧ (front = [] ∧ parent.bytes = [] ∨
      parent.bytes ≠ [] ∧ parent.bytes.length ≤ p.bytes.length ∧ d.base parent = d.base p ∧
        below parent.parts = front ∧ (front ≠ [] → endsInName (steps parent) = true)) := by
  have hdots : n ≠ dotDot := by
    rintro rfl
    exact hp (hnames ▸ List.mem_append_right _ List.mem_cons_self)
  have hmeaning : meaningful p.parts = ups p.parts ++ front ++ [n] := by
    rw [List.append_assoc, ← hnames]
    exact List.takeWhile_append_dropWhile.symm
  obtain ⟨before, rest, hparts, hbefore, hrest⟩ := List.filter_eq_append_iff.1 hmeaning
  obtain ⟨middle, trail, rfl, hmiddle, hn, htrail⟩ := List.filter_eq_cons_iff.1 hrest
  have hnone {q : Bytes} (hq : ¬(Path.component? q).isSome = true) : Path.component? q = none := by
    simpa using hq
  have hname : Path.component? n = some (.name n) := by
    rw [Path.component?] at hn ⊢
    split at hn
    · cases hn
    · rename_i hpart
      rw [if_neg hpart, if_neg hdots]
  rw [← List.append_assoc] at hparts
  obtain ⟨-, parent, hparent, hcases⟩ := Path.parent?_of_parts hparts hname
    fun q hq => hnone (List.filter_eq_nil_iff.1 htrail q hq)
  refine ⟨parent, hparent, ?_⟩
  have hfront : meaningful (before ++ middle) = ups p.parts ++ front := by
    rw [Path.meaningful_append_of_none _ fun q hq => hnone (hmiddle q hq)]
    exact hbefore
  rcases hcases with ⟨hnil, hempty⟩ | ⟨hsame, hnonempty, habsolute, hlast⟩
  · rw [hnil] at hfront
    exact .inl ⟨(List.append_eq_nil_iff.1 hfront.symm).2, hempty⟩
  · have hdots' : dotDot ∉ front := fun hmem => hp (hnames ▸ List.mem_append_left _ hmem)
    obtain ⟨hups, hbelow⟩ := ups_below_of_meaningful (hsame.trans hfront) hdots'
    refine .inr ⟨hnonempty, length_parent? hparent, ?_, hbelow, fun hne => ?_⟩
    · rw [base, base, start, start, climb, climb, hups, habsolute]
    · obtain ⟨front', part, hparts', hpart⟩ :=
        hlast (hfront ▸ List.append_ne_nil_of_right_ne_nil _ hne)
      exact endsInName_steps hparts' hpart

/-- What `makeDirectory` comes to, given what is found under the names of its path. -/
theorem makeDirectory_eq (hp : p.Forward) (hlink : d.LinkFree (Location.ofPath d.cwd p))
    (hne : p.bytes ≠ []) (hshort : p.bytes.length < pathLimit) :
    d.makeDirectory p = match d.seek (endsInName (steps p)) (d.base p) (below p.parts) with
      | .error error => .error error
      | .ok (.found ..) => .error .fileExists
      | .ok (.free l) => .ok (d.put l .directory) := by
  have hresolve : d.resolveSteps false p (steps p) =
      d.seek (endsInName (steps p)) (d.base p) (below p.parts) := by
    rw [resolveSteps_eq_seek hp hlink (nil_not_mem_steps p) (meaningful_steps p),
      if_neg (by simpa using hne), if_neg (by omega)]
  cases hseek : d.seek (endsInName (steps p)) (d.base p) (below p.parts) with
  | error error => simp [makeDirectory, hresolve, hseek]
  | ok place => cases place <;> simp [makeDirectory, hresolve, hseek]

theorem isDirectory_eq (hp : p.Forward) (hlink : d.LinkFree (Location.ofPath d.cwd p))
    (hne : p.bytes ≠ []) (hshort : p.bytes.length < pathLimit) : d.isDirectory p = true ↔ ∃ l,
      d.seek (endsInName (steps p)) (d.base p) (below p.parts) = .ok (.found l .directory) := by
  have hresolve : d.resolve p =
      d.seek (endsInName (strictSteps p)) (d.base p) (below p.parts) := by
    rw [resolve, resolveSteps_eq_seek hp hlink (nil_not_mem_strictSteps p)
      (meaningful_strictSteps p), if_neg (by simpa using hne), if_neg (by omega)]
  have hstrict : d.isDirectory p = true ↔ ∃ l, d.resolve p = .ok (.found l .directory) := by
    rw [isDirectory, Disk.follow]
    rcases d.resolve p with error | ⟨l, - | - | -⟩ | l <;> simp
  rw [hstrict, hresolve]
  exact exists_congr fun l => ⟨fun h => seek_directory h _, fun h => seek_directory h _⟩

theorem makeDirectories_of_error {error : SystemError} (fuel : Nat) (hne : p.bytes ≠ [])
    (h : d.makeDirectory p = .error error) (herror : error ≠ .noEntry) :
    d.makeDirectories p (fuel + 1) =
      if d.isDirectory p then (d, .ok ()) else (d, .error error) := by
  rw [makeDirectories, if_neg (by simpa using hne), h]
  cases error with
  | noEntry => exact absurd rfl herror
  | _ => rfl

/-- No directory is made at a path that is too long. -/
theorem createDirectories_of_long (hne : p.bytes ≠ []) (hlong : pathLimit ≤ p.bytes.length) :
    d.createDirectories p = (d, .error .nameTooLong) := by
  have hresolve (follow : Bool) (parts : List Bytes) :
      d.resolveSteps follow p parts = .error .nameTooLong := by
    rw [resolveSteps, if_neg (by simpa using hne), if_pos hlong]
  have hmake : d.makeDirectory p = .error .nameTooLong := by rw [makeDirectory, hresolve]
  have hnot : ¬d.isDirectory p = true := by simp [isDirectory, Disk.follow, resolve, hresolve]
  rw [createDirectories, makeDirectories_of_error _ hne hmake (by simp), if_neg hnot]

/-- What is done at the path itself, once nothing is missing above it. -/
theorem make_eq_raise (hp : p.Forward) (hlink : d.LinkFree (Location.ofPath d.cwd p))
    (hne : p.bytes ≠ []) (hshort : p.bytes.length < pathLimit)
    (hlast : d.seek (endsInName (steps p)) (d.base p) (below p.parts) = .error .noEntry →
      d.raise (endsInName (steps p)) (d.base p) (below p.parts) = (d, .error .noEntry)) :
    (match d.makeDirectory p with
      | .ok d => (d, .ok ())
      | .error error => if d.isDirectory p then (d, .ok ()) else (d, .error error)) =
      d.raise (endsInName (steps p)) (d.base p) (below p.parts) := by
  have hmake := makeDirectory_eq hp hlink hne hshort
  have hthere := isDirectory_eq hp hlink hne hshort
  rcases hplace : d.seek (endsInName (steps p)) (d.base p) (below p.parts) with
    error | ⟨l, e⟩ | l
  · rw [hplace] at hmake hthere
    have hnot : ¬d.isDirectory p = true := by simp [hthere]
    by_cases herror : error = .noEntry
    · rw [hmake, herror, hlast (herror ▸ hplace)]
      exact if_neg hnot
    · rw [hmake, raise_of_seek (by simpa [hplace] using herror), hplace]
      exact if_neg hnot
  · rw [hplace] at hmake hthere
    rw [hmake, raise_of_seek (by simp [hplace]), hplace]
    cases e <;> simp [hthere]
  · rw [hplace] at hmake
    rw [hmake, raise_of_seek (by simp [hplace]), hplace]

/-- When what was missing above a path has been made, the path itself is next. -/
theorem make_eq_raise_of_raise {d' : Disk} {front : List Bytes} (hp : p.Forward)
    (hlink : d.LinkFree (Location.ofPath d.cwd p)) (hne : p.bytes ≠ [])
    (hshort : p.bytes.length < pathLimit) (hnames : below p.parts = front ++ [n])
    (hraise : d.raise true (d.base p) front = (d', .ok ())) :
    (match d'.makeDirectory p with
      | .ok d => (d, .ok ())
      | .error error => if d'.isDirectory p then (d', .ok ()) else (d', .error error)) =
      d'.raise (endsInName (steps p)) (d.base p) (front ++ [n]) := by
  have hcwd : d'.cwd = d.cwd := by
    rw [← cwd_raise d true (d.base p) front, hraise]
  have hbase : d'.base p = d.base p := by rw [base, base, start, start, hcwd]
  have hlink' : d'.LinkFree (Location.ofPath d'.cwd p) := by
    have hkept := hlink.raise true (d.base p) front
    rw [hraise] at hkept
    rw [hcwd]
    exact hkept
  rw [← hbase, ← hnames]
  refine make_eq_raise hp hlink' hne hshort fun hmissing => ?_
  -- nothing is missing above any more, so it is the last name that cannot be made
  rw [hnames, hbase] at hmissing ⊢
  have hfound := seek_of_raise hraise true
  obtain ⟨hseek', hraise'⟩ := seek_raise_append hfound (endsInName (steps p)) [n]
  rw [hraise']
  exact raise_of_noEntry (hseek' ▸ hmissing)

/-- Making a directory with its parents makes those that are missing, one below the other. -/
theorem makeDirectories_eq_raise (htree : d.IsTree) {fuel : Nat} (hp : p.Forward)
    (hlink : d.LinkFree (Location.ofPath d.cwd p)) (hne : p.bytes ≠ [])
    (hshort : p.bytes.length < pathLimit) (hfuel : (below p.parts).length < fuel) :
    d.makeDirectories p fuel = d.raise (endsInName (steps p)) (d.base p) (below p.parts) := by
  induction fuel generalizing p with
  | zero => exact absurd hfuel (Nat.not_lt_zero _)
  | succ fuel ih =>
    have hmake := makeDirectory_eq hp hlink hne hshort
    by_cases hseek : d.seek (endsInName (steps p)) (d.base p) (below p.parts) = .error .noEntry
    · -- something is missing above, and is made first
      obtain ⟨front, n, hnames⟩ : ∃ front n, below p.parts = front ++ [n] := by
        rcases List.eq_nil_or_concat (below p.parts) with hnil | ⟨front, n, hnames⟩
        · rw [hnil] at hseek
          cases hseek
        · exact ⟨front, n, by simpa using hnames⟩
      obtain ⟨parent, hparent, hcases⟩ := exists_parent (d := d) hp hnames
      have habove : d.makeDirectories parent fuel = d.raise true (d.base p) front := by
        rw [hnames, List.length_append, List.length_singleton] at hfuel
        rcases hcases with ⟨rfl, hempty⟩ | ⟨hne', hlength, hbase, hbelow, hends⟩
        · obtain ⟨fuel, rfl⟩ : ∃ k, fuel = k + 1 := ⟨fuel - 1, by omega⟩
          rw [makeDirectories, if_pos (by simpa using hempty), raise]
        · have hp' : parent.Forward := by
            rw [Path.Forward, hbelow]
            exact fun hmem => hp (hnames ▸ List.mem_append_left _ hmem)
          have hwithin : Location.ofPath d.cwd parent <+: Location.ofPath d.cwd p := by
            rw [← base_append hp, ← base_append hp', hbase, hbelow, hnames, ← List.append_assoc]
            exact List.prefix_append _ _
          rw [ih hp' (fun m hm => hlink m (hm.trans hwithin)) hne' (by omega) (hbelow ▸ by omega),
            hbelow, hbase]
          by_cases hnil : front = []
          · rw [hnil, raise, raise]
          · rw [hends hnil]
      have hfree := free_of_noEntry htree hseek
      rw [hseek] at hmake
      rw [makeDirectories, if_neg (by simpa using hne), hmake]
      dsimp only
      rw [hparent]
      dsimp only
      rw [habove, hnames, raise_concat fun ns hns => hfree ns (hnames ▸ hns.trans (by simp))]
      rcases hraise : d.raise true (d.base p) front with ⟨d', error | u⟩
      · rfl
      · exact make_eq_raise_of_raise hp hlink hne hshort hnames hraise
    · refine (Eq.trans ?_ (make_eq_raise hp hlink hne hshort fun heq => absurd heq hseek))
      rw [makeDirectories, if_neg (by simpa using hne), hmake]
      rcases hplace : d.seek (endsInName (steps p)) (d.base p) (below p.parts) with
        error | ⟨l, e⟩ | l
      · cases error with
        | noEntry => exact absurd hplace hseek
        | _ => rfl
      · rfl
      · rfl

/-- Making a directory with its parents, for a path of a proper length. -/
theorem createDirectories_eq_raise (htree : d.IsTree) (hp : p.Forward)
    (hlink : d.LinkFree (Location.ofPath d.cwd p)) (hne : p.bytes ≠ [])
    (hshort : p.bytes.length < pathLimit) :
    d.createDirectories p = d.raise (endsInName (steps p)) (d.base p) (below p.parts) := by
  exact makeDirectories_eq_raise htree hp hlink hne hshort (Nat.lt_succ_of_le (length_below_le p))

end Disk

end CacheAudit
