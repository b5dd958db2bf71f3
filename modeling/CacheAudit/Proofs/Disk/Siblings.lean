import CacheAudit.Proofs.Disk.Directories

/-!
# Paths side by side

A path with another last name leads to the same directory and there to that name. The two paths may
be spelled differently before their last names, since empty parts and dots at the end of the way
are left out; these mean nothing to a lookup.
-/

namespace CacheAudit

namespace Path

/-! ### The spelling of parts -/

/-- Parts, each with a slash after it. -/
def spelled (parts : List Bytes) : Bytes :=
  parts.flatMap fun part => part ++ [slash]

theorem spelled_cons (part : Bytes) (rest : List Bytes) :
    spelled (part :: rest) = part ++ slash :: spelled rest := by
  simp [spelled]

theorem spelled_append (xs ys : List Bytes) : spelled (xs ++ ys) = spelled xs ++ spelled ys :=
  List.flatMap_append

/-- A path is spelled by its parts, none of which has a slash in it. -/
theorem exists_spelling (bytes : Bytes) : ∃ front last, parts ⟨bytes⟩ = front ++ [last] ∧
    bytes = spelled front ++ last ∧ ∀ part ∈ front ++ [last], slash ∉ part := by
  induction bytes with
  | nil => exact ⟨[], [], rfl, rfl, by simp⟩
  | cons b rest ih =>
    obtain ⟨front, last, hparts, hbytes, hslash⟩ := ih
    by_cases hb : b = slash
    · refine ⟨[] :: front, last, ?_, ?_, ?_⟩
      · rw [hb, parts_cons_slash, hparts, List.cons_append]
      · rw [hb, hbytes, spelled_cons, List.nil_append, List.cons_append]
      · simpa using hslash
    · cases front with
      | nil =>
        refine ⟨[], b :: last, parts_cons hb hparts, ?_, ?_⟩
        · rw [hbytes]
          rfl
        · simpa [Ne.symm hb] using hslash
      | cons part front =>
        refine ⟨(b :: part) :: front, last, parts_cons hb hparts, ?_, ?_⟩
        · rw [hbytes, spelled_cons, spelled_cons, List.cons_append, List.cons_append]
        · simpa [Ne.symm hb] using hslash

theorem parts_spelled {front : List Bytes} {last : Bytes}
    (h : ∀ part ∈ front ++ [last], slash ∉ part) :
    parts ⟨spelled front ++ last⟩ = front ++ [last] := by
  induction front with
  | nil => exact parts_of_noSlash (h last (by simp))
  | cons part front ih =>
    have hfront := ih fun q hq => h q (List.mem_cons_of_mem part hq)
    rw [spelled_cons, List.append_assoc, List.cons_append, parts_append_slash,
      parts_of_noSlash (h part List.mem_cons_self), hfront]
    rfl

theorem slash_not_mem_parts {p : Path} {part : Bytes} (h : part ∈ p.parts) : slash ∉ part := by
  obtain ⟨front, last, hparts, -, hslash⟩ := exists_spelling p.bytes
  exact hslash part (hparts ▸ h)

/-! ### Components and where they end -/

theorem located_append (start : Nat) (xs ys : List Bytes) :
    located start (xs ++ ys) = located start xs ++ located (start + (spelled xs).length) ys := by
  induction xs generalizing start with
  | nil => rfl
  | cons part rest ih =>
    have hstart : start + part.length + 1 + (spelled rest).length =
        start + (spelled (part :: rest)).length := by
      rw [spelled_cons]
      simp only [List.length_append, List.length_cons]
      omega
    rw [List.cons_append, located, located]
    split <;> simp [ih, hstart]

/-- The last component among parts ends where its part does, and only parts without a meaning come
after it. -/
theorem located_cases (start : Nat) (parts : List Bytes) :
    (located start parts = [] ∧ ∀ q ∈ parts, component? q = none) ∨
      ∃ before c front part after, parts = front ++ part :: after ∧
        located start parts = before ++ [(c, start + (spelled front).length + part.length)] ∧
        (∀ q ∈ after, component? q = none) ∧ component? part = some c := by
  induction parts using List.reverseRecOn with
  | nil => exact .inl ⟨rfl, by simp⟩
  | append_singleton parts q ih =>
    rw [located_append]
    cases hq : component? q with
    | some c =>
      refine .inr ⟨located start parts, c, parts, q, [], rfl, ?_, by simp, hq⟩
      simp [located, hq]
    | none =>
      have hlast : located (start + (spelled parts).length) [q] = [] := by simp [located, hq]
      rw [hlast, List.append_nil]
      rcases ih with
        ⟨hnil, hnone⟩ | ⟨before, c, front, part, after, hparts, hlocated, hnone, hpart⟩
      · refine .inl ⟨hnil, ?_⟩
        simpa [or_imp, forall_and, hq] using hnone
      · refine .inr ⟨before, c, front, part, after ++ [q], ?_, hlocated, ?_, hpart⟩
        · rw [hparts, List.append_assoc, List.cons_append]
        · simpa [or_imp, forall_and, hq] using hnone

/-- The parts that mean something. -/
def meaningful (parts : List Bytes) : List Bytes :=
  parts.filter fun part => (component? part).isSome

theorem meaningful_eq_nil {parts : List Bytes} (h : ∀ q ∈ parts, component? q = none) :
    meaningful parts = [] := by
  rw [meaningful, List.filter_eq_nil_iff]
  intro q hq
  simp [h q hq]

theorem meaningful_append_of_none (xs : List Bytes) {ys : List Bytes}
    (h : ∀ q ∈ ys, component? q = none) : meaningful (xs ++ ys) = meaningful xs := by
  have hys : meaningful ys = [] := meaningful_eq_nil h
  rw [meaningful, List.filter_append, ← meaningful, ← meaningful, hys, List.append_nil]

/-! ### Parents -/

/-- The first component of a path ends where its first part does, a root after its slash. -/
theorem exists_locatedComponents {p : Path} {first : Bytes} {rest : List Bytes}
    (hparts : p.parts = first :: rest) (hrest : rest ≠ []) :
    ∃ c, p.locatedComponents = (c, max 1 first.length) :: located (first.length + 1) rest := by
  have hlength (hfirst : first ≠ []) : max 1 first.length = first.length :=
    Nat.max_eq_right (List.length_pos_iff.2 hfirst)
  unfold locatedComponents
  rw [hparts]
  dsimp only
  split
  · rename_i hfirst
    refine ⟨.root, ?_⟩
    simp [hfirst, hrest]
  split
  · rename_i hfirst hdot
    refine ⟨.current, ?_⟩
    simp [hdot, dot]
  · rename_i hfirst hdot
    have hcomponent : ∃ c, component? first = some c := by
      rw [component?, if_neg (by simp [hfirst, hdot])]
      split <;> exact ⟨_, rfl⟩
    obtain ⟨c, hc⟩ := hcomponent
    refine ⟨c, ?_⟩
    rw [located, hc, hlength hfirst, Nat.zero_add]

theorem parent?_of_locatedComponents {p : Path} {before : List (Component × Nat)} {c : Component}
    {n : Bytes} {stop stop' : Nat}
    (h : p.locatedComponents = before ++ [(c, stop), (.name n, stop')]) :
    p.fileName? = some n ∧ p.parent? = some ⟨p.bytes.take stop⟩ := by
  constructor
  · simp [fileName?, components, h]
  · simp [parent?, h]

/-- The parent of a path ends with the part at whose end it is cut off. -/
theorem parent?_of_prefix {p : Path} {before : List (Component × Nat)} {c : Component} {n : Bytes}
    {stop stop' : Nat} (h : p.locatedComponents = before ++ [(c, stop), (.name n, stop')])
    (front : List Bytes) (part tail : Bytes) (hbytes : p.bytes = spelled front ++ part ++ tail)
    (hstop : stop = (spelled front ++ part).length) (hpos : 0 < stop)
    (hslash : ∀ q ∈ front ++ [part], slash ∉ q) :
    p.fileName? = some n ∧ ∃ parent, p.parent? = some parent ∧ parent.parts = front ++ [part] ∧
      parent.bytes ≠ [] ∧ parent.isAbsolute = p.isAbsolute := by
  obtain ⟨hname, hparent⟩ := parent?_of_locatedComponents h
  have htake : p.bytes.take stop = spelled front ++ part := by
    rw [hbytes, hstop, List.take_left']
    rfl
  refine ⟨hname, _, hparent, ?_, ?_, ?_⟩
  · rw [htake, parts_spelled hslash]
  · show p.bytes.take stop ≠ []
    rw [htake]
    exact List.length_pos_iff.1 (hstop ▸ hpos)
  · rw [isAbsolute, isAbsolute, List.head?_take, if_neg (by omega)]

theorem located_of_none (start : Nat) {parts : List Bytes} (h : ∀ q ∈ parts, component? q = none) :
    located start parts = [] := by
  induction parts generalizing start with
  | nil => rfl
  | cons part rest ih =>
    rw [located, h part List.mem_cons_self]
    exact ih _ fun q hq => h q (List.mem_cons_of_mem _ hq)

/-- The first parts of a path are spelled at its beginning. -/
theorem exists_tail {p : Path} {front rest : List Bytes} (h : p.parts = front ++ rest)
    (hrest : rest ≠ []) : ∃ tail, p.bytes = spelled front ++ tail := by
  obtain ⟨front', last, hparts, hbytes, -⟩ := exists_spelling p.bytes
  rw [← List.dropLast_append_getLast hrest, ← List.append_assoc] at h
  obtain ⟨rfl, -⟩ := List.append_inj' (hparts.symm.trans h) rfl
  exact ⟨spelled rest.dropLast ++ last, by rw [hbytes, spelled_append, List.append_assoc]⟩

section Trail

variable {p : Path} {n : Bytes} {trail : List Bytes}

/-- The component before the last name of a path ends with a part of the path or with the root's
slash, and no part that means something is left out between them. -/
theorem exists_locatedComponents_concat {all : List Bytes} (hparts : p.parts = all ++ n :: trail)
    (hall : all ≠ []) (hn : component? n = some (.name n))
    (htrail : ∀ q ∈ trail, component? q = none) :
    ∃ before c stop stop' front part tail,
      p.locatedComponents = before ++ [(c, stop), (.name n, stop')] ∧
      p.bytes = spelled front ++ part ++ tail ∧ stop = (spelled front ++ part).length ∧ 0 < stop ∧
      (∀ q ∈ front ++ [part], slash ∉ q) ∧ meaningful (front ++ [part]) = meaningful all ∧
      (meaningful all ≠ [] → (component? part).isSome) := by
  have hslash (part : Bytes) (h : part ∈ all) : slash ∉ part :=
    slash_not_mem_parts (hparts ▸ List.mem_append_left _ h)
  obtain ⟨end', hbytes⟩ := exists_tail hparts (by simp)
  obtain ⟨first, rest, rfl⟩ := List.exists_cons_of_ne_nil hall
  have hcons : p.parts = first :: (rest ++ n :: trail) := hparts
  obtain ⟨c, hlocated⟩ := exists_locatedComponents hcons (by simp)
  rw [located_append] at hlocated
  simp only [located, hn, located_of_none _ htrail] at hlocated
  rcases located_cases (first.length + 1) rest with
    ⟨hnil, hnone⟩ | ⟨before, c', front, part, after, rfl, hbefore, hnone, hpart⟩
  · rw [hnil, ← List.nil_append (List.cons _ _)] at hlocated
    by_cases hfirst : first = []
    · -- the component is the root
      subst hfirst
      have hnothing : meaningful ([] :: rest) = [] :=
        meaningful_eq_nil (by simpa [component?] using hnone)
      refine ⟨_, _, _, _, [[]], [], spelled rest ++ end', hlocated, by simp [hbytes, spelled],
        by simp [spelled], by simp, by simp, ?_, fun h => absurd hnothing h⟩
      rw [hnothing, meaningful_eq_nil]
      simp [component?]
    · have hmax : max 1 first.length = first.length :=
        Nat.max_eq_right (List.length_pos_iff.2 hfirst)
      rw [hmax] at hlocated
      have hmeaning : meaningful (first :: rest) = meaningful [first] :=
        meaningful_append_of_none [first] hnone
      refine ⟨_, _, _, _, [], first, slash :: (spelled rest ++ end'), hlocated,
        by simp [hbytes, spelled], by simp [spelled], List.length_pos_iff.2 hfirst,
        by simpa using hslash first, hmeaning.symm, fun h => ?_⟩
      rw [hmeaning] at h
      simpa [meaningful, List.filter_eq_nil_iff, Option.isSome_iff_ne_none] using h
  · rw [hbefore, List.append_assoc, List.singleton_append, ← List.cons_append] at hlocated
    refine ⟨_, _, _, _, first :: front, part, slash :: (spelled after ++ end'), hlocated,
      by simp [hbytes, spelled], by simp [spelled_cons]; omega, by omega, ?_, ?_,
      fun _ => by rw [hpart]; rfl⟩
    · intro q hq
      refine hslash q ?_
      simp only [List.cons_append, List.mem_cons, List.mem_append, List.not_mem_nil] at hq ⊢
      tauto
    · rw [← meaningful_append_of_none (first :: front ++ [part]) hnone, List.append_assoc,
        List.singleton_append, List.cons_append]

/-- The parent of a path whose last component is a name is spelled by the parts before the name, up
to the last that means something. -/
theorem parent?_of_parts {front : List Bytes} (hparts : p.parts = front ++ n :: trail)
    (hn : component? n = some (.name n)) (htrail : ∀ q ∈ trail, component? q = none) :
    p.fileName? = some n ∧ ∃ parent, p.parent? = some parent ∧
      (front = [] ∧ parent.bytes = [] ∨ meaningful parent.parts = meaningful front ∧
        parent.bytes ≠ [] ∧ parent.isAbsolute = p.isAbsolute ∧
        (meaningful front ≠ [] → ∃ front' part, parent.parts = front' ++ [part] ∧
          (component? part).isSome)) := by
  by_cases hfront : front = []
  · subst hfront
    have hlocated : p.locatedComponents = [(.name n, n.length)] := by
      have hfirst : n ≠ [] ∧ n ≠ dot := by
        constructor <;> rintro rfl <;> simp [component?] at hn
      simp [locatedComponents, hparts, hfirst.1, hfirst.2, located, hn, located_of_none _ htrail]
    refine ⟨by simp [fileName?, components, hlocated], ⟨[]⟩, ?_, .inl ⟨rfl, rfl⟩⟩
    simp [parent?, hlocated]
  · obtain ⟨before, c, stop, stop', front', part, tail, hlocated, hspelled, hstop, hpos, hkept,
      hmeaning, hlast⟩ := exists_locatedComponents_concat hparts hfront hn htrail
    obtain ⟨hname, parent, hparent, hpartsParent, hnonempty, habsolute⟩ :=
      parent?_of_prefix hlocated front' part tail hspelled hstop hpos hkept
    refine ⟨hname, parent, hparent, .inr ⟨?_, hnonempty, habsolute, fun h => ?_⟩⟩
    · rw [hpartsParent, hmeaning]
    · exact ⟨front', part, hpartsParent, hlast h⟩

end Trail

/-! ### Another last name -/

theorem meaningful_filter (parts : List Bytes) :
    meaningful (parts.filter fun part => !part.isEmpty) = meaningful parts := by
  rw [meaningful, meaningful, List.filter_filter]
  refine List.filter_congr fun part _ => ?_
  by_cases hpart : part = []
  · simp [hpart, component?]
  · simp [hpart]

theorem isAbsolute_join {p : Path} (hp : p.bytes ≠ []) {n : Bytes} (hslash : slash ∉ n) :
    (p.join ⟨n⟩).isAbsolute = p.isAbsolute := by
  obtain ⟨b, rest, hbytes⟩ := List.exists_cons_of_ne_nil hp
  rw [join, isAbsolute_of_noSlash hslash, if_neg (by decide)]
  split <;> rw [isAbsolute, isAbsolute, hbytes] <;> rfl

theorem isAbsolute_of_parts {p : Path} {n : Bytes} (h : p.parts = [n]) :
    p.isAbsolute = false := by
  obtain ⟨bytes⟩ := p
  rw [isAbsolute, beq_eq_false_iff_ne]
  intro hhead
  obtain ⟨rest, rfl⟩ := List.head?_eq_some_iff.1 hhead
  rw [parts_cons_slash] at h
  exact parts_ne_nil ⟨rest⟩ (List.cons.inj h).2

/-- A path that ends in a name, without a slash after it, is spelled by parts and that name. -/
theorem parts_of_steps {p : Path} {front : List Bytes} {n : Bytes}
    (hsteps : Disk.steps p = front ++ [n]) (hend : Disk.endsInSlash p = false) :
    ∃ front', p.parts = front' ++ [n] ∧ front = front'.filter fun part => !part.isEmpty := by
  obtain ⟨front', last, hparts, hbytes, -⟩ := exists_spelling p.bytes
  have hlast : last ≠ [] := by
    rintro rfl
    rcases List.eq_nil_or_concat front' with rfl | ⟨before, part, rfl⟩
    · rw [Disk.steps, hparts] at hsteps
      simp at hsteps
    · rw [Disk.endsInSlash, hbytes, List.concat_eq_append, spelled_append] at hend
      simp [spelled] at hend
  rw [Disk.steps, hparts, List.filter_append] at hsteps
  have hkept : [last].filter (fun part => !part.isEmpty) = [last] := by simp [hlast]
  rw [hkept] at hsteps
  obtain ⟨hfront, hn⟩ := List.append_inj' hsteps rfl
  obtain rfl : last = n := by simpa using hn
  exact ⟨front', hparts, hfront.symm⟩

/-- A path with another last name goes the same way to another name. -/
theorem steps_withFileName {p : Path} {front : List Bytes} {n m : Bytes}
    (hsteps : Disk.steps p = front ++ [n]) (hend : Disk.endsInSlash p = false) (hdot : n ≠ dot)
    (hdots : n ≠ dotDot) (hm : m ≠ []) (hslash : slash ∉ m) :
    p.fileName? = some n ∧ (p.withFileName m).isAbsolute = p.isAbsolute ∧
      ∃ front', Disk.steps (p.withFileName m) = front' ++ [m] ∧
        meaningful front' = meaningful front := by
  obtain ⟨front', hparts, rfl⟩ := parts_of_steps hsteps hend
  have hne : n ≠ [] := by
    have hmem : n ∈ Disk.steps p := hsteps ▸ List.mem_append_right _ List.mem_cons_self
    simpa using (List.mem_filter.1 hmem).2
  have hn : component? n = some (.name n) := by
    rw [component?, if_neg (by simp [hne, hdot]), if_neg hdots]
  obtain ⟨hname, parent, hparent, hcases⟩ := parent?_of_parts hparts hn (by simp)
  have hjoined : p.withFileName m = parent.join ⟨m⟩ := by
    simp only [withFileName, hname, hparent]
  rw [hjoined]
  refine ⟨hname, ?_, Disk.steps parent, steps_join parent hm hslash, ?_⟩
  · rcases hcases with ⟨rfl, hempty⟩ | ⟨-, hnonempty, habsolute, -⟩
    · rw [isAbsolute_of_parts hparts, join, isAbsolute_of_noSlash hslash, if_neg (by decide),
        if_pos (by simp [hempty]), hempty]
      exact isAbsolute_of_noSlash hslash
    · rw [isAbsolute_join hnonempty hslash, habsolute]
  · rw [Disk.steps, meaningful_filter, meaningful_filter]
    rcases hcases with ⟨rfl, hempty⟩ | ⟨hmeaning, -⟩
    · rw [parts, hempty]
      rfl
    · exact hmeaning

end Path

namespace Disk

section Way

variable {d : Disk} {links links' : Nat} {l l' : Location} {part : Bytes} {parts : List Bytes}

theorem leads_dot_cons (h : part = Path.dot) : d.Leads links l (part :: parts) links' l' ↔
    d.Leads links l parts links' l' := by
  constructor
  · intro hleads
    cases hleads with
    | dot more => exact more
    | up => exact absurd h (by decide)
    | enter hdot => exact absurd h hdot
    | follow hdot => exact absurd h hdot
  · rintro hleads
    exact h ▸ .dot hleads

/-- Dots on a way mean nothing. -/
theorem leads_meaningful (hparts : [] ∉ parts) :
    d.Leads links l (Path.meaningful parts) links' l' ↔ d.Leads links l parts links' l' := by
  induction parts generalizing links l with
  | nil => rfl
  | cons part rest ih =>
    rw [List.mem_cons, not_or] at hparts
    by_cases hdot : part = Path.dot
    · have hskip : Path.meaningful (part :: rest) = Path.meaningful rest := by
        simp [Path.meaningful, Path.component?, hdot]
      rw [hskip, ih hparts.2, leads_dot_cons hdot]
    · have hkeep : Path.meaningful (part :: rest) = [part] ++ Path.meaningful rest := by
        have hsome : (Path.component? part).isSome = true := by
          rw [Path.component?, if_neg (by simp [hdot, Ne.symm hparts.1])]
          split <;> rfl
        simp [Path.meaningful, hsome]
      rw [hkeep, show part :: rest = [part] ++ rest from rfl]
      constructor
      · intro hleads
        obtain ⟨links₁, l₁, hfirst, hrest⟩ := hleads.exists_append
        exact hfirst.append ((ih hparts.2).1 hrest)
      · intro hleads
        obtain ⟨links₁, l₁, hfirst, hrest⟩ := hleads.exists_append
        exact hfirst.append ((ih hparts.2).2 hrest)

/-- Ways that mean the same lead to the same place. -/
theorem leads_congr {parts' : List Bytes} (hparts : [] ∉ parts) (hparts' : [] ∉ parts')
    (h : Path.meaningful parts = Path.meaningful parts') :
    d.Leads links l parts links' l' ↔ d.Leads links l parts' links' l' := by
  rw [← leads_meaningful hparts, h, leads_meaningful hparts']

end Way

end Disk

end CacheAudit
