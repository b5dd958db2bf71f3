import CacheAudit.Disk.Access
import CacheAudit.Proofs.Disk.Lookup

/-!
# Names below a root

A path that goes on from a root by names has the components of the root and then these names. So the
names of a place below a root are read off its path again, however the root is spelled.
-/

namespace CacheAudit

namespace Path

variable {p root : Path} {first n : Bytes} {rest names : List Bytes}

theorem map_fst_located (start : Nat) (parts : List Bytes) :
    (located start parts).map Prod.fst = parts.filterMap component? := by
  induction parts generalizing start with
  | nil => rfl
  | cons part rest ih =>
    rw [located, List.filterMap_cons]
    cases component? part <;> simp [ih]

theorem eq_nil_of_parts {bytes : Bytes} (h : parts ⟨bytes⟩ = [[]]) : bytes = [] := by
  cases bytes with
  | nil => rfl
  | cons b bytes =>
    by_cases hb : b = slash
    · rw [hb, parts_cons_slash, List.cons.injEq] at h
      exact absurd h.2 (parts_ne_nil ⟨bytes⟩)
    · obtain ⟨part, rest, hparts⟩ := List.exists_cons_of_ne_nil (parts_ne_nil ⟨bytes⟩)
      rw [parts_cons hb hparts, List.cons.injEq] at h
      exact absurd h.1 (List.cons_ne_nil b part)

theorem component?_of_proper (h : ProperName n) : component? n = some (.name n) := by
  rw [component?, if_neg (not_or_intro h.nonempty h.notDot), if_neg h.notDotDot]

/-- The components that the first part of a path stands for, if it is not the only one. -/
def opening (first : Bytes) : List Component :=
  if first = [] then [.root]
  else if first = dot then [.current]
  else (component? first).toList

/-- The first part of a path may stand for the root or for the current directory; the others have
the meaning of parts. -/
theorem components_of_parts (h : p.parts = first :: rest) (hsome : first ≠ [] ∨ rest ≠ []) :
    p.components = opening first ++ rest.filterMap component? := by
  rw [components, locatedComponents, h]
  dsimp only
  by_cases hfirst : first = []
  · have hrest : rest ≠ [] := hsome.resolve_left (not_not_intro hfirst)
    rw [if_pos hfirst, if_neg (by simpa using hrest), opening, if_pos hfirst, List.map_cons,
      map_fst_located]
    rfl
  by_cases hdot : first = dot
  · rw [if_neg hfirst, if_pos hdot, opening, if_neg hfirst, if_pos hdot, List.map_cons,
      map_fst_located]
    rfl
  · rw [if_neg hfirst, if_neg hdot, opening, if_neg hfirst, if_neg hdot, map_fst_located,
      List.filterMap_cons]
    cases component? first <;> rfl

theorem filterMap_component?_concat (parts : List Bytes) (h : ProperName n) :
    (parts ++ [n]).filterMap component? = parts.filterMap component? ++ [.name n] := by
  rw [List.filterMap_append, List.filterMap_cons_some (component?_of_proper h), List.filterMap_nil]

/-- A path joined with a name has one component more. -/
theorem components_join (p : Path) (h : ProperName n) :
    (p.join ⟨n⟩).components = p.components ++ [.name n] := by
  obtain ⟨bytes⟩ := p
  rw [join, isAbsolute_of_noSlash h.noSlash, if_neg Bool.false_ne_true]
  by_cases hnil : bytes = []
  · subst hnil
    rw [if_pos (.inl rfl), List.nil_append,
      components_of_parts (parts_of_noSlash h.noSlash) (.inl h.nonempty), opening,
      if_neg h.nonempty, if_neg h.notDot, component?_of_proper h]
    rfl
  by_cases hslash : bytes.getLast? = some slash
  · -- the name takes the place of the empty part behind the slash
    obtain ⟨before, rfl⟩ := List.getLast?_eq_some_iff.1 hslash
    obtain ⟨first, rest, hparts⟩ := List.exists_cons_of_ne_nil (parts_ne_nil ⟨before⟩)
    have hroot : parts ⟨before ++ [slash]⟩ = first :: (rest ++ [[]]) := by
      rw [parts_append_slash, hparts]
      rfl
    have hjoined : parts ⟨before ++ [slash] ++ n⟩ = first :: (rest ++ [n]) := by
      rw [List.append_assoc, List.singleton_append, parts_append_slash, hparts,
        parts_of_noSlash h.noSlash]
      rfl
    have hempty : (rest ++ [[]]).filterMap component? = rest.filterMap component? := by
      rw [List.filterMap_append, List.filterMap_cons_none (by rfl), List.filterMap_nil,
        List.append_nil]
    rw [if_pos (.inr hslash), components_of_parts hjoined (.inr (by simp)),
      components_of_parts hroot (.inr (by simp)), filterMap_component?_concat rest h, hempty,
      List.append_assoc]
  · obtain ⟨first, rest, hparts⟩ := List.exists_cons_of_ne_nil (parts_ne_nil ⟨bytes⟩)
    have hjoined : parts ⟨bytes ++ slash :: n⟩ = first :: (rest ++ [n]) := by
      rw [parts_append_slash, hparts, parts_of_noSlash h.noSlash]
      rfl
    have hsome : first ≠ [] ∨ rest ≠ [] := by
      by_contra hnone
      rw [not_or, not_not, not_not] at hnone
      obtain ⟨rfl, rfl⟩ := hnone
      exact hnil (eq_nil_of_parts hparts)
    rw [if_neg (not_or_intro (by simpa using hnil) hslash),
      components_of_parts hjoined (.inr (by simp)), components_of_parts hparts hsome,
      filterMap_component?_concat rest h, List.append_assoc]

theorem components_descend (root : Path) (h : ∀ n ∈ names, ProperName n) :
    (root.descend names).components = root.components ++ names.map Component.name := by
  induction names generalizing root with
  | nil => simp [descend]
  | cons n names ih =>
    have hrest := ih (root.join ⟨n⟩) fun m hm => h m (List.mem_cons_of_mem _ hm)
    rw [components_join root (h n List.mem_cons_self), List.append_assoc] at hrest
    exact hrest

/-- The names by which a path goes on from a root are read off it again. -/
theorem namesBelow_descend (root : Path) (h : ∀ n ∈ names, ProperName n) :
    (root.descend names).namesBelow root = names := by
  have hbegins : (root.descend names).startsWith root = true := by
    rw [startsWith, components_descend root h, List.isPrefixOf_iff_prefix]
    exact List.prefix_append _ _
  rw [namesBelow, if_pos hbegins, components_descend root h, List.drop_left, List.map_map]
  exact List.map_id names

theorem descend_injective (root : Path) {names' : List Bytes} (h : ∀ n ∈ names, ProperName n)
    (h' : ∀ n ∈ names', ProperName n) (heq : root.descend names = root.descend names') :
    names = names' := by
  rw [← namesBelow_descend root h, heq, namesBelow_descend root h']

theorem namesBelow_self (root : Path) : root.namesBelow root = [] :=
  namesBelow_descend root (List.forall_mem_nil _)

end Path

end CacheAudit
