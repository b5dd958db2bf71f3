/-!
# Ordered sets of strings

A set of strings is its strictly ascending list, so each set has one form and equal sets are
equal. The order is that of the strings' code points, which is the order of their UTF-8 bytes.
-/

namespace CacheAudit

/-- Of two different strings one comes first. -/
theorem lt_of_not_lt_of_ne {a b : String} (h : ¬a < b) (hne : a ≠ b) : b < a := by
  apply Classical.byContradiction
  intro hba
  exact hne (String.le_antisymm hba h)

/-- A finite set of strings. -/
structure StringSet where
  toList : List String
  ascending : toList.Pairwise (· < ·)
deriving DecidableEq

namespace StringSet

/-- The set without members. -/
def empty : StringSet := ⟨[], .nil⟩

instance : EmptyCollection StringSet := ⟨empty⟩
instance : Inhabited StringSet := ⟨empty⟩

instance : Membership String StringSet where
  mem s x := x ∈ s.toList

instance (x : String) (s : StringSet) : Decidable (x ∈ s) :=
  inferInstanceAs (Decidable (x ∈ s.toList))

/-- A string put into its place in an ascending list. -/
def place (x : String) : List String → List String
  | [] => [x]
  | y :: rest =>
    if x = y then y :: rest
    else if x < y then x :: y :: rest
    else y :: place x rest

theorem mem_place {x z : String} {xs : List String} : z ∈ place x xs ↔ z = x ∨ z ∈ xs := by
  induction xs with
  | nil => simp [place]
  | cons y rest ih =>
    unfold place
    split
    · rename_i h
      subst h
      simp
    · split
      · simp
      · simp only [List.mem_cons, ih]
        grind

theorem pairwise_place {x : String} {xs : List String} (h : xs.Pairwise (· < ·)) :
    (place x xs).Pairwise (· < ·) := by
  induction xs with
  | nil => simp [place]
  | cons y rest ih =>
    obtain ⟨hy, hrest⟩ := List.pairwise_cons.1 h
    unfold place
    split
    · exact h
    · rename_i hne
      split
      · rename_i hlt
        refine List.pairwise_cons.2 ⟨?_, h⟩
        intro z hz
        rcases List.mem_cons.1 hz with rfl | hz
        · exact hlt
        · exact String.lt_trans hlt (hy z hz)
      · rename_i hnlt
        refine List.pairwise_cons.2 ⟨?_, ih hrest⟩
        intro z hz
        rcases mem_place.1 hz with rfl | hz
        · exact lt_of_not_lt_of_ne hnlt hne
        · exact hy z hz

/-- The set with one more member. -/
def insert (s : StringSet) (x : String) : StringSet :=
  ⟨place x s.toList, pairwise_place s.ascending⟩

/-- The set with just one member. -/
def singleton (x : String) : StringSet :=
  ⟨[x], by simp⟩

/-- The set of the strings of a list. -/
def ofList (xs : List String) : StringSet :=
  xs.foldl insert empty

/-- Whether a string is a member. -/
def contains (s : StringSet) (x : String) : Bool :=
  s.toList.contains x

/-- The number of members. -/
def size (s : StringSet) : Nat :=
  s.toList.length

/-- Whether the set has no member. -/
def isEmpty (s : StringSet) : Bool :=
  s.toList.isEmpty

/-- The members that satisfy a test. -/
def filter (s : StringSet) (p : String → Bool) : StringSet :=
  ⟨s.toList.filter p, s.ascending.filter p⟩

/-- The members of `s` that are not in `t`. -/
def difference (s t : StringSet) : StringSet :=
  s.filter fun x => !t.contains x

/-- The members of `s` and of `t`. -/
def union (s t : StringSet) : StringSet :=
  t.toList.foldl insert s

@[simp] theorem mem_toList {s : StringSet} {x : String} : x ∈ s.toList ↔ x ∈ s :=
  Iff.rfl

@[simp] theorem contains_iff {s : StringSet} {x : String} : s.contains x = true ↔ x ∈ s := by
  simp [contains]

@[simp] theorem mem_insert {s : StringSet} {x z : String} : z ∈ s.insert x ↔ z = x ∨ z ∈ s :=
  mem_place

/-- Sets with the same members are equal. -/
theorem ext {s t : StringSet} (h : ∀ x, x ∈ s ↔ x ∈ t) : s = t := by
  obtain ⟨xs, hxs⟩ := s
  obtain ⟨ys, hys⟩ := t
  have hnodup {zs : List String} (hzs : zs.Pairwise (· < ·)) : zs.Nodup :=
    hzs.imp fun hlt => String.ne_of_lt hlt
  have hperm : xs.Perm ys := (List.perm_ext_iff_of_nodup (hnodup hxs) (hnodup hys)).2 h
  have hlists : xs = ys := hperm.eq_of_pairwise
    (fun a b _ _ hab hba => absurd (String.lt_trans hab hba) (String.lt_irrefl a)) hxs hys
  subst hlists
  rfl

theorem mem_foldl_insert {xs : List String} {s : StringSet} {x : String} :
    x ∈ xs.foldl insert s ↔ x ∈ xs ∨ x ∈ s := by
  induction xs generalizing s with
  | nil => simp
  | cons y rest ih =>
    rw [List.foldl_cons, ih, mem_insert, List.mem_cons]
    grind

@[simp] theorem mem_ofList {xs : List String} {x : String} : x ∈ ofList xs ↔ x ∈ xs := by
  rw [ofList, mem_foldl_insert]
  exact or_iff_left List.not_mem_nil

@[simp] theorem mem_difference {s t : StringSet} {x : String} :
    x ∈ s.difference t ↔ x ∈ s ∧ x ∉ t := by
  show x ∈ s.toList.filter _ ↔ _
  rw [List.mem_filter]
  simp [Bool.eq_false_iff]

@[simp] theorem mem_union {s t : StringSet} {x : String} : x ∈ s.union t ↔ x ∈ s ∨ x ∈ t := by
  rw [union, mem_foldl_insert, mem_toList, or_comm]

end StringSet

end CacheAudit
