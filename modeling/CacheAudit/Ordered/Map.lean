import CacheAudit.Ordered.Set

/-!
# Ordered maps from strings

A map from strings is the list of its entries in strictly ascending order of their keys. Looking
a key up, replacing the value under it and changing that value leave the other entries alone.
-/

namespace CacheAudit

/-- A finite map from strings. -/
structure StringMap (β : Type) where
  entries : List (String × β)
  ascending : (entries.map Prod.fst).Pairwise (· < ·)

namespace StringMap

variable {β : Type}

instance [DecidableEq β] : DecidableEq (StringMap β) := fun a b =>
  decidable_of_iff (a.entries = b.entries)
    ⟨fun h => by cases a; cases b; simp_all, fun h => h ▸ rfl⟩

theorem ascending_nil : (([] : List (String × β)).map Prod.fst).Pairwise (· < ·) := .nil

/-- The map without entries. -/
def empty : StringMap β := ⟨[], ascending_nil⟩

instance : EmptyCollection (StringMap β) := ⟨empty⟩
instance : Inhabited (StringMap β) := ⟨empty⟩

/-- The value under a key in a list of entries. -/
def find (k : String) : List (String × β) → Option β
  | [] => none
  | (k', v) :: rest => if k = k' then some v else find k rest

/-- The entries with the value under `k` changed to `f` of what was there. -/
def place (k : String) (f : Option β → β) : List (String × β) → List (String × β)
  | [] => [(k, f none)]
  | (k', v) :: rest =>
    if k = k' then (k', f (some v)) :: rest
    else if k < k' then (k, f none) :: (k', v) :: rest
    else (k', v) :: place k f rest

theorem keys_place (k : String) (f : Option β → β) (es : List (String × β)) :
    (place k f es).map Prod.fst = StringSet.place k (es.map Prod.fst) := by
  induction es with
  | nil => rfl
  | cons e rest ih =>
    obtain ⟨k', v⟩ := e
    simp only [place, List.map_cons, StringSet.place]
    split
    · rfl
    · split
      · rfl
      · simp [ih]

/-- The value under a key. -/
def get? (m : StringMap β) (k : String) : Option β :=
  find k m.entries

/-- The map with the value under a key changed to `f` of what was there. -/
def alter (m : StringMap β) (k : String) (f : Option β → β) : StringMap β where
  entries := place k f m.entries
  ascending := keys_place k f m.entries ▸ StringSet.pairwise_place m.ascending

/-- The map with `v` as the value under `k`. -/
def insert (m : StringMap β) (k : String) (v : β) : StringMap β :=
  m.alter k fun _ => v

/-- The map of a list of entries; a later entry replaces an earlier one with its key. -/
def ofList (es : List (String × β)) : StringMap β :=
  es.foldl (fun m e => m.insert e.1 e.2) empty

/-- The keys in ascending order. -/
def keys (m : StringMap β) : List String :=
  m.entries.map Prod.fst

/-- The keys as a set. -/
def keySet (m : StringMap β) : StringSet :=
  ⟨m.keys, m.ascending⟩

/-- Whether a key has a value. -/
def contains (m : StringMap β) (k : String) : Bool :=
  (m.get? k).isSome

/-- The number of entries. -/
def size (m : StringMap β) : Nat :=
  m.entries.length

/-- Whether there is no entry. -/
def isEmpty (m : StringMap β) : Bool :=
  m.entries.isEmpty

/-- The map with every value changed. -/
def mapValues {γ : Type} (m : StringMap β) (f : β → γ) : StringMap γ where
  entries := m.entries.map fun e => (e.1, f e.2)
  ascending := by
    rw [List.map_map]
    exact m.ascending

theorem find_eq_none_iff {k : String} {es : List (String × β)} :
    find k es = none ↔ k ∉ es.map Prod.fst := by
  induction es with
  | nil => simp [find]
  | cons e rest ih =>
    obtain ⟨k', v⟩ := e
    by_cases heq : k = k' <;> simp [find, heq, ih]

/-- A key below all keys of a list has no value there. -/
theorem find_eq_none_of_lt {k : String} {es : List (String × β)}
    (h : ∀ k' ∈ es.map Prod.fst, k < k') : find k es = none :=
  find_eq_none_iff.2 fun hmem => String.lt_irrefl k (h k hmem)

theorem find_eq_some_iff {k : String} {v : β} {es : List (String × β)}
    (h : (es.map Prod.fst).Pairwise (· < ·)) : find k es = some v ↔ (k, v) ∈ es := by
  induction es with
  | nil => simp [find]
  | cons e rest ih =>
    obtain ⟨k', w⟩ := e
    obtain ⟨hk, hrest⟩ := List.pairwise_cons.1 h
    by_cases heq : k = k'
    · subst heq
      have hnot : (k, v) ∉ rest := fun hmem =>
        String.lt_irrefl k (hk k (List.mem_map_of_mem hmem))
      simp [find, hnot, eq_comm]
    · simp [find, heq, ih hrest]

theorem find_place_self (k : String) (f : Option β → β) (es : List (String × β))
    (h : (es.map Prod.fst).Pairwise (· < ·)) :
    find k (place k f es) = some (f (find k es)) := by
  induction es with
  | nil => simp [place, find]
  | cons e rest ih =>
    obtain ⟨k', v⟩ := e
    obtain ⟨hk, hrest⟩ := List.pairwise_cons.1 h
    by_cases heq : k = k'
    · simp [place, find, heq]
    · by_cases hlt : k < k'
      · have hnone : find k rest = none :=
          find_eq_none_of_lt fun k'' hmem => String.lt_trans hlt (hk k'' hmem)
        simp [place, find, heq, hlt, hnone]
      · simp [place, find, heq, hlt, ih hrest]

theorem find_place_of_ne {k k' : String} (hne : k' ≠ k) (f : Option β → β)
    (es : List (String × β)) : find k' (place k f es) = find k' es := by
  induction es with
  | nil => simp [place, find, hne]
  | cons e rest ih =>
    obtain ⟨k'', v⟩ := e
    by_cases heq : k = k''
    · subst heq
      simp [place, find, hne]
    · by_cases hlt : k < k'' <;> simp [place, find, heq, hlt, hne, ih]

theorem get?_eq_some_iff {m : StringMap β} {k : String} {v : β} :
    m.get? k = some v ↔ (k, v) ∈ m.entries :=
  find_eq_some_iff m.ascending

theorem get?_eq_none_iff {m : StringMap β} {k : String} : m.get? k = none ↔ k ∉ m.keys :=
  find_eq_none_iff

theorem mem_keys {m : StringMap β} {k : String} : k ∈ m.keys ↔ (m.get? k).isSome := by
  rw [Option.isSome_iff_ne_none, ne_eq, get?_eq_none_iff, Decidable.not_not]

@[simp] theorem get?_alter_self (m : StringMap β) (k : String) (f : Option β → β) :
    (m.alter k f).get? k = some (f (m.get? k)) :=
  find_place_self k f m.entries m.ascending

theorem get?_alter_of_ne (m : StringMap β) {k k' : String} (hne : k' ≠ k) (f : Option β → β) :
    (m.alter k f).get? k' = m.get? k' :=
  find_place_of_ne hne f m.entries

@[simp] theorem get?_insert_self (m : StringMap β) (k : String) (v : β) :
    (m.insert k v).get? k = some v :=
  get?_alter_self m k _

theorem get?_insert_of_ne (m : StringMap β) {k k' : String} (hne : k' ≠ k) (v : β) :
    (m.insert k v).get? k' = m.get? k' :=
  get?_alter_of_ne m hne _

/-- Maps that answer the same for every key are equal. -/
theorem ext {m m' : StringMap β} (h : ∀ k, m.get? k = m'.get? k) : m = m' := by
  obtain ⟨es, hes⟩ := m
  obtain ⟨es', hes'⟩ := m'
  have hnodup {fs : List (String × β)} (hfs : (fs.map Prod.fst).Pairwise (· < ·)) : fs.Nodup := by
    refine (List.pairwise_map.1 hfs).imp ?_
    rintro a _ hlt rfl
    exact String.lt_irrefl a.1 hlt
  have hperm : es.Perm es' := by
    rw [List.perm_ext_iff_of_nodup (hnodup hes) (hnodup hes')]
    rintro ⟨k, v⟩
    have hk := h k
    rw [← find_eq_some_iff hes, ← find_eq_some_iff hes']
    exact ⟨fun hv => hk.symm.trans hv, fun hv => hk.trans hv⟩
  have hlists : es = es' := hperm.eq_of_pairwise
    (fun e f _ _ hef hfe => absurd (String.lt_trans hef hfe) (String.lt_irrefl e.1))
    (List.pairwise_map.1 hes) (List.pairwise_map.1 hes')
  subst hlists
  rfl

/-- What is found after entries were put into a map is one of them, or was there before. -/
theorem mem_or_get?_of_foldl_insert {es : List (String × β)} {m : StringMap β} {k : String} {v : β}
    (h : (es.foldl (fun m e => m.insert e.1 e.2) m).get? k = some v) :
    (k, v) ∈ es ∨ m.get? k = some v := by
  induction es generalizing m with
  | nil => exact .inr h
  | cons e rest ih =>
    obtain ⟨k', w⟩ := e
    rcases ih h with hmem | hbefore
    · exact .inl (List.mem_cons_of_mem _ hmem)
    · by_cases heq : k = k'
      · subst heq
        rw [get?_insert_self] at hbefore
        cases hbefore
        exact .inl List.mem_cons_self
      · rw [get?_insert_of_ne _ heq] at hbefore
        exact .inr hbefore

/-- A key that was there stays when entries are put into a map. -/
theorem isSome_get?_foldl_insert {es : List (String × β)} {m : StringMap β} {k : String}
    (h : k ∈ es.map Prod.fst ∨ (m.get? k).isSome) :
    ((es.foldl (fun m e => m.insert e.1 e.2) m).get? k).isSome := by
  induction es generalizing m with
  | nil => simpa using h
  | cons e rest ih =>
    obtain ⟨k', w⟩ := e
    rw [List.foldl_cons]
    apply ih
    by_cases heq : k = k'
    · subst heq
      exact .inr (by simp)
    · rw [get?_insert_of_ne _ heq]
      simpa [heq] using h

/-- Maps that differ only at keys of the entries put into them end up equal. -/
theorem foldl_insert_congr {es : List (String × β)} {m m' : StringMap β}
    (h : ∀ k, k ∉ es.map Prod.fst → m.get? k = m'.get? k) :
    es.foldl (fun m e => m.insert e.1 e.2) m = es.foldl (fun m e => m.insert e.1 e.2) m' := by
  induction es generalizing m m' with
  | nil => exact ext fun k => h k (by simp)
  | cons e rest ih =>
    obtain ⟨k', w⟩ := e
    rw [List.foldl_cons, List.foldl_cons]
    apply ih
    intro k hk
    by_cases heq : k = k'
    · subst heq
      rw [get?_insert_self, get?_insert_self]
    · rw [get?_insert_of_ne _ heq, get?_insert_of_ne _ heq]
      exact h k (by simpa [heq] using hk)

/-- An entry leaves no trace in a map of a list if its key comes again. -/
theorem ofList_of_mem_later {before after : List (String × β)} {k : String} {v : β}
    (h : k ∈ after.map Prod.fst) :
    ofList (before ++ (k, v) :: after) = ofList (before ++ after) := by
  unfold ofList
  rw [List.foldl_append, List.foldl_append, List.foldl_cons]
  apply foldl_insert_congr
  intro k' hk'
  have hne : k' ≠ k := by
    rintro rfl
    exact hk' h
  rw [get?_insert_of_ne _ hne]

/-- A map of a list of entries answers with one of them. -/
theorem mem_of_get?_ofList {es : List (String × β)} {k : String} {v : β}
    (h : (ofList es).get? k = some v) : (k, v) ∈ es := by
  rcases mem_or_get?_of_foldl_insert h with hmem | hempty
  · exact hmem
  · cases hempty

/-- A map of a list of entries has an answer for each of their keys. -/
theorem exists_get?_ofList {es : List (String × β)} {k : String} {v : β} (h : (k, v) ∈ es) :
    ∃ w, (ofList es).get? k = some w :=
  Option.isSome_iff_exists.1 (isSome_get?_foldl_insert (.inl (List.mem_map_of_mem h)))

end StringMap

end CacheAudit
