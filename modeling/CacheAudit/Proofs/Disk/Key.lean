import CacheAudit.Disk.Walk
import CacheAudit.Proofs.Text.Lossy

/-!
# Keys of places

A place below a root is recorded under the lossy texts of its names with slashes between them. The
key tells the names apart as long as they are text, and no longer: a name whose text contains
U+FFFD can be spelled in another way that reads the same.
-/

namespace CacheAudit

/-- A name that a directory can hold something under. -/
structure ProperName (n : Bytes) : Prop where
  nonempty : n ≠ []
  noSlash : Path.slash ∉ n
  noNul : 0 ∉ n
  notDot : n ≠ Path.dot
  notDotDot : n ≠ Path.dotDot

instance (n : Bytes) : Decidable (ProperName n) :=
  decidable_of_iff
    (n ≠ [] ∧ Path.slash ∉ n ∧ 0 ∉ n ∧ n ≠ Path.dot ∧ n ≠ Path.dotDot)
    ⟨fun ⟨hne, hslash, hnul, hdot, hdots⟩ => ⟨hne, hslash, hnul, hdot, hdots⟩,
      fun h => ⟨h.nonempty, h.noSlash, h.noNul, h.notDot, h.notDotDot⟩⟩

/-- A byte string that is UTF-8. -/
def IsUtf8 (n : Bytes) : Prop :=
  ∃ text, n = Text.Utf8.encode text

open Text.Utf8 (replacement lossy encode)

theorem isUtf8_iff {n : Bytes} : IsUtf8 n ↔ n = encode (lossy n) := by
  constructor
  · rintro ⟨text, rfl⟩
    rw [Text.Utf8.lossy_encode]
  · exact fun h => ⟨_, h⟩

instance (n : Bytes) : Decidable (IsUtf8 n) :=
  decidable_of_iff _ isUtf8_iff.symm

theorem isUtf8_of_lossy {n : Bytes} (h : replacement ∉ lossy n) : IsUtf8 n :=
  ⟨_, Text.Utf8.eq_encode_of_lossy h⟩

theorem ProperName.slash_not_mem_lossy {n : Bytes} (h : ProperName n) : '/' ∉ lossy n := by
  intro hmem
  have hsubset := Text.Utf8.subset_of_mem_lossy (by decide) hmem
  exact h.noSlash (hsubset (by decide))

theorem ProperName.lossy_ne_nil {n : Bytes} (h : ProperName n) : lossy n ≠ [] :=
  fun hnil => h.nonempty (Text.Utf8.lossy_eq_nil_iff.1 hnil)

/-- A byte other than those that spell U+FFFD stands in the spelling of a lossy text only if it
stands in the name itself. -/
theorem mem_of_mem_encode_lossy {n : Bytes} {b : UInt8} (h : b ∈ encode (lossy n))
    (hb : b ∉ String.utf8EncodeChar replacement) : b ∈ n := by
  obtain ⟨c, hc, hbc⟩ := List.mem_flatMap.1 h
  have hne : c ≠ replacement := by
    rintro rfl
    exact hb hbc
  exact Text.Utf8.subset_of_mem_lossy hne hc hbc

/-- A stray byte among text is read as U+FFFD. -/
theorem lossy_stray (before after : List Char) :
    lossy (encode before ++ 0xFF :: encode after) = before ++ replacement :: after := by
  have hafter := Text.Utf8.scan_encode after []
  rw [List.append_nil] at hafter
  rw [lossy, Text.Utf8.pieces_eq_scan, Text.Utf8.scan_encode, Text.Utf8.scan_start_cons,
    Text.Utf8.opening_damaged (by decide), hafter]
  simp [Text.Utf8.scan, Text.Utf8.Piece.shown, Function.comp_def, replacement]

/-- A name that is read with a U+FFFD is not the only one that is read so. -/
theorem ProperName.exists_other {n : Bytes} (h : ProperName n) (hmem : replacement ∈ lossy n) :
    ∃ n', ProperName n' ∧ n' ≠ n ∧ lossy n' = lossy n := by
  by_cases hutf8 : IsUtf8 n
  · -- the name spells its U+FFFD out, and a stray byte in its place reads the same
    rw [isUtf8_iff] at hutf8
    obtain ⟨before, after, htext⟩ := List.append_of_mem hmem
    have hspelled : n = encode before ++ (String.utf8EncodeChar replacement ++ encode after) := by
      rw [htext] at hutf8
      simpa [encode] using hutf8
    have hbytes {b : UInt8} (hb : b ∈ encode before ++ 0xFF :: encode after) :
        b = 0xFF ∨ b ∈ n := by
      rw [hspelled]
      simp only [List.mem_append, List.mem_cons] at hb ⊢
      tauto
    have hstray : (0xFF : UInt8) ∈ encode before ++ 0xFF :: encode after := by simp
    refine ⟨encode before ++ 0xFF :: encode after, ⟨?_, ?_, ?_, ?_, ?_⟩, ?_, ?_⟩
    · simp
    · exact fun hslash => (hbytes hslash).elim (by decide) h.noSlash
    · exact fun hnul => (hbytes hnul).elim (by decide) h.noNul
    · exact fun hdot => absurd (hdot ▸ hstray) (by decide)
    · exact fun hdots => absurd (hdots ▸ hstray) (by decide)
    · intro heq
      have hcons := List.append_cancel_left (heq.trans hspelled)
      exact absurd (List.cons.inj hcons).1 (by decide)
    · rw [lossy_stray, htext]
  · -- the name is no text, and the spelling of the text it is read as reads the same
    have hFFFD : (0xEF : UInt8) ∈ encode (lossy n) :=
      List.mem_flatMap_of_mem hmem (by decide)
    refine ⟨encode (lossy n), ⟨?_, ?_, ?_, ?_, ?_⟩, ?_, Text.Utf8.lossy_encode _⟩
    · exact List.ne_nil_of_mem hFFFD
    · exact fun hslash => h.noSlash (mem_of_mem_encode_lossy hslash (by decide))
    · exact fun hnul => h.noNul (mem_of_mem_encode_lossy hnul (by decide))
    · exact fun hdot => absurd (hdot ▸ hFFFD) (by decide)
    · exact fun hdots => absurd (hdots ▸ hFFFD) (by decide)
    · exact fun heq => hutf8 ⟨_, heq.symm⟩

namespace WalkItem

variable {names names' : List Bytes}

theorem toList_key (names : List Bytes) :
    (key names).toList = ['/'].intercalate (names.map lossy) := by
  rw [key, String.toList_intercalate, List.map_map]
  congr 1
  exact List.map_congr_left fun n _ => String.toList_ofList

/-- Splitting a key at the slashes gives the texts of the names back. -/
theorem splitOn_key (hne : names ≠ []) (h : ∀ n ∈ names, ProperName n) :
    (key names).toList.splitOn '/' = names.map lossy := by
  rw [toList_key]
  refine List.splitOn_intercalate '/' ?_ (by simpa using hne)
  simpa using fun n hn => (h n hn).slash_not_mem_lossy

/-- The key of a place below the root is not empty. -/
theorem key_ne_empty (hne : names ≠ []) (h : ∀ n ∈ names, ProperName n) : key names ≠ "" := by
  intro hkey
  have hsplit := splitOn_key hne h
  rw [hkey, String.toList_empty, List.splitOn_nil] at hsplit
  obtain ⟨n, rest, rfl⟩ := List.exists_cons_of_ne_nil hne
  have hn : lossy n = [] := (List.cons.inj hsplit).1.symm
  exact (h n List.mem_cons_self).lossy_ne_nil hn

theorem key_nil : key [] = "" := rfl

/-- Places with one key are reached by names with the same texts. -/
theorem map_lossy_of_key_eq (h : ∀ n ∈ names, ProperName n) (h' : ∀ n ∈ names', ProperName n)
    (heq : key names = key names') : names.map lossy = names'.map lossy := by
  by_cases hne : names = []
  · subst hne
    by_cases hne' : names' = []
    · rw [hne']
    · exact absurd (heq.symm.trans key_nil) (key_ne_empty hne' h')
  by_cases hne' : names' = []
  · subst hne'
    exact absurd (heq.trans key_nil) (key_ne_empty hne h)
  rw [← splitOn_key hne h, ← splitOn_key hne' h', heq]

theorem eq_map_encode (h : ∀ n ∈ names, IsUtf8 n) : names = (names.map lossy).map encode := by
  rw [List.map_map]
  conv => lhs; rw [← List.map_id names]
  exact List.map_congr_left fun n hn => isUtf8_iff.1 (h n hn)

/-- Places whose names are text have different keys. -/
theorem key_injective (h : ∀ n ∈ names, ProperName n) (h' : ∀ n ∈ names', ProperName n)
    (ht : ∀ n ∈ names, IsUtf8 n) (ht' : ∀ n ∈ names', IsUtf8 n) (heq : key names = key names') :
    names = names' := by
  rw [eq_map_encode ht, eq_map_encode ht', map_lossy_of_key_eq h h' heq]

/-- A character other than the slash stands in a key exactly when it stands in a name. -/
theorem mem_key {c : Char} (hc : c ≠ '/') :
    c ∈ (key names).toList ↔ ∃ n ∈ names, c ∈ lossy n := by
  rw [toList_key]
  induction names with
  | nil => simp
  | cons n rest ih =>
    cases rest with
    | nil => simp
    | cons m rest =>
      rw [List.map_cons, List.map_cons, List.intercalate_cons_cons, List.mem_append,
        List.mem_append, ← List.map_cons, ih]
      simp [hc]

/-- A place whose key has no U+FFFD shares it with no other place. -/
theorem eq_of_key_eq (h : ∀ n ∈ names, ProperName n) (h' : ∀ n ∈ names', ProperName n)
    (htext : replacement ∉ (key names).toList) (heq : key names = key names') :
    names = names' := by
  have hutf8 {ns : List Bytes} (hns : replacement ∉ (key ns).toList) : ∀ n ∈ ns, IsUtf8 n := by
    intro n hn
    refine isUtf8_of_lossy fun hmem => hns ?_
    exact (mem_key (by decide)).2 ⟨n, hn, hmem⟩
  exact key_injective h h' (hutf8 htext) (hutf8 (heq ▸ htext)) heq

/-- A place has its key for itself exactly when the key has no U+FFFD. -/
theorem unshared_iff (h : ∀ n ∈ names, ProperName n) :
    (∀ names', (∀ n ∈ names', ProperName n) → key names' = key names → names' = names) ↔
      replacement ∉ (key names).toList := by
  constructor
  · intro hunshared hmem
    obtain ⟨n, hn, hmem⟩ := (mem_key (by decide)).1 hmem
    obtain ⟨n', hproper, hne, hlossy⟩ := (h n hn).exists_other hmem
    obtain ⟨before, after, rfl⟩ := List.append_of_mem hn
    have hkey : key (before ++ n' :: after) = key (before ++ n :: after) := by
      simp only [key, List.map_append, List.map_cons, Path.nameText, hlossy]
    have heq := hunshared (before ++ n' :: after) ?_ hkey
    · exact hne (List.cons.inj (List.append_cancel_left heq)).1
    · intro m hm
      rcases List.mem_append.1 hm with hm | hm
      · exact h m (List.mem_append_left _ hm)
      · rcases List.mem_cons.1 hm with rfl | hm
        · exact hproper
        · exact h m (List.mem_append_right _ (List.mem_cons_of_mem _ hm))
  · intro htext names' hproper heq
    exact (eq_of_key_eq h hproper htext heq.symm).symm

end WalkItem

end CacheAudit
