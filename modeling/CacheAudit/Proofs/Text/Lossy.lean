import CacheAudit.Text.Utf8
import Mathlib.Data.List.Basic

/-!
# What a lossy reading keeps

A reader cuts every byte string into pieces, and the bytes of the pieces put together are the byte
string again. A piece that shows a character is spelled as UTF-8 spells it. So a text without
U+FFFD has one spelling only, and what UTF-8 spells is read back unchanged.
-/

namespace CacheAudit.Text.Utf8

/-- The character that stands for what is no text. -/
def replacement : Char := Char.ofNat 0xFFFD

/-- The pieces of a byte string from a state of the reader on. -/
def scan : State → Bytes → List Piece
  | .start, [] => []
  | .pending seen _ _ _ _, [] => [.cut seen]
  | state, b :: rest => (step state b).1 ++ scan (step state b).2 rest

theorem finish_foldl_push (bytes : Bytes) (s : Scan) :
    (bytes.foldl Scan.push s).finish = s.done.reverse ++ scan s.state bytes := by
  induction bytes generalizing s with
  | nil =>
    obtain ⟨state, done⟩ := s
    cases state <;> simp [Scan.finish, scan]
  | cons b rest ih =>
    obtain ⟨state, done⟩ := s
    have hscan : scan state (b :: rest) = (step state b).1 ++ scan (step state b).2 rest := by
      cases state <;> rfl
    rw [List.foldl_cons, ih, hscan]
    simp [Scan.push]

/-- The pieces of a byte string are those that a reader finds who knows nothing yet. -/
theorem pieces_eq_scan (bytes : Bytes) : pieces bytes = scan .start bytes := by
  simp [pieces, finish_foldl_push]

/-! ### Characters and their bytes -/

/-- The number of a character after further bytes of it. -/
def continued (code : Nat) (tail : Bytes) : Nat :=
  tail.foldl (fun code b => code * 64 + (b.toNat - 0x80)) code

theorem continued_cons (code : Nat) (b : UInt8) (tail : Bytes) :
    continued code (b :: tail) = continued (code * 64 + (b.toNat - 0x80)) tail := by
  rw [continued, List.foldl_cons, continued]

/-- Bytes that a reader may expect: so many, the first between the bounds. -/
structure Expected (more : Nat) (low high : UInt8) (tail : Bytes) : Prop where
  length : tail.length = more
  first : ∀ b ∈ tail.head?, low ≤ b ∧ b ≤ high
  others : ∀ b ∈ tail.tail, 0x80 ≤ b ∧ b ≤ 0xBF

/-- Bytes that begin a character: whatever is expected after them spells a character with them. -/
structure Begins (before : Bytes) (code more : Nat) (low high : UInt8) : Prop where
  nonempty : before ≠ []
  pos : 0 < more
  spells : ∀ tail, Expected more low high tail →
    before ++ tail = String.utf8EncodeChar (Char.ofNat (continued code tail))

theorem toNat_val_ofNat {v : Nat} (h : v.isValidChar) : (Char.ofNat v).val.toNat = v := by
  rw [Char.ofNat, dif_pos h]
  rfl

theorem encodeChar_of_one_byte {a : UInt8} {v : Nat} (hmax : v < 0x80) (ha : a.toNat = v) :
    [a] = String.utf8EncodeChar (Char.ofNat v) := by
  rw [String.utf8EncodeChar]
  simp only [toNat_val_ofNat (.inl (by omega) : v.isValidChar)]
  rw [if_pos (by omega)]
  simp only [List.cons.injEq, ← UInt8.toNat_inj, UInt8.toNat_ofNat', and_true]
  omega

theorem encodeChar_of_two_bytes {a b : UInt8} {v : Nat} (hmin : 0x80 ≤ v) (hmax : v < 0x800)
    (ha : a.toNat = 0xC0 + v / 64) (hb : b.toNat = 0x80 + v % 64) :
    [a, b] = String.utf8EncodeChar (Char.ofNat v) := by
  rw [String.utf8EncodeChar]
  simp only [toNat_val_ofNat (.inl (by omega) : v.isValidChar)]
  rw [if_neg (by omega), if_pos (by omega)]
  simp only [List.cons.injEq, ← UInt8.toNat_inj, UInt8.toNat_ofNat', and_true]
  omega

theorem encodeChar_of_three_bytes {a b c : UInt8} {v : Nat} (hmin : 0x800 ≤ v)
    (hmax : v < 0x10000) (hvalid : v.isValidChar) (ha : a.toNat = 0xE0 + v / 4096)
    (hb : b.toNat = 0x80 + v / 64 % 64) (hc : c.toNat = 0x80 + v % 64) :
    [a, b, c] = String.utf8EncodeChar (Char.ofNat v) := by
  rw [String.utf8EncodeChar]
  simp only [toNat_val_ofNat hvalid]
  rw [if_neg (by omega), if_neg (by omega), if_pos (by omega)]
  simp only [List.cons.injEq, ← UInt8.toNat_inj, UInt8.toNat_ofNat', and_true]
  omega

theorem encodeChar_of_four_bytes {a b c d : UInt8} {v : Nat} (hmin : 0x10000 ≤ v)
    (hmax : v < 0x110000) (ha : a.toNat = 0xF0 + v / 262144)
    (hb : b.toNat = 0x80 + v / 4096 % 64) (hc : c.toNat = 0x80 + v / 64 % 64)
    (hd : d.toNat = 0x80 + v % 64) :
    [a, b, c, d] = String.utf8EncodeChar (Char.ofNat v) := by
  rw [String.utf8EncodeChar]
  simp only [toNat_val_ofNat (.inr (by omega) : v.isValidChar)]
  rw [if_neg (by omega), if_neg (by omega), if_neg (by omega)]
  simp only [List.cons.injEq, ← UInt8.toNat_inj, UInt8.toNat_ofNat', and_true]
  omega

theorem Expected.cons {more : Nat} {low high b : UInt8} {tail : Bytes}
    (hmore : tail.length + 1 = more) (hlow : low.toNat ≤ b.toNat) (hhigh : b.toNat ≤ high.toNat)
    (h : ∀ c ∈ tail, 0x80 ≤ c.toNat ∧ c.toNat ≤ 0xBF) : Expected more low high (b :: tail) where
  length := hmore
  first := by
    rintro _ ⟨⟩
    exact ⟨hlow, hhigh⟩
  others := h

theorem Expected.one {low high : UInt8} {tail : Bytes} (h : Expected 1 low high tail) :
    ∃ b, tail = [b] ∧ low.toNat ≤ b.toNat ∧ b.toNat ≤ high.toNat := by
  obtain ⟨b, rfl⟩ := List.length_eq_one_iff.1 h.length
  have hb := h.first b (by simp)
  exact ⟨b, rfl, hb⟩

theorem Expected.two {low high : UInt8} {tail : Bytes} (h : Expected 2 low high tail) :
    ∃ b c, tail = [b, c] ∧ low.toNat ≤ b.toNat ∧ b.toNat ≤ high.toNat ∧
      0x80 ≤ c.toNat ∧ c.toNat ≤ 0xBF := by
  obtain ⟨b, c, rfl⟩ := List.length_eq_two.1 h.length
  have hb := h.first b (by simp)
  have hc := h.others c (by simp)
  exact ⟨b, c, rfl, hb.1, hb.2, hc⟩

theorem Expected.three {low high : UInt8} {tail : Bytes} (h : Expected 3 low high tail) :
    ∃ b c d, tail = [b, c, d] ∧ low.toNat ≤ b.toNat ∧ b.toNat ≤ high.toNat ∧
      (0x80 ≤ c.toNat ∧ c.toNat ≤ 0xBF) ∧ 0x80 ≤ d.toNat ∧ d.toNat ≤ 0xBF := by
  obtain ⟨b, c, d, rfl⟩ := List.length_eq_three.1 h.length
  have hb := h.first b (by simp)
  have hc := h.others c (by simp)
  have hd := h.others d (by simp)
  exact ⟨b, c, d, rfl, hb.1, hb.2, hc, hd⟩

/-- The first byte of a character settles which bytes may follow and what they spell. -/
theorem begins_two {a : UInt8} (hmin : 0xC2 ≤ a.toNat) (hmax : a.toNat < 0xE0) :
    Begins [a] (a.toNat - 0xC0) 1 0x80 0xBF where
  nonempty := List.cons_ne_nil _ _
  pos := by decide
  spells := by
    intro tail h
    obtain ⟨b, rfl, hb, hb'⟩ := h.one
    simp only [UInt8.reduceToNat] at hb hb'
    simp only [continued, List.foldl_cons, List.foldl_nil, List.cons_append, List.nil_append]
    exact encodeChar_of_two_bytes (by omega) (by omega) (by omega) (by omega)

/-- A first byte of three with the bounds of the second that leave out what is spelled shorter and
what is no character. -/
theorem begins_three {a low high : UInt8} (hmin : 0xE0 ≤ a.toNat) (hmax : a.toNat < 0xF0)
    (hlow : 0x80 ≤ low.toNat) (hhigh : high.toNat ≤ 0xBF)
    (hshort : a.toNat = 0xE0 → 0xA0 ≤ low.toNat)
    (hsurrogate : a.toNat = 0xED → high.toNat ≤ 0x9F) :
    Begins [a] (a.toNat - 0xE0) 2 low high where
  nonempty := List.cons_ne_nil _ _
  pos := by decide
  spells := by
    intro tail h
    obtain ⟨b, c, rfl, hb, hb', hc, hc'⟩ := h.two
    simp only [continued, List.foldl_cons, List.foldl_nil, List.cons_append, List.nil_append]
    refine encodeChar_of_three_bytes (by omega) (by omega) ?_ (by omega) (by omega) (by omega)
    unfold Nat.isValidChar
    omega

/-- A first byte of four with the bounds of the second that leave out what is spelled shorter and
what is beyond the last character. -/
theorem begins_four {a low high : UInt8} (hmin : 0xF0 ≤ a.toNat) (hmax : a.toNat ≤ 0xF4)
    (hlow : 0x80 ≤ low.toNat) (hhigh : high.toNat ≤ 0xBF)
    (hshort : a.toNat = 0xF0 → 0x90 ≤ low.toNat)
    (hbeyond : a.toNat = 0xF4 → high.toNat ≤ 0x8F) :
    Begins [a] (a.toNat - 0xF0) 3 low high where
  nonempty := List.cons_ne_nil _ _
  pos := by decide
  spells := by
    intro tail h
    obtain ⟨b, c, d, rfl, hb, hb', hc, hd⟩ := h.three
    simp only [continued, List.foldl_cons, List.foldl_nil, List.cons_append, List.nil_append]
    exact encodeChar_of_four_bytes (by omega) (by omega) (by omega) (by omega) (by omega)
      (by omega)

theorem opening_one {a : UInt8} (h : a.toNat < 0x80) :
    opening a = ([.char (Char.ofNat a.toNat)], .start) := by
  have h80 : a < 0x80 := h
  rw [opening, if_pos h80]

theorem opening_two {a : UInt8} (hmin : 0xC2 ≤ a.toNat) (hmax : a.toNat < 0xE0) :
    opening a = ([], .pending 1 (a.toNat - 0xC0) 1 0x80 0xBF) := by
  have h80 : ¬a < 0x80 := UInt8.not_lt.2 (by show 0x80 ≤ a.toNat; omega)
  have hC2 : ¬a < 0xC2 := UInt8.not_lt.2 hmin
  have hE0 : a < 0xE0 := hmax
  rw [opening, if_neg h80, if_neg hC2, if_pos hE0]

theorem opening_three {a : UInt8} (hmin : 0xE0 ≤ a.toNat) (hmax : a.toNat < 0xF0) :
    ∃ low high, opening a = ([], .pending 1 (a.toNat - 0xE0) 2 low high) ∧
      low.toNat = (if a.toNat = 0xE0 then 0xA0 else 0x80) ∧
      high.toNat = if a.toNat = 0xED then 0x9F else 0xBF := by
  have h80 : ¬a < 0x80 := UInt8.not_lt.2 (by show 0x80 ≤ a.toNat; omega)
  have hC2 : ¬a < 0xC2 := UInt8.not_lt.2 (by show 0xC2 ≤ a.toNat; omega)
  have hE0 : ¬a < 0xE0 := UInt8.not_lt.2 hmin
  by_cases heqE0 : a = 0xE0
  · subst heqE0
    exact ⟨_, _, rfl, rfl, rfl⟩
  by_cases heqED : a = 0xED
  · subst heqED
    exact ⟨_, _, rfl, rfl, rfl⟩
  have hneE0 : a.toNat ≠ 0xE0 := fun h => heqE0 (UInt8.toNat_inj.1 h)
  have hneED : a.toNat ≠ 0xED := fun h => heqED (UInt8.toNat_inj.1 h)
  have hF0 : a < 0xF0 := hmax
  rw [opening, if_neg h80, if_neg hC2, if_neg hE0, if_neg heqE0, if_neg heqED, if_pos hF0,
    if_neg hneE0, if_neg hneED]
  exact ⟨_, _, rfl, rfl, rfl⟩

theorem opening_four {a : UInt8} (hmin : 0xF0 ≤ a.toNat) (hmax : a.toNat ≤ 0xF4) :
    ∃ low high, opening a = ([], .pending 1 (a.toNat - 0xF0) 3 low high) ∧
      low.toNat = (if a.toNat = 0xF0 then 0x90 else 0x80) ∧
      high.toNat = if a.toNat = 0xF4 then 0x8F else 0xBF := by
  have h80 : ¬a < 0x80 := UInt8.not_lt.2 (by show 0x80 ≤ a.toNat; omega)
  have hC2 : ¬a < 0xC2 := UInt8.not_lt.2 (by show 0xC2 ≤ a.toNat; omega)
  have hE0 : ¬a < 0xE0 := UInt8.not_lt.2 (by show 0xE0 ≤ a.toNat; omega)
  have hF0 : ¬a < 0xF0 := UInt8.not_lt.2 hmin
  have hneE0 : a ≠ 0xE0 := by rintro rfl; exact absurd hmin (by decide)
  have hneED : a ≠ 0xED := by rintro rfl; exact absurd hmin (by decide)
  by_cases heqF0 : a = 0xF0
  · subst heqF0
    exact ⟨_, _, rfl, rfl, rfl⟩
  by_cases heqF4 : a = 0xF4
  · subst heqF4
    exact ⟨_, _, rfl, rfl, rfl⟩
  have hneF0 : a.toNat ≠ 0xF0 := fun h => heqF0 (UInt8.toNat_inj.1 h)
  have hneF4 : a.toNat ≠ 0xF4 := fun h => heqF4 (UInt8.toNat_inj.1 h)
  have hF4 : a < 0xF4 := by show a.toNat < 0xF4; omega
  rw [opening, if_neg h80, if_neg hC2, if_neg hE0, if_neg hneE0, if_neg hneED, if_neg hF0,
    if_neg heqF0, if_pos hF4, if_neg hneF0, if_neg hneF4]
  exact ⟨_, _, rfl, rfl, rfl⟩

theorem opening_damaged {a : UInt8} (h : 0x80 ≤ a.toNat ∧ a.toNat < 0xC2 ∨ 0xF4 < a.toNat) :
    opening a = ([.damaged 1], .start) := by
  have h80 : ¬a < 0x80 := UInt8.not_lt.2 (by show 0x80 ≤ a.toNat; omega)
  by_cases hC2 : a < 0xC2
  · rw [opening, if_neg h80, if_pos hC2]
  have hmin : 0xC2 ≤ a.toNat := UInt8.not_lt.1 hC2
  have hbeyond : 0xF4 < a.toNat := by omega
  have hE0 : ¬a < 0xE0 := UInt8.not_lt.2 (by show 0xE0 ≤ a.toNat; omega)
  have hF0 : ¬a < 0xF0 := UInt8.not_lt.2 (by show 0xF0 ≤ a.toNat; omega)
  have hF4 : ¬a < 0xF4 := UInt8.not_lt.2 (by show 0xF4 ≤ a.toNat; omega)
  have hne {x : UInt8} (hx : x.toNat ≤ 0xF4) : a ≠ x := by rintro rfl; omega
  rw [opening, if_neg h80, if_neg hC2, if_neg hE0, if_neg (hne (by decide)),
    if_neg (hne (by decide)), if_neg hF0, if_neg (hne (by decide)), if_neg hF4,
    if_neg (hne (by decide))]

/-- What the first byte after a character can be: a character, the beginning of one, or neither. -/
theorem opening_cases (b : UInt8) :
    (∃ c, opening b = ([.char c], .start) ∧ [b] = String.utf8EncodeChar c) ∨
    opening b = ([.damaged 1], .start) ∨
    ∃ code more low high, opening b = ([], .pending 1 code more low high) ∧
      Begins [b] code more low high := by
  by_cases hone : b.toNat < 0x80
  · exact .inl ⟨_, opening_one hone, encodeChar_of_one_byte hone rfl⟩
  by_cases hdamaged : b.toNat < 0xC2 ∨ 0xF4 < b.toNat
  · exact .inr (.inl (opening_damaged (by omega)))
  refine .inr (.inr ?_)
  by_cases htwo : b.toNat < 0xE0
  · exact ⟨_, _, _, _, opening_two (by omega) htwo, begins_two (by omega) htwo⟩
  by_cases hthree : b.toNat < 0xF0
  · obtain ⟨low, high, hb, hlow, hhigh⟩ := opening_three (by omega) hthree
    refine ⟨_, _, _, _, hb, begins_three (by omega) hthree ?_ ?_ ?_ ?_⟩
    · rw [hlow]; split <;> decide
    · rw [hhigh]; split <;> decide
    · exact fun h => Nat.le_of_eq (hlow.trans (if_pos h)).symm
    · exact fun h => Nat.le_of_eq (hhigh.trans (if_pos h))
  · obtain ⟨low, high, hb, hlow, hhigh⟩ := opening_four (a := b) (by omega) (by omega)
    refine ⟨_, _, _, _, hb, begins_four (by omega) (by omega) ?_ ?_ ?_ ?_⟩
    · rw [hlow]; split <;> decide
    · rw [hhigh]; split <;> decide
    · exact fun h => Nat.le_of_eq (hlow.trans (if_pos h)).symm
    · exact fun h => Nat.le_of_eq (hhigh.trans (if_pos h))

/-! ### The bytes of a piece -/

/-- The bytes of a piece: those of its character, or some that are no text. -/
def Piece.SpelledBy (piece : Piece) (bytes : Bytes) : Prop :=
  match piece with
  | .char c => bytes = String.utf8EncodeChar c
  | _ => bytes ≠ []

/-- What a reader has read of the next character. -/
def State.Holds (before : Bytes) : State → Prop
  | .start => before = []
  | .pending _ code more low high => Begins before code more low high

/-- One more expected byte brings the next character nearer or completes it. -/
theorem Begins.step {before : Bytes} {code more : Nat} {low high b : UInt8}
    (h : Begins before code more low high) (hb : low ≤ b ∧ b ≤ high) :
    if more ≤ 1 then before ++ [b] =
      String.utf8EncodeChar (Char.ofNat (code * 64 + (b.toNat - 0x80)))
    else Begins (before ++ [b]) (code * 64 + (b.toNat - 0x80)) (more - 1) 0x80 0xBF := by
  have hpos := h.pos
  split
  · have hone : more = 1 := by omega
    subst hone
    exact h.spells [b] ⟨rfl, by simpa using hb, by simp⟩
  · refine ⟨by simp, by omega, ?_⟩
    intro tail htail
    have hexpected : Expected more low high (b :: tail) := by
      refine ⟨?_, by simpa using hb, ?_⟩
      · rw [List.length_cons, htail.length]
        omega
      intro c hc
      cases tail with
      | nil => cases hc
      | cons d tail =>
        rcases List.mem_cons.1 hc with rfl | hc
        · exact htail.first c rfl
        · exact htail.others c hc
    have hspells := h.spells _ hexpected
    rw [List.append_cons, continued_cons] at hspells
    exact hspells

theorem scan_start_cons (b : UInt8) (rest : Bytes) :
    scan .start (b :: rest) = (opening b).1 ++ scan (opening b).2 rest := rfl

/-- An expected byte that is not the last one brings the reader on. -/
theorem scan_pending_cons {seen code more : Nat} {low high b : UInt8} (hb : low ≤ b ∧ b ≤ high)
    (hmore : ¬more ≤ 1) (rest : Bytes) :
    scan (.pending seen code more low high) (b :: rest) =
      scan (.pending (seen + 1) (code * 64 + (b.toNat - 0x80)) (more - 1) 0x80 0xBF) rest := by
  simp [scan, step, hb, hmore]

/-- The last expected byte completes the character. -/
theorem scan_pending_last {seen code more : Nat} {low high b : UInt8} (hb : low ≤ b ∧ b ≤ high)
    (hmore : more ≤ 1) (rest : Bytes) :
    scan (.pending seen code more low high) (b :: rest) =
      .char (Char.ofNat (code * 64 + (b.toNat - 0x80))) :: scan .start rest := by
  simp [scan, step, hb, hmore]

/-- An unexpected byte ends what was begun and is looked at as the first one of a character. -/
theorem scan_pending_damaged {seen code more : Nat} {low high b : UInt8}
    (hb : ¬(low ≤ b ∧ b ≤ high)) (rest : Bytes) :
    scan (.pending seen code more low high) (b :: rest) =
      .damaged seen :: scan .start (b :: rest) := by
  simp [scan, step, hb]

/-- The bytes that a reader holds and those still to come are the bytes of the pieces that it
finds, one after the other. -/
theorem exists_segments (bytes before : Bytes) (state : State) (h : state.Holds before) :
    ∃ segments : List (Piece × Bytes), segments.map Prod.fst = scan state bytes ∧
      segments.flatMap Prod.snd = before ++ bytes ∧
      ∀ segment ∈ segments, segment.1.SpelledBy segment.2 := by
  induction bytes generalizing before state with
  | nil =>
    cases state with
    | start => exact ⟨[], rfl, by rw [show before = [] from h]; rfl, by simp⟩
    | pending seen code more low high =>
      refine ⟨[(.cut seen, before)], rfl, by simp, ?_⟩
      intro segment hmem
      cases List.mem_singleton.1 hmem
      exact Begins.nonempty h
  | cons b rest ih =>
    -- a byte that is looked at as the first one of a character
    have hopen : ∃ segments : List (Piece × Bytes),
        segments.map Prod.fst = (opening b).1 ++ scan (opening b).2 rest ∧
        segments.flatMap Prod.snd = b :: rest ∧
        ∀ segment ∈ segments, segment.1.SpelledBy segment.2 := by
      rcases opening_cases b with ⟨c, hb, hc⟩ | hb | ⟨code, more, low, high, hb, hbegins⟩
      · obtain ⟨segments, hpieces, hbytes, hspelled⟩ := ih [] .start rfl
        refine ⟨(.char c, [b]) :: segments, by simp [hb, hpieces], by simp [hbytes], ?_⟩
        exact List.forall_mem_cons.2 ⟨hc, hspelled⟩
      · obtain ⟨segments, hpieces, hbytes, hspelled⟩ := ih [] .start rfl
        refine ⟨(.damaged 1, [b]) :: segments, by simp [hb, hpieces], by simp [hbytes], ?_⟩
        exact List.forall_mem_cons.2 ⟨List.cons_ne_nil _ _, hspelled⟩
      · obtain ⟨segments, hpieces, hbytes, hspelled⟩ :=
          ih [b] (.pending 1 code more low high) hbegins
        exact ⟨segments, by simp [hb, hpieces], by simp [hbytes], hspelled⟩
    cases state with
    | start =>
      rw [show before = [] from h]
      exact hopen
    | pending seen code more low high =>
      by_cases hb : low ≤ b ∧ b ≤ high
      · have hstep := Begins.step h hb
        by_cases hmore : more ≤ 1
        · rw [if_pos hmore] at hstep
          obtain ⟨segments, hpieces, hbytes, hspelled⟩ := ih [] .start rfl
          refine ⟨(.char _, before ++ [b]) :: segments, ?_, by simp [hbytes],
            List.forall_mem_cons.2 ⟨hstep, hspelled⟩⟩
          rw [scan_pending_last hb hmore, List.map_cons, hpieces]
        · rw [if_neg hmore] at hstep
          obtain ⟨segments, hpieces, hbytes, hspelled⟩ :=
            ih _ (.pending (seen + 1) _ (more - 1) 0x80 0xBF) hstep
          refine ⟨segments, ?_, by simp [hbytes], hspelled⟩
          rw [scan_pending_cons hb hmore, hpieces]
      · obtain ⟨segments, hpieces, hbytes, hspelled⟩ := hopen
        refine ⟨(.damaged seen, before) :: segments, ?_, by simp [hbytes],
          List.forall_mem_cons.2 ⟨Begins.nonempty h, hspelled⟩⟩
        rw [scan_pending_damaged hb, List.map_cons, hpieces, scan_start_cons]

/-! ### What is read back -/

/-- A reader that gets what it expects finds the character. -/
theorem scan_expected {tail : Bytes} {seen code more : Nat} {low high : UInt8}
    (h : Expected more low high tail) (hpos : 0 < more) (rest : Bytes) :
    scan (.pending seen code more low high) (tail ++ rest) =
      .char (Char.ofNat (continued code tail)) :: scan .start rest := by
  induction tail generalizing seen code more low high with
  | nil =>
    have hlength := h.length
    rw [List.length_nil] at hlength
    omega
  | cons b tail ih =>
    have hb : low ≤ b ∧ b ≤ high := h.first b rfl
    have hlength := h.length
    rw [List.length_cons] at hlength
    rw [continued_cons, List.cons_append]
    cases tail with
    | nil =>
      have hmore : more ≤ 1 := by simp at hlength; omega
      rw [List.nil_append, scan_pending_last hb hmore, continued, List.foldl_nil]
    | cons c tail =>
      have hmore : ¬more ≤ 1 := by simp at hlength; omega
      have hrest : Expected (more - 1) 0x80 0xBF (c :: tail) := by
        refine ⟨by omega, ?_, fun d hd => h.others d (List.mem_cons_of_mem _ hd)⟩
        intro d hd
        exact h.others d (by simp_all)
      rw [scan_pending_cons hb hmore]
      exact ih hrest (by omega)

theorem encodeChar_cases (c : Char) :
    (∃ a, String.utf8EncodeChar c = [a] ∧ a.toNat = c.val.toNat ∧ c.val.toNat < 0x80) ∨
    (∃ a b, String.utf8EncodeChar c = [a, b] ∧ 0x80 ≤ c.val.toNat ∧ c.val.toNat < 0x800 ∧
      a.toNat = 0xC0 + c.val.toNat / 64 ∧ b.toNat = 0x80 + c.val.toNat % 64) ∨
    (∃ x y z, String.utf8EncodeChar c = [x, y, z] ∧ 0x800 ≤ c.val.toNat ∧
      c.val.toNat < 0x10000 ∧ x.toNat = 0xE0 + c.val.toNat / 4096 ∧
      y.toNat = 0x80 + c.val.toNat / 64 % 64 ∧ z.toNat = 0x80 + c.val.toNat % 64) ∨
    ∃ w x y z, String.utf8EncodeChar c = [w, x, y, z] ∧ 0x10000 ≤ c.val.toNat ∧
      w.toNat = 0xF0 + c.val.toNat / 262144 ∧ x.toNat = 0x80 + c.val.toNat / 4096 % 64 ∧
      y.toNat = 0x80 + c.val.toNat / 64 % 64 ∧ z.toNat = 0x80 + c.val.toNat % 64 := by
  have hvalid : c.val.toNat.isValidChar := c.valid
  have hmax : c.val.toNat < 0x110000 := by
    unfold Nat.isValidChar at hvalid
    omega
  have hnum {n : Nat} (h : n < 256) : (UInt8.ofNat n).toNat = n := by
    rw [UInt8.toNat_ofNat']
    exact Nat.mod_eq_of_lt h
  have hc : Char.ofNat c.val.toNat = c := Char.ofNat_toNat c
  generalize c.val.toNat = v at hvalid hmax hc
  subst hc
  by_cases h1 : v < 0x80
  · have ha := hnum (n := v) (by omega)
    exact .inl ⟨_, (encodeChar_of_one_byte h1 ha).symm, ha, h1⟩
  by_cases h2 : v < 0x800
  · have ha := hnum (n := 0xC0 + v / 64) (by omega)
    have hb := hnum (n := 0x80 + v % 64) (by omega)
    exact .inr (.inl ⟨_, _, (encodeChar_of_two_bytes (by omega) h2 ha hb).symm, by omega, h2, ha,
      hb⟩)
  by_cases h3 : v < 0x10000
  · have hx := hnum (n := 0xE0 + v / 4096) (by omega)
    have hy := hnum (n := 0x80 + v / 64 % 64) (by omega)
    have hz := hnum (n := 0x80 + v % 64) (by omega)
    exact .inr (.inr (.inl ⟨_, _, _,
      (encodeChar_of_three_bytes (by omega) h3 hvalid hx hy hz).symm, by omega, h3, hx, hy, hz⟩))
  · have hw := hnum (n := 0xF0 + v / 262144) (by omega)
    have hx := hnum (n := 0x80 + v / 4096 % 64) (by omega)
    have hy := hnum (n := 0x80 + v / 64 % 64) (by omega)
    have hz := hnum (n := 0x80 + v % 64) (by omega)
    exact .inr (.inr (.inr ⟨_, _, _, _,
      (encodeChar_of_four_bytes (by omega) hmax hw hx hy hz).symm, by omega, hw, hx, hy, hz⟩))

/-- The bytes of a character are read back as the character. -/
theorem scan_encodeChar (c : Char) (rest : Bytes) :
    scan .start (String.utf8EncodeChar c ++ rest) = .char c :: scan .start rest := by
  have hvalid : c.val.toNat.isValidChar := c.valid
  unfold Nat.isValidChar at hvalid
  have hc : Char.ofNat c.val.toNat = c := Char.ofNat_toNat c
  rcases encodeChar_cases c with ⟨a, h, ha, hmax⟩ | ⟨a, b, h, hmin, hmax, ha, hb⟩ |
    ⟨x, y, z, h, hmin, hmax, hx, hy, hz⟩ | ⟨w, x, y, z, h, hmin, hw, hx, hy, hz⟩
  · rw [h, List.cons_append, List.nil_append, scan_start_cons, opening_one (by omega), ha, hc]
    rfl
  · have htail : Expected 1 0x80 0xBF [b] :=
      .cons rfl (by show 0x80 ≤ b.toNat; omega) (by show b.toNat ≤ 0xBF; omega) (by simp)
    have hcode : continued (a.toNat - 0xC0) [b] = c.val.toNat := by
      simp only [continued, List.foldl_cons, List.foldl_nil]
      omega
    rw [h, List.cons_append, scan_start_cons, opening_two (by omega) (by omega),
      scan_expected htail (by decide), hcode, hc, List.nil_append]
  · obtain ⟨low, high, hopen, hlow, hhigh⟩ := opening_three (a := x) (by omega) (by omega)
    have htail : Expected 2 low high [y, z] := by
      refine .cons rfl ?_ ?_ ?_
      · split at hlow <;> omega
      · split at hhigh <;> omega
      · intro b hb
        cases List.mem_singleton.1 hb
        omega
    have hcode : continued (x.toNat - 0xE0) [y, z] = c.val.toNat := by
      simp only [continued, List.foldl_cons, List.foldl_nil]
      omega
    rw [h, List.cons_append, scan_start_cons, hopen, scan_expected htail (by decide), hcode, hc,
      List.nil_append]
  · obtain ⟨low, high, hopen, hlow, hhigh⟩ := opening_four (a := w) (by omega) (by omega)
    have htail : Expected 3 low high [x, y, z] := by
      refine .cons rfl ?_ ?_ ?_
      · split at hlow <;> omega
      · split at hhigh <;> omega
      · intro b hb
        simp only [List.mem_cons, List.not_mem_nil, or_false] at hb
        rcases hb with rfl | rfl <;> omega
    have hcode : continued (w.toNat - 0xF0) [x, y, z] = c.val.toNat := by
      simp only [continued, List.foldl_cons, List.foldl_nil]
      omega
    rw [h, List.cons_append, scan_start_cons, hopen, scan_expected htail (by decide), hcode, hc,
      List.nil_append]

/-! ### Lossy text -/

theorem scan_encode (text : List Char) (rest : Bytes) :
    scan .start (encode text ++ rest) = text.map .char ++ scan .start rest := by
  induction text with
  | nil => rfl
  | cons c text ih =>
    rw [encode, List.flatMap_cons, List.append_assoc, scan_encodeChar]
    exact congrArg _ ih

theorem pieces_encode (text : List Char) : pieces (encode text) = text.map .char := by
  have h := scan_encode text []
  rw [List.append_nil] at h
  rw [pieces_eq_scan, h]
  simp [scan]

/-- What UTF-8 spells is read back unchanged. -/
theorem lossy_encode (text : List Char) : lossy (encode text) = text := by
  rw [lossy, pieces_encode, List.map_map]
  simp [Function.comp_def, Piece.shown]

theorem lenient_encode (text : List Char) : lenient (encode text) = text.map some := by
  rw [lenient, pieces_encode, List.map_map]
  rfl

/-- The bytes of a lossy text: each character is spelled by UTF-8, or is a U+FFFD. -/
theorem exists_spelling (bytes : Bytes) :
    ∃ spelling : List (Char × Bytes), spelling.map Prod.fst = lossy bytes ∧
      spelling.flatMap Prod.snd = bytes ∧ ∀ part ∈ spelling, part.2 ≠ [] ∧
        (part.1 ≠ replacement → part.2 = String.utf8EncodeChar part.1) := by
  obtain ⟨segments, hpieces, hbytes, hspelled⟩ :=
    exists_segments bytes [] .start rfl
  refine ⟨segments.map fun segment => (segment.1.shown, segment.2), ?_, ?_, ?_⟩
  · rw [lossy, pieces_eq_scan, ← hpieces, List.map_map, List.map_map]
    rfl
  · rw [List.flatMap_map]
    exact hbytes
  · intro part hpart
    obtain ⟨⟨piece, spelled⟩, hmem, rfl⟩ := List.mem_map.1 hpart
    have h := hspelled _ hmem
    cases piece with
    | char c => exact ⟨h ▸ String.utf8EncodeChar_ne_nil, fun _ => h⟩
    | damaged width => exact ⟨h, fun hne => absurd rfl hne⟩
    | cut width => exact ⟨h, fun hne => absurd rfl hne⟩

/-- A byte string that is read without a U+FFFD is the UTF-8 spelling of what is read. -/
theorem eq_encode_of_lossy {bytes : Bytes} (h : replacement ∉ lossy bytes) :
    bytes = encode (lossy bytes) := by
  obtain ⟨spelling, htext, hbytes, hparts⟩ := exists_spelling bytes
  rw [← htext] at h ⊢
  rw [encode, List.flatMap_map, ← hbytes]
  refine List.flatMap_congr fun part hpart => (hparts part hpart).2 ?_
  rintro heq
  exact h (heq ▸ List.mem_map_of_mem hpart)

/-- A character that is read from a byte string, other than U+FFFD, stands in it. -/
theorem subset_of_mem_lossy {bytes : Bytes} {c : Char} (hc : c ≠ replacement)
    (h : c ∈ lossy bytes) : String.utf8EncodeChar c ⊆ bytes := by
  obtain ⟨spelling, htext, hbytes, hparts⟩ := exists_spelling bytes
  rw [← htext] at h
  obtain ⟨part, hpart, rfl⟩ := List.mem_map.1 h
  rw [← (hparts part hpart).2 hc, ← hbytes]
  exact fun b hb => List.mem_flatMap_of_mem hpart hb

/-- Only the empty byte string is read as the empty text. -/
theorem lossy_eq_nil_iff {bytes : Bytes} : lossy bytes = [] ↔ bytes = [] := by
  obtain ⟨spelling, htext, hbytes, hparts⟩ := exists_spelling bytes
  rw [← htext, ← hbytes]
  cases spelling with
  | nil => simp
  | cons part rest => simp [(hparts part (List.mem_cons_self)).1]

end CacheAudit.Text.Utf8
