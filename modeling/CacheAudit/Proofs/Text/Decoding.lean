import CacheAudit.Proofs.Text.Lossy
import CacheAudit.Text.Utf16

/-!
# Decoding undoes encoding

A byte string decodes as UTF-8, or as UTF-16 in a given byte order, to a text exactly when it is
the encoding of that text. So each text has one encoding in each of the three forms, and what is no
encoding is not decoded.
-/

namespace CacheAudit.Text

namespace Utf8

variable {bytes : Bytes} {text : List Char}

/-- Pieces are collected into a text when they are its characters and nothing else. -/
theorem collect_eq_ok_iff {index : Nat} {before : List Char} {pieces : List Piece} :
    collect index before pieces = .ok text ↔
      ∃ rest, pieces = rest.map .char ∧ text = before.reverse ++ rest := by
  induction pieces generalizing index before with
  | nil => simp [collect, eq_comm]
  | cons piece pieces ih =>
    cases piece with
    | char c =>
      rw [collect, ih]
      constructor
      · rintro ⟨rest, rfl, rfl⟩
        exact ⟨c :: rest, rfl, by simp⟩
      · rintro ⟨rest, hpieces, rfl⟩
        obtain ⟨c', rest', rfl, hc, rfl⟩ := List.map_eq_cons_iff.1 hpieces.symm
        cases hc
        exact ⟨rest', rfl, by simp⟩
    | damaged width | cut width =>
      constructor
      · intro h
        cases h
      · rintro ⟨rest, hpieces, -⟩
        obtain ⟨c', rest', -, hc, -⟩ := List.map_eq_cons_iff.1 hpieces.symm
        cases hc

theorem decode_eq_ok_iff_pieces : decode bytes = .ok text ↔ pieces bytes = text.map .char := by
  rw [decode, collect_eq_ok_iff]
  constructor
  · rintro ⟨rest, hpieces, rfl⟩
    exact hpieces
  · exact fun h => ⟨text, h, rfl⟩

/-- A byte string is read as a text exactly when it is the UTF-8 spelling of the text. -/
theorem decode_eq_ok_iff : decode bytes = .ok text ↔ bytes = encode text := by
  rw [decode_eq_ok_iff_pieces]
  constructor
  · intro h
    obtain ⟨segments, hpieces, hbytes, hspelled⟩ := exists_segments bytes [] .start rfl
    rw [← pieces_eq_scan, h] at hpieces
    rw [List.nil_append] at hbytes
    have hsegments : segments.map Prod.snd = text.map String.utf8EncodeChar := by
      clear hbytes h
      induction segments generalizing text with
      | nil => rw [List.map_eq_nil_iff.1 hpieces.symm]; rfl
      | cons segment segments ih =>
        obtain ⟨c, rest, rfl, hc, hrest⟩ := List.map_eq_cons_iff.1 hpieces.symm
        obtain ⟨hfirst, hothers⟩ := List.forall_mem_cons.1 hspelled
        rw [← hc] at hfirst
        have hsegment : segment.2 = String.utf8EncodeChar c := hfirst
        rw [List.map_cons, List.map_cons, hsegment, ih hrest.symm hothers]
    rw [← hbytes, List.flatMap, hsegments]
    rfl
  · rintro rfl
    exact pieces_encode text

end Utf8

namespace Utf16

variable {order : Order} {bytes : Bytes} {us : List Nat} {text : List Char}

/-! ### Units and their bytes -/

theorem bytes_unit (order : Order) (a b : UInt8) : order.bytes (order.unit a b) = [a, b] := by
  have ha := a.toNat_lt
  have hb := b.toNat_lt
  cases order <;>
  · simp only [Order.bytes, Order.unit, List.cons.injEq, and_true, ← UInt8.toNat_inj,
      UInt8.toNat_ofNat']
    omega

theorem unit_lt (order : Order) (a b : UInt8) : order.unit a b < 0x10000 := by
  have ha := a.toNat_lt
  have hb := b.toNat_lt
  cases order <;>
  · simp only [Order.unit]
    omega

/-- A unit is written in two bytes that stand for it. -/
theorem exists_bytes (order : Order) {u : Nat} (h : u < 0x10000) :
    ∃ a b, order.bytes u = [a, b] ∧ order.unit a b = u := by
  cases order <;>
  · refine ⟨_, _, rfl, ?_⟩
    simp only [Order.unit, UInt8.toNat_ofNat']
    omega

theorem unitsFrom_eq_some {before : List Nat} (h : unitsFrom order before bytes = some us) :
    ∃ rest, us = before.reverse ++ rest ∧ bytes = rest.flatMap order.bytes ∧
      ∀ u ∈ rest, u < 0x10000 := by
  fun_induction unitsFrom order before bytes with
  | case1 before =>
    cases h
    exact ⟨[], by simp⟩
  | case2 => cases h
  | case3 before a b rest ih =>
    obtain ⟨units, rfl, rfl, hunits⟩ := ih h
    refine ⟨order.unit a b :: units, by simp, by simp [bytes_unit], ?_⟩
    exact List.forall_mem_cons.2 ⟨unit_lt order a b, hunits⟩

theorem unitsFrom_flatMap (before : List Nat) (h : ∀ u ∈ us, u < 0x10000) :
    unitsFrom order before (us.flatMap order.bytes) = some (before.reverse ++ us) := by
  induction us generalizing before with
  | nil => simp [unitsFrom]
  | cons u us ih =>
    obtain ⟨hu, hus⟩ := List.forall_mem_cons.1 h
    obtain ⟨a, b, hbytes, hunit⟩ := exists_bytes order hu
    rw [List.flatMap_cons, hbytes, List.cons_append, List.cons_append, List.nil_append, unitsFrom,
      hunit, ih _ hus]
    simp

/-- The units of a byte string are those that it writes, two bytes each. -/
theorem units_eq_some_iff : units order bytes = some us ↔
    bytes = us.flatMap order.bytes ∧ ∀ u ∈ us, u < 0x10000 := by
  constructor
  · intro h
    obtain ⟨rest, rfl, hbytes, hunits⟩ := unitsFrom_eq_some h
    exact ⟨hbytes, hunits⟩
  · rintro ⟨rfl, hunits⟩
    exact unitsFrom_flatMap [] hunits

/-! ### Characters and their units -/

/-- A unit outside the surrogates is the character of its number. -/
theorem textFrom_unit {u : Nat} (h : u < 0xD800 ∨ 0xE000 ≤ u) (before : List Char)
    (rest : List Nat) : textFrom before (u :: rest) = textFrom (Char.ofNat u :: before) rest := by
  have hhigh : isHigh u = false := by simp [isHigh]; omega
  have hlow : isLow u = false := by simp [isLow]; omega
  cases rest <;> simp [textFrom, hhigh, hlow]

/-- A high surrogate and a low one are one character. -/
theorem textFrom_pair {u v : Nat} (hu : isHigh u = true) (hv : isLow v = true)
    (before : List Char) (rest : List Nat) :
    textFrom before (u :: v :: rest) = textFrom (pair u v :: before) rest := by
  simp [textFrom, hu, hv]

theorem unitsOf_ofNat {u : Nat} (h : u < 0xD800 ∨ 0xE000 ≤ u) (hmax : u < 0x10000) :
    unitsOf (Char.ofNat u) = [u] := by
  have hvalid : u.isValidChar := by
    unfold Nat.isValidChar
    omega
  have hnat : (Char.ofNat u).toNat = u := Utf8.toNat_val_ofNat hvalid
  rw [unitsOf, hnat, if_pos hmax]

theorem unitsOf_pair {u v : Nat} (hu : isHigh u = true) (hv : isLow v = true) :
    unitsOf (pair u v) = [u, v] := by
  simp only [isHigh, isLow, Bool.and_eq_true, decide_eq_true_eq] at hu hv
  have hvalid : (0x10000 + (u - 0xD800) * 0x400 + (v - 0xDC00)).isValidChar := by
    unfold Nat.isValidChar
    omega
  have hnat : (pair u v).toNat = 0x10000 + (u - 0xD800) * 0x400 + (v - 0xDC00) :=
    Utf8.toNat_val_ofNat hvalid
  have hlarge : ¬0x10000 + (u - 0xD800) * 0x400 + (v - 0xDC00) < 0x10000 := by omega
  rw [unitsOf, hnat, if_neg hlarge]
  simp only [List.cons.injEq, and_true]
  omega

/-- The units of a character: its number, or a high surrogate and a low one that stand for it. -/
theorem unitsOf_cases (c : Char) :
    (∃ u, unitsOf c = [u] ∧ (u < 0xD800 ∨ 0xE000 ≤ u) ∧ u < 0x10000 ∧ Char.ofNat u = c) ∨
    ∃ u v, unitsOf c = [u, v] ∧ isHigh u = true ∧ isLow v = true ∧ pair u v = c := by
  have hvalid : c.toNat.isValidChar := c.valid
  have hc : Char.ofNat c.toNat = c := Char.ofNat_toNat c
  unfold Nat.isValidChar at hvalid
  by_cases hsmall : c.toNat < 0x10000
  · exact .inl ⟨c.toNat, if_pos hsmall, by omega, hsmall, hc⟩
  · refine .inr ⟨_, _, if_neg hsmall, ?_, ?_, ?_⟩
    · simp only [isHigh, Bool.and_eq_true, decide_eq_true_eq]
      omega
    · simp only [isLow, Bool.and_eq_true, decide_eq_true_eq]
      omega
    · have hnumber : 0x10000 + (0xD800 + (c.toNat - 0x10000) / 0x400 - 0xD800) * 0x400 +
          (0xDC00 + (c.toNat - 0x10000) % 0x400 - 0xDC00) = c.toNat := by omega
      rw [pair, hnumber, hc]

theorem textFrom_eq_some {before : List Char} (hunits : ∀ u ∈ us, u < 0x10000)
    (h : textFrom before us = some text) :
    ∃ rest, text = before.reverse ++ rest ∧ us = rest.flatMap unitsOf := by
  -- a unit outside the surrogates, before what is read after it
  have hunit {u : Nat} {rest : List Nat} {before text : List Char} (hu : u < 0x10000)
      (hhigh : ¬isHigh u = true) (hlow : ¬isLow u = true)
      (h : ∃ more, text = (Char.ofNat u :: before).reverse ++ more ∧ rest = more.flatMap unitsOf) :
      ∃ more, text = before.reverse ++ more ∧ u :: rest = more.flatMap unitsOf := by
    obtain ⟨more, rfl, rfl⟩ := h
    simp only [isHigh, isLow, Bool.and_eq_true, decide_eq_true_eq] at hhigh hlow
    refine ⟨Char.ofNat u :: more, by simp, ?_⟩
    rw [List.flatMap_cons, unitsOf_ofNat (by omega) hu, List.singleton_append]
  fun_induction textFrom before us with
  | case1 before =>
    cases h
    exact ⟨[], by simp⟩
  | case2 => cases h
  | case3 before u hsurrogate =>
    cases h
    rw [Bool.or_eq_true, not_or] at hsurrogate
    exact hunit (hunits u List.mem_cons_self) hsurrogate.1 hsurrogate.2 ⟨[], by simp⟩
  | case4 before u v rest hhigh hlow ih =>
    have hrest : ∀ w ∈ rest, w < 0x10000 := fun w hw => hunits w (by simp [hw])
    obtain ⟨more, rfl, rfl⟩ := ih hrest h
    refine ⟨pair u v :: more, by simp, ?_⟩
    rw [List.flatMap_cons, unitsOf_pair hhigh hlow, List.cons_append, List.singleton_append]
  | case5 => cases h
  | case6 => cases h
  | case7 before u v rest hhigh hlow ih =>
    have hrest : ∀ w ∈ v :: rest, w < 0x10000 := fun w hw => hunits w (List.mem_cons_of_mem u hw)
    exact hunit (hunits u List.mem_cons_self) hhigh hlow (ih hrest h)

theorem textFrom_flatMap (before text : List Char) :
    textFrom before (text.flatMap unitsOf) = some (before.reverse ++ text) := by
  induction text generalizing before with
  | nil => simp [textFrom]
  | cons c text ih =>
    rw [List.flatMap_cons]
    rcases unitsOf_cases c with ⟨u, hunits, hu, -, rfl⟩ | ⟨u, v, hunits, hu, hv, rfl⟩
    · rw [hunits, List.singleton_append, textFrom_unit hu, ih]
      simp
    · rw [hunits, List.cons_append, List.singleton_append, textFrom_pair hu hv, ih]
      simp

theorem unitsOf_lt {c : Char} {u : Nat} (h : u ∈ unitsOf c) : u < 0x10000 := by
  rcases unitsOf_cases c with ⟨v, hunits, -, hmax, -⟩ | ⟨v, w, hunits, hv, hw, -⟩
  · rw [hunits, List.mem_singleton] at h
    omega
  · simp only [isHigh, isLow, Bool.and_eq_true, decide_eq_true_eq] at hv hw
    rw [hunits, List.mem_cons, List.mem_singleton] at h
    omega

/-- A byte string is read as a text exactly when it is the UTF-16 spelling of the text. -/
theorem decodeUnits_eq_some_iff :
    (units order bytes).bind decodeUnits = some text ↔ bytes = encode order text := by
  rw [Option.bind_eq_some_iff]
  constructor
  · rintro ⟨us, hunits, htext⟩
    obtain ⟨rfl, hmax⟩ := units_eq_some_iff.1 hunits
    obtain ⟨rest, rfl, rfl⟩ := textFrom_eq_some hmax htext
    rfl
  · rintro rfl
    refine ⟨text.flatMap unitsOf, units_eq_some_iff.2 ⟨rfl, ?_⟩, textFrom_flatMap [] text⟩
    intro u hu
    obtain ⟨c, -, hc⟩ := List.mem_flatMap.1 hu
    exact unitsOf_lt hc

end Utf16

end CacheAudit.Text
