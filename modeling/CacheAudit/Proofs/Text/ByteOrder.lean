import CacheAudit.Text.Utf8

/-!
# The order of strings is the order of their bytes

Strings are compared by code points, and their UTF-8 bytes are compared one by one. Both orders
agree, so a list that ascends as strings ascends as the bytes that are written out.
-/

namespace CacheAudit.Text.Utf8

private theorem lt_or_eq_and {a b : Nat} {p : Prop} (hle : a ≤ b) (h : a = b → p) :
    a < b ∨ a = b ∧ p := by
  rcases Nat.lt_or_eq_of_le hle with hlt | heq
  · exact .inl hlt
  · exact .inr ⟨heq, h heq⟩

private theorem byte_lt_or_eq_and {a b : Nat} {p : Prop} :
    UInt8.ofNat a < UInt8.ofNat b ∨ UInt8.ofNat a = UInt8.ofNat b ∧ p ↔
      a % 256 < b % 256 ∨ a % 256 = b % 256 ∧ p := by
  simp only [UInt8.lt_iff_toNat_lt, ← UInt8.toNat_inj, UInt8.toNat_ofNat', Nat.reducePow]

theorem toNat_val_lt (c : Char) : c.val.toNat < 0x110000 := by
  rcases c.valid with h | h <;> simp at h ⊢ <;> omega

/-- A smaller character is spelled by smaller bytes, whatever follows. The first byte grows with
the length of the spelling; within one length the bytes are digits of the character's number, so
they are compared one by one until they differ. -/
theorem encodeChar_append_lt {c d : Char} (h : c < d) (xs ys : Bytes) :
    String.utf8EncodeChar c ++ xs < String.utf8EncodeChar d ++ ys := by
  have hlt : c.val.toNat < d.val.toNat := h
  have hmax := toNat_val_lt d
  unfold String.utf8EncodeChar
  generalize c.val.toNat = v at hlt
  generalize d.val.toNat = w at hlt hmax
  by_cases v1 : v ≤ 0x7f <;> by_cases v2 : v ≤ 0x7ff <;> by_cases v3 : v ≤ 0xffff <;>
    by_cases w1 : w ≤ 0x7f <;> by_cases w2 : w ≤ 0x7ff <;> by_cases w3 : w ≤ 0xffff <;>
    try omega
  all_goals simp only [v1, v2, v3, w1, w2, w3, if_true, if_false, List.cons_append,
    List.nil_append, List.cons_lt_cons_iff, byte_lt_or_eq_and]
  -- the first bytes differ, or they agree and the digits that follow decide
  all_goals refine lt_or_eq_and (by omega) fun hfirst => ?_
  all_goals omega

theorem encode_lt {xs ys : List Char} (h : xs < ys) : encode xs < encode ys := by
  induction xs generalizing ys with
  | nil =>
    cases ys with
    | nil => exact absurd h (List.lt_irrefl [])
    | cons d ys =>
      obtain ⟨b, bs, hb⟩ := List.exists_cons_of_ne_nil (String.utf8EncodeChar_ne_nil (c := d))
      simp [encode, hb]
  | cons c xs ih =>
    cases ys with
    | nil => exact absurd h (List.not_lt_nil _)
    | cons d ys =>
      rcases List.cons_lt_cons_iff.1 h with hlt | ⟨rfl, hlt⟩
      · exact encodeChar_append_lt hlt (encode xs) (encode ys)
      · exact List.append_left_lt (ih hlt)

/-- One string comes before another exactly when its bytes do. -/
theorem ofString_lt_iff {s t : String} : ofString s < ofString t ↔ s < t := by
  constructor
  · intro h
    apply Classical.byContradiction
    intro hnot
    by_cases heq : s = t
    · subst heq
      exact List.lt_irrefl _ h
    · have hts : t.toList < s.toList := Classical.byContradiction fun hnts =>
        heq (String.le_antisymm hnts hnot)
      exact List.lt_asymm h (encode_lt hts)
  · exact encode_lt

end CacheAudit.Text.Utf8
