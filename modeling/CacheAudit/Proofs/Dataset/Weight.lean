import CacheAudit.Dataset.Weight
import Mathlib.Data.List.TakeWhile

/-!
# What a single cell weighs

A cell weighs what its number says, whether or not a percent sign follows the number. The two cases
exclude each other: no number has a percent sign in it, so it does not matter that the reader takes
the sign away before it looks for the number.
-/

namespace CacheAudit

/-! ### Numbers have no percent sign -/

namespace Decimal

variable {text : List Char}

theorem percent_mem_splitSign (h : '%' ∈ text) : '%' ∈ (splitSign text).2 := by
  unfold splitSign
  split
  · exact (List.mem_cons.1 h).resolve_left (by decide)
  · exact (List.mem_cons.1 h).resolve_left (by decide)
  · exact h

theorem percent_mem_dropWhile (h : '%' ∈ text) : '%' ∈ text.dropWhile isDigit := by
  rw [← List.takeWhile_append_dropWhile (p := isDigit) (l := text), List.mem_append] at h
  refine h.resolve_left fun hdigit => ?_
  exact absurd (List.mem_takeWhile_imp hdigit) (by decide)

theorem natural?_of_percent (h : '%' ∈ text) : natural? text = none := by
  have hall : text.all isDigit = false :=
    List.all_eq_false.2 ⟨'%', h, by decide⟩
  rw [natural?, hall]
  simp

theorem exponent?_of_percent (h : '%' ∈ text) : exponent? text = none := by
  unfold exponent?
  dsimp only
  rw [natural?_of_percent (percent_mem_splitSign h)]
  rfl

/-- Neither the digits nor an exponent after them take a percent sign in. -/
theorem magnitude?_of_percent (h : '%' ∈ text) : magnitude? text = none := by
  have hdropped := percent_mem_dropWhile h
  unfold magnitude?
  split
  rename_i decimals rest hsplit
  have hrest : '%' ∈ rest := by
    split at hsplit
    · rename_i after hpoint
      cases hsplit
      rw [hpoint] at hdropped
      exact percent_mem_dropWhile ((List.mem_cons.1 hdropped).resolve_left (by decide))
    · cases hsplit
      exact hdropped
  dsimp only
  split
  · rfl
  cases rest with
  | nil => cases hrest
  | cons c after =>
    dsimp only
    split
    · rename_i hmark
      have hafter : '%' ∈ after := by
        refine (List.mem_cons.1 hrest).resolve_left ?_
        rintro rfl
        exact absurd hmark (by decide)
      rw [exponent?_of_percent hafter]
      rfl
    · rfl

theorem word_ne_of_percent (h : '%' ∈ text) {word : String} (hword : '%' ∉ word.toList) :
    String.ofList (text.map Char.toLower) ≠ word := by
  rintro rfl
  rw [String.toList_ofList] at hword
  exact hword (List.mem_map.2 ⟨'%', h, by decide⟩)

/-- A text with a percent sign in it is no number. -/
theorem float?_of_percent (h : '%' ∈ text) : float? text = none := by
  have hrest := percent_mem_splitSign h
  unfold float?
  dsimp only
  rw [if_neg (not_or.2 ⟨word_ne_of_percent hrest (by decide),
      word_ne_of_percent hrest (by decide)⟩),
    if_neg (word_ne_of_percent hrest (by decide)), magnitude?_of_percent hrest]
  rfl

end Decimal

namespace Dataset

/-- A cell weighs `x` if it is a finite number `x`, with at most one percent sign after it and
blanks around either. -/
def Weighs (text : String) (x : Float) : Prop :=
  ∃ number, (Text.trim text.toList = number ∨ Text.trim text.toList = number ++ ['%']) ∧
    Decimal.float? (Text.trim number) = some x ∧ x.isFinite = true

theorem mem_trim {c : Char} {text : List Char} (hc : Text.isBlank c = false) (h : c ∈ text) :
    c ∈ Text.trim text := by
  have hkeep {text : List Char} (h : c ∈ text) : c ∈ text.dropWhile Text.isBlank := by
    rw [← List.takeWhile_append_dropWhile (p := Text.isBlank) (l := text), List.mem_append] at h
    refine h.resolve_left fun hblank => ?_
    rw [List.mem_takeWhile_imp hblank] at hc
    cases hc
  exact List.mem_reverse.2 (hkeep (List.mem_reverse.2 (hkeep h)))

theorem weight?_eq_filter (cell : List Char) :
    weight? cell =
      (Decimal.float? (Text.trim (dropPercent (Text.trim cell)))).filter Float.isFinite := by
  rw [weight?]
  cases Decimal.float? (Text.trim (dropPercent (Text.trim cell))) <;> rfl

/-- There are no two ways to read the weight of a cell: what ends in a percent sign is no number. -/
theorem weight?_eq_some_iff {text : String} {x : Float} :
    weight? text.toList = some x ↔ Weighs text x := by
  rw [weight?_eq_filter, Option.filter_eq_some_iff, Weighs]
  constructor
  · intro h
    refine ⟨dropPercent (Text.trim text.toList), ?_, h⟩
    unfold dropPercent
    split
    · rename_i hlast
      obtain ⟨number, hnumber⟩ := List.getLast?_eq_some_iff.1 hlast
      exact .inr (by rw [hnumber, List.dropLast_concat])
    · exact .inl rfl
  · rintro ⟨number, hwhole | hsign, hnumber⟩
    · have hlast : number.getLast? ≠ some '%' := by
        intro hlast
        rw [Decimal.float?_of_percent (mem_trim (by decide) (List.mem_of_getLast? hlast))]
          at hnumber
        cases hnumber.1
      rwa [hwhole, dropPercent, if_neg hlast]
    · rwa [hsign, dropPercent, if_pos List.getLast?_concat, List.dropLast_concat]

end Dataset

end CacheAudit
