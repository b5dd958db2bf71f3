import CacheAudit.Text.Blank

/-!
# Lines of joined texts

A text that is empty or ends in a line feed can be continued without touching its lines: the lines
of the two texts joined are those of the first and then those of the second. Searching a text for a
part finds the parts that stand in it as a contiguous stretch.
-/

namespace CacheAudit.Text

variable {cutAt : Char → Bool} {part text more : List Char}

/-- Cutting a text is what the standard library calls splitting it. -/
theorem segments_eq_splitOnP (cutAt : Char → Bool) (text : List Char) :
    segments cutAt text = text.splitOnP cutAt := by
  induction text with
  | nil => rfl
  | cons c text ih =>
    rw [List.splitOnP_cons_eq_if_modifyHead, ← ih]
    obtain ⟨segment, rest, hsegments⟩ : ∃ segment rest, segments cutAt text = segment :: rest :=
      List.exists_cons_of_ne_nil (ih ▸ List.splitOnP_ne_nil cutAt text)
    have hcons : segments cutAt (c :: text) =
        if cutAt c then [] :: segment :: rest else (c :: segment) :: rest := by
      unfold segments at hsegments ⊢
      rw [List.foldr_cons, hsegments]
    rw [hcons, hsegments]
    rfl

/-- A text is empty or ends in a line feed. -/
def EndsLine (text : List Char) : Prop :=
  text = [] ∨ text.getLast? = some '\n'

theorem lines_append (h : EndsLine text) (more : List Char) :
    lines (text ++ more) = lines text ++ lines more := by
  rcases h with rfl | hlast
  · rfl
  obtain ⟨body, rfl⟩ := List.getLast?_eq_some_iff.1 hlast
  have hcut (rest : List Char) : segments (· == '\n') (body ++ ['\n'] ++ rest) =
      segments (· == '\n') body ++ segments (· == '\n') rest := by
    rw [List.append_assoc, segments_eq_splitOnP, segments_eq_splitOnP, segments_eq_splitOnP]
    exact List.splitOnP_append_cons body rest rfl
  have hne : segments (· == '\n') more ≠ [] := by
    rw [segments_eq_splitOnP]
    exact List.splitOnP_ne_nil _ _
  have hbody : lines (body ++ ['\n']) = segments (· == '\n') body := by
    have hsegments := hcut []
    rw [List.append_nil] at hsegments
    rw [lines, hsegments]
    exact (if_pos List.getLast?_concat).trans List.dropLast_concat
  have hend : (segments (· == '\n') body ++ segments (· == '\n') more).getLast? =
      (segments (· == '\n') more).getLast? := by
    rw [List.getLast?_append, List.getLast?_eq_some_getLast hne, Option.some_or]
  rw [hbody, lines, hcut, hend, lines]
  split
  · rw [List.dropLast_append_of_ne_nil hne]
  · rfl

/-- A part is found exactly when it stands in the text. -/
theorem contains_iff_isInfix : contains part text = true ↔ part <:+: text := by
  induction text with
  | nil => simp [contains]
  | cons c text ih =>
    rw [contains, Bool.or_eq_true, ih, List.isPrefixOf_iff_prefix, List.infix_cons_iff]

/-! ### Sizes -/

theorem length_segments_le (cutAt : Char → Bool) (text : List Char) :
    (segments cutAt text).length ≤ text.length + 1 := by
  rw [segments_eq_splitOnP]
  induction text with
  | nil => exact Nat.le_refl _
  | cons c text ih =>
    rw [List.splitOnP_cons_eq_if_modifyHead]
    split
    · exact Nat.succ_le_succ ih
    · rw [List.length_modifyHead]
      exact Nat.le_succ_of_le ih

theorem length_le_of_mem_segments {segment : List Char} (h : segment ∈ segments cutAt text) :
    segment.length ≤ text.length := by
  rw [segments_eq_splitOnP] at h
  induction text generalizing segment with
  | nil =>
    cases List.mem_singleton.1 h
    exact Nat.le_refl _
  | cons c text ih =>
    obtain ⟨first, rest, hsplit⟩ := List.exists_cons_of_ne_nil (List.splitOnP_ne_nil cutAt text)
    rw [List.splitOnP_cons_eq_if_modifyHead, hsplit] at h
    rw [hsplit] at ih
    split at h
    · rcases List.mem_cons.1 h with rfl | hrest
      · exact Nat.zero_le _
      · exact Nat.le_succ_of_le (ih hrest)
    · rcases List.mem_cons.1 h with rfl | hrest
      · exact Nat.succ_le_succ (ih List.mem_cons_self)
      · exact Nat.le_succ_of_le (ih (List.mem_cons_of_mem first hrest))

/-- A text has at most one line more than it has characters. -/
theorem length_lines_le (text : List Char) : (lines text).length ≤ text.length + 1 := by
  have hsegments := length_segments_le (· == '\n') text
  unfold lines
  dsimp only
  split
  · rw [List.length_dropLast]
    omega
  · exact hsegments

theorem length_le_of_mem_lines {line : List Char} (h : line ∈ lines text) :
    line.length ≤ text.length := by
  unfold lines at h
  dsimp only at h
  split at h
  · exact length_le_of_mem_segments ((List.dropLast_sublist _).subset h)
  · exact length_le_of_mem_segments h

theorem length_trim_le (text : List Char) : (trim text).length ≤ text.length := by
  have hend (front : List Char) : (trimEnd front).length ≤ front.length := by
    have hreverse : front.reverse.length = front.length := List.length_reverse
    rw [trimEnd, List.length_reverse, ← hreverse]
    exact (List.dropWhile_sublist _).length_le
  exact Nat.le_trans (hend _) (List.dropWhile_sublist _).length_le

theorem length_words_le (text : List Char) : (words text).length ≤ text.length + 1 :=
  Nat.le_trans (List.length_filter_le _ _) (length_segments_le isBlank text)

end CacheAudit.Text
