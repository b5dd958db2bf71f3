import CacheAudit.Dataset.Encoding
import CacheAudit.Proofs.Text.Decoding

/-!
# Which bytes a text can come from

A text is spelled by four byte strings at most: in UTF-8 or in UTF-16 of either order after the
byte order mark of that form, and in UTF-8 without a mark, unless the text itself begins with
U+FEFF. A dataset file is read as a text exactly when it is one of these; every other file is a
problem of line 0 of its source.
-/

namespace CacheAudit.Dataset

open Text (Utf8.encode Utf8.decode_eq_ok_iff Utf16.encode)

variable {source : String} {bytes mark rest : Bytes} {text : List Char}

/-- The byte strings that spell a text. -/
inductive Spells (text : List Char) : Bytes → Prop
  | markedUtf8 : Spells text (utf8Mark ++ Utf8.encode text)
  | markedUtf16 (order : Text.Utf16.Order) :
    Spells text (utf16Mark order ++ Utf16.encode order text)
  | plainUtf8 (h : text.head? ≠ some '\ufeff') : Spells text (Utf8.encode text)

theorem after?_eq_some_iff : after? mark bytes = some rest ↔ bytes = mark ++ rest := by
  fun_induction after? mark bytes with
  | case1 bytes => simp
  | case2 m mark bytes ih => simpa using ih
  | case3 m mark b bytes hne => simp [Ne.symm hne]
  | case4 m mark => simp

theorem after?_append : after? mark (mark ++ rest) = some rest :=
  after?_eq_some_iff.2 rfl

theorem decodeUtf8_eq_ok_iff : decodeUtf8 source bytes = .ok text ↔ bytes = Utf8.encode text := by
  rw [← Utf8.decode_eq_ok_iff, decodeUtf8]
  cases Text.Utf8.decode bytes <;> simp

theorem decodeUtf16_eq_ok_iff {order : Text.Utf16.Order} :
    decodeUtf16 source order bytes = .ok text ↔ bytes = Utf16.encode order text := by
  rw [← Text.Utf16.decodeUnits_eq_some_iff, decodeUtf16]
  cases Text.Utf16.units order bytes with
  | none => simp
  | some us =>
    dsimp only [Option.bind_some]
    cases Text.Utf16.decodeUnits us <;> simp

/-- What is no text is a problem of line 0. -/
theorem exists_of_decodeUtf8 {p : Problem} (h : decodeUtf8 source bytes = .error p) :
    ∃ reason, p = .datasetParse source 0 reason := by
  rw [decodeUtf8] at h
  split at h
  · cases h
  · cases h
    exact ⟨_, rfl⟩

theorem exists_of_decodeUtf16 {order : Text.Utf16.Order} {p : Problem}
    (h : decodeUtf16 source order bytes = .error p) :
    ∃ reason, p = .datasetParse source 0 reason := by
  rw [decodeUtf16] at h
  split at h
  · cases h
    exact ⟨_, rfl⟩
  split at h
  · cases h
  · cases h
    exact ⟨_, rfl⟩

/-! ### The marks -/

/-- The UTF-8 spelling of a text has the byte order mark in front when the text begins with
U+FEFF, and only then. -/
theorem after?_utf8Mark_encode :
    (after? utf8Mark (Utf8.encode text)).isSome = true ↔ text.head? = some '\ufeff' := by
  have hmark : utf8Mark = String.utf8EncodeChar '\ufeff' := by decide
  constructor
  · intro h
    obtain ⟨rest, hrest⟩ := Option.isSome_iff_exists.1 h
    have hpieces := Text.Utf8.pieces_encode text
    rw [after?_eq_some_iff.1 hrest, Text.Utf8.pieces_eq_scan, hmark, Text.Utf8.scan_encodeChar]
      at hpieces
    obtain ⟨c, more, rfl, hc, -⟩ := List.map_eq_cons_iff.1 hpieces.symm
    cases hc
    rfl
  · intro h
    obtain ⟨more, rfl⟩ := List.head?_eq_some_iff.1 h
    have hencode : Utf8.encode ('\ufeff' :: more) = utf8Mark ++ Utf8.encode more := by
      rw [hmark]
      rfl
    rw [hencode, after?_append]
    rfl

/-- No UTF-8 spelling begins with a byte order mark of UTF-16. -/
theorem after?_utf16Mark_encode (order : Text.Utf16.Order) (text : List Char) :
    after? (utf16Mark order) (Utf8.encode text) = none := by
  rw [Option.eq_none_iff_forall_ne_some]
  intro rest h
  have hpieces := Text.Utf8.pieces_encode text
  rw [after?_eq_some_iff.1 h, Text.Utf8.pieces_eq_scan] at hpieces
  have hdamaged : ∃ more, Text.Utf8.scan .start (utf16Mark order ++ rest) = .damaged 1 :: more := by
    cases order <;> exact ⟨_, rfl⟩
  obtain ⟨more, hmore⟩ := hdamaged
  rw [hmore] at hpieces
  obtain ⟨c, -, -, hc, -⟩ := List.map_eq_cons_iff.1 hpieces.symm
  cases hc

theorem after?_mark_of_mark (order : Text.Utf16.Order) (rest : Bytes) :
    after? utf8Mark (utf16Mark order ++ rest) = none := by
  cases order <;> rfl

/-! ### Lengths -/

theorem length_le_length_flatMap {α β : Type} {f : α → List β} (h : ∀ x, f x ≠ []) (xs : List α) :
    xs.length ≤ (xs.flatMap f).length := by
  induction xs with
  | nil => exact Nat.le_refl 0
  | cons x xs ih =>
    have hx : 0 < (f x).length := List.length_pos_iff.2 (h x)
    rw [List.flatMap_cons, List.length_append, List.length_cons]
    omega

/-- No character is spelled by less than a byte. -/
theorem Spells.length_le (h : Spells text bytes) : text.length ≤ bytes.length := by
  have hutf8 : text.length ≤ (Utf8.encode text).length :=
    length_le_length_flatMap (fun _ => String.utf8EncodeChar_ne_nil) text
  have hutf16 (order : Text.Utf16.Order) : text.length ≤ (Utf16.encode order text).length := by
    refine Nat.le_trans (length_le_length_flatMap (fun c => ?_) text)
      (length_le_length_flatMap (fun u => ?_) (text.flatMap Text.Utf16.unitsOf))
    · rcases Text.Utf16.unitsOf_cases c with ⟨u, hunits, -⟩ | ⟨u, v, hunits, -⟩ <;> simp [hunits]
    · cases order <;> exact List.cons_ne_nil _ _
  cases h with
  | markedUtf8 =>
    rw [List.length_append]
    omega
  | markedUtf16 order =>
    rw [List.length_append]
    exact Nat.le_add_left_of_le (hutf16 order)
  | plainUtf8 => exact hutf8

/-! ### Files -/

/-- A spelling of a text is read as the text. -/
theorem textOf_of_spells (source : String) (h : Spells text bytes) :
    textOf source bytes = .ok text := by
  cases h with
  | markedUtf8 =>
    rw [textOf, after?_append]
    exact decodeUtf8_eq_ok_iff.2 rfl
  | markedUtf16 order =>
    rw [textOf, after?_mark_of_mark]
    cases order with
    | little =>
      rw [after?_append]
      exact decodeUtf16_eq_ok_iff.2 rfl
    | big =>
      have hlittle : after? (utf16Mark .little) (utf16Mark .big ++ Utf16.encode .big text) = none :=
        rfl
      rw [hlittle, after?_append]
      exact decodeUtf16_eq_ok_iff.2 rfl
  | plainUtf8 hhead =>
    have hmark : after? utf8Mark (Utf8.encode text) = none := by
      rwa [← Option.not_isSome_iff_eq_none, after?_utf8Mark_encode]
    rw [textOf, hmark, after?_utf16Mark_encode, after?_utf16Mark_encode]
    exact decodeUtf8_eq_ok_iff.2 rfl

/-- What is read as a text spells it. -/
theorem spells_of_textOf (h : textOf source bytes = .ok text) : Spells text bytes := by
  unfold textOf at h
  split at h
  · rename_i rest hrest
    rw [after?_eq_some_iff.1 hrest, decodeUtf8_eq_ok_iff.1 h]
    exact .markedUtf8
  rename_i hmark
  split at h
  · rename_i rest hrest
    rw [after?_eq_some_iff.1 hrest, decodeUtf16_eq_ok_iff.1 h]
    exact .markedUtf16 .little
  split at h
  · rename_i rest hrest
    rw [after?_eq_some_iff.1 hrest, decodeUtf16_eq_ok_iff.1 h]
    exact .markedUtf16 .big
  · rw [decodeUtf8_eq_ok_iff.1 h] at hmark ⊢
    refine .plainUtf8 ?_
    rwa [Ne, ← after?_utf8Mark_encode, Option.not_isSome_iff_eq_none]

theorem exists_of_textOf {p : Problem} (h : textOf source bytes = .error p) :
    ∃ reason, p = .datasetParse source 0 reason := by
  unfold textOf at h
  split at h
  · exact exists_of_decodeUtf8 h
  split at h
  · exact exists_of_decodeUtf16 h
  split at h
  · exact exists_of_decodeUtf16 h
  · exact exists_of_decodeUtf8 h

theorem message_datasetParse_zero (source reason : String) :
    (Problem.datasetParse source 0 reason).message = source ++ ":0: " ++ reason := by
  have hline : source ++ ":" ++ "0" ++ ": " = source ++ ":0: " := by
    rw [String.append_assoc, String.append_assoc]
    exact congrArg (source ++ ·) (by decide)
  exact congrArg (· ++ reason) hline

/-- A file is read as a text exactly when its bytes spell the text. A file that spells no text is
reported as an invalid dataset, with its source as the path and line 0. -/
theorem textOf_accepts_spellings (source : String) (bytes : Bytes) :
    (∀ text, textOf source bytes = .ok text ↔ Spells text bytes) ∧
    ((∀ text, ¬Spells text bytes) ↔ ∃ reason,
      textOf source bytes = .error (.datasetParse source 0 reason) ∧
      (Problem.datasetParse source 0 reason).toFailure =
        { kind := .invalidDataset, op := some "load_dataset", path := some source
          message := source ++ ":0: " ++ reason }) := by
  have hiff (text : List Char) : textOf source bytes = .ok text ↔ Spells text bytes :=
    ⟨spells_of_textOf, textOf_of_spells source⟩
  refine ⟨hiff, ?_, ?_⟩
  · intro hnone
    cases htext : textOf source bytes with
    | ok text => exact absurd (spells_of_textOf htext) (hnone text)
    | error p =>
      obtain ⟨reason, rfl⟩ := exists_of_textOf htext
      refine ⟨reason, rfl, ?_⟩
      rw [Problem.toFailure, message_datasetParse_zero]
      rfl
  · rintro ⟨reason, htext, -⟩ text hspells
    rw [textOf_of_spells source hspells] at htext
    cases htext

end CacheAudit.Dataset
