import CacheAudit.Proofs.Json.Tokens
import CacheAudit.Proofs.Text.Lossy

/-!
# Documents are read as they were written

A document may be laid out with white space around its parts. However it is laid out, the reader
answers the document as written: the same texts and integers in the same places. Reals are left
out, since a real that is infinite or no number is written as `null`.
-/

namespace CacheAudit.Json

/-! ### Layouts -/

/-- White space, or nothing. -/
def IsBlank (text : List Char) : Prop :=
  ∀ c ∈ text, isSpace (some c) = true

theorem isBlank_nil : IsBlank [] := by
  rintro c ⟨⟩

/-- The white space of a document: before the parts and the closing mark of a container at a level
of nesting, and after the colon of a field. -/
structure Layout where
  gap : Nat → List Char
  colon : List Char
  gap_blank : ∀ level, IsBlank (gap level)
  colon_blank : IsBlank colon

namespace Layout

/-- No white space at all. -/
def tight : Layout where
  gap _ := []
  colon := []
  gap_blank _ := isBlank_nil
  colon_blank := isBlank_nil

/-- Every part on a line of its own. -/
def indented : Layout where
  gap := newline
  colon := [' ']
  gap_blank := by
    intro level c hc
    rcases List.mem_cons.1 hc with rfl | hc
    · rfl
    · rw [List.eq_of_mem_replicate hc]
      rfl
  colon_blank := by simp [IsBlank, isSpace]

mutual

/-- A value at a level of nesting. -/
def chars (w : Layout) (level : Nat) : Json → List Char
  | .array [] => ['[', ']']
  | .array (v :: rest) => '[' :: items w (level + 1) (v :: rest) ++ w.gap level ++ [']']
  | .object [] => ['\x7b', '\x7d']
  | .object (f :: rest) =>
    '\x7b' :: fields w (level + 1) (f :: rest) ++ w.gap level ++ ['\x7d']
  | .null => atomText .null
  | .bool b => atomText (.bool b)
  | .integer n => atomText (.integer n)
  | .real x => atomText (.real x)
  | .text s => atomText (.text s)

/-- The items of an array at a level of nesting. -/
def items (w : Layout) (level : Nat) : List Json → List Char
  | [] => []
  | [v] => w.gap level ++ chars w level v
  | v :: rest => w.gap level ++ chars w level v ++ ',' :: items w level rest

/-- The fields of an object at a level of nesting. -/
def fields (w : Layout) (level : Nat) : List (String × Json) → List Char
  | [] => []
  | [(k, v)] => w.gap level ++ quote k ++ ':' :: w.colon ++ chars w level v
  | (k, v) :: rest =>
    w.gap level ++ quote k ++ ':' :: w.colon ++ chars w level v ++ ',' :: fields w level rest

end

theorem items_cons_cons (w : Layout) (level : Nat) (v v' : Json) (rest : List Json) :
    w.items level (v :: v' :: rest) =
      w.gap level ++ w.chars level v ++ ',' :: w.items level (v' :: rest) := by
  rw [items]
  simp

theorem fields_cons_cons (w : Layout) (level : Nat) (k : String) (v : Json) (f : String × Json)
    (rest : List (String × Json)) : w.fields level ((k, v) :: f :: rest) =
      w.gap level ++ quote k ++ ':' :: w.colon ++ w.chars level v ++
        ',' :: w.fields level (f :: rest) := by
  rw [fields]
  simp

mutual

theorem chars_tight (level : Nat) : ∀ v, tight.chars level v = compactChars v
  | .array [] => by simp [chars, compactChars, compactItems]
  | .array (v :: rest) => by
    rw [chars, compactChars, items_tight (level + 1) (v :: rest)]
    simp [tight]
  | .object [] => by simp [chars, compactChars, compactFields]
  | .object (f :: rest) => by
    rw [chars, compactChars, fields_tight (level + 1) (f :: rest)]
    simp [tight]
  | .null => by rw [chars, compactChars]
  | .bool b => by rw [chars, compactChars]
  | .integer n => by rw [chars, compactChars]
  | .real x => by rw [chars, compactChars]
  | .text s => by rw [chars, compactChars]

theorem items_tight (level : Nat) : ∀ vs, tight.items level vs = compactItems vs
  | [] => by rw [items, compactItems]
  | [v] => by
    rw [items, compactItems, chars_tight level v]
    simp [tight]
  | v :: v' :: rest => by
    rw [items_cons_cons, compactItems, chars_tight level v, items_tight level (v' :: rest)]
    · simp [tight]
    · simp

theorem fields_tight (level : Nat) : ∀ fs, tight.fields level fs = compactFields fs
  | [] => by rw [fields, compactFields]
  | [(k, v)] => by
    rw [fields, compactFields, chars_tight level v]
    simp [tight]
  | (k, v) :: f :: rest => by
    rw [fields_cons_cons, compactFields, chars_tight level v, fields_tight level (f :: rest)]
    · simp [tight]
    · simp

end

mutual

theorem chars_indented (level : Nat) : ∀ v, indented.chars level v = prettyChars level v
  | .array [] => by rw [chars, prettyChars]
  | .array (v :: rest) => by
    rw [chars, prettyChars, items_indented (level + 1) (v :: rest)]
    rfl
  | .object [] => by rw [chars, prettyChars]
  | .object (f :: rest) => by
    rw [chars, prettyChars, fields_indented (level + 1) (f :: rest)]
    rfl
  | .null => by rw [chars, prettyChars]
  | .bool b => by rw [chars, prettyChars]
  | .integer n => by rw [chars, prettyChars]
  | .real x => by rw [chars, prettyChars]
  | .text s => by rw [chars, prettyChars]

theorem items_indented (level : Nat) : ∀ vs, indented.items level vs = prettyItems level vs
  | [] => by rw [items, prettyItems]
  | [v] => by
    rw [items, prettyItems, chars_indented level v]
    rfl
  | v :: v' :: rest => by
    rw [items_cons_cons, prettyItems, chars_indented level v, items_indented level (v' :: rest)]
    · rfl
    · simp

theorem fields_indented (level : Nat) : ∀ fs, indented.fields level fs = prettyFields level fs
  | [] => by rw [fields, prettyFields]
  | [(k, v)] => by
    rw [fields, prettyFields, chars_indented level v]
    simp [indented]
  | (k, v) :: f :: rest => by
    rw [fields_cons_cons, prettyFields, chars_indented level v,
      fields_indented level (f :: rest)]
    · simp [indented]
    · simp

end

end Layout

/-! ### Documents as written -/

mutual

/-- Whether a document holds no reals. -/
def isExact : Json → Bool
  | .null | .bool _ | .integer _ | .text _ => true
  | .real _ => false
  | .array items => itemsExact items
  | .object fields => fieldsExact fields

/-- Whether the items of an array hold no reals. -/
def itemsExact : List Json → Bool
  | [] => true
  | v :: rest => isExact v && itemsExact rest

/-- Whether the fields of an object hold no reals. -/
def fieldsExact : List (String × Json) → Bool
  | [] => true
  | (_, v) :: rest => isExact v && fieldsExact rest

end

theorem itemsExact_iff {vs : List Json} :
    itemsExact vs = true ↔ ∀ v ∈ vs, isExact v = true := by
  induction vs with
  | nil => simp [itemsExact]
  | cons v rest ih => simp [itemsExact, ih]

theorem fieldsExact_iff {fs : List (String × Json)} :
    fieldsExact fs = true ↔ ∀ f ∈ fs, isExact f.2 = true := by
  induction fs with
  | nil => simp [fieldsExact]
  | cons f rest ih => simp [fieldsExact, ih]

mutual

/-- A document as written. What a real is written as is left open. -/
def written : Json → Raw
  | .null => .null
  | .bool b => .bool b
  | .integer n => .number (.ofInt n)
  | .real _ => .null
  | .text s => .text (Piece.ofText s)
  | .array items => .array (writtenItems items)
  | .object fields => .object (writtenFields fields)

/-- The items of an array as written. -/
def writtenItems : List Json → List Raw
  | [] => []
  | v :: rest => written v :: writtenItems rest

/-- The fields of an object as written. -/
def writtenFields : List (String × Json) → List (List Piece × Raw)
  | [] => []
  | (k, v) :: rest => (Piece.ofText k, written v) :: writtenFields rest

end

theorem writtenItems_eq_map (vs : List Json) : writtenItems vs = vs.map written := by
  induction vs with
  | nil => rfl
  | cons v rest ih => rw [writtenItems, ih, List.map_cons]

theorem writtenFields_eq_map (fs : List (String × Json)) :
    writtenFields fs = fs.map fun f => (Piece.ofText f.1, written f.2) := by
  induction fs with
  | nil => rfl
  | cons f rest ih => rw [writtenFields, ih, List.map_cons]

/-! ### White space -/

theorem skip_blank {blank : List Char} (h : IsBlank blank) (rest : Source) :
    skip (blank.map some ++ rest) = skip rest := by
  induction blank with
  | nil => rfl
  | cons c blank ih =>
    have hc := h c List.mem_cons_self
    rw [List.map_cons, List.cons_append, skip, List.dropWhile_cons_of_pos hc]
    exact ih fun c' hc' => h c' (List.mem_cons_of_mem c hc')

theorem skip_of_not_space {c : Char} (h : isSpace (some c) = false) (rest : Source) :
    skip (some c :: rest) = some c :: rest := by
  simp [skip, h]

theorem skip_skip (input : Source) : skip (skip input) = skip input := by
  induction input with
  | nil => rfl
  | cons c rest ih =>
    by_cases hc : isSpace c = true
    · have hgo : skip (c :: rest) = skip rest := List.dropWhile_cons_of_pos hc
      rw [hgo, ih]
    · have hstop : skip (c :: rest) = c :: rest := List.dropWhile_cons_of_neg hc
      rw [hstop, hstop]

theorem value?_skip (fuel : Nat) (input : Source) :
    value? fuel (skip input) = value? fuel input := by
  cases fuel with
  | zero => rw [value?, value?]
  | succ fuel => rw [value?, value?, skip_skip]

theorem value?_blank (fuel : Nat) {blank : List Char} (h : IsBlank blank) (rest : Source) :
    value? fuel (blank.map some ++ rest) = value? fuel rest := by
  rw [← value?_skip, skip_blank h, value?_skip]

theorem items?_skip (fuel : Nat) (input : Source) :
    items? fuel (skip input) = items? fuel input := by
  cases fuel with
  | zero => rw [items?, items?]
  | succ fuel => rw [items?, items?, value?_skip]

theorem fields?_skip (fuel : Nat) (input : Source) :
    fields? fuel (skip input) = fields? fuel input := by
  cases fuel with
  | zero => rw [fields?, fields?]
  | succ fuel => rw [fields?, fields?, skip_skip]

theorem ends_of_blank {blank : List Char} (h : IsBlank blank) {rest : Source}
    (hrest : Ends rest) : Ends (blank.map some ++ rest) := by
  cases blank with
  | nil => exact hrest
  | cons c blank =>
    have hspace : isSpace (some c) = true := h c List.mem_cons_self
    simp only [isSpace, Bool.or_eq_true, decide_eq_true_eq] at hspace
    refine ends_cons ?_ _
    rcases hspace with ((rfl | rfl) | rfl) | rfl <;> decide

/-! ### Reading -/

theorem isSpace_of_isDigit {c : Char} (h : Decimal.isDigit c = true) :
    isSpace (some c) = false := by
  rw [← Bool.not_eq_true]
  intro hspace
  simp only [isSpace, Bool.or_eq_true, decide_eq_true_eq] at hspace
  rcases hspace with ((rfl | rfl) | rfl) | rfl <;> exact absurd h (by decide)

/-- A source that begins with a digit is a number. -/
theorem value?_digit {c : Char} (h : Decimal.isDigit c = true) (fuel : Nat) (rest : Source) :
    value? (fuel + 1) (some c :: rest) =
      (numeral? false (some c :: rest)).map fun (n, r) => (.number n, r) := by
  rw [value?, skip_of_not_space (isSpace_of_isDigit h)]
  split
  case h_8 => rfl
  all_goals
    rename_i heq
    cases heq
    exact absurd h (by decide)

theorem value?_integer (n : Int) (fuel : Nat) {rest : Source} (h : Ends rest) :
    value? (fuel + 1) ((integerText n).map some ++ rest) = some (.number (.ofInt n), rest) := by
  obtain ⟨d, ds, hdigits⟩ := List.exists_cons_of_ne_nil (Decimal.digitsOf_ne_nil n.natAbs)
  unfold integerText
  split
  · rename_i hneg
    have hnumeral := numeral?_digitsOf true n.natAbs h
    simp [value?, skip, isSpace, hnumeral, Numeral.ofInt, hneg]
  · rename_i hpos
    have hnumeral := numeral?_digitsOf false n.natAbs h
    have hd : Decimal.isDigit d = true :=
      Decimal.isDigit_digitsOf (n := n.natAbs) (hdigits ▸ List.mem_cons_self)
    rw [hdigits, List.map_cons, List.cons_append] at hnumeral ⊢
    rw [value?_digit hd, hnumeral]
    simp [Numeral.ofInt, hpos, hdigits]

theorem value?_text (s : String) (fuel : Nat) (rest : Source) :
    value? (fuel + 1) ((quote s).map some ++ rest) = some (.text (Piece.ofText s), rest) := by
  have hskip := skip_of_not_space (c := '"') (by decide)
    ((s.toList.flatMap escapeChar ++ ['"']).map some ++ rest)
  rw [quote, List.cons_append, List.map_cons, List.cons_append, value?, hskip]
  simp only [string?_quote, Option.map_some]

/-- What does not close an array is its items. -/
theorem value?_array {fuel : Nat} {inner : Source} (h : ∀ rest, skip inner ≠ some ']' :: rest) :
    value? (fuel + 1) (some '[' :: inner) =
      (items? fuel inner).map fun (vs, r) => (.array vs, r) := by
  rw [value?, skip_of_not_space (by decide)]
  simp only [items?_skip]

/-- What does not close an object is its fields. -/
theorem value?_object {fuel : Nat} {inner : Source}
    (h : ∀ rest, skip inner ≠ some '\x7d' :: rest) :
    value? (fuel + 1) (some '\x7b' :: inner) =
      (fields? fuel inner).map fun (fs, r) => (.object fs, r) := by
  rw [value?, skip_of_not_space (by decide)]
  simp only [fields?_skip]

section Field

variable {fuel : Nat} {blank : List Char} {k : String} {v : Raw} {inner tail rest : Source}

/-- A name and a colon are read before the value of a field. -/
theorem fields?_name (k : String) (inner : Source) (hblank : IsBlank blank) :
    skip (blank.map some ++ ((quote k).map some ++ some ':' :: inner)) =
        some '"' :: ((k.toList.flatMap escapeChar ++ ['"']).map some ++ some ':' :: inner) ∧
      skip (some ':' :: inner) = some ':' :: inner := by
  rw [skip_blank hblank, quote, List.cons_append, List.map_cons, List.cons_append]
  exact ⟨skip_of_not_space (by decide) _, skip_of_not_space (by decide) _⟩

theorem fields?_last (hblank : IsBlank blank) (hvalue : value? fuel inner = some (v, tail))
    (htail : skip tail = some '\x7d' :: rest) :
    fields? (fuel + 1) (blank.map some ++ ((quote k).map some ++ some ':' :: inner)) =
      some ([(Piece.ofText k, v)], rest) := by
  obtain ⟨hname, hcolon⟩ := fields?_name k inner hblank
  rw [fields?, hname]
  simp only [string?_quote, hcolon, hvalue, htail]

theorem fields?_more (hblank : IsBlank blank) (hvalue : value? fuel inner = some (v, tail))
    (htail : skip tail = some ',' :: rest) :
    fields? (fuel + 1) (blank.map some ++ ((quote k).map some ++ some ':' :: inner)) =
      (fields? fuel rest).map fun (fs, r) => ((Piece.ofText k, v) :: fs, r) := by
  obtain ⟨hname, hcolon⟩ := fields?_name k inner hblank
  rw [fields?, hname]
  simp only [string?_quote, hcolon, hvalue, htail]

end Field

theorem integerText_eq_cons (n : Int) : ∃ c more, integerText n = c :: more ∧
    (Decimal.isDigit c = true ∨ c = '-') := by
  unfold integerText
  split
  · exact ⟨_, _, rfl, .inr rfl⟩
  · obtain ⟨d, ds, hdigits⟩ := List.exists_cons_of_ne_nil (Decimal.digitsOf_ne_nil n.natAbs)
    exact ⟨d, ds, hdigits,
      .inl (Decimal.isDigit_digitsOf (n := n.natAbs) (hdigits ▸ List.mem_cons_self))⟩

namespace Layout

variable (w : Layout) (level : Nat)

/-- A value begins with a mark of its own, neither white space nor the end of an array. -/
theorem chars_eq_cons {v : Json} (h : isExact v = true) : ∃ c more, w.chars level v = c :: more ∧
    isSpace (some c) = false ∧ c ≠ ']' := by
  cases v with
  | null => exact ⟨_, _, by rw [chars, atomText], by decide, by decide⟩
  | bool b => cases b <;> exact ⟨_, _, by rw [chars, atomText], by decide, by decide⟩
  | integer n =>
    obtain ⟨c, more, htext, hc⟩ := integerText_eq_cons n
    refine ⟨c, more, by rw [chars, atomText, htext], ?_⟩
    rcases hc with hdigit | rfl
    · refine ⟨isSpace_of_isDigit hdigit, ?_⟩
      rintro rfl
      exact absurd hdigit (by decide)
    · exact ⟨by decide, by decide⟩
  | real x => simp [isExact] at h
  | text s => exact ⟨_, _, by rw [chars, atomText, quote, List.cons_append], by decide, by decide⟩
  | array items =>
    cases items with
    | nil => exact ⟨_, _, by rw [chars], by decide, by decide⟩
    | cons v rest => exact ⟨_, _, by rw [chars]; rfl, by decide, by decide⟩
  | object fields =>
    cases fields with
    | nil => exact ⟨_, _, by rw [chars], by decide, by decide⟩
    | cons f rest => exact ⟨_, _, by rw [chars]; rfl, by decide, by decide⟩

theorem items_eq_append (v : Json) (vs : List Json) :
    ∃ more, w.items level (v :: vs) = w.gap level ++ (w.chars level v ++ more) := by
  cases vs with
  | nil => exact ⟨[], by simp [items]⟩
  | cons v' rest => exact ⟨',' :: w.items level (v' :: rest), by simp [items]⟩

theorem fields_eq_append (k : String) (v : Json) (fs : List (String × Json)) :
    ∃ more, w.fields level ((k, v) :: fs) = w.gap level ++ '"' :: more := by
  cases fs with
  | nil => exact ⟨_, by simp [fields, quote]; rfl⟩
  | cons f rest => exact ⟨_, by simp [fields, quote]; rfl⟩

/-- The items of an array do not begin with its end. -/
theorem skip_items_ne {v : Json} (hv : isExact v = true) (vs : List Json) (tail rest : Source) :
    skip ((w.items level (v :: vs)).map some ++ tail) ≠ some ']' :: rest := by
  obtain ⟨more, hitems⟩ := items_eq_append w level v vs
  obtain ⟨c, text, hchars, hspace, hc⟩ := chars_eq_cons w level hv
  rw [hitems, List.map_append, List.append_assoc, skip_blank (w.gap_blank level), hchars]
  simp only [List.cons_append, List.map_cons]
  rw [skip_of_not_space hspace]
  rintro ⟨⟩
  exact hc rfl

/-- The fields of an object do not begin with its end. -/
theorem skip_fields_ne (k : String) (v : Json) (fs : List (String × Json)) (tail rest : Source) :
    skip ((w.fields level ((k, v) :: fs)).map some ++ tail) ≠ some '\x7d' :: rest := by
  obtain ⟨more, hfields⟩ := fields_eq_append w level k v fs
  rw [hfields, List.map_append, List.append_assoc, skip_blank (w.gap_blank level)]
  simp only [List.cons_append, List.map_cons]
  rw [skip_of_not_space (by decide)]
  simp

/-! ### The round trip

The induction is on the document. Each call of the reader costs one step of its fuel and at least
one character of the text, so the length of the text is fuel enough. -/

mutual

/-- A value is read as it was written, whatever follows that does not go on with a number. -/
theorem value?_chars (w : Layout) (level : Nat) : ∀ v : Json, isExact v = true →
    ∀ (fuel : Nat) (rest : Source), (w.chars level v).length ≤ fuel → Ends rest →
      value? fuel ((w.chars level v).map some ++ rest) = some (written v, rest)
  | v, h, 0, _, hfuel, _ => by
    obtain ⟨c, more, hchars, -⟩ := chars_eq_cons w level h
    simp [hchars] at hfuel
  | .null, _, fuel + 1, rest, _, _ => by
    simp [chars, atomText, value?, skip, isSpace, word?, written]
  | .bool b, _, fuel + 1, rest, _, _ => by
    cases b <;> simp [chars, atomText, value?, skip, isSpace, word?, written]
  | .integer n, _, fuel + 1, rest, _, hrest => by
    rw [chars, atomText, written, value?_integer n fuel hrest]
  | .real _, h, _, _, _, _ => by simp [isExact] at h
  | .text s, _, fuel + 1, rest, _, _ => by
    rw [chars, atomText, written, value?_text]
  | .array [], _, fuel + 1, rest, _, _ => by
    simp [chars, value?, skip, isSpace, written, writtenItems]
  | .array (v :: vs), h, fuel + 1, rest, hfuel, _ => by
    rw [chars] at hfuel ⊢
    rw [isExact] at h
    have hv : isExact v = true := by
      rw [itemsExact, Bool.and_eq_true] at h
      exact h.1
    have hitems := items?_items w (level + 1) v vs h fuel (w.gap level) rest
      (by simp at hfuel; omega) (w.gap_blank level)
    have hne := skip_items_ne w (level + 1) hv vs
      ((w.gap level).map some ++ some ']' :: rest)
    simp only [List.cons_append, List.map_cons, List.map_append, List.append_assoc, List.map_nil,
      List.nil_append]
    rw [value?_array hne, hitems, written]
    rfl
  | .object [], _, fuel + 1, rest, _, _ => by
    simp [chars, value?, skip, isSpace, written, writtenFields]
  | .object ((k, v) :: fs), h, fuel + 1, rest, hfuel, _ => by
    rw [chars] at hfuel ⊢
    rw [isExact] at h
    have hfields := fields?_fields w (level + 1) k v fs h fuel (w.gap level) rest
      (by simp at hfuel; omega) (w.gap_blank level)
    have hne := skip_fields_ne w (level + 1) k v fs
      ((w.gap level).map some ++ some '\x7d' :: rest)
    simp only [List.cons_append, List.map_cons, List.map_append, List.append_assoc, List.map_nil,
      List.nil_append]
    rw [value?_object hne, hfields, written]
    rfl

/-- Items are read as they were written, up to the end of their array. -/
theorem items?_items (w : Layout) (level : Nat) : ∀ (v : Json) (vs : List Json),
    itemsExact (v :: vs) = true → ∀ (fuel : Nat) (blank : List Char) (rest : Source),
      (w.items level (v :: vs)).length < fuel → IsBlank blank →
      items? fuel ((w.items level (v :: vs)).map some ++ (blank.map some ++ some ']' :: rest)) =
        some (writtenItems (v :: vs), rest)
  | v, [], h, fuel + 1, blank, rest, hfuel, hblank => by
    rw [itemsExact, Bool.and_eq_true] at h
    have hends : Ends (blank.map some ++ some ']' :: rest) :=
      ends_of_blank hblank (ends_cons (by decide) rest)
    have hvalue := value?_chars w level v h.1 fuel _ (by simp [items] at hfuel; omega) hends
    rw [items, List.map_append, List.append_assoc, items?, value?_blank _ (w.gap_blank level),
      hvalue]
    simp [skip_blank hblank, skip_of_not_space (c := ']') (by decide), writtenItems]
  | v, v' :: vs, h, fuel + 1, blank, rest, hfuel, hblank => by
    rw [itemsExact, Bool.and_eq_true] at h
    obtain ⟨c, more, hchars, -⟩ := chars_eq_cons w level h.1
    have hlength : (w.chars level v).length ≠ 0 := by simp [hchars]
    rw [items_cons_cons] at hfuel ⊢
    simp only [List.length_append, List.length_cons] at hfuel
    have hvalue := value?_chars w level v h.1 fuel
      (some ',' :: ((w.items level (v' :: vs)).map some ++ (blank.map some ++ some ']' :: rest)))
      (by omega) (ends_cons (by decide) _)
    have hitems := items?_items w level v' vs h.2 fuel blank rest (by omega) hblank
    simp only [List.map_append, List.map_cons, List.append_assoc, List.cons_append]
    rw [items?, value?_blank _ (w.gap_blank level), hvalue]
    simp [skip_of_not_space (c := ',') (by decide), hitems, writtenItems]

/-- Fields are read as they were written, up to the end of their object. -/
theorem fields?_fields (w : Layout) (level : Nat) : ∀ (k : String) (v : Json)
    (fs : List (String × Json)), fieldsExact ((k, v) :: fs) = true →
      ∀ (fuel : Nat) (blank : List Char) (rest : Source),
      (w.fields level ((k, v) :: fs)).length < fuel → IsBlank blank →
      fields? fuel ((w.fields level ((k, v) :: fs)).map some ++
        (blank.map some ++ some '\x7d' :: rest)) = some (writtenFields ((k, v) :: fs), rest)
  | k, v, [], h, fuel + 1, blank, rest, hfuel, hblank => by
    rw [fieldsExact, Bool.and_eq_true] at h
    have hends : Ends (blank.map some ++ some '\x7d' :: rest) :=
      ends_of_blank hblank (ends_cons (by decide) rest)
    have hvalue := value?_chars w level v h.1 fuel _ (by simp [fields] at hfuel; omega) hends
    have htail : skip (blank.map some ++ some '\x7d' :: rest) = some '\x7d' :: rest := by
      rw [skip_blank hblank, skip_of_not_space (by decide)]
    rw [← value?_blank _ w.colon_blank] at hvalue
    have hlast := fields?_last (k := k) (w.gap_blank level) hvalue htail
    simpa [fields, writtenFields] using hlast
  | k, v, (k', v') :: fs, h, fuel + 1, blank, rest, hfuel, hblank => by
    rw [fieldsExact, Bool.and_eq_true] at h
    rw [fields_cons_cons] at hfuel ⊢
    simp only [List.length_append, List.length_cons] at hfuel
    have hvalue := value?_chars w level v h.1 fuel
      (some ',' :: ((w.fields level ((k', v') :: fs)).map some ++
        (blank.map some ++ some '\x7d' :: rest))) (by omega) (ends_cons (by decide) _)
    have hfields := fields?_fields w level k' v' fs h.2 fuel blank rest (by omega) hblank
    rw [← value?_blank _ w.colon_blank] at hvalue
    have hmore := fields?_more (k := k) (w.gap_blank level) hvalue
      (skip_of_not_space (by decide) _)
    simpa [hfields, writtenFields] using hmore

end

/-- A document is read as it was written, with nothing around it. -/
theorem parse?_chars (w : Layout) {v : Json} (h : isExact v = true) :
    parse? ((w.chars 0 v).map some) = some (written v) := by
  have hvalue := value?_chars w 0 v h (2 * ((w.chars 0 v).map some).length + 2) []
    (by rw [List.length_map]; omega) ends_nil
  rw [List.append_nil] at hvalue
  rw [parse?, hvalue]
  rfl

end Layout

theorem ofString?_pretty {v : Json} (h : isExact v = true) :
    ofString? v.pretty = some (written v) := by
  rw [ofString?, pretty, String.toList_ofList, ← Layout.chars_indented]
  exact Layout.parse?_chars _ h

theorem ofString?_compact {v : Json} (h : isExact v = true) :
    ofString? v.compact = some (written v) := by
  rw [ofString?, compact, String.toList_ofList, ← Layout.chars_tight 0]
  exact Layout.parse?_chars _ h

end CacheAudit.Json
