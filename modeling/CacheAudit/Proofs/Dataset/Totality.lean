import CacheAudit.Proofs.Dataset.CellWeights
import CacheAudit.Proofs.Dataset.LogLines

/-!
# Reading a dataset never leaves the machine words

The readers of logs crash at a position that is not there and at a sum that is no machine word. They
do so in one case alone: a line of a log is short of the last position, and the complaint about it
would ask for one word more than there are positions. The readers of tables never do: written with
the same crashes they answer what the plain readers answer.
-/

namespace CacheAudit.Halt

variable {α β ε : Type}

theorem lift_bind (x : Except ε α) (f : α → Except ε β) :
    (lift x >>= fun a => lift (f a)) = lift (x >>= f) := by
  cases x <;> rfl

theorem lift_map (x : Except ε α) (f : α → β) :
    (lift x >>= fun a => pure (f a)) = lift (x.map f) := by
  cases x <;> rfl

/-- Steps that do not crash make a traversal that does not. -/
theorem mapM_eq {f' : α → Except (Halt ε) β} {f : α → Except ε β} {xs : List α}
    (h : ∀ x ∈ xs, f' x = lift (f x)) : xs.mapM f' = lift (xs.mapM f) := by
  induction xs with
  | nil => rfl
  | cons x xs ih =>
    have hrest := ih fun y hy => h y (List.mem_cons_of_mem x hy)
    rw [List.mapM_cons, List.mapM_cons, h x List.mem_cons_self, hrest, ← lift_bind]
    congr 1
    funext y
    rw [← lift_bind]
    rfl

end CacheAudit.Halt

namespace CacheAudit.Dataset

/-! ### Problems of a source -/

/-- A problem is an invalid dataset, and its message begins with the source and a line. -/
structure Located (source : String) (p : Problem) : Prop where
  kind : p.toFailure.kind = .invalidDataset
  message : ∃ (line : Nat) (reason : String),
    p.toFailure.message = source ++ ":" ++ toString line ++ ": " ++ reason

variable {source : String}

theorem located_datasetParse (source : String) (line : Nat) (reason : String) :
    Located source (.datasetParse source line reason) :=
  ⟨rfl, line, reason, rfl⟩

theorem located_invalidWeight (source : String) (line : Nat) (value : String) :
    Located source (.invalidWeight source line value) := by
  refine ⟨rfl, line, "invalid weight '" ++ value ++ "'", ?_⟩
  show source ++ ":" ++ toString line ++ ": invalid weight '" ++ value ++ "'" = _
  have hcolon : ": invalid weight '" = ": " ++ "invalid weight '" := by decide
  rw [hcolon]
  simp only [String.append_assoc]

/-- Whatever a computation fails with has a property. -/
def Fails {α ε : Type} (P : ε → Prop) (x : Except ε α) : Prop :=
  ∀ e, x = .error e → P e

/-- A reader comes to a dataset or to an invalid dataset at a line of its source, and crashes on a
condition alone. -/
structure Answers {α : Type} (source : String) (crashes : Prop)
    (answer : Except (Halt Problem) α) : Prop where
  crash : answer = .error .crashed ↔ crashes
  located : ∀ p, answer = .error (.failed p) → Located source p

section Fails

variable {α β ε : Type} {P : ε → Prop} {x : Except ε α}

theorem fails_ok (a : α) : Fails P (.ok a) :=
  fun _ h => nomatch h

theorem fails_error {e : ε} (h : P e) : Fails P (.error e : Except ε α) := by
  rintro e' ⟨⟩
  exact h

theorem Fails.bind {f : α → Except ε β} (hx : Fails P x) (hf : ∀ a, x = .ok a → Fails P (f a)) :
    Fails P (x >>= f) := by
  cases x with
  | ok a => exact hf a rfl
  | error e => exact fails_error (hx e rfl)

theorem Fails.map (hx : Fails P x) (f : α → β) : Fails P (x.map f) := by
  cases x with
  | ok a => exact fails_ok (f a)
  | error e => exact fails_error (hx e rfl)

theorem fails_foldlM {f : β → α → Except ε β} (h : ∀ b a, Fails P (f b a)) (xs : List α) (b : β) :
    Fails P (xs.foldlM f b) := by
  induction xs generalizing b with
  | nil => exact fails_ok b
  | cons x xs ih =>
    rw [List.foldlM_cons]
    exact (h b x).bind fun b' _ => ih b'

theorem fails_mapM {f : α → Except ε β} (h : ∀ a, Fails P (f a)) (xs : List α) :
    Fails P (xs.mapM f) := by
  induction xs with
  | nil => exact fails_ok []
  | cons x xs ih =>
    rw [List.mapM_cons]
    exact (h x).bind fun y _ => ih.bind fun ys _ => fails_ok (y :: ys)

end Fails

/-- A reader that does not crash and whose problems are at a line of the source. -/
theorem Fails.answers {α : Type} {x : Except Problem α} (h : Fails (Located source) x) :
    Answers source False (Halt.lift x) := by
  cases x with
  | ok a => exact ⟨iff_of_false nofun not_false, nofun⟩
  | error p =>
    refine ⟨iff_of_false nofun not_false, ?_⟩
    rintro _ ⟨⟩
    exact h p rfl

theorem fails_textOf (source : String) (bytes : Bytes) :
    Fails (Located source) (textOf source bytes) := by
  intro p hp
  obtain ⟨reason, rfl⟩ := exists_of_textOf hp
  exact located_datasetParse source 0 reason

/-! ### Logs -/

namespace LineLog

variable {l : LineLog} {text : List Char}

/-- Some line counts, and the words are asked for up to the last position there is. -/
def OverReaches (l : LineLog) (reach : UInt64) (text : List Char) : Prop :=
  reach.toNat + 1 = UInt64.size ∧ l.used text ≠ []

instance (l : LineLog) (reach : UInt64) (text : List Char) : Decidable (l.OverReaches reach text) :=
  inferInstanceAs (Decidable (_ ∧ _))

/-- No line has more words than the text has characters, and one. -/
theorem length_words_of_mem_used {line : LogLine} (h : line ∈ l.used text) :
    line.words.length ≤ text.length + 1 := by
  obtain ⟨⟨raw, i⟩, hraw, hline⟩ := List.mem_filterMap.1 h
  dsimp only at hline
  split at hline
  · cases hline
    have hlength : raw.length ≤ text.length :=
      Text.length_le_of_mem_lines (List.fst_mem_of_mem_zipIdx hraw)
    have htrim := Text.length_trim_le raw
    have hwords := Text.length_words_le (Text.trim raw)
    rw [List.length_map]
    omega
  · cases hline

/-- How readers of logs may end: for a problem of their source, or by a crash that nothing but
demanding words up to `reach` accounts for. -/
def Bears (source : String) (reach : UInt64) : Halt Problem → Prop
  | .failed p => Located source p
  | .crashed => reach.toNat + 1 = UInt64.size

theorem bears_shortage (source : String) (reach : UInt64) (number found : Nat) :
    Bears source reach (shortage source reach.toNat number found) := by
  unfold shortage
  split
  · assumption
  · exact located_datasetParse ..

/-- What follows a demand may rely on the words that were demanded. -/
theorem fails_demand_bind {α : Type} {reach : UInt64} {line : LogLine}
    {f : Unit → Except (Halt Problem) α}
    (h : reach.toNat < line.words.length → Fails (Bears source reach) (f ())) :
    Fails (Bears source reach) (demand source reach line >>= f) := by
  rw [demand_eq]
  split
  · rename_i hlong
    exact h hlong
  · exact fails_error (bears_shortage ..)

theorem fails_item {α : Type} {xs : List α} {i : UInt64} {P : Halt Problem → Prop}
    (h : i.toNat < xs.length) : Fails P (Halt.item xs i) := by
  rw [Halt.item_eq h]
  exact fails_ok _

theorem fails_addMember (l : LineLog) (source : String) (d : KeyedDataset) (line : LogLine) :
    Fails (Bears source l.memberReach) (l.addMember source d line) := by
  refine fails_demand_bind fun hlong => ?_
  rw [toNat_memberReach] at hlong
  refine (fails_item (by omega)).bind fun member _ => ?_
  exact (fails_item (by omega)).bind fun key _ => fails_ok _

theorem fails_addWeight (l : LineLog) (source : String) (d : WeightedDataset) (line : LogLine) :
    Fails (Bears source l.weightReach) (l.addWeight source d line) := by
  refine fails_demand_bind fun hlong => ?_
  rw [toNat_weightReach] at hlong
  refine (fails_item (by omega)).bind fun member _ => ?_
  split
  · exact fails_ok d
  refine (fails_item (by omega)).bind fun cell _ => ?_
  split
  · exact (fails_item (by omega)).bind fun key _ => fails_ok _
  · exact fails_error (located_invalidWeight ..)

/-- Words up to the last position are demanded of the first line that counts in vain. -/
theorem demand_eq_crashed {reach : UInt64} {line : LogLine} {lines : List LogLine}
    (htext : text.length < 2 ^ 63) (hused : l.used text = line :: lines)
    (hlast : reach.toNat + 1 = UInt64.size) : demand source reach line = .error .crashed := by
  have hline := length_words_of_mem_used (hused ▸ List.mem_cons_self : line ∈ l.used text)
  have hsize : UInt64.size = 2 ^ 64 := rfl
  rw [demand_eq, if_neg (by omega), shortage, if_pos hlast]

/-- A traversal of the lines that count, by a step that demands words up to `reach` first, crashes
only for over-reaching. -/
theorem answers_foldlM {α : Type} {reach : UInt64} {f : α → LogLine → Except (Halt Problem) α}
    (htext : text.length < 2 ^ 63) (hbears : ∀ a line, Fails (Bears source reach) (f a line))
    (hdemands : ∀ a line, demand source reach line = .error .crashed →
      f a line = .error .crashed) (a : α) :
    Answers source (l.OverReaches reach text) ((l.used text).foldlM f a) := by
  have hfails := fails_foldlM hbears (l.used text) a
  refine ⟨⟨fun hcrashed => ⟨hfails _ hcrashed, fun hnil => ?_⟩, ?_⟩, fun p hp => hfails _ hp⟩
  · rw [hnil] at hcrashed
    cases hcrashed
  · rintro ⟨hlast, hsome⟩
    obtain ⟨line, lines, hused⟩ := List.exists_cons_of_ne_nil hsome
    rw [hused, List.foldlM_cons, hdemands a line (demand_eq_crashed htext hused hlast)]
    rfl

theorem answers_keyed (l : LineLog) (source label : String) (htext : text.length < 2 ^ 63) :
    Answers source (l.OverReaches l.memberReach text) (l.keyed source label text) := by
  refine answers_foldlM htext (l.fails_addMember source) (fun d line hdemand => ?_) _
  rw [addMember, hdemand]
  rfl

theorem answers_weighted (l : LineLog) (source label : String) (htext : text.length < 2 ^ 63) :
    Answers source (l.OverReaches l.weightReach text) (l.weighted source label text) := by
  refine answers_foldlM htext (l.fails_addWeight source) (fun d line hdemand => ?_) _
  rw [addWeight, hdemand]
  rfl

/-- Every line that counts has a number that is a machine word. -/
theorem number_of_mem_used {line : LogLine} (htext : text.length < 2 ^ 63)
    (h : line ∈ l.used text) : line.number < UInt64.size := by
  obtain ⟨⟨raw, i⟩, hraw, hline⟩ := List.mem_filterMap.1 h
  dsimp only at hline
  split at hline
  · cases hline
    have hi : i < (Text.lines text).length := List.snd_lt_of_mem_zipIdx hraw
    have hlines := Text.length_lines_le text
    have hsize : UInt64.size = 2 ^ 64 := rfl
    show i + 1 < UInt64.size
    omega
  · cases hline

/-- A log is refused for its first line that counts, if that one is short. -/
theorem keyed_of_used {line : LogLine} {lines : List LogLine} {halt : Halt Problem}
    (label : String) (hused : l.used text = line :: lines)
    (hdemand : demand source l.memberReach line = .error halt) :
    l.keyed source label text = .error halt := by
  rw [keyed, hused, List.foldlM_cons, addMember, hdemand]
  rfl

end LineLog

/-! ### Tables -/

namespace Csv

variable {r : Reader} {n : Nat}

/-- A reader that has met no line after line `n`. -/
structure Reader.Within (r : Reader) (n : Nat) : Prop where
  line : r.line ≤ n
  recordLine : r.recordLine ≤ n
  records : ∀ record ∈ r.records, record.line ≤ n

theorem Reader.Within.endRecord (h : r.Within n) : r.endRecord.Within n where
  line := h.line
  recordLine := h.line
  records := List.forall_mem_cons.2 ⟨h.recordLine, h.records⟩

/-- Of the things that a reader does with a character, only to end a record touches the lines. -/
theorem Reader.Within.pushHere (h : r.Within n) (c : Char) : (r.pushHere c).Within n := by
  have hplain : (r.pushPlain c).Within n := by
    unfold Reader.pushPlain
    split
    · exact ⟨h.line, h.recordLine, h.records⟩
    split
    · exact h.endRecord
    · exact ⟨h.line, h.recordLine, h.records⟩
  have hstart : (r.pushStart c).Within n := by
    unfold Reader.pushStart
    split
    · exact ⟨h.line, h.recordLine, h.records⟩
    · exact hplain
  unfold Reader.pushHere
  cases r.place with
  | between =>
    dsimp only
    split
    · exact h
    · exact hstart
  | fieldStart => exact hstart
  | plain => exact hplain
  | quoted =>
    dsimp only
    split <;> exact ⟨h.line, h.recordLine, h.records⟩
  | afterQuote =>
    dsimp only
    split
    · exact ⟨h.line, h.recordLine, h.records⟩
    · exact hplain

theorem Reader.Within.push (h : r.Within n) (c : Char) : (r.push c).Within (n + 1) := by
  have hmono : r.Within (n + 1) :=
    ⟨Nat.le_succ_of_le h.line, Nat.le_succ_of_le h.recordLine,
      fun record hrecord => Nat.le_succ_of_le (h.records record hrecord)⟩
  unfold Reader.push
  apply Reader.Within.pushHere
  split
  · exact ⟨Nat.succ_le_succ h.line, hmono.recordLine, hmono.records⟩
  · exact hmono

theorem Reader.Within.foldl_push (h : r.Within n) (text : List Char) :
    (text.foldl Reader.push r).Within (n + text.length) := by
  induction text generalizing r n with
  | nil => exact h
  | cons c text ih =>
    rw [List.length_cons, Nat.add_comm text.length, ← Nat.add_assoc]
    exact ih (h.push c)

/-- No record stands further down than the text has characters. -/
theorem line_le {text : List Char} {record : Record} (h : record ∈ records text) :
    record.line ≤ text.length + 1 := by
  have hstart : Reader.Within {} 1 :=
    ⟨Nat.le_refl 1, Nat.le_refl 1, fun _ hrecord => nomatch hrecord⟩
  have hwithin := hstart.foldl_push (dropMark text)
  have hlength := length_dropMark_le text
  have hrecord : record.line ≤ 1 + (dropMark text).length := by
    unfold records Reader.finish at h
    split at h
    · exact hwithin.records record (List.mem_reverse.1 h)
    · exact hwithin.endRecord.records record (List.mem_reverse.1 h)
  omega

end Csv

namespace Table

variable {t : Table} {bytes : Bytes}

/-- `members` with its crashes: cells are counted from the first member column, and the column
itself is computed for a complaint only. -/
def membersChecked (t : Table) (source : String) (line : UInt64) :
    UInt64 → List String → List (List Char) → Except (Halt Problem) (List (String × String))
  | _, _, [] => return []
  | offset, names, raw :: cells => do
    let cell := Text.trim raw
    let next ← Halt.add offset 1
    if !isPresent cell then membersChecked t source line next (names.drop 1) cells
    else match names with
      | [] =>
        let column ← Halt.add offset t.firstMemberColumn
        throw (.failed
          (.datasetParse source line.toNat ("value in unnamed column " ++ toString column)))
      | name :: names =>
        let rest ← membersChecked t source line next names cells
        return if name.isEmpty || t.excluded.contains name then rest
          else (name, String.ofList cell) :: rest

/-- `row?` with its crashes. -/
def row?Checked (t : Table) (source : String) (names : List String) (r : Csv.Record) :
    Except (Halt Problem) (Option Row) := do
  let line ← Halt.word r.line
  match r.fields[t.keyColumn.toNat]? with
  | none => return none
  | some raw =>
    let key := Text.trim raw
    if key.isEmpty then return none
    else
      let cells := r.fields.drop t.firstMemberColumn.toNat
      return some ⟨line.toNat, String.ofList key, ← t.membersChecked source line 0 names cells⟩

/-- `rowsOf` with its crashes. -/
def rowsOfChecked (t : Table) (source : String) (records : List Csv.Record) :
    Except (Halt Problem) (List Row) := do
  let (names, data) ← Halt.lift (t.names source records)
  let rows ← data.mapM (t.row?Checked source names)
  return rows.filterMap id

/-- `rows` with its crashes. -/
def rowsChecked (t : Table) (source : String) (bytes : Bytes) :
    Except (Halt Problem) (List Row) := do
  t.rowsOfChecked source (Csv.records (← Halt.lift (textOf source bytes)))

/-- `keyed` with its crashes. -/
def keyedChecked (t : Table) (source label : String) (bytes : Bytes) :
    Except (Halt Problem) KeyedDataset := do
  return (← t.rowsChecked source bytes).foldl addMembers (.empty label)

/-- `weighted` with its crashes. -/
def weightedChecked (t : Table) (source label : String) (bytes : Bytes) :
    Except (Halt Problem) WeightedDataset := do
  let rows ← t.rowsChecked source bytes
  Halt.lift (rows.foldlM (fun d row => row.cells.foldlM (addCell source row) d)
    (WeightedDataset.empty label))

theorem fails_names (t : Table) (source : String) (records : List Csv.Record) :
    Fails (Located source) (t.names source records) := by
  unfold names
  split
  · exact fails_ok _
  split
  · exact fails_error (located_datasetParse ..)
  · split <;> exact fails_ok _

theorem fails_members (t : Table) (source : String) (line : Nat) (column : UInt64)
    (names : List String) (cells : List (List Char)) :
    Fails (Located source) (t.members source line column names cells) := by
  induction cells generalizing column names with
  | nil => exact fails_ok []
  | cons raw cells ih =>
    unfold members
    dsimp only
    split
    · exact ih (column + 1) (names.drop 1)
    · cases names with
      | nil => exact fails_error (located_datasetParse ..)
      | cons name names =>
        have hrest := ih (column + 1) names
        dsimp only
        cases hmembers : t.members source line (column + 1) names cells with
        | ok rest => exact fails_ok _
        | error p => exact fails_error (hrest p hmembers)

theorem fails_rows (t : Table) (source : String) (bytes : Bytes) :
    Fails (Located source) (t.rows source bytes) := by
  refine (fails_textOf source bytes).bind fun text _ => ?_
  refine (fails_names t source (Csv.records text)).bind fun found _ => ?_
  refine (fails_mapM (fun r => ?_) found.2).bind fun rows _ => fails_ok _
  unfold row?
  split
  · exact fails_ok none
  · dsimp only
    split
    · exact fails_ok none
    · exact Fails.map (fails_members t source r.line _ found.1 _) _

theorem fails_keyed (t : Table) (source label : String) (bytes : Bytes) :
    Fails (Located source) (t.keyed source label bytes) :=
  (fails_rows t source bytes).map _

theorem fails_weighted (t : Table) (source label : String) (bytes : Bytes) :
    Fails (Located source) (t.weighted source label bytes) := by
  refine (fails_rows t source bytes).bind fun rows _ => fails_foldlM (fun d row => ?_) rows _
  refine fails_foldlM (fun d cell => ?_) row.cells d
  unfold addCell
  split
  · exact fails_ok _
  · exact fails_error (located_invalidWeight ..)

/-- The cells from the one with number `offset` on, where no column is past the machine words. -/
theorem membersChecked_eq {line : UInt64} {offset : Nat} {names : List String}
    {cells : List (List Char)}
    (hfits : cells ≠ [] → t.firstMemberColumn.toNat + offset + cells.length < UInt64.size) :
    t.membersChecked source line (UInt64.ofNat offset) names cells = Halt.lift
      (t.members source line.toNat (t.firstMemberColumn + UInt64.ofNat offset) names cells) := by
  induction cells generalizing offset names with
  | nil => rfl
  | cons raw cells ih =>
    have hfits := hfits (List.cons_ne_nil _ _)
    rw [List.length_cons] at hfits
    have hoffset : (UInt64.ofNat offset).toNat = offset := UInt64.toNat_ofNat_of_lt' (by omega)
    have hnext : (Halt.add (UInt64.ofNat offset) 1 : Except (Halt Problem) UInt64) =
        pure (UInt64.ofNat (offset + 1)) := by
      rw [Halt.add_eq (by rw [hoffset]; show offset + 1 < _; omega), UInt64.ofNat_add]
      rfl
    have hcolumn : t.firstMemberColumn + UInt64.ofNat offset + 1 =
        t.firstMemberColumn + UInt64.ofNat (offset + 1) := by
      rw [UInt64.ofNat_add, UInt64.add_assoc]
      rfl
    have hrest (names : List String) := @ih (offset + 1) names fun _ => by omega
    unfold membersChecked members
    dsimp only
    rw [hnext, hcolumn]
    show (if (!isPresent (Text.trim raw)) = true then _ else _) = _
    split
    · exact hrest _
    · cases names with
      | nil =>
        dsimp only
        rw [Halt.add_eq (by rw [hoffset]; omega), UInt64.add_comm]
        rfl
      | cons name names =>
        dsimp only
        rw [hrest]
        cases t.members source line.toNat _ names cells <;> rfl

/-- A record on a line and with columns that are machine words. -/
theorem row?Checked_eq {names : List String} {r : Csv.Record} (hline : r.line < UInt64.size)
    (hwidth : r.fields.length < UInt64.size) :
    t.row?Checked source names r = Halt.lift (t.row? source names r) := by
  have hword : (UInt64.ofNat r.line).toNat = r.line := UInt64.toNat_ofNat_of_lt' hline
  have hcounted : (Halt.word r.line : Except (Halt Problem) UInt64) = pure (UInt64.ofNat r.line) :=
    Halt.word_eq hline
  unfold row?Checked row?
  rw [hcounted, pure_bind, hword]
  cases r.fields[t.keyColumn.toNat]? with
  | none => rfl
  | some raw =>
    dsimp only
    split
    · rfl
    · have hmembers := @membersChecked_eq source t (UInt64.ofNat r.line) 0 names
        (r.fields.drop t.firstMemberColumn.toNat) fun hcells => by
          have hlength := List.length_pos_iff.2 hcells
          rw [List.length_drop] at hlength ⊢
          omega
      have hzero : t.firstMemberColumn + UInt64.ofNat 0 = t.firstMemberColumn := UInt64.add_zero _
      rw [hzero, hword] at hmembers
      show (membersChecked t source _ (UInt64.ofNat 0) names _ >>= fun members => pure _) = _
      rw [hmembers]
      exact Halt.lift_map _ _

/-- Records past the header are records. -/
theorem mem_of_names {records data : List Csv.Record} {names : List String} {r : Csv.Record}
    (h : t.names source records = .ok (names, data)) (hr : r ∈ data) : r ∈ records := by
  by_cases havailable : t.NamesAvailable
  · obtain ⟨names', hnames, -⟩ := exists_names havailable source records
    cases hnames.symm.trans h
    exact mem_of_mem_data hr
  · rw [names_eq_error havailable] at h
    cases h

theorem rowsOfChecked_eq {records : List Csv.Record}
    (hline : ∀ r ∈ records, r.line < UInt64.size)
    (hwidth : ∀ r ∈ records, r.fields.length < UInt64.size) :
    t.rowsOfChecked source records = Halt.lift (t.rowsOf source records) := by
  rw [rowsOfChecked, rowsOf]
  cases hnames : t.names source records with
  | error p => rfl
  | ok found =>
    have hrows : found.2.mapM (t.row?Checked source found.1) =
        Halt.lift (found.2.mapM (t.row? source found.1)) := by
      refine Halt.mapM_eq fun r hr => ?_
      have hrecord := mem_of_names hnames hr
      exact row?Checked_eq (hline r hrecord) (hwidth r hrecord)
    show (found.2.mapM (t.row?Checked source found.1) >>= fun rows => pure _) = _
    rw [hrows]
    exact Halt.lift_map _ _

theorem rowsChecked_eq (t : Table) (source : String) (hbytes : bytes.length < 2 ^ 63) :
    t.rowsChecked source bytes = Halt.lift (t.rows source bytes) := by
  rw [rowsChecked, rows]
  cases htext : textOf source bytes with
  | error p => rfl
  | ok text =>
    have hlength := (spells_of_textOf htext).length_le
    have hsize : UInt64.size = 2 ^ 64 := rfl
    refine rowsOfChecked_eq (fun r hr => ?_) fun r hr => ?_
    · have hline := Csv.line_le hr
      omega
    · have hwidth := Csv.length_fields_le hr
      omega

theorem keyedChecked_eq (t : Table) (source label : String) (hbytes : bytes.length < 2 ^ 63) :
    t.keyedChecked source label bytes = Halt.lift (t.keyed source label bytes) := by
  rw [keyedChecked, rowsChecked_eq t source hbytes]
  exact Halt.lift_map _ _

theorem weightedChecked_eq (t : Table) (source label : String) (hbytes : bytes.length < 2 ^ 63) :
    t.weightedChecked source label bytes = Halt.lift (t.weighted source label bytes) := by
  rw [weightedChecked, rowsChecked_eq t source hbytes]
  exact Halt.lift_bind _ _

end Table

/-! ### All readers -/

/-- Every reader comes to a dataset or to an invalid dataset at a line of the source. The readers of
tables never crash: with a crash for every sum that is no machine word they answer the same. Those
of logs, which have such crashes and others for words that are not there, crash exactly if they ask
for words up to the last position there is and some line counts. All lines that count have machine
words for numbers. -/
theorem readers_are_total (l : LineLog) (t : Table) (source label : String) {text : List Char}
    {bytes : Bytes} (htext : text.length < 2 ^ 63) (hbytes : bytes.length < 2 ^ 63) :
    Answers source (l.OverReaches l.memberReach text) (l.keyed source label text) ∧
    Answers source (l.OverReaches l.weightReach text) (l.weighted source label text) ∧
    Answers source False (t.keyedChecked source label bytes) ∧
    Answers source False (t.weightedChecked source label bytes) ∧
    t.keyedChecked source label bytes = Halt.lift (t.keyed source label bytes) ∧
    t.weightedChecked source label bytes = Halt.lift (t.weighted source label bytes) ∧
    ∀ line ∈ l.used text, line.number < UInt64.size := by
  have hkeyed := t.keyedChecked_eq source label hbytes
  have hweighted := t.weightedChecked_eq source label hbytes
  refine ⟨l.answers_keyed source label htext, l.answers_weighted source label htext, ?_, ?_, hkeyed,
    hweighted, fun line hline => LineLog.number_of_mem_used htext hline⟩
  · rw [hkeyed]
    exact (t.fails_keyed source label bytes).answers
  · rw [hweighted]
    exact (t.fails_weighted source label bytes).answers

/-- A short line, for the last position but one: the complaint asks for the last machine word. -/
theorem short_line_is_located :
    let l : LineLog := { keyField := 18446744073709551614 }
    let text := "INFO x buying\n".toList
    let p : Problem :=
      .datasetParse "run.log" 1 "expected at least 18446744073709551615 fields, found 3"
    (text.length < 2 ^ 63 ∧ ([] : Bytes).length < 2 ^ 63) ∧
      l.keyed "run.log" "candidate" text = .error (.failed p) ∧ Located "run.log" p := by
  intro l text p
  have hused : l.used text = [⟨1, ["INFO", "x", "buying"]⟩] := by decide +kernel
  have hkeyed : l.keyed "run.log" "candidate" text = .error (.failed p) :=
    LineLog.keyed_of_used "candidate" hused (by decide +kernel)
  have htext : text.length < 2 ^ 63 := by decide
  have hbytes : ([] : Bytes).length < 2 ^ 63 := by decide
  obtain ⟨hanswers, -⟩ := readers_are_total l {} "run.log" "candidate" htext hbytes
  exact ⟨⟨htext, hbytes⟩, hkeyed, hanswers.located p hkeyed⟩

/-- For the last position the number of words that the complaint would ask for is no machine word,
and there is no answer. -/
theorem short_line_crashes :
    let l : LineLog := { keyField := 18446744073709551615 }
    let text := "INFO x buying\n".toList
    ¬((∃ d, l.keyed "run.log" "candidate" text = .ok d) ∨
      ∃ p, l.keyed "run.log" "candidate" text = .error (.failed p) ∧ Located "run.log" p) := by
  intro l text
  have hused : l.used text = [⟨1, ["INFO", "x", "buying"]⟩] := by decide +kernel
  have hcrashed : l.keyed "run.log" "candidate" text = .error .crashed :=
    LineLog.keyed_of_used "candidate" hused (by decide +kernel)
  rintro (⟨d, hd⟩ | ⟨p, hp, -⟩)
  · cases hcrashed.symm.trans hd
  · cases hcrashed.symm.trans hp

end CacheAudit.Dataset
