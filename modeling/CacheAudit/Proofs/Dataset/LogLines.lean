import CacheAudit.Dataset.LineLog
import CacheAudit.Proofs.Dataset.Gathering
import CacheAudit.Proofs.Text.Lines

/-!
# What a log says line by line

A log is read line by line, and each line speaks for itself: it is used or not, a used line names a
key and a member or is too short to, and only the number by which a short line is reported depends
on where it stands. So a log without short lines yields the keys and members that its used lines
name, in whatever order they come, and logs can be joined line after line. A short line is
complained about unless the fields are to reach the last position there is: then the complaint has
no number of fields to ask for, and the reader crashes.
-/

namespace CacheAudit

/-- A problem of a source, `lines` lines further down. -/
def Problem.later (lines : Nat) : Problem → Problem
  | .datasetParse source line reason => .datasetParse source (lines + line) reason
  | p => p

namespace Dataset.LineLog

/-- The lines of a text without the blanks around them. -/
def trimmedLines (text : List Char) : List (List Char) :=
  (Text.lines text).map Text.trim

/-- A trimmed line is used if it is not empty, has the marker in it and does not have the skip token
in it; either may be unset. -/
structure Uses (l : LineLog) (line : List Char) : Prop where
  nonempty : line ≠ []
  marked : ∀ marker, l.marker = some marker → marker.toList <:+: line
  unskipped : ∀ token, l.skipToken = some token → ¬token.toList <:+: line

/-- A field of a line. -/
def field? (line : List Char) (i : UInt64) : Option String :=
  (Text.words line)[i.toNat]?.map String.ofList

/-- A line has no field at the greater one of the two positions that members need. -/
def IsShort (l : LineLog) (line : List Char) : Prop :=
  (Text.words line).length ≤ max l.keyField.toNat l.memberField.toNat

/-- A line for which a log is refused: it is used, and short. -/
def Rejects (l : LineLog) (line : List Char) : Prop :=
  l.Uses line ∧ l.IsShort line

/-- The greater one of the two positions that members need is the last one there is. -/
def ReachesEnd (l : LineLog) : Prop :=
  max l.keyField.toNat l.memberField.toNat + 1 = UInt64.size

/-- What is said about a short line. -/
def complaint (l : LineLog) (line : List Char) : String :=
  "expected at least " ++ toString (max l.keyField.toNat l.memberField.toNat + 1) ++
    " fields, found " ++ toString (Text.words line).length

/-- A dataset holds the keys and the members that the used ones among some lines name, and of the
excluded members only the keys. -/
structure Yields (l : LineLog) (lines : List (List Char)) (d : KeyedDataset) : Prop where
  keys : ∀ key, key ∈ d.keys ↔
    ∃ line ∈ lines, l.Uses line ∧ field? line l.keyField = some key
  members : ∀ key member, d.Has key member ↔
    ∃ line ∈ lines, l.Uses line ∧ field? line l.keyField = some key ∧
      field? line l.memberField = some member ∧ member ∉ l.excluded

variable {l : LineLog} {source label : String} {line text : List Char}

/-! ### One line -/

theorem accepts_iff : l.accepts line = true ↔ l.Uses line := by
  have hmarked : l.marker.all (fun m => Text.contains m.toList line) = true ↔
      ∀ marker, l.marker = some marker → marker.toList <:+: line := by
    cases l.marker <;> simp [Text.contains_iff_isInfix]
  have hunskipped : (!l.skipToken.any fun s => Text.contains s.toList line) = true ↔
      ∀ token, l.skipToken = some token → ¬token.toList <:+: line := by
    cases l.skipToken <;> simp [← Text.contains_iff_isInfix]
  rw [accepts, Bool.and_eq_true, Bool.and_eq_true, hmarked, hunskipped]
  constructor
  · rintro ⟨⟨hnonempty, hmarked⟩, hunskipped⟩
    exact ⟨by simpa using hnonempty, hmarked, hunskipped⟩
  · rintro ⟨hnonempty, hmarked, hunskipped⟩
    exact ⟨⟨by simpa using hnonempty, hmarked⟩, hunskipped⟩

instance (l : LineLog) (line : List Char) : Decidable (l.Uses line) :=
  decidable_of_iff _ accepts_iff

instance (l : LineLog) (line : List Char) : Decidable (l.IsShort line) :=
  inferInstanceAs (Decidable (_ ≤ _))

instance (l : LineLog) (line : List Char) : Decidable (l.Rejects line) :=
  inferInstanceAs (Decidable (_ ∧ _))

instance (l : LineLog) : Decidable l.ReachesEnd :=
  inferInstanceAs (Decidable (_ = _))

theorem toNat_max (a b : UInt64) : (max a b).toNat = max a.toNat b.toNat := by
  show (if a ≤ b then b else a).toNat = _
  split
  · rename_i hle
    rw [Nat.max_eq_right (UInt64.le_iff_toNat_le.1 hle)]
  · rename_i hnot
    rw [UInt64.le_iff_toNat_le] at hnot
    rw [Nat.max_eq_left (by omega)]

theorem toNat_memberReach (l : LineLog) :
    l.memberReach.toNat = max l.keyField.toNat l.memberField.toNat :=
  toNat_max ..

theorem toNat_weightReach (l : LineLog) :
    l.weightReach.toNat =
      max (max l.keyField.toNat l.memberField.toNat) l.weightField.toNat := by
  rw [weightReach, toNat_max, toNat_memberReach]

/-- How a reader ends that lacks a word at position `reach` in a line with `found` words. -/
def shortage (source : String) (reach number found : Nat) : Halt Problem :=
  if reach + 1 = UInt64.size then .crashed
  else .failed (.datasetParse source number ("expected at least " ++ toString (reach + 1) ++
    " fields, found " ++ toString found))

theorem toString_add_one {a : UInt64} (h : a.toNat + 1 < UInt64.size) :
    toString (a + 1) = toString (a.toNat + 1) := by
  have hadd : (a + 1).toNat = a.toNat + 1 := by
    rw [UInt64.toNat_add]
    exact Nat.mod_eq_of_lt h
  rw [← hadd]
  rfl

theorem demand_eq (source : String) (reach : UInt64) (line : LogLine) :
    demand source reach line = if reach.toNat < line.words.length then .ok ()
      else .error (shortage source reach.toNat line.number line.words.length) := by
  have hword := reach.toNat_lt_size
  rw [demand, shortage]
  by_cases hlong : reach.toNat < line.words.length
  · rw [if_pos hlong, if_pos hlong]
    rfl
  rw [if_neg hlong, if_neg hlong]
  by_cases hend : reach.toNat + 1 = UInt64.size
  · rw [if_pos hend, Halt.add_one_eq_crashed hend]
    rfl
  · have hlt : reach.toNat + 1 < UInt64.size := by omega
    rw [if_neg hend, Halt.add_one_eq hlt, ← toString_add_one hlt]
    rfl

/-- How a log ends that is refused for a line. -/
def refusal (l : LineLog) (source : String) (number : Nat) (line : List Char) : Halt Problem :=
  shortage source (max l.keyField.toNat l.memberField.toNat) number (Text.words line).length

theorem refusal_eq (source : String) (number : Nat) (line : List Char) :
    l.refusal source number line = if l.ReachesEnd then .crashed
      else .failed (.datasetParse source number (l.complaint line)) :=
  rfl

/-- How a log ends for a line with its position, if it is refused for it. -/
def fault? (l : LineLog) (source : String) (numbered : List Char × Nat) : Option (Halt Problem) :=
  if l.Rejects numbered.1 then some (l.refusal source (numbered.2 + 1) numbered.1) else none

/-- What a line adds to a dataset. -/
def put (l : LineLog) (d : KeyedDataset) (line : List Char) : KeyedDataset :=
  let key := (field? line l.keyField).getD ""
  let member := (field? line l.memberField).getD ""
  if l.Uses line then
    if member ∈ l.excluded then d.ensureKey key else d.insert key member
  else d

/-- What a line with its position is among the lines that count, if it is one of them. -/
def usedLine? (l : LineLog) (numbered : List Char × Nat) : Option LogLine :=
  if l.accepts numbered.1 then
    some ⟨numbered.2 + 1, (Text.words numbered.1).map String.ofList⟩
  else none

theorem used_eq (l : LineLog) (text : List Char) :
    l.used text = (trimmedLines text).zipIdx.filterMap l.usedLine? := by
  rw [trimmedLines, List.zipIdx_map, List.filterMap_map]
  rfl

theorem item_eq (line : List Char) (i : UInt64) :
    (Halt.item ((Text.words line).map String.ofList) i : Except (Halt Problem) String) =
      (field? line i).elim (.error .crashed) .ok := by
  rw [Halt.item, List.getElem?_map, field?]
  cases (Text.words line)[i.toNat]? <;> rfl

theorem usedLine?_eq_some_iff {numbered : List Char × Nat} {entry : LogLine} :
    l.usedLine? numbered = some entry ↔ l.Uses numbered.1 ∧
      entry = ⟨numbered.2 + 1, (Text.words numbered.1).map String.ofList⟩ := by
  rw [usedLine?, ← accepts_iff]
  split
  · rename_i haccepts
    rw [and_iff_right haccepts, Option.some_inj, eq_comm]
  · rename_i hnot
    exact iff_of_false (fun h => nomatch h) fun h => hnot h.1

/-- A line that is not used is passed over. -/
theorem skips_of_unused (source : String) {numbered : List Char × Nat} (d : KeyedDataset)
    (h : l.usedLine? numbered = none) :
    l.fault? source numbered = none ∧ l.put d numbered.1 = d := by
  have hnot : ¬l.Uses numbered.1 := by
    intro huses
    rw [usedLine?_eq_some_iff.2 ⟨huses, rfl⟩] at h
    cases h
  exact ⟨if_neg fun hboth => hnot hboth.1, if_neg hnot⟩

/-- A line that has the words which members need has a key and a member. -/
theorem exists_fields (h : ¬l.IsShort line) :
    ∃ key member, field? line l.keyField = some key ∧ field? line l.memberField = some member := by
  rw [IsShort, Nat.not_le] at h
  have hfield (i : UInt64) (hi : i.toNat < (Text.words line).length) :
      ∃ field, field? line i = some field :=
    ⟨_, by rw [field?, List.getElem?_eq_getElem hi]; rfl⟩
  obtain ⟨key, hkey⟩ := hfield l.keyField (by omega)
  obtain ⟨member, hmember⟩ := hfield l.memberField (by omega)
  exact ⟨key, member, hkey, hmember⟩

/-- A line that is used is faulty or put into the dataset. -/
theorem addMember_of_usedLine (source : String) {numbered : List Char × Nat} {entry : LogLine}
    (d : KeyedDataset) (h : l.usedLine? numbered = some entry) :
    l.addMember source d entry =
      (l.fault? source numbered).elim (.ok (l.put d numbered.1)) .error := by
  obtain ⟨line, i⟩ := numbered
  obtain ⟨huses, rfl⟩ := usedLine?_eq_some_iff.1 h
  rw [addMember, demand_eq, List.length_map, toNat_memberReach, fault?]
  by_cases hshort : l.IsShort line
  · rw [if_neg (Nat.not_lt.2 hshort), if_pos ⟨huses, hshort⟩]
    rfl
  · obtain ⟨key, member, hkey, hmember⟩ := exists_fields hshort
    rw [if_pos (Nat.not_le.1 hshort), if_neg fun hboth => hshort hboth.2, item_eq, item_eq, hkey,
      hmember, put, if_pos huses, hkey, hmember]
    dsimp only [bind, Except.bind, pure, Except.pure, Option.elim_some, Option.elim_none]
    simp only [Option.getD_some, StringSet.contains_iff]

/-- A log is read up to its first line that is used and short. -/
theorem keyed_eq (l : LineLog) (source label : String) (text : List Char) :
    l.keyed source label text = ((trimmedLines text).zipIdx.findSome? (l.fault? source)).elim
      (.ok ((trimmedLines text).foldl l.put (.empty label))) .error := by
  have hput : (trimmedLines text).foldl l.put (.empty label) =
      (trimmedLines text).zipIdx.foldl (fun d numbered => l.put d numbered.1) (.empty label) := by
    rw [← List.foldl_map (f := Prod.fst) (g := l.put), List.zipIdx_map_fst]
  rw [keyed, used_eq, List.foldlM_filterMap, hput]
  refine foldlM_eq_elim (fun d numbered => ?_) _ _
  cases hentry : l.usedLine? numbered with
  | none =>
    obtain ⟨hfault, hskip⟩ := skips_of_unused source d hentry
    rw [hfault, hskip]
    rfl
  | some entry => exact addMember_of_usedLine source d hentry

/-! ### Short lines -/

theorem fault?_eq_some_iff {numbered : List Char × Nat} {h : Halt Problem} :
    l.fault? source numbered = some h ↔ l.Rejects numbered.1 ∧
      h = l.refusal source (numbered.2 + 1) numbered.1 := by
  rw [fault?]
  split
  · rename_i hrejects
    rw [and_iff_right hrejects, Option.some_inj, eq_comm]
  · rename_i hnot
    exact iff_of_false (fun h => nomatch h) fun h => hnot h.1

theorem fault?_eq_none_iff {numbered : List Char × Nat} :
    l.fault? source numbered = none ↔ ¬l.Rejects numbered.1 := by
  constructor
  · intro h hrejects
    rw [fault?_eq_some_iff.2 ⟨hrejects, rfl⟩] at h
    cases h
  · intro hnot
    exact if_neg hnot

theorem findSome?_fault?_eq_none_iff {lines : List (List Char)} {n : Nat} :
    (lines.zipIdx n).findSome? (l.fault? source) = none ↔ ∀ line ∈ lines, ¬l.Rejects line := by
  rw [List.findSome?_eq_none_iff]
  constructor
  · intro h line hline
    rw [← List.zipIdx_map_fst n lines] at hline
    obtain ⟨numbered, hnumbered, rfl⟩ := List.mem_map.1 hline
    exact fault?_eq_none_iff.1 (h numbered hnumbered)
  · intro h numbered hnumbered
    exact fault?_eq_none_iff.2 (h _ (List.fst_mem_of_mem_zipIdx hnumbered))

theorem exists_of_findSome?_fault? {lines : List (List Char)} {halt : Halt Problem}
    (h : lines.zipIdx.findSome? (l.fault? source) = some halt) : ∃ before line after,
      lines = before ++ line :: after ∧ l.Rejects line ∧ (∀ line' ∈ before, ¬l.Rejects line') ∧
      halt = l.refusal source (before.length + 1) line := by
  obtain ⟨before, numbered, after, hzip, hfault, hbefore⟩ := List.findSome?_eq_some_iff.1 h
  obtain ⟨first, rest, hlines, rfl, hrest⟩ := List.zipIdx_eq_append_iff.1 hzip
  obtain ⟨line, last, rfl, rfl, -⟩ := List.zipIdx_eq_cons_iff.1 hrest.symm
  obtain ⟨hrejects, hhalt⟩ := fault?_eq_some_iff.1 hfault
  rw [Nat.zero_add] at hhalt
  refine ⟨first, line, last, hlines, hrejects, ?_, hhalt⟩
  exact findSome?_fault?_eq_none_iff.1 (List.findSome?_eq_none_iff.2 hbefore)

theorem refusal_later (n number : Nat) (line : List Char) :
    l.refusal source (n + number) line = (l.refusal source number line).map (Problem.later n) := by
  rw [refusal_eq, refusal_eq]
  split <;> rfl

/-- The same lines further down are refused for the same problem there. -/
theorem findSome?_fault?_later (lines : List (List Char)) (n : Nat) :
    (lines.zipIdx n).findSome? (l.fault? source) =
      (lines.zipIdx.findSome? (l.fault? source)).map (Halt.map (Problem.later n)) := by
  rw [List.zipIdx_eq_map_add, List.findSome?_map, List.map_findSome?]
  congr 1
  funext numbered
  obtain ⟨line, i⟩ := numbered
  show l.fault? source (line, n + i) = (l.fault? source (line, i)).map (Halt.map (Problem.later n))
  unfold fault?
  split
  · exact congrArg some (refusal_later n (i + 1) line)
  · rfl

/-! ### What is gathered -/

theorem label_foldl_put (lines : List (List Char)) (d : KeyedDataset) :
    (lines.foldl l.put d).label = d.label := by
  induction lines generalizing d with
  | nil => rfl
  | cons line lines ih =>
    rw [List.foldl_cons, ih, put]
    split
    · split <;> rfl
    · rfl

theorem yields_empty (l : LineLog) (label : String) : l.Yields [] (.empty label) where
  keys key := by simp [KeyedDataset.not_mem_keys_empty]
  members key member := by simp [KeyedDataset.not_has_empty]

/-- A line that is put into a dataset adds what it names. -/
theorem Yields.put {lines : List (List Char)} {d : KeyedDataset} (h : l.Yields lines d)
    (hline : ¬l.Rejects line) : l.Yields (lines ++ [line]) (l.put d line) := by
  by_cases huses : l.Uses line
  · obtain ⟨key, member, hkey, hmember⟩ := exists_fields fun hshort => hline ⟨huses, hshort⟩
    have hput : l.put d line =
        if member ∈ l.excluded then d.ensureKey key else d.insert key member := by
      rw [LineLog.put, if_pos huses, hkey, hmember]
      rfl
    constructor
    · intro key'
      have hkeys : key' ∈ (l.put d line).keys ↔ key' = key ∨ key' ∈ d.keys := by
        rw [hput]
        split
        · exact KeyedDataset.mem_keys_ensureKey
        · exact KeyedDataset.mem_keys_insert
      rw [hkeys, h.keys, or_comm]
      simp [or_and_right, exists_or, huses, hkey, eq_comm]
    · intro key' member'
      have hhas : (l.put d line).Has key' member' ↔
          (key' = key ∧ member' = member ∧ member ∉ l.excluded) ∨ d.Has key' member' := by
        rw [hput]
        split
        · rename_i hexcluded
          rw [KeyedDataset.has_ensureKey, or_iff_right fun hboth => hboth.2.2 hexcluded]
        · rename_i hcounts
          rw [KeyedDataset.has_insert, and_iff_left hcounts]
      rw [hhas, h.members, or_comm]
      simp only [List.mem_append, List.mem_singleton, or_and_right, exists_or, exists_eq_left,
        huses, hkey, hmember, true_and, Option.some_inj]
      refine or_congr_right ?_
      constructor
      · rintro ⟨rfl, rfl, hcounts⟩
        exact ⟨rfl, rfl, hcounts⟩
      · rintro ⟨rfl, rfl, hcounts⟩
        exact ⟨rfl, rfl, hcounts⟩
  · have hput : l.put d line = d := if_neg huses
    rw [hput]
    constructor
    · intro key
      simp [h.keys, or_and_right, exists_or, huses]
    · intro key member
      simp [h.members, or_and_right, exists_or, huses]

/-- Lines that are gathered yield what they name. -/
theorem Yields.foldl_put {before lines : List (List Char)} {d : KeyedDataset}
    (h : l.Yields before d) (hlines : ∀ line ∈ lines, ¬l.Rejects line) :
    l.Yields (before ++ lines) (lines.foldl l.put d) := by
  induction lines generalizing before d with
  | nil => rwa [List.append_nil]
  | cons line lines ih =>
    have hrest := ih (h.put (hlines line List.mem_cons_self)) fun line' hline' =>
      hlines line' (List.mem_cons_of_mem line hline')
    rwa [List.append_assoc, List.singleton_append] at hrest

/-- What lines yield is told by the lines, whatever their order. -/
theorem Yields.unique {lines lines' : List (List Char)} {d d' : KeyedDataset}
    (h : l.Yields lines d) (h' : l.Yields lines' d') (hlines : ∀ line, line ∈ lines ↔ line ∈ lines')
    (hlabel : d.label = d'.label) : d = d' := by
  refine KeyedDataset.eq_of_has hlabel (fun key => ?_) fun key member => ?_
  · simp only [h.keys, h'.keys, hlines]
  · simp only [h.members, h'.members, hlines]

/-- Joined lines yield the union of what they yield apart. -/
theorem Yields.get?_append {lines lines' : List (List Char)} {d d' both : KeyedDataset}
    (h : l.Yields lines d) (h' : l.Yields lines' d') (hboth : l.Yields (lines ++ lines') both)
    (key : String) : both.get? key = Option.merge StringSet.union (d.get? key) (d'.get? key) := by
  refine KeyedDataset.get?_eq_merge ?_ fun member => ?_
  · simp only [h.keys, h'.keys, hboth.keys, List.mem_append, or_and_right, exists_or]
  · simp only [h.members, h'.members, hboth.members, List.mem_append, or_and_right, exists_or]

/-! ### Whole logs -/

theorem trimmedLines_append (h : Text.EndsLine text) (more : List Char) :
    trimmedLines (text ++ more) = trimmedLines text ++ trimmedLines more := by
  rw [trimmedLines, Text.lines_append h, List.map_append]
  rfl

/-- A log without a line to be refused for yields what its lines name. -/
theorem keyed_of_accepted (source label : String)
    (h : ∀ line ∈ trimmedLines text, ¬l.Rejects line) : ∃ d,
      l.keyed source label text = .ok d ∧ d.label = label ∧ l.Yields (trimmedLines text) d := by
  refine ⟨(trimmedLines text).foldl l.put (.empty label), ?_, label_foldl_put _ _, ?_⟩
  · rw [keyed_eq, findSome?_fault?_eq_none_iff.2 h]
    rfl
  · exact (l.yields_empty label).foldl_put h

/-- A log that is read has no line to be refused for. -/
theorem accepted_of_keyed {d : KeyedDataset} (h : l.keyed source label text = .ok d) :
    ∀ line ∈ trimmedLines text, ¬l.Rejects line := by
  rw [← findSome?_fault?_eq_none_iff]
  rw [keyed_eq] at h
  cases hfault : (trimmedLines text).zipIdx.findSome? (l.fault? source) with
  | none => rfl
  | some p =>
    rw [hfault] at h
    cases h

theorem yields_of_keyed {d : KeyedDataset} (h : l.keyed source label text = .ok d) :
    d.label = label ∧ l.Yields (trimmedLines text) d := by
  obtain ⟨d', hd', hlabel, hyields⟩ := keyed_of_accepted source label (accepted_of_keyed h)
  cases h.symm.trans hd'
  exact ⟨hlabel, hyields⟩

theorem keyed_eq_error_iff {halt : Halt Problem} : l.keyed source label text = .error halt ↔
    (trimmedLines text).zipIdx.findSome? (l.fault? source) = some halt := by
  rw [keyed_eq]
  cases (trimmedLines text).zipIdx.findSome? (l.fault? source) <;> simp

theorem refusal_eq_failed_iff {number : Nat} {p : Problem} :
    l.refusal source number line = .failed p ↔
      ¬l.ReachesEnd ∧ p = .datasetParse source number (l.complaint line) := by
  rw [refusal_eq]
  split
  · rename_i hend
    exact iff_of_false (fun h => nomatch h) fun h => h.1 hend
  · rename_i hnot
    rw [Halt.failed.injEq, and_iff_right hnot, eq_comm]

theorem refusal_eq_crashed_iff {number : Nat} :
    l.refusal source number line = .crashed ↔ l.ReachesEnd := by
  rw [refusal_eq]
  split
  · rename_i hend
    exact iff_of_true rfl hend
  · rename_i hnot
    exact iff_of_false (fun h => nomatch h) hnot

theorem exists_error_iff : (∃ halt, l.keyed source label text = .error halt) ↔
    ∃ line ∈ trimmedLines text, l.Rejects line := by
  constructor
  · rintro ⟨halt, hhalt⟩
    obtain ⟨before, line, after, hlines, hrejects, -⟩ :=
      exists_of_findSome?_fault? (keyed_eq_error_iff.1 hhalt)
    exact ⟨line, by simp [hlines], hrejects⟩
  · rintro ⟨line, hline, hrejects⟩
    cases hkeyed : l.keyed source label text with
    | ok d => exact absurd hrejects (accepted_of_keyed hkeyed line hline)
    | error halt => exact ⟨halt, rfl⟩

/-- The reader crashes for a line to be refused for when the fields are to reach the end. -/
theorem keyed_eq_crashed_iff : l.keyed source label text = .error .crashed ↔
    l.ReachesEnd ∧ ∃ line ∈ trimmedLines text, l.Rejects line := by
  constructor
  · intro hcrashed
    obtain ⟨before, line, after, -, -, -, hhalt⟩ :=
      exists_of_findSome?_fault? (keyed_eq_error_iff.1 hcrashed)
    exact ⟨refusal_eq_crashed_iff.1 hhalt.symm, exists_error_iff.1 ⟨_, hcrashed⟩⟩
  · rintro ⟨hend, hrejects⟩
    obtain ⟨halt, hhalt⟩ := exists_error_iff.2 hrejects
    obtain ⟨before, line, after, -, -, -, rfl⟩ :=
      exists_of_findSome?_fault? (keyed_eq_error_iff.1 hhalt)
    rwa [refusal_eq_crashed_iff.2 hend] at hhalt

/-- After lines that are read, a text is refused as it is alone, so many lines further down. -/
theorem keyed_append_eq_error {more : List Char} {d : KeyedDataset} {halt : Halt Problem}
    (hends : Text.EndsLine text) (hd : l.keyed source label text = .ok d)
    (hmore : l.keyed source label more = .error halt) :
    l.keyed source label (text ++ more) =
      .error (halt.map (Problem.later (Text.lines text).length)) := by
  have hlength : (trimmedLines text).length = (Text.lines text).length := List.length_map _
  rw [keyed_eq_error_iff] at hmore ⊢
  rw [trimmedLines_append hends, List.zipIdx_append, List.findSome?_append,
    findSome?_fault?_eq_none_iff.2 (accepted_of_keyed hd), Option.none_or, Nat.zero_add,
    findSome?_fault?_later, hmore, hlength]
  rfl

/-- A log is refused exactly when one of its used lines is short. The refusal is a crash if the
fields are to reach the last position, and otherwise a complaint about the first such line, by its
number among all lines. A log that is not refused yields the keys and members that its used lines
name. A text that is empty or ends in a line feed can be continued: the log of the whole is the
union of the two, key by key, or is refused as the continuation is, so many lines further down. The
order of the lines of a log that is read does not matter. -/
theorem keyed_of_lines (l : LineLog) (source label : String) (text : List Char) :
    ((∃ halt, l.keyed source label text = .error halt) ↔
      ∃ line ∈ trimmedLines text, l.Rejects line) ∧
    (l.keyed source label text = .error .crashed ↔
      l.ReachesEnd ∧ ∃ line ∈ trimmedLines text, l.Rejects line) ∧
    (∀ p, l.keyed source label text = .error (.failed p) → p.toFailure.kind = .invalidDataset ∧
      ∃ before line after, trimmedLines text = before ++ line :: after ∧ l.Rejects line ∧
        (∀ line' ∈ before, ¬l.Rejects line') ∧
        p = .datasetParse source (before.length + 1) (l.complaint line)) ∧
    (∀ d, l.keyed source label text = .ok d →
      d.label = label ∧ l.Yields (trimmedLines text) d) ∧
    (∀ d more, Text.EndsLine text → l.keyed source label text = .ok d →
      (∀ d', l.keyed source label more = .ok d' → ∃ both,
        l.keyed source label (text ++ more) = .ok both ∧ both.label = label ∧
        ∀ key, both.get? key = Option.merge StringSet.union (d.get? key) (d'.get? key)) ∧
      (∀ number reason,
        l.keyed source label more = .error (.failed (.datasetParse source number reason)) →
        l.keyed source label (text ++ more) =
          .error (.failed (.datasetParse source ((Text.lines text).length + number) reason))) ∧
      (l.keyed source label more = .error .crashed →
        l.keyed source label (text ++ more) = .error .crashed)) ∧
    (∀ d text', (trimmedLines text).Perm (trimmedLines text') →
      l.keyed source label text = .ok d → l.keyed source label text' = .ok d) := by
  refine ⟨exists_error_iff, keyed_eq_crashed_iff, ?_, fun d => yields_of_keyed, ?_, ?_⟩
  · intro p hp
    obtain ⟨before, line, after, hlines, hrejects, hbefore, hhalt⟩ :=
      exists_of_findSome?_fault? (keyed_eq_error_iff.1 hp)
    obtain ⟨-, rfl⟩ := refusal_eq_failed_iff.1 hhalt.symm
    exact ⟨rfl, before, line, after, hlines, hrejects, hbefore, rfl⟩
  · intro d more hends hd
    refine ⟨fun d' hd' => ?_, fun number reason hmore => keyed_append_eq_error hends hd hmore,
      fun hmore => keyed_append_eq_error hends hd hmore⟩
    have hlines := trimmedLines_append hends more
    have hall : ∀ line ∈ trimmedLines (text ++ more), ¬l.Rejects line := by
      intro line hline
      rw [hlines, List.mem_append] at hline
      exact hline.elim (accepted_of_keyed hd line) (accepted_of_keyed hd' line)
    obtain ⟨both, hboth, hlabel, hyields⟩ := keyed_of_accepted source label hall
    rw [hlines] at hyields
    exact ⟨both, hboth, hlabel,
      (yields_of_keyed hd).2.get?_append (yields_of_keyed hd').2 hyields⟩
  · intro d text' hperm hd
    have hall : ∀ line ∈ trimmedLines text', ¬l.Rejects line := fun line hline =>
      accepted_of_keyed hd line (hperm.mem_iff.2 hline)
    obtain ⟨d', hd', hlabel, hyields⟩ := keyed_of_accepted source label hall
    obtain ⟨hdlabel, hdyields⟩ := yields_of_keyed hd
    rw [hd', hyields.unique hdyields (fun line => hperm.mem_iff.symm) (hlabel.trans hdlabel.symm)]

example : ({} : LineLog).keyed "run.log" "candidate"
    "10:00 2024-01-02 buying 5% AAPL\r\n10:01 buying\n".toList =
      .error (.failed (.datasetParse "run.log" 2 "expected at least 5 fields, found 2")) := by
  cbv

/-- A short line is not complained about when members are to be at the last position. -/
theorem keyed_crashes_at_last_field :
    let l : LineLog := { memberField := 18446744073709551615 }
    let text := "10:01 2024-01-02 buying\n".toList
    (∃ line ∈ trimmedLines text, l.Rejects line) ∧
      ¬∃ p, l.keyed "run.log" "candidate" text = .error (.failed p) := by
  intro l text
  have hlines : trimmedLines text = ["10:01 2024-01-02 buying".toList] := by decide +kernel
  have hrejects : ∃ line ∈ trimmedLines text, l.Rejects line := by
    rw [hlines]
    exact ⟨_, List.mem_singleton_self _, by decide +kernel⟩
  have hcrashed : l.keyed "run.log" "candidate" text = .error .crashed :=
    keyed_eq_crashed_iff.2 ⟨by decide, hrejects⟩
  refine ⟨hrejects, ?_⟩
  rintro ⟨p, hp⟩
  cases hcrashed.symm.trans hp

end Dataset.LineLog

end CacheAudit
