import CacheAudit.Dataset.Table
import CacheAudit.Proofs.Dataset.Encoding
import CacheAudit.Proofs.Dataset.Gathering

/-!
# What a table says cell by cell

A table is read record by record, and the member columns of a record are read with the rest of the
names beside the rest of the cells. Said without that walk, a cell stands in a record and in a
column counted from zero, and each column has one name or none. So what a table yields is told by
its present cells and their names, and a table is refused for the first present cell that has no
name.
-/

namespace CacheAudit.Dataset

/-! ### The width of records -/

namespace Csv

variable {r r' : Reader} {n : Nat}

/-- A reader that has met `n` characters has put no more fields in a record than that, and one more
where the record is complete. -/
structure Reader.Fits (r : Reader) (n : Nat) : Prop where
  fields : r.fields.length ≤ n
  records : ∀ record ∈ r.records, record.fields.length ≤ n + 1

theorem Reader.Fits.mono (h : r.Fits n) : r.Fits (n + 1) where
  fields := Nat.le_succ_of_le h.fields
  records record hrecord := Nat.le_succ_of_le (h.records record hrecord)

/-- A reader with the same fields and records fits as well. -/
theorem Reader.Fits.congr (h : r.Fits n) (hfields : r'.fields = r.fields)
    (hrecords : r'.records = r.records) : r'.Fits n := by
  obtain ⟨hfits, hall⟩ := h
  rw [← hfields] at hfits
  rw [← hrecords] at hall
  exact ⟨hfits, hall⟩

theorem Reader.Fits.endField (h : r.Fits n) : r.endField.Fits (n + 1) where
  fields := Nat.succ_le_succ h.fields
  records := h.mono.records

theorem Reader.Fits.endRecord (h : r.Fits n) : r.endRecord.Fits n where
  fields := Nat.zero_le n
  records record hrecord := by
    rcases List.mem_cons.1 hrecord with rfl | hbefore
    · rw [List.length_reverse, List.length_cons]
      exact Nat.succ_le_succ h.fields
    · exact h.records record hbefore

theorem Reader.Fits.pushPlain (h : r.Fits n) (c : Char) : (r.pushPlain c).Fits (n + 1) := by
  unfold Reader.pushPlain
  split
  · exact h.endField
  · split
    · exact h.endRecord.mono
    · exact h.mono.congr rfl rfl

theorem Reader.Fits.pushStart (h : r.Fits n) (c : Char) : (r.pushStart c).Fits (n + 1) := by
  unfold Reader.pushStart
  split
  · exact h.mono.congr rfl rfl
  · exact h.pushPlain c

theorem Reader.Fits.pushHere (h : r.Fits n) (c : Char) : (r.pushHere c).Fits (n + 1) := by
  unfold Reader.pushHere
  cases r.place with
  | between =>
    dsimp only
    split
    · exact h.mono
    · exact h.pushStart c
  | fieldStart => exact h.pushStart c
  | plain => exact h.pushPlain c
  | quoted =>
    dsimp only
    split <;> exact h.mono.congr rfl rfl
  | afterQuote =>
    dsimp only
    split
    · exact h.mono.congr rfl rfl
    · exact h.pushPlain c

theorem Reader.Fits.push (h : r.Fits n) (c : Char) : (r.push c).Fits (n + 1) := by
  unfold Reader.push
  apply Reader.Fits.pushHere
  split
  · exact h.congr rfl rfl
  · exact h

theorem Reader.Fits.foldl_push (h : r.Fits n) (text : List Char) :
    (text.foldl Reader.push r).Fits (n + text.length) := by
  induction text generalizing r n with
  | nil => exact h
  | cons c text ih =>
    rw [List.length_cons, Nat.add_comm text.length, ← Nat.add_assoc]
    exact ih (h.push c)

theorem length_dropMark_le (text : List Char) : (dropMark text).length ≤ text.length := by
  unfold dropMark
  split
  · exact Nat.le_refl _
  · split
    · exact Nat.le_succ _
    · exact Nat.le_refl _

/-- A record has at most one field more than the text has characters. -/
theorem length_fields_le {text : List Char} {record : Record} (h : record ∈ records text) :
    record.fields.length ≤ text.length + 1 := by
  have hstart : Reader.Fits {} 0 := ⟨Nat.le_refl 0, fun _ hrecord => nomatch hrecord⟩
  have hfits := hstart.foldl_push (dropMark text)
  have hlength := length_dropMark_le text
  have hrecord : record.fields.length ≤ 0 + (dropMark text).length + 1 := by
    unfold records Reader.finish at h
    split at h
    · exact hfits.records record (List.mem_reverse.1 h)
    · exact hfits.endRecord.records record (List.mem_reverse.1 h)
  omega

/-- The cell of a record in a column, without the blanks around it, if it is there and says that the
member is present. -/
def Record.cell? (r : Record) (column : Nat) : Option (List Char) :=
  (r.fields[column]?.map Text.trim).filter Table.isPresent

theorem Record.cell?_eq {r : Record} {column : Nat} {raw : List Char}
    (h : r.fields[column]? = some raw) :
    r.cell? column = if Table.isPresent (Text.trim raw) then some (Text.trim raw) else none := by
  rw [cell?, h, Option.map_some, Option.filter_some]

theorem Record.lt_of_cell? {r : Record} {column : Nat} (h : (r.cell? column).isSome = true) :
    column < r.fields.length := by
  apply Nat.lt_of_not_le
  intro hle
  rw [cell?, List.getElem?_eq_none hle] at h
  cases h

end Csv

namespace Table

/-! ### Places in a table -/

/-- Names of members can be had: they are given, or there is to be a header. -/
def NamesAvailable (t : Table) : Prop :=
  t.memberNames ≠ none ∨ t.hasHeader = true

instance (t : Table) : Decidable t.NamesAvailable :=
  inferInstanceAs (Decidable (_ ∨ _))

/-- The record with the titles of the columns, if there is to be one. -/
def header? (t : Table) (records : List Csv.Record) : Option Csv.Record :=
  if t.hasHeader then records.head? else none

/-- The records with data. -/
def data (t : Table) (records : List Csv.Record) : List Csv.Record :=
  if t.hasHeader then records.drop 1 else records

/-- The name of a column: none before the first member column; from there on one of the given names,
counted from that column, or else the title over the column itself. -/
def name? (t : Table) (records : List Csv.Record) (column : Nat) : Option String :=
  if column < t.firstMemberColumn.toNat then none
  else match t.memberNames with
    | some names => names[column - t.firstMemberColumn.toNat]?
    | none => (t.header? records).bind fun header =>
      header.fields[column]?.map fun title => String.ofList (Text.trim title)

/-- The key of a record: its trimmed cell in the key column, unless that is blank. -/
def key? (t : Table) (r : Csv.Record) : Option String :=
  r.fields[t.keyColumn.toNat]?.bind fun raw =>
    if (Text.trim raw).isEmpty then none else some (String.ofList (Text.trim raw))

/-- A member counts if its name is not empty and not excluded. -/
def Counts (t : Table) (member : String) : Prop :=
  member ≠ "" ∧ member ∉ t.excluded

/-- A cell for which a table is refused: it is present in a record with a key, at a member column
past all those that have a name. -/
structure Offends (t : Table) (records : List Csv.Record) (r : Csv.Record) (column : Nat) :
    Prop where
  keyed : (t.key? r).isSome = true
  present : (r.cell? column).isSome = true
  reached : t.firstMemberColumn.toNat ≤ column
  past : ∀ named, (t.name? records named).isSome = true → named < column

/-- A dataset holds the keys of the records with data, and under each key the members that count
and that some record with this key has a present cell for. -/
structure Yields (t : Table) (records : List Csv.Record) (d : KeyedDataset) : Prop where
  keys : ∀ key, key ∈ d.keys ↔ ∃ r ∈ t.data records, t.key? r = some key
  members : ∀ key member, d.Has key member ↔ t.Counts member ∧
    ∃ r ∈ t.data records, t.key? r = some key ∧
      ∃ column, t.name? records column = some member ∧ (r.cell? column).isSome = true

/-- The member columns of a record. -/
def columns (t : Table) (r : Csv.Record) : List Nat :=
  List.range' t.firstMemberColumn.toNat (r.fields.length - t.firstMemberColumn.toNat)

/-- Whether a record has a present cell in a column without a name. -/
def isUnnamed (t : Table) (records : List Csv.Record) (r : Csv.Record) (column : Nat) : Bool :=
  (r.cell? column).isSome && (t.name? records column).isNone

/-- The member in a column of a record, if it counts, with its cell. -/
def memberAt? (t : Table) (records : List Csv.Record) (r : Csv.Record) (column : Nat) :
    Option (String × String) :=
  (r.cell? column).bind fun cell => (t.name? records column).bind fun name =>
    if name.isEmpty || t.excluded.contains name then none else some (name, String.ofList cell)

/-- The problem of a present cell in a column without a name. -/
def unnamedCell (source : String) (r : Csv.Record) (column : Nat) : Problem :=
  .datasetParse source r.line ("value in unnamed column " ++ toString (UInt64.ofNat column))

/-- The problem of a record. -/
def fault? (t : Table) (source : String) (records : List Csv.Record) (r : Csv.Record) :
    Option Problem :=
  (t.key? r).bind fun _ =>
    ((t.columns r).find? (t.isUnnamed records r)).map (unnamedCell source r)

/-- The row of a record, if it has a key. -/
def rowOf? (t : Table) (records : List Csv.Record) (r : Csv.Record) : Option Row :=
  (t.key? r).map fun key => ⟨r.line, key, (t.columns r).filterMap (t.memberAt? records r)⟩

/-- The rows of the records with data. -/
def rowsIn (t : Table) (records : List Csv.Record) : List Row :=
  (t.data records).filterMap (t.rowOf? records)

variable {t : Table} {source label : String} {records : List Csv.Record} {r : Csv.Record}

theorem mem_columns {column : Nat} :
    column ∈ t.columns r ↔ t.firstMemberColumn.toNat ≤ column ∧ column < r.fields.length := by
  rw [columns, List.mem_range'_1]
  omega

/-- After a member column without a name no column has one. -/
theorem name?_eq_none_of_le {column later : Nat} (hreached : t.firstMemberColumn.toNat ≤ column)
    (hle : column ≤ later) (h : t.name? records column = none) :
    t.name? records later = none := by
  have hcolumn : ¬column < t.firstMemberColumn.toNat := Nat.not_lt.2 hreached
  have hlater : ¬later < t.firstMemberColumn.toNat := by omega
  rw [name?, if_neg hcolumn] at h
  rw [name?, if_neg hlater]
  cases hgiven : t.memberNames with
  | some names =>
    simp only [hgiven, List.getElem?_eq_none_iff] at h ⊢
    omega
  | none =>
    simp only [hgiven] at h ⊢
    cases hheader : t.header? records with
    | none => rfl
    | some header =>
      rw [hheader, Option.bind_some, Option.map_eq_none_iff, List.getElem?_eq_none_iff] at h
      rw [Option.bind_some, Option.map_eq_none_iff, List.getElem?_eq_none_iff]
      omega

/-- The columns with a name stand together: a member column without one is past them all. -/
theorem name?_eq_none_iff {column : Nat} (hreached : t.firstMemberColumn.toNat ≤ column) :
    t.name? records column = none ↔
      ∀ named, (t.name? records named).isSome = true → named < column := by
  constructor
  · intro hnone named hnamed
    apply Nat.lt_of_not_le
    intro hle
    rw [name?_eq_none_of_le hreached hle hnone] at hnamed
    cases hnamed
  · intro hpast
    cases hname : t.name? records column with
    | none => rfl
    | some name => exact absurd (hpast column (by rw [hname]; rfl)) (Nat.lt_irrefl column)

theorem Offends.unnamed {column : Nat} (h : t.Offends records r column) :
    t.name? records column = none :=
  (name?_eq_none_iff h.reached).2 h.past

theorem counts_iff {member : String} :
    t.Counts member ↔ ¬(member.isEmpty || t.excluded.contains member) = true := by
  rw [Counts, Bool.or_eq_true, not_or, StringSet.contains_iff, String.isEmpty_iff]

theorem memberAt?_eq_some_iff {column : Nat} {member text : String} :
    t.memberAt? records r column = some (member, text) ↔
      t.name? records column = some member ∧ t.Counts member ∧
      (r.cell? column).map String.ofList = some text := by
  rw [memberAt?]
  cases r.cell? column with
  | none => simp
  | some cell =>
    cases t.name? records column with
    | none => simp
    | some name =>
      rw [Option.bind_some, Option.bind_some, Option.map_some]
      split
      · rename_i hskipped
        refine iff_of_false (fun h => nomatch h) ?_
        rintro ⟨⟨⟩, hcounts, -⟩
        exact counts_iff.1 hcounts hskipped
      · rename_i hcounts
        simp only [Option.some_inj, Prod.mk.injEq]
        constructor
        · rintro ⟨rfl, rfl⟩
          exact ⟨rfl, counts_iff.2 hcounts, rfl⟩
        · rintro ⟨rfl, -, rfl⟩
          exact ⟨rfl, rfl⟩

/-! ### Reading by places -/

/-- The rest of the names and the rest of the cells, when the columns before `column` are read. -/
theorem members_eq {names : List String} {cells : List (List Char)} {column : Nat}
    (hnames : ∀ i, names[i]? = t.name? records (column + i))
    (hcells : ∀ i, cells[i]? = r.fields[column + i]?) :
    t.members source r.line (UInt64.ofNat column) names cells =
      ((List.range' column cells.length).find? (t.isUnnamed records r)).elim
        (.ok ((List.range' column cells.length).filterMap (t.memberAt? records r)))
        fun column => .error (unnamedCell source r column) := by
  induction cells generalizing names column with
  | nil => rfl
  | cons raw cells ih =>
    have hcell : r.cell? column = _ := Csv.Record.cell?_eq (hcells 0).symm
    have hname : t.name? records column = names[0]? := (hnames 0).symm
    have hrest := @ih (names.drop 1) (column + 1)
      (fun i => by rw [List.getElem?_drop, hnames, Nat.add_assoc])
      (fun i => by rw [Nat.add_assoc, Nat.add_comm 1, ← hcells, List.getElem?_cons_succ])
    have hnext : UInt64.ofNat (column + 1) = UInt64.ofNat column + 1 := UInt64.ofNat_add _ _
    rw [hnext] at hrest
    rw [List.length_cons, List.range'_succ, List.find?_cons, List.filterMap_cons, isUnnamed,
      memberAt?, hcell, hname]
    unfold members
    by_cases hpresent : isPresent (Text.trim raw) = true
    · rw [if_pos hpresent]
      simp only [hpresent]
      cases names with
      | nil => rfl -- the first cell that is refused
      | cons name names =>
        rw [List.drop_one, List.tail_cons] at hrest
        simp only [Bool.not_true, Bool.false_eq_true, if_false, hrest, List.getElem?_cons_zero,
          Option.isSome_some, Option.isNone_some, Bool.and_false, Option.bind_some]
        cases (List.range' (column + 1) cells.length).find? (t.isUnnamed records r) with
        | some column => rfl
        | none =>
          dsimp only [Option.elim_none]
          split <;> rfl
    · -- an absent cell moves on, whether or not its column has a name
      rw [if_neg hpresent]
      simp only [hpresent]
      exact hrest

/-- Where names of members can be had, the list of names has the name of each member column. -/
theorem exists_names (h : t.NamesAvailable) (source : String) (records : List Csv.Record) :
    ∃ names, t.names source records = .ok (names, t.data records) ∧
      ∀ i, names[i]? = t.name? records (t.firstMemberColumn.toNat + i) := by
  have hname (i : Nat) : ¬t.firstMemberColumn.toNat + i < t.firstMemberColumn.toNat := by omega
  unfold names
  cases hgiven : t.memberNames with
  | some given =>
    refine ⟨given, rfl, fun i => ?_⟩
    rw [name?, if_neg (hname i), hgiven, Nat.add_sub_cancel_left]
  | none =>
    have hheader : t.hasHeader = true := h.resolve_left fun hgiven' => hgiven' hgiven
    cases records with
    | nil =>
      refine ⟨[], by rw [data, hheader]; rfl, fun i => ?_⟩
      rw [name?, if_neg (hname i), hgiven, header?, if_pos hheader]
      rfl
    | cons header records =>
      refine ⟨_, by rw [data, hheader]; rfl, fun i => ?_⟩
      rw [name?, if_neg (hname i), hgiven, header?, if_pos hheader, List.getElem?_map,
        List.getElem?_drop]
      rfl

theorem names_eq_error (h : ¬t.NamesAvailable) (source : String) (records : List Csv.Record) :
    t.names source records =
      .error (.datasetParse source 0 "header-less table needs explicit member names") := by
  rw [NamesAvailable, not_or, not_not] at h
  unfold names
  rw [h.1]
  exact if_pos (by simpa using h.2)

/-- A record has its row, unless one of its cells is refused. -/
theorem row?_eq {names : List String}
    (hnames : ∀ i, names[i]? = t.name? records (t.firstMemberColumn.toNat + i))
    (source : String) (r : Csv.Record) :
    t.row? source names r =
      (t.fault? source records r).elim (.ok (t.rowOf? records r)) .error := by
  have hmembers := @members_eq t source records r _ _ _ hnames fun _ => List.getElem?_drop
  rw [UInt64.ofNat_toNat, List.length_drop] at hmembers
  unfold row? fault? rowOf? key? columns
  cases r.fields[t.keyColumn.toNat]? with
  | none => rfl
  | some raw =>
    rw [Option.bind_some]
    dsimp only
    split
    · rfl
    · rw [hmembers]
      cases (List.range' t.firstMemberColumn.toNat
        (r.fields.length - t.firstMemberColumn.toNat)).find? (t.isUnnamed records r) <;> rfl

/-- A table is read up to its first record with a cell that is refused. -/
theorem rowsOf_eq (h : t.NamesAvailable) (source : String) (records : List Csv.Record) :
    t.rowsOf source records = ((t.data records).findSome? (t.fault? source records)).elim
      (.ok (t.rowsIn records)) .error := by
  obtain ⟨names, hnames, hcolumns⟩ := exists_names h source records
  rw [rowsOf, hnames]
  show ((t.data records).mapM (t.row? source names) >>= fun rows => pure (rows.filterMap id)) = _
  rw [mapM_eq_elim (row?_eq hcolumns source)]
  cases (t.data records).findSome? (t.fault? source records) with
  | some p => rfl
  | none =>
    show Except.ok _ = Except.ok _
    rw [List.filterMap_map]
    rfl

/-! ### Cells that are refused -/

theorem isUnnamed_iff {column : Nat} : t.isUnnamed records r column = true ↔
    (r.cell? column).isSome = true ∧ t.name? records column = none := by
  rw [isUnnamed, Bool.and_eq_true, Option.isNone_iff_eq_none]

/-- A cell is refused in a record with a key only. -/
theorem fault?_eq (h : (t.key? r).isSome = true) : t.fault? source records r =
    ((t.columns r).find? (t.isUnnamed records r)).map (unnamedCell source r) := by
  obtain ⟨key, hkey⟩ := Option.isSome_iff_exists.1 h
  rw [fault?, hkey, Option.bind_some]

theorem fault?_eq_none_iff :
    t.fault? source records r = none ↔ ∀ column, ¬t.Offends records r column := by
  constructor
  · intro h column hoffends
    rw [fault?_eq hoffends.keyed, Option.map_eq_none_iff, List.find?_eq_none] at h
    refine h column (mem_columns.2 ⟨hoffends.reached, Csv.Record.lt_of_cell? hoffends.present⟩) ?_
    exact isUnnamed_iff.2 ⟨hoffends.present, hoffends.unnamed⟩
  · intro h
    cases hkey : t.key? r with
    | none => rw [fault?, hkey, Option.bind_none]
    | some key =>
      have hkeyed : (t.key? r).isSome = true := Option.isSome_iff_exists.2 ⟨key, hkey⟩
      rw [fault?_eq hkeyed, Option.map_eq_none_iff, List.find?_eq_none]
      intro column hcolumn hunnamed
      obtain ⟨hpresent, hname⟩ := isUnnamed_iff.1 hunnamed
      have hreached := (mem_columns.1 hcolumn).1
      exact h column ⟨hkeyed, hpresent, hreached, (name?_eq_none_iff hreached).1 hname⟩

theorem exists_of_fault? {p : Problem} (h : t.fault? source records r = some p) :
    ∃ column, t.Offends records r column ∧ (∀ column' < column, ¬t.Offends records r column') ∧
      p = unnamedCell source r column := by
  have hkeyed : (t.key? r).isSome = true := by
    cases hkey : t.key? r with
    | none =>
      rw [fault?, hkey] at h
      cases h
    | some key => rfl
  rw [fault?_eq hkeyed] at h
  obtain ⟨column, hfind, rfl⟩ := Option.map_eq_some_iff.1 h
  obtain ⟨hunnamed, hcolumn, hbefore⟩ := List.find?_range'_eq_some.1 hfind
  obtain ⟨hpresent, hname⟩ := isUnnamed_iff.1 hunnamed
  have hreached := (List.mem_range'_1.1 hcolumn).1
  have hpast := (name?_eq_none_iff hreached).1 hname
  refine ⟨column, ⟨hkeyed, hpresent, hreached, hpast⟩, fun column' hlt hoffends => ?_, rfl⟩
  have hnamed := hbefore column' hoffends.reached hlt
  rw [isUnnamed_iff.2 ⟨hoffends.present, hoffends.unnamed⟩] at hnamed
  cases hnamed

/-! ### What is gathered -/

theorem rowOf?_eq_some_iff {row : Row} : t.rowOf? records r = some row ↔
    ∃ key, t.key? r = some key ∧
      row = ⟨r.line, key, (t.columns r).filterMap (t.memberAt? records r)⟩ := by
  rw [rowOf?, Option.map_eq_some_iff]
  simp only [eq_comm]

/-- The members in a row are the names that count over its present cells. -/
theorem exists_mem_cells {member : String} :
    (∃ text, (member, text) ∈ (t.columns r).filterMap (t.memberAt? records r)) ↔
      t.Counts member ∧
        ∃ column, t.name? records column = some member ∧ (r.cell? column).isSome = true := by
  constructor
  · rintro ⟨text, htext⟩
    obtain ⟨column, -, hmember⟩ := List.mem_filterMap.1 htext
    obtain ⟨hname, hcounts, hcell⟩ := memberAt?_eq_some_iff.1 hmember
    refine ⟨hcounts, column, hname, ?_⟩
    rw [← Option.isSome_map, hcell, Option.isSome_some]
  · rintro ⟨hcounts, column, hname, hpresent⟩
    obtain ⟨cell, hcell⟩ := Option.isSome_iff_exists.1 hpresent
    have hreached : t.firstMemberColumn.toNat ≤ column := by
      apply Nat.le_of_not_lt
      intro hlt
      rw [name?, if_pos hlt] at hname
      cases hname
    refine ⟨String.ofList cell, List.mem_filterMap.2 ⟨column, ?_, ?_⟩⟩
    · exact mem_columns.2 ⟨hreached, Csv.Record.lt_of_cell? hpresent⟩
    · exact memberAt?_eq_some_iff.2 ⟨hname, hcounts, by rw [hcell, Option.map_some]⟩

/-- The members of a row are inserted under its key. -/
theorem addMembers_eq (d : KeyedDataset) (row : Row) :
    addMembers d row = d.insertAll row.key (row.cells.map Prod.fst) := by
  rw [KeyedDataset.insertAll, List.foldl_map, addMembers]

theorem label_addMembers (d : KeyedDataset) (row : Row) : (addMembers d row).label = d.label := by
  rw [addMembers_eq, KeyedDataset.label_insertAll]

theorem label_foldl_addMembers (d : KeyedDataset) (rows : List Row) :
    (rows.foldl addMembers d).label = d.label :=
  List.foldlRecOn (motive := fun d' : KeyedDataset => d'.label = d.label) rows _ rfl
    fun d' h row _ => (label_addMembers d' row).trans h

theorem mem_keys_addMembers {key : String} (d : KeyedDataset) (row : Row) :
    key ∈ (addMembers d row).keys ↔ key = row.key ∨ key ∈ d.keys := by
  rw [addMembers_eq, KeyedDataset.mem_keys_insertAll]

theorem has_addMembers {key member : String} (d : KeyedDataset) (row : Row) :
    (addMembers d row).Has key member ↔
      (key = row.key ∧ ∃ text, (member, text) ∈ row.cells) ∨ d.Has key member := by
  have hcells : member ∈ row.cells.map Prod.fst ↔ ∃ text, (member, text) ∈ row.cells := by simp
  rw [addMembers_eq, KeyedDataset.has_insertAll, hcells]

theorem mem_keys_gathered {rows : List Row} {key : String} :
    key ∈ (rows.foldl addMembers (.empty label)).keys ↔ ∃ row ∈ rows, key = row.key := by
  rw [foldl_iff (key ∈ KeyedDataset.keys ·) mem_keys_addMembers,
    or_iff_left (KeyedDataset.not_mem_keys_empty label)]

theorem has_gathered {rows : List Row} {key member : String} :
    (rows.foldl addMembers (.empty label)).Has key member ↔
      ∃ row ∈ rows, key = row.key ∧ ∃ text, (member, text) ∈ row.cells := by
  rw [foldl_iff (KeyedDataset.Has · key member) has_addMembers,
    or_iff_left (KeyedDataset.not_has_empty label)]

/-- The rows of a table yield what its cells say. -/
theorem yields_rowsIn (t : Table) (records : List Csv.Record) (label : String) :
    t.Yields records ((t.rowsIn records).foldl addMembers (.empty label)) := by
  constructor
  · intro key
    rw [mem_keys_gathered]
    constructor
    · rintro ⟨row, hrow, rfl⟩
      obtain ⟨r, hr, hrow⟩ := List.mem_filterMap.1 hrow
      obtain ⟨key, hkey, rfl⟩ := rowOf?_eq_some_iff.1 hrow
      exact ⟨r, hr, hkey⟩
    · rintro ⟨r, hr, hkey⟩
      exact ⟨_, List.mem_filterMap.2 ⟨r, hr, rowOf?_eq_some_iff.2 ⟨key, hkey, rfl⟩⟩, rfl⟩
  · intro key member
    rw [has_gathered]
    constructor
    · rintro ⟨row, hrow, rfl, hcells⟩
      obtain ⟨r, hr, hrow⟩ := List.mem_filterMap.1 hrow
      obtain ⟨key, hkey, rfl⟩ := rowOf?_eq_some_iff.1 hrow
      obtain ⟨hcounts, hcolumn⟩ := exists_mem_cells.1 hcells
      exact ⟨hcounts, r, hr, hkey, hcolumn⟩
    · rintro ⟨hcounts, r, hr, hkey, hcolumn⟩
      refine ⟨_, List.mem_filterMap.2 ⟨r, hr, rowOf?_eq_some_iff.2 ⟨key, hkey, rfl⟩⟩, rfl, ?_⟩
      exact exists_mem_cells.2 ⟨hcounts, hcolumn⟩

/-! ### Whole tables -/

variable {bytes : Bytes} {text : List Char}

theorem keyed_of_text (htext : textOf source bytes = .ok text) (label : String) :
    t.keyed source label bytes = (t.rowsOf source (Csv.records text)).map fun rows =>
      rows.foldl addMembers (.empty label) := by
  rw [keyed, rows, htext]
  rfl

/-- A table without a cell to be refused for has its rows. -/
theorem rowsOf_of_accepted (havailable : t.NamesAvailable)
    (h : ∀ r ∈ t.data records, ∀ column, ¬t.Offends records r column) :
    t.rowsOf source records = .ok (t.rowsIn records) := by
  have hfault : (t.data records).findSome? (t.fault? source records) = none :=
    List.findSome?_eq_none_iff.2 fun r hr => fault?_eq_none_iff.2 (h r hr)
  rw [rowsOf_eq havailable, hfault]
  rfl

theorem keyed_of_accepted (htext : textOf source bytes = .ok text) (label : String)
    (havailable : t.NamesAvailable)
    (h : ∀ r ∈ t.data (Csv.records text), ∀ column, ¬t.Offends (Csv.records text) r column) :
    t.keyed source label bytes =
      .ok ((t.rowsIn (Csv.records text)).foldl addMembers (.empty label)) := by
  rw [keyed_of_text htext, rowsOf_of_accepted havailable h]
  rfl

theorem keyed_of_unavailable (htext : textOf source bytes = .ok text) (label : String)
    (h : ¬t.NamesAvailable) : t.keyed source label bytes =
      .error (.datasetParse source 0 "header-less table needs explicit member names") := by
  rw [keyed_of_text htext, rowsOf, names_eq_error h]
  rfl

/-- A table that is read has names and no cell to be refused for. -/
theorem accepted_of_keyed (htext : textOf source bytes = .ok text) {d : KeyedDataset}
    (h : t.keyed source label bytes = .ok d) : t.NamesAvailable ∧
      ∀ r ∈ t.data (Csv.records text), ∀ column, ¬t.Offends (Csv.records text) r column := by
  have havailable : t.NamesAvailable := by
    refine Decidable.byContradiction fun hnot => ?_
    rw [keyed_of_unavailable htext label hnot] at h
    cases h
  rw [keyed_of_text htext, rowsOf_eq havailable] at h
  cases hfault : (t.data (Csv.records text)).findSome? (t.fault? source (Csv.records text)) with
  | none =>
    exact ⟨havailable, fun r hr => fault?_eq_none_iff.1 (List.findSome?_eq_none_iff.1 hfault r hr)⟩
  | some p =>
    rw [hfault] at h
    cases h

/-- A table with names is refused for the first record with a cell to be refused for. -/
theorem exists_of_keyed_error (htext : textOf source bytes = .ok text)
    (havailable : t.NamesAvailable) {p : Problem} (h : t.keyed source label bytes = .error p) :
    ∃ before r after column, t.data (Csv.records text) = before ++ r :: after ∧
      (∀ r' ∈ before, ∀ column', ¬t.Offends (Csv.records text) r' column') ∧
      t.Offends (Csv.records text) r column ∧
      (∀ column' < column, ¬t.Offends (Csv.records text) r column') ∧
      p = unnamedCell source r column := by
  rw [keyed_of_text htext, rowsOf_eq havailable] at h
  cases hfault : (t.data (Csv.records text)).findSome? (t.fault? source (Csv.records text)) with
  | none =>
    rw [hfault] at h
    cases h
  | some p' =>
    rw [hfault] at h
    cases h
    obtain ⟨before, r, after, hdata, hr, hbefore⟩ := List.findSome?_eq_some_iff.1 hfault
    obtain ⟨column, hoffends, hfirst, hp⟩ := exists_of_fault? hr
    exact ⟨before, r, after, column, hdata, fun r' hr' => fault?_eq_none_iff.1 (hbefore r' hr'),
      hoffends, hfirst, hp⟩

theorem mem_of_mem_data (h : r ∈ t.data records) : r ∈ records := by
  rw [data] at h
  split at h
  · exact List.mem_of_mem_drop h
  · exact h

/-- A column of a file that fits into the address space is a machine word. -/
theorem toNat_ofNat_column {column : Nat} (htext : textOf source bytes = .ok text)
    (hr : r ∈ t.data (Csv.records text)) (hpresent : (r.cell? column).isSome = true)
    (hsize : bytes.length < UInt64.size) : (UInt64.ofNat column).toNat = column := by
  have hcolumn := Csv.Record.lt_of_cell? hpresent
  have hwidth := Csv.length_fields_le (mem_of_mem_data hr)
  have hlength := (spells_of_textOf htext).length_le
  exact UInt64.toNat_ofNat_of_lt' (by omega)

/-- A table is read exactly if names of members can be had and no record with a key has a present
cell in a member column without a name, and then it yields the keys and members that its records
with data show. It is refused at line 0 if no names can be had, and otherwise for the first such
cell of the first such record, by the line of the record and the absolute column of the cell. -/
theorem keyed_of_cells (t : Table) {source : String} {bytes : Bytes} {text : List Char}
    (label : String) (htext : textOf source bytes = .ok text) :
    ((∃ d, t.keyed source label bytes = .ok d) ↔ t.NamesAvailable ∧
      ∀ r ∈ t.data (Csv.records text), ∀ column, ¬t.Offends (Csv.records text) r column) ∧
    (∀ d, t.keyed source label bytes = .ok d → d.label = label ∧ t.Yields (Csv.records text) d ∧
      (Csv.records text = [] → d = .empty label)) ∧
    (∀ p, t.keyed source label bytes = .error p → p.toFailure.kind = .invalidDataset ∧
      (¬t.NamesAvailable →
        p = .datasetParse source 0 "header-less table needs explicit member names") ∧
      (t.NamesAvailable → ∃ before r after column,
        t.data (Csv.records text) = before ++ r :: after ∧
        (∀ r' ∈ before, ∀ column', ¬t.Offends (Csv.records text) r' column') ∧
        t.Offends (Csv.records text) r column ∧
        (∀ column' < column, ¬t.Offends (Csv.records text) r column') ∧
        p = .datasetParse source r.line
          ("value in unnamed column " ++ toString (UInt64.ofNat column)) ∧
        (bytes.length < UInt64.size → (UInt64.ofNat column).toNat = column))) := by
  refine ⟨⟨?_, ?_⟩, ?_, ?_⟩
  · rintro ⟨d, hd⟩
    exact accepted_of_keyed htext hd
  · rintro ⟨havailable, haccepted⟩
    exact ⟨_, keyed_of_accepted htext label havailable haccepted⟩
  · intro d hd
    obtain ⟨havailable, haccepted⟩ := accepted_of_keyed htext hd
    cases hd.symm.trans (keyed_of_accepted htext label havailable haccepted)
    refine ⟨label_foldl_addMembers _ _, yields_rowsIn t _ label, fun hnil => ?_⟩
    rw [hnil, rowsIn, data]
    split <;> rfl
  · intro p hp
    by_cases havailable : t.NamesAvailable
    · obtain ⟨before, r, after, column, hdata, hbefore, hoffends, hfirst, rfl⟩ :=
        exists_of_keyed_error htext havailable hp
      have hr : r ∈ t.data (Csv.records text) := by simp [hdata]
      exact ⟨rfl, fun hnot => absurd havailable hnot, fun _ => ⟨before, r, after, column, hdata,
        hbefore, hoffends, hfirst, rfl, toNat_ofNat_column htext hr hoffends.present⟩⟩
    · cases hp.symm.trans (keyed_of_unavailable htext label havailable)
      exact ⟨rfl, fun _ => rfl, fun h => absurd h havailable⟩

/-- The default layout takes the members of a small export from its header; a dash is no member. -/
theorem keyed_of_small_export :
    let text := "Date,Cash,AAPL,MSFT\n2024-01-02,0,25%,-\n".toList
    textOf "export.csv" (Text.Utf8.encode text) = .ok text ∧
    ∃ d, ({} : Table).keyed "export.csv" "reference" (Text.Utf8.encode text) = .ok d ∧
      d.Has "2024-01-02" "AAPL" ∧ ¬d.Has "2024-01-02" "MSFT" := by
  have hrecords : Csv.records "Date,Cash,AAPL,MSFT\n2024-01-02,0,25%,-\n".toList =
      [⟨1, ["Date".toList, "Cash".toList, "AAPL".toList, "MSFT".toList]⟩,
        ⟨2, ["2024-01-02".toList, ['0'], "25%".toList, ['-']]⟩] := by decide
  have hpresent (column : Nat) (h : (Csv.Record.cell?
      ⟨2, ["2024-01-02".toList, ['0'], "25%".toList, ['-']]⟩ column).isSome = true) :
      column = 0 ∨ column = 1 ∨ column = 2 := by
    have hlt : column < 4 := Csv.Record.lt_of_cell? h
    have hne : column ≠ 3 := by
      rintro rfl
      exact absurd h (by decide)
    omega
  have htext : textOf "export.csv"
      (Text.Utf8.encode "Date,Cash,AAPL,MSFT\n2024-01-02,0,25%,-\n".toList) =
        .ok "Date,Cash,AAPL,MSFT\n2024-01-02,0,25%,-\n".toList :=
    textOf_of_spells _ (.plainUtf8 (by decide))
  obtain ⟨hiff, hread, -⟩ := keyed_of_cells {} "reference" htext
  rw [hrecords] at hiff hread
  obtain ⟨d, hd⟩ := hiff.2 ⟨by decide, fun r hr column hoffends => by
    cases List.mem_singleton.1 hr
    have hreached : 2 ≤ column := hoffends.reached
    have hlast : column = 2 := by
      have hcolumn := hpresent column hoffends.present
      omega
    subst hlast
    exact absurd hoffends.unnamed (by decide)⟩
  obtain ⟨-, hyields, -⟩ := hread d hd
  refine ⟨htext, d, hd, (hyields.members _ _).2 ?_, fun h => ?_⟩
  · exact ⟨counts_iff.2 (by decide), _, List.mem_singleton.2 rfl, by decide, 2, by decide,
      by decide⟩
  · obtain ⟨-, r, hr, -, column, hname, hcell⟩ := (hyields.members _ _).1 h
    cases List.mem_singleton.1 hr
    rcases hpresent column hcell with rfl | rfl | rfl <;> exact absurd hname (by decide)

example : ({} : Table).keyed "export.csv" "reference"
    (Text.Utf8.encode "Date,Cash,AAPL\n2024-01-02,0,25%,75%\n".toList) =
      .error (.datasetParse "export.csv" 2 "value in unnamed column 3") := by
  cbv

end Table

end CacheAudit.Dataset
