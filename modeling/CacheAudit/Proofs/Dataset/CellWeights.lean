import CacheAudit.Proofs.Dataset.TableCells
import CacheAudit.Proofs.Dataset.Weight
import CacheAudit.Proofs.Dataset.WeightSums
import Mathlib.Data.List.Forall2

/-!
# What the cells of a table weigh

Read with weights or without, a table has the same rows, so whatever refuses the rows refuses both.
Beyond that only weights can be at fault, and the first cell without one is reported. Where every
cell that counts has a weight, the weighted dataset has the members of the plain one, and the weight
of a member is the sum of its cells in their order.
-/

namespace CacheAudit.Dataset

/-- A present cell under a name that counts, in a record with a key. -/
structure Cell where
  line : Nat
  key : String
  member : String
  text : String

namespace Cell

/-- What a cell says about the weight of its member. -/
def reading (c : Cell) : Reading :=
  ⟨c.key, c.member, c.text.toList⟩

/-- A cell has a weight if its text is a weight. -/
def HasWeight (c : Cell) : Prop :=
  ∃ x, Weighs c.text x

/-- The cells for a member under a key add up to `sum`: each weighs something, and the weights are
added to zero in the order of the cells. -/
def AddUp (cells : List Cell) (key member : String) (sum : Float) : Prop :=
  ∃ weights, List.Forall₂ (fun c x => Weighs c.text x)
    (cells.filter fun c => c.key = key ∧ c.member = member) weights ∧
    weights.foldl (· + ·) 0.0 = sum

/-- The problem of a cell without a weight. -/
def fault? (source : String) (c : Cell) : Option Problem :=
  match weight? c.text.toList with
  | some _ => none
  | none => some (.invalidWeight source c.line c.text)

theorem fault?_eq_none_iff {source : String} {c : Cell} :
    c.fault? source = none ↔ c.HasWeight := by
  simp only [HasWeight, ← weight?_eq_some_iff, fault?]
  cases weight? c.text.toList <;> simp

theorem fault?_eq_some {source : String} {c : Cell} {p : Problem} (h : c.fault? source = some p) :
    p = .invalidWeight source c.line c.text := by
  unfold fault? at h
  split at h
  · cases h
  · cases h
    rfl

end Cell

/-- A named cell of a row. -/
def Row.place (row : Row) (named : String × String) : Cell :=
  ⟨row.line, row.key, named.1, named.2⟩

/-- The cells of a row in the order of its columns. -/
def Row.placed (row : Row) : List Cell :=
  row.cells.map row.place

/-- The cells of a table, row by row and in each row column by column. -/
def Table.cells (t : Table) (records : List Csv.Record) : List Cell :=
  (t.rowsIn records).flatMap Row.placed

namespace Table

variable {t : Table} {source label : String} {bytes : Bytes}

theorem addCell_eq (source : String) (row : Row) (d : WeightedDataset) (named : String × String) :
    addCell source row d named = ((row.place named).fault? source).elim
      (.ok ((row.place named).reading.addTo d)) .error := by
  rw [addCell, Cell.fault?, Reading.addTo]
  dsimp only [Row.place, Cell.reading]
  cases weight? named.2.toList <;> rfl

theorem addCells_eq (source : String) (d : WeightedDataset) (row : Row) :
    row.cells.foldlM (addCell source row) d =
      (row.placed.findSome? (Cell.fault? source)).elim
        (.ok (row.placed.foldl (fun d c => c.reading.addTo d) d)) .error := by
  have hcells := foldlM_eq_elim (addCell_eq source row) row.cells d
  rw [hcells, Row.placed, List.findSome?_map, List.foldl_map, Function.comp_def]

/-- Rows are weighed up to their first cell without a weight. -/
theorem addRows_eq (source : String) (rows : List Row) (d : WeightedDataset) :
    rows.foldlM (fun d row => row.cells.foldlM (addCell source row) d) d =
      ((rows.flatMap Row.placed).findSome? (Cell.fault? source)).elim
        (.ok ((rows.flatMap Row.placed).foldl (fun d c => c.reading.addTo d) d)) .error := by
  have hrows := foldlM_eq_elim (addCells_eq source) rows d
  rw [findSome?_flatMap, List.foldl_flatMap]
  exact hrows

variable {records : List Csv.Record} {k : KeyedDataset} {key member : String} {rows : List Row}

/-- The members of the plain dataset are those that have a cell. -/
theorem has_gathered_iff : (rows.foldl addMembers (.empty label)).Has key member ↔
    ∃ c ∈ rows.flatMap Row.placed, c.key = key ∧ c.member = member := by
  rw [has_gathered]
  constructor
  · rintro ⟨row, hrow, rfl, text, htext⟩
    exact ⟨row.place (member, text), List.mem_flatMap.2 ⟨row, hrow,
      List.mem_map.2 ⟨(member, text), htext, rfl⟩⟩, rfl, rfl⟩
  · rintro ⟨c, hc, rfl, rfl⟩
    obtain ⟨row, hrow, hplaced⟩ := List.mem_flatMap.1 hc
    obtain ⟨named, hnamed, rfl⟩ := List.mem_map.1 hplaced
    exact ⟨row, hrow, rfl, named.2, hnamed⟩

/-- A table that is read without weights has its rows. -/
theorem exists_rows_of_keyed (h : t.keyed source label bytes = .ok k) :
    ∃ text, textOf source bytes = .ok text ∧
      t.rows source bytes = .ok (t.rowsIn (Csv.records text)) ∧
      k = (t.rowsIn (Csv.records text)).foldl addMembers (.empty label) := by
  cases htext : textOf source bytes with
  | error p =>
    rw [keyed, rows, htext] at h
    cases h
  | ok text =>
    obtain ⟨havailable, haccepted⟩ := accepted_of_keyed htext h
    refine ⟨text, rfl, ?_, ?_⟩
    · rw [rows, htext]
      exact rowsOf_of_accepted havailable haccepted
    · cases h.symm.trans (keyed_of_accepted htext label havailable haccepted)
      rfl

theorem readings_eq (h : t.rows source bytes = .ok rows) :
    (Content.table t bytes).readings source = (rows.flatMap Row.placed).map Cell.reading := by
  have hrow : Row.readings = fun row => row.placed.map Cell.reading := by
    funext row
    rw [Row.readings, Row.placed, List.map_map]
    rfl
  rw [Content.readings, h, List.map_flatMap, hrow]

theorem label_foldl_addTo (cells : List Cell) (d : WeightedDataset) :
    (cells.foldl (fun d c => c.reading.addTo d) d).label = d.label := by
  refine List.foldlRecOn (motive := fun d' : WeightedDataset => d'.label = d.label) cells _ rfl
    fun d' h c _ => ?_
  unfold Reading.addTo
  split <;> exact h

/-- Where every cell has a weight, the weights given to a member are those of its cells. -/
theorem forall₂_given {cells : List Cell} (h : ∀ c ∈ cells, c.HasWeight) (key member : String) :
    List.Forall₂ (fun c x => Weighs c.text x)
      (cells.filter fun c => c.key = key ∧ c.member = member)
      ((cells.map Cell.reading).filterMap (Reading.given? key member)) := by
  induction cells with
  | nil => exact .nil
  | cons c cells ih =>
    have hrest := ih fun c' hc' => h c' (List.mem_cons_of_mem c hc')
    obtain ⟨x, hx⟩ := h c List.mem_cons_self
    rw [List.map_cons, List.filterMap_cons, List.filter_cons]
    by_cases hsame : c.key = key ∧ c.member = member
    · have hgiven : Reading.given? key member c.reading = some x := by
        rw [Reading.given?, Cell.reading, if_pos hsame, weight?_eq_some_iff.2 hx]
      rw [hgiven, if_pos (decide_eq_true hsame)]
      exact .cons hx hrest
    · have hgiven : Reading.given? key member c.reading = none := if_neg hsame
      rw [hgiven, if_neg (by simpa using hsame)]
      exact hrest

/-- A member has a weight if it has a cell, and then its cells add up to the weight. -/
theorem weight?_of_cells {w : WeightedDataset} (hrows : t.rows source bytes = .ok rows)
    (hw : t.weighted source label bytes = .ok w)
    (h : ∀ c ∈ rows.flatMap Row.placed, c.HasWeight) (key member : String) :
    ((w.weight? key member).isSome = true ↔
      ∃ c ∈ rows.flatMap Row.placed, c.key = key ∧ c.member = member) ∧
    ∀ sum, w.weight? key member = some sum →
      Cell.AddUp (rows.flatMap Row.placed) key member sum := by
  have hgiven := forall₂_given h key member
  have hloaded : (Content.table t bytes).weighted source label = .ok w := Halt.lift_eq_ok_iff.2 hw
  have hsum := Content.weight?_eq_sum hloaded key member
  rw [Content.given, readings_eq hrows] at hsum
  have hcells : ((rows.flatMap Row.placed).map Cell.reading).filterMap
      (Reading.given? key member) ≠ [] ↔
        ∃ c ∈ rows.flatMap Row.placed, c.key = key ∧ c.member = member := by
    rw [← List.length_pos_iff, ← hgiven.length_eq, List.length_filter_pos_iff]
    simp only [decide_eq_true_eq]
  rw [hsum]
  split
  · rename_i hnil
    refine ⟨iff_of_false Bool.false_ne_true fun hcell => hcells.2 hcell hnil, ?_⟩
    rintro sum ⟨⟩
  · rename_i hne
    refine ⟨iff_of_true rfl (hcells.1 hne), ?_⟩
    rintro sum ⟨⟩
    exact ⟨_, hgiven, rfl⟩

theorem weighted_of_rows (hrows : t.rows source bytes = .ok rows) (label : String) :
    t.weighted source label bytes =
      ((rows.flatMap Row.placed).findSome? (Cell.fault? source)).elim
        (.ok ((rows.flatMap Row.placed).foldl (fun d c => c.reading.addTo d) (.empty label)))
        .error := by
  rw [weighted, hrows]
  exact addRows_eq source rows _

/-- Read with weights, a table has the problem that it has without, if any. Otherwise the first cell
without a weight is reported, by the line of its record; and if all have one, the members with a
weight under a key are those of the plain dataset, each with the sum of its cells. -/
theorem weighted_of_cells (t : Table) (source label label' : String) (bytes : Bytes) :
    (∀ p, t.keyed source label bytes = .error p → t.weighted source label' bytes = .error p) ∧
    (∀ k, t.keyed source label bytes = .ok k → ∃ text, textOf source bytes = .ok text ∧
      ((∃ before cell after, t.cells (Csv.records text) = before ++ cell :: after ∧
          (∀ c ∈ before, c.HasWeight) ∧ ¬cell.HasWeight ∧
          t.weighted source label' bytes =
            .error (.invalidWeight source cell.line cell.text)) ∨
        ((∀ c ∈ t.cells (Csv.records text), c.HasWeight) ∧
          ∃ w, t.weighted source label' bytes = .ok w ∧ w.label = label' ∧
            ∀ key member, ((w.weight? key member).isSome = true ↔ k.Has key member) ∧
              ∀ sum, w.weight? key member = some sum →
                Cell.AddUp (t.cells (Csv.records text)) key member sum))) := by
  refine ⟨fun p hp => ?_, fun k hk => ?_⟩
  · cases hrows : t.rows source bytes with
    | error p' =>
      rw [keyed, hrows] at hp
      cases hp
      rw [weighted, hrows]
      rfl
    | ok rows =>
      rw [keyed, hrows] at hp
      cases hp
  · obtain ⟨text, htext, hrows, rfl⟩ := exists_rows_of_keyed hk
    refine ⟨text, htext, ?_⟩
    have hweighted := weighted_of_rows hrows label'
    rw [cells]
    cases hfault : ((t.rowsIn (Csv.records text)).flatMap Row.placed).findSome?
        (Cell.fault? source) with
    | some p =>
      rw [hfault] at hweighted
      obtain ⟨before, cell, after, hcells, hcell, hbefore⟩ := List.findSome?_eq_some_iff.1 hfault
      refine .inl ⟨before, cell, after, hcells, ?_, ?_, ?_⟩
      · exact fun c hc => Cell.fault?_eq_none_iff.1 (hbefore c hc)
      · intro hweight
        rw [Cell.fault?_eq_none_iff.2 hweight] at hcell
        cases hcell
      · rw [hweighted, Cell.fault?_eq_some hcell]
        rfl
    | none =>
      rw [hfault] at hweighted
      have hall := fun c hc =>
        Cell.fault?_eq_none_iff.1 (List.findSome?_eq_none_iff.1 hfault c hc)
      refine .inr ⟨hall, _, hweighted, label_foldl_addTo _ _, fun key member => ?_⟩
      rw [has_gathered_iff]
      exact weight?_of_cells hrows hweighted hall key member

example : ({} : Table).weighted "export.csv" "reference"
    (Text.Utf8.encode "Date,Cash,AAPL\n2024-01-02,0,lots\n2024-01-03,0,1%,2%\n".toList) =
      .error (.datasetParse "export.csv" 3 "value in unnamed column 3") := by
  cbv

end Table

end CacheAudit.Dataset
