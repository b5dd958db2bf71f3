import CacheAudit.Proofs.Dataset.Loaders
import CacheAudit.Proofs.Decimal.Overflow

/-!
# What the weights of a loaded dataset are

A table and a log say for a member under a key what it weighs, possibly more than once. Both
readers come down to the same list of such readings, and a stored weight is the sum of what was
read for its member, in the order of reading and starting from zero. Each single weight is a finite
number; the sum need not be one.
-/

namespace CacheAudit

namespace WeightedDataset

variable {key member : String}

/-- The weight of a member under a key. -/
def weight? (d : WeightedDataset) (key member : String) : Option Float :=
  (d.get? key).bind fun weights => weights.get? member

/-- Every weight is a finite number. -/
def AllFinite (d : WeightedDataset) : Prop :=
  ∀ key member x, d.weight? key member = some x → x.isFinite = true

theorem weight?_empty (label : String) : (empty label).weight? key member = none :=
  rfl

theorem weight?_eq (d : WeightedDataset) (key member : String) :
    d.weight? key member = ((d.get? key).getD ∅).get? member := by
  unfold weight?
  cases d.get? key <;> rfl

theorem weight?_add (d : WeightedDataset) (key' member' : String) (x : Float) :
    (d.add key' member' x).weight? key member =
      if key' = key ∧ member' = member then some ((d.weight? key member).getD 0.0 + x)
      else d.weight? key member := by
  simp only [weight?_eq]
  by_cases hkey : key' = key
  · subst hkey
    have hweights : (d.add key' member' x).get? key' = some (((d.get? key').getD ∅).alter member'
        fun sum => sum.getD 0.0 + x) := StringMap.get?_alter_self ..
    rw [hweights, Option.getD_some]
    by_cases hmember : member' = member
    · subst hmember
      rw [StringMap.get?_alter_self, if_pos ⟨rfl, rfl⟩]
    · rw [StringMap.get?_alter_of_ne _ (Ne.symm hmember), if_neg fun h => hmember h.2]
  · have hsame : (d.add key' member' x).get? key = d.get? key :=
      StringMap.get?_alter_of_ne _ (Ne.symm hkey) _
    rw [hsame, if_neg fun h => hkey h.1]

theorem foldl_some_add (sum : Float) (xs : List Float) :
    xs.foldl (fun sum x => some (sum.getD 0.0 + x)) (some sum) = some (xs.foldl (· + ·) sum) := by
  induction xs generalizing sum with
  | nil => rfl
  | cons x xs ih => exact ih (sum + x)

/-- Where each item adds to the weight of a member what it gives to it, the weight that a dataset
ends up with is the sum of what was given, from zero on and in order; a member to which nothing was
given has none. -/
theorem weight?_foldl {α : Type} {f : WeightedDataset → α → WeightedDataset}
    {given? : α → Option Float}
    (hstep : ∀ d x, (f d x).weight? key member =
      match given? x with
      | some w => some ((d.weight? key member).getD 0.0 + w)
      | none => d.weight? key member) (label : String) (xs : List α) :
    (xs.foldl f (empty label)).weight? key member =
      if xs.filterMap given? = [] then none
      else some ((xs.filterMap given?).foldl (· + ·) 0.0) := by
  have hfold (d : WeightedDataset) :
      (xs.foldl f d).weight? key member = (xs.filterMap given?).foldl
        (fun sum w => some (sum.getD 0.0 + w)) (d.weight? key member) := by
    induction xs generalizing d with
    | nil => rfl
    | cons x xs ih =>
      rw [List.foldl_cons, ih, hstep, List.filterMap_cons]
      cases given? x <;> rfl
  rw [hfold, weight?_empty]
  cases xs.filterMap given? with
  | nil => rfl
  | cons w ws => exact foldl_some_add (0.0 + w) ws

theorem allFinite_empty (label : String) : (empty label).AllFinite := by
  intro key member x hx
  cases hx

/-- A weight that is added leaves every weight finite if the new sum is. -/
theorem AllFinite.add {d : WeightedDataset} (h : d.AllFinite) {x : Float}
    (hsum : ((d.weight? key member).getD 0.0 + x).isFinite = true) :
    (d.add key member x).AllFinite := by
  intro key' member' y hy
  rw [weight?_add] at hy
  split at hy
  · rename_i hsame
    obtain ⟨rfl, rfl⟩ := hsame
    cases hy
    exact hsum
  · exact h key' member' y hy

end WeightedDataset

namespace Dataset

open WeightedDataset (weight?_add)

/-- What a source says about the weight of a member under a key. -/
structure Reading where
  key : String
  member : String
  cell : List Char

namespace Reading

/-- The weight that a reading gives to a member under a key. -/
def given? (key member : String) (r : Reading) : Option Float :=
  if r.key = key ∧ r.member = member then weight? r.cell else none

/-- A reading put into a dataset. -/
def addTo (d : WeightedDataset) (r : Reading) : WeightedDataset :=
  match weight? r.cell with
  | some w => d.add r.key r.member w
  | none => d

end Reading

/-- The content of a dataset file, with the settings to read it by. -/
inductive Content
  | table (t : Table) (bytes : Bytes)
  | log (l : LineLog) (text : List Char)

/-- The readings of the cells of a row. -/
def Row.readings (row : Row) : List Reading :=
  row.cells.map fun cell => ⟨row.key, cell.1, cell.2.toList⟩

/-- The reading of a line, unless its member is excluded. -/
def LineLog.reading? (l : LineLog) (line : LogLine) : Option Reading :=
  if l.excluded.contains (LogLine.word line l.memberField) then none
  else some ⟨LogLine.word line l.keyField, LogLine.word line l.memberField,
    (LogLine.word line l.weightField).toList⟩

namespace Content

/-- The weights of a content. -/
def weighted (name label : String) : Content → Except (Halt Problem) WeightedDataset
  | .table t bytes => Halt.lift (t.weighted name label bytes)
  | .log l text => l.weighted name label text

/-- The readings of a content in their order. -/
def readings (name : String) : Content → List Reading
  | .table t bytes =>
    match t.rows name bytes with
    | .ok rows => rows.flatMap Row.readings
    | .error _ => []
  | .log l text => (l.used text).filterMap l.reading?

/-- The weights that a content gives to a member under a key, in their order. -/
def given (name : String) (c : Content) (key member : String) : List Float :=
  (c.readings name).filterMap (Reading.given? key member)

/-- No sum of weights overflows. -/
def NoOverflow (name : String) (c : Content) : Prop :=
  ∀ key member, Decimal.NoOverflow 0.0 (c.given name key member)

end Content

variable {name label key member : String} {d w : WeightedDataset} {rs : List Reading}

/-! ### Reading -/

theorem eq_foldl_of_foldlM {α β ε : Type} {f : β → α → Except ε β} {g : β → α → β}
    (hstep : ∀ b x b', f b x = .ok b' → b' = g b x) {xs : List α} {b b' : β}
    (h : xs.foldlM f b = .ok b') : b' = xs.foldl g b := by
  induction xs generalizing b with
  | nil =>
    cases h
    rfl
  | cons x xs ih =>
    obtain ⟨b₁, hx, hxs⟩ := exists_of_bind_eq_ok (List.foldlM_cons.symm.trans h)
    rw [List.foldl_cons, ← hstep b x b₁ hx]
    exact ih hxs

theorem Table.eq_addTo_of_addCell {row : Row} {cell : String × String} {d' : WeightedDataset}
    (h : addCell name row d cell = .ok d') :
    d' = Reading.addTo d ⟨row.key, cell.1, cell.2.toList⟩ := by
  unfold addCell at h
  split at h
  · rename_i x hx
    cases h
    simp only [Reading.addTo, hx]
  · cases h

theorem LineLog.eq_addTo_of_addWeight (l : LineLog) {line : LogLine} {d' : WeightedDataset}
    (h : l.addWeight name d line = .ok d') :
    d' = (l.reading? line).elim d (Reading.addTo d) := by
  unfold reading?
  rcases l.cases_of_addWeight h with ⟨hexcluded, rfl⟩ | ⟨x, hexcluded, hx, rfl⟩
  · rw [hexcluded]
    rfl
  · rw [hexcluded, if_neg Bool.false_ne_true]
    simp [Reading.addTo, hx]

/-- A loaded dataset is made of the readings, put in one after the other. -/
theorem Content.weighted_eq {c : Content} (h : c.weighted name label = .ok w) :
    w = (c.readings name).foldl Reading.addTo (.empty label) := by
  cases c with
  | table t bytes =>
    obtain ⟨rows, hrows, h⟩ := exists_of_bind_eq_ok (Halt.lift_eq_ok_iff.1 h)
    rw [readings, hrows, List.foldl_flatMap]
    apply eq_foldl_of_foldlM _ h
    intro d row d' hrow
    rw [Row.readings, List.foldl_map]
    exact eq_foldl_of_foldlM (fun _ _ _ hcell => Table.eq_addTo_of_addCell hcell) hrow
  | log l text =>
    rw [readings, List.foldl_filterMap]
    apply eq_foldl_of_foldlM _ h
    intro d line d' hline
    rw [l.eq_addTo_of_addWeight hline]
    cases l.reading? line <;> rfl

/-! ### Adding up -/

theorem isFinite_of_weight? {cell : List Char} {x : Float} (h : weight? cell = some x) :
    x.isFinite = true := by
  unfold weight? at h
  split at h
  · split at h
    · cases h
      assumption
    · cases h
  · cases h

theorem Content.isFinite_of_mem_given {c : Content} {x : Float}
    (h : x ∈ c.given name key member) : x.isFinite = true := by
  obtain ⟨r, -, hr⟩ := List.mem_filterMap.1 h
  unfold Reading.given? at hr
  split at hr
  · exact isFinite_of_weight? hr
  · cases hr

/-- A reading for another member changes nothing, one for the member itself adds to its weight. -/
theorem weight?_addTo (d : WeightedDataset) (r : Reading) :
    (r.addTo d).weight? key member =
      match r.given? key member with
      | some x => some ((d.weight? key member).getD 0.0 + x)
      | none => d.weight? key member := by
  unfold Reading.addTo Reading.given?
  cases hx : weight? r.cell with
  | none => simp
  | some x =>
    rw [weight?_add]
    split <;> rfl

/-- A stored weight is the sum of what was read for its member, from zero on and in order; a member
for which nothing was read has none. -/
theorem Content.weight?_eq_sum {c : Content} (h : c.weighted name label = .ok w)
    (key member : String) :
    w.weight? key member =
      if c.given name key member = [] then none
      else some ((c.given name key member).foldl (· + ·) 0.0) := by
  rw [c.weighted_eq h]
  exact WeightedDataset.weight?_foldl weight?_addTo label (c.readings name)

/-- The stored weights are finite exactly when no sum overflows. -/
theorem Content.allFinite_iff {c : Content} (h : c.weighted name label = .ok w) :
    w.AllFinite ↔ c.NoOverflow name := by
  have hsum (key member : String) :
      ((c.given name key member).foldl (· + ·) 0.0).isFinite = true ↔
        Decimal.NoOverflow 0.0 (c.given name key member) := by
    have hzero : (0.0 : Float).isFinite = true := by decide +kernel
    rw [Decimal.isFinite_foldl_add fun x hx => c.isFinite_of_mem_given hx, and_iff_right hzero]
  have hstored := c.weight?_eq_sum h
  constructor
  · intro hfinite key member
    by_cases hnil : c.given name key member = []
    · rw [hnil]
      trivial
    · exact (hsum key member).1 (hfinite key member _ ((hstored key member).trans (if_neg hnil)))
  · intro hbounded key member x hx
    rw [hstored] at hx
    split at hx
    · cases hx
    · cases hx
      exact (hsum key member).2 (hbounded key member)

end Dataset

end CacheAudit
