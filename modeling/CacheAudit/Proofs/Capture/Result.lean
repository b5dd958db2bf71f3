import CacheAudit.Capture.Steps
import Mathlib.Data.List.Permutation

/-!
# What a capture answers

The clock can only make a capture fail, and the order in which the workers finish makes no
difference at all. Whenever a capture gives a snapshot it is therefore the one that the items of
the walk and the fingerprints of its files determine.
-/

namespace CacheAudit

namespace WalkItem

/-- The regular file that an item is. -/
def found? : WalkItem → Option Capture.FoundFile
  | file path names => some ⟨path, key names⟩
  | _ => none

/-- The key of the place at which the walk failed, unless it is unknown or the root itself. -/
def unreadableKey? : WalkItem → Option String
  | failed place _ =>
    let k := key ((place.map Prod.snd).getD [])
    if k.isEmpty then none else some k
  | _ => none

end WalkItem

namespace Capture

/-- The record of a file, if its fingerprint could be taken. -/
def FoundFile.record? (d : Disk) (fp : Fingerprinter) (file : FoundFile) : Option FileRecord :=
  match fp.fingerprint d file.path file.key with
  | .ok r => some r
  | .error _ => none

/-- The key of a file that could not be read. -/
def FoundFile.unreadable? (d : Disk) (fp : Fingerprinter) (file : FoundFile) : Option String :=
  match fp.fingerprint d file.path file.key with
  | .ok _ => none
  | .error f => if f.kind = .fileUnreadable then some file.key else none

/-- The failure of a file that ends the capture. -/
def FoundFile.failure? (d : Disk) (fp : Fingerprinter) (file : FoundFile) : Option Failure :=
  match fp.fingerprint d file.path file.key with
  | .ok _ => none
  | .error f => if f.kind = .fileUnreadable then none else some f

/-- Nothing keeps a capture from visiting its files: the clock can tell the deadline and is before
it at all readings, and the workers can be had. -/
structure Unhindered (limits : CaptureLimits) (around : Surroundings) : Prop where
  told : canTell limits around.clock = true
  staffed : around.pool (max limits.workers 1) = .ok ()
  atItem : ∀ i, isLate limits around.clock (around.clock.atItem i) = false
  atFile : ∀ i, isLate limits around.clock (around.clock.atFile i) = false
  atEnd : isLate limits around.clock around.clock.atEnd = false

/-- Nothing is late without a deadline. -/
theorem isLate_of_no_deadline {limits : CaptureLimits} (h : limits.timeout = none)
    (clock : Readings) (reading : Nat) : isLate limits clock reading = false := by
  rw [isLate, h]
  rfl

/-- The clock can tell that there is no deadline. -/
theorem canTell_of_no_deadline {limits : CaptureLimits} (h : limits.timeout = none)
    (clock : Readings) : canTell limits clock = true := by
  rw [canTell, h]
  rfl

/-- Without a deadline a capture needs nothing but its workers. -/
theorem unhindered_of_no_deadline {limits : CaptureLimits} {around : Surroundings}
    (h : limits.timeout = none) (hpool : around.pool (max limits.workers 1) = .ok ()) :
    Unhindered limits around where
  told := canTell_of_no_deadline h _
  staffed := hpool
  atItem := fun _ => isLate_of_no_deadline h _ _
  atFile := fun _ => isLate_of_no_deadline h _ _
  atEnd := isLate_of_no_deadline h _ _

theorem kind_lateFailure (root : Path) (limits : CaptureLimits) :
    (lateFailure root limits).kind = .timeout :=
  rfl

/-- A root that is no directory is an error of input and output, whatever is wrong with it. -/
theorem kind_of_requireRoot {files : FileAccess} {d : Disk} {root : Path} {f : Failure}
    (h : requireRoot files d root = .error f) : f.kind = .io := by
  unfold requireRoot at h
  split at h <;> cases h <;> rfl

/-- The snapshot that the items of a walk and the fingerprints of its files determine, or the
first failure that ends the capture. -/
def untimed (d : Disk) (fp : Fingerprinter) (root : Path) (items : List WalkItem) :
    Except Failure Snapshot :=
  let files := items.filterMap WalkItem.found?
  match files.findSome? (FoundFile.failure? d fp) with
  | some f => .error f
  | none => .ok (.ofRecords root.display d.now fp.algorithm
      (files.filterMap (FoundFile.record? d fp))
      (items.filterMap WalkItem.unreadableKey? ++ files.filterMap (FoundFile.unreadable? d fp)))

/-! ### The workers -/

section Workers

variable (d : Disk) (fp : Fingerprinter) (limits : CaptureLimits) (clock : Readings)

/-- What becomes of file number `i` when its turn comes. -/
def resultAt (i : Nat) (file : FoundFile) : FileResult :=
  if isLate limits clock (clock.atFile i) then .late else examine d fp file

/-- What becomes of all files that a walk found. -/
def results (files : List FoundFile) : List FileResult :=
  files.mapIdx (resultAt d fp limits clock)

/-- The file for which the fingerprinter is called when the turn of number `i` comes. -/
def calledAt (files : List FoundFile) (i : Nat) : Option FoundFile :=
  if isLate limits clock (clock.atFile i) then none else files[i]?

/-- The slots after the result of file number `i` was handed in. -/
def handIn (results : List FileResult) (slots : List (Option FileResult)) (i : Nat) :
    List (Option FileResult) :=
  slots.set i results[i]?

/-- A capture whose walk is done and whose workers have not begun. -/
def Survey.begun (around : Surroundings) (found : Survey) : Progress where
  found := found
  pending := around.finishing.order found.files.length
  slots := List.replicate found.files.length none

end Workers

section Workers

variable {d : Disk} {fp : Fingerprinter} {limits : CaptureLimits} {around : Surroundings}
  {p : Progress}

/-- A visit fills the slot of its file and may call the fingerprinter once. -/
theorem Progress.visit_eq (hslots : p.slots.length = p.found.files.length) (i : Nat) :
    p.visit d fp limits around i = { p with
      slots := handIn (results d fp limits around.clock p.found.files) p.slots i
      given := p.given ++ (calledAt limits around.clock p.found.files i).toList } := by
  rw [visit, handIn, results, List.getElem?_mapIdx, calledAt]
  cases hfile : p.found.files[i]? with
  | none =>
    have hpast : p.slots.length ≤ i := by
      rw [hslots]
      exact List.getElem?_eq_none_iff.1 hfile
    simp [List.set_eq_of_length_le hpast]
  | some file =>
    cases hlate : isLate limits around.clock (around.clock.atFile i) <;> simp [resultAt, hlate]

/-- Visits to files in some order fill their slots and call the fingerprinter in this order. -/
theorem Progress.foldl_visit (hslots : p.slots.length = p.found.files.length)
    (order : List Nat) : order.foldl (visit d fp limits around) p = { p with
      slots := order.foldl (handIn (results d fp limits around.clock p.found.files)) p.slots
      given := p.given ++ order.filterMap (calledAt limits around.clock p.found.files) } := by
  induction order generalizing p with
  | nil => simp
  | cons i rest ih =>
    have hset (results : List FileResult) :
        (handIn results p.slots i).length = p.found.files.length := by
      rw [handIn, List.length_set, hslots]
    rw [List.foldl_cons, visit_eq hslots, ih (hset _), List.foldl_cons, List.filterMap_cons]
    cases calledAt limits around.clock p.found.files i <;> simp

/-- After some results were handed in, a slot holds the result of its file if that was among them
and is as it was before otherwise. -/
private theorem getElem?_foldl_handIn (results : List FileResult) (order : List Nat)
    (slots : List (Option FileResult)) (k : Nat) (hk : k < slots.length) :
    (order.foldl (handIn results) slots)[k]? =
      if k ∈ order then some results[k]? else slots[k]? := by
  induction order generalizing slots with
  | nil => simp
  | cons i rest ih =>
    have hk' : k < (handIn results slots i).length := by simpa [handIn] using hk
    rw [List.foldl_cons, ih _ hk']
    by_cases hrest : k ∈ rest
    · simp [hrest]
    · by_cases hik : i = k
      · subst hik
        simp [handIn, hrest, hk]
      · simp [handIn, hrest, hik, Ne.symm hik]

theorem length_foldl_handIn (results : List FileResult) (order : List Nat)
    (slots : List (Option FileResult)) :
    (order.foldl (handIn results) slots).length = slots.length := by
  induction order generalizing slots with
  | nil => rfl
  | cons i rest ih => rw [List.foldl_cons, ih, handIn, List.length_set]

/-- Whatever the order in which the workers finish, every result ends up in the slot of its
file. -/
theorem foldl_handIn_eq (finishing : FinishingOrder) (results : List FileResult) :
    (finishing.order results.length).foldl (handIn results)
      (List.replicate results.length none) = results.map some := by
  apply List.ext_getElem?
  intro k
  by_cases hk : k < results.length
  · have hmem : k ∈ finishing.order results.length :=
      (finishing.complete results.length).mem_iff.2 (List.mem_range.2 hk)
    rw [getElem?_foldl_handIn _ _ _ _ (by simpa using hk)]
    simp [hmem, hk]
  · rw [List.getElem?_eq_none (by rw [length_foldl_handIn, List.length_replicate]; omega),
      List.getElem?_eq_none (by rw [List.length_map]; omega)]

@[simp] theorem length_results (files : List FoundFile) :
    (results d fp limits around.clock files).length = files.length :=
  List.length_mapIdx

/-- When all files are visited, each has its result in its slot. -/
theorem takeAll_begun (found : Survey) :
    (Survey.begun around found).takeAll d fp limits around =
    { found
      pending := []
      slots := (results d fp limits around.clock found.files).map some
      given := (around.finishing.order found.files.length).filterMap
        (calledAt limits around.clock found.files) } := by
  have hslots := foldl_handIn_eq around.finishing (results d fp limits around.clock found.files)
  rw [length_results] at hslots
  rw [Progress.takeAll, Survey.begun,
    Progress.foldl_visit (by exact List.length_replicate), hslots, List.nil_append]

private theorem filterMap_getElem?_range {α : Type} (xs : List α) :
    (List.range xs.length).filterMap (fun k => xs[k]?) = xs := by
  induction xs with
  | nil => rfl
  | cons x xs ih =>
    rw [List.length_cons, List.range_succ_eq_map, List.filterMap_cons_some (by rfl),
      List.filterMap_map]
    exact congrArg (x :: ·) ih

/-- When no turn of a file comes late, the fingerprinter is called for every file once. -/
theorem calls_of_not_late (finishing : FinishingOrder) {clock : Readings} {files : List FoundFile}
    (h : ∀ k < files.length, isLate limits clock (clock.atFile k) = false) :
    ((finishing.order files.length).filterMap (calledAt limits clock files)).Perm files := by
  have hcalled : (List.range files.length).filterMap (calledAt limits clock files) = files := by
    have hkept : (List.range files.length).filterMap (calledAt limits clock files) =
        (List.range files.length).filterMap fun k => files[k]? := by
      refine List.filterMap_congr fun k hk => ?_
      rw [calledAt, h k (List.mem_range.1 hk), if_neg Bool.false_ne_true]
    rw [hkept, filterMap_getElem?_range]
  exact ((finishing.complete _).filterMap _).trans (.of_eq hcalled)

end Workers

/-! ### The survey -/

/-- A survey that does not run late lists the files and the unreadable places of the walk. -/
theorem value_survey_of_not_late {late : Nat → Bool} {i : Nat} {items : List WalkItem}
    (h : (survey late i items).value.late = false) :
    (survey late i items).value =
      ⟨items.filterMap WalkItem.found?, items.filterMap WalkItem.unreadableKey?, false⟩ := by
  induction items generalizing i with
  | nil => rfl
  | cons item rest ih =>
    cases hlate : late i with
    | true => simp [survey, hlate] at h
    | false =>
      cases item with
      | file path names =>
        have hrest : (survey late (i + 1) rest).value.late = false := by
          simpa [survey, hlate] using h
        simp [survey, hlate, ih hrest, List.filterMap_cons, WalkItem.found?,
          WalkItem.unreadableKey?]
      | other =>
        have hrest : (survey late (i + 1) rest).value.late = false := by
          simpa [survey, hlate] using h
        simp [survey, hlate, ih hrest, List.filterMap_cons, WalkItem.found?,
          WalkItem.unreadableKey?]
      | failed place e =>
        by_cases hkey : (WalkItem.key ((place.map Prod.snd).getD [])).isEmpty
        all_goals
          have hrest : (survey late (i + 1) rest).value.late = false := by
            simpa [survey, hlate, hkey] using h
          simp [survey, hlate, hkey, ih hrest, List.filterMap_cons, WalkItem.found?,
            WalkItem.unreadableKey?]

/-- A survey runs late when one of its items comes late. -/
theorem late_survey_iff {late : Nat → Bool} {i : Nat} {items : List WalkItem} :
    (survey late i items).value.late = true ↔ ∃ k < items.length, late (i + k) = true := by
  induction items generalizing i with
  | nil => simp [survey]
  | cons item rest ih =>
    have hrest : (∃ k < rest.length, late (i + (k + 1)) = true) ↔
        (survey late (i + 1) rest).value.late = true := by
      rw [ih]
      simp only [Nat.add_assoc, Nat.add_comm 1]
    rw [List.length_cons, Nat.exists_lt_succ_left, Nat.add_zero, hrest]
    cases hlate : late i with
    | true => simp [survey, hlate]
    | false =>
      cases item with
      | file path names => simp [survey, hlate]
      | other => simp [survey, hlate]
      | failed place e =>
        by_cases hkey : (WalkItem.key ((place.map Prod.snd).getD [])).isEmpty <;>
          simp [survey, hlate, hkey]

/-! ### The fingerprints -/

/-- Going through the results of examined files answers the first failure that ends the capture,
and otherwise the records and the keys of the unreadable files. -/
theorem value_collect_examine (whenLate : Failure) (d : Disk) (fp : Fingerprinter)
    (files : List FoundFile) :
    (collect whenLate (files.map (examine d fp))).value =
      match files.findSome? (FoundFile.failure? d fp) with
      | some f => .error f
      | none => .ok (files.filterMap (FoundFile.record? d fp),
          files.filterMap (FoundFile.unreadable? d fp)) := by
  induction files with
  | nil => rfl
  | cons file rest ih =>
    rw [List.map_cons]
    cases hfile : fp.fingerprint d file.path file.key with
    | ok r =>
      simp only [examine, hfile, collect, Logged.value_bind, Logged.value_pure, ih,
        List.findSome?_cons, FoundFile.failure?, List.filterMap_cons, FoundFile.record?,
        FoundFile.unreadable?]
      cases rest.findSome? (FoundFile.failure? d fp) <;> rfl
    | error f =>
      by_cases hkind : f.kind = .fileUnreadable
      · simp only [examine, hfile, hkind, if_true, collect, Logged.value_bind, Logged.value_pure,
          ih, List.findSome?_cons, FoundFile.failure?, List.filterMap_cons, FoundFile.record?,
          FoundFile.unreadable?]
        cases rest.findSome? (FoundFile.failure? d fp) <;> rfl
      · simp [examine, hfile, hkind, collect, FoundFile.failure?]

/-- When the turn of none of the files comes late, all of them are examined. -/
theorem results_of_not_late {d : Disk} {fp : Fingerprinter} {limits : CaptureLimits}
    {clock : Readings} {files : List FoundFile}
    (h : ∀ k < files.length, isLate limits clock (clock.atFile k) = false) :
    results d fp limits clock files = files.map (examine d fp) := by
  apply List.ext_getElem?
  intro k
  rw [results, List.getElem?_mapIdx, List.getElem?_map]
  cases hfile : files[k]? with
  | none => rfl
  | some file =>
    obtain ⟨hk, -⟩ := List.getElem?_eq_some_iff.1 hfile
    rw [Option.map_some, Option.map_some, resultAt, h k hk, if_neg Bool.false_ne_true]

/-- Results of which something is collected are those of files that did not come late. -/
theorem late_not_mem_of_collect {whenLate : Failure} {results : List FileResult}
    {found : List FileRecord × List String} (h : (collect whenLate results).value = .ok found) :
    .late ∉ results := by
  induction results generalizing found with
  | nil => exact List.not_mem_nil
  | cons result rest ih =>
    have hrest {g : List FileRecord × List String → List FileRecord × List String}
        (hmap : (collect whenLate rest).value.map g = .ok found) (hfirst : .late ≠ result) :
        .late ∉ result :: rest := by
      cases hvalue : (collect whenLate rest).value with
      | error f =>
        rw [hvalue] at hmap
        cases hmap
      | ok found' => exact List.not_mem_cons_of_ne_of_not_mem hfirst (ih hvalue)
    cases result with
    | recorded r => exact hrest (by simpa [collect] using h) nofun
    | unreadable key f => exact hrest (by simpa [collect] using h) nofun
    | failed f => cases h
    | late => cases h

/-- Results without a failure leave no file out for being late. -/
theorem results_of_collect {whenLate : Failure} {d : Disk} {fp : Fingerprinter}
    {limits : CaptureLimits} {clock : Readings} {files : List FoundFile}
    {found : List FileRecord × List String}
    (h : (collect whenLate (results d fp limits clock files)).value = .ok found) :
    results d fp limits clock files = files.map (examine d fp) := by
  refine results_of_not_late fun k hk => Bool.not_eq_true _ ▸ fun hlate => ?_
  refine late_not_mem_of_collect h (List.mem_iff_getElem?.2 ⟨k, ?_⟩)
  rw [results, List.getElem?_mapIdx, List.getElem?_eq_getElem hk, Option.map_some, resultAt,
    if_pos hlate]

private theorem eq_error_of_map {α β : Type} {g : α → β} {x : Except Failure α} {f : Failure}
    (h : x.map g = .error f) : x = .error f := by
  cases x <;> cases h
  rfl

/-- Going through the results fails for the first that ends the capture. -/
theorem collect_eq_error {whenLate f : Failure} {results : List FileResult}
    (h : (collect whenLate results).value = .error f) : f = whenLate ∨ .failed f ∈ results := by
  induction results with
  | nil => cases h
  | cons result rest ih =>
    have hrest {g : List FileRecord × List String → List FileRecord × List String}
        (hmap : (collect whenLate rest).value.map g = .error f) :
        f = whenLate ∨ .failed f ∈ result :: rest :=
      (ih (eq_error_of_map hmap)).imp_right (List.mem_cons_of_mem _)
    cases result with
    | recorded r => exact hrest (by simpa [collect] using h)
    | unreadable key g => exact hrest (by simpa [collect] using h)
    | failed g =>
      cases h
      exact .inr List.mem_cons_self
    | late =>
      cases h
      exact .inl rfl

/-- A failed result of a file is the failure of its fingerprint. -/
theorem exists_of_failed_mem {d : Disk} {fp : Fingerprinter} {limits : CaptureLimits}
    {clock : Readings} {files : List FoundFile} {f : Failure}
    (h : .failed f ∈ results d fp limits clock files) :
    ∃ file ∈ files, fp.fingerprint d file.path file.key = .error f := by
  obtain ⟨k, hk⟩ := List.mem_iff_getElem?.1 h
  rw [results, List.getElem?_mapIdx, Option.map_eq_some_iff] at hk
  obtain ⟨file, hfile, hresult⟩ := hk
  refine ⟨file, List.mem_of_getElem? hfile, ?_⟩
  rw [resultAt, examine] at hresult
  split at hresult
  · cases hresult
  split at hresult
  · cases hresult
  split at hresult
  · cases hresult
  · cases hresult
    assumption

/-! ### The capture -/

/-- What keeps a capture below a directory from visiting its files. -/
theorem value_explore (limits : CaptureLimits) (around : Surroundings) (root : Path)
    (items : List WalkItem) : (explore limits around root items).value =
      let found := (survey (fun i => isLate limits around.clock (around.clock.atItem i)) 0
        items).value
      if !canTell limits around.clock then .error .crashed
      else if found.late then .error (.failed (lateFailure root limits))
      else match around.pool (max limits.workers 1) with
        | .error message => .error (.failed (poolFailure message))
        | .ok () => .ok (Survey.begun around found) := by
  unfold explore
  dsimp only
  split
  · rfl
  rw [Logged.value_bind]
  split
  · rfl
  · cases around.pool (max limits.workers 1) <;> rfl

theorem value_finish (d : Disk) (fp : Fingerprinter) (limits : CaptureLimits)
    (around : Surroundings) (root : Path) (p : Progress) :
    (p.finish d fp limits around root).value =
      if isLate limits around.clock around.clock.atEnd then
        ⟨.error (.failed (lateFailure root limits)), p.given⟩
      else
        ⟨Halt.lift ((collect (lateFailure root limits) (p.slots.filterMap id)).value.map
          fun (records, keys) => .ofRecords root.display d.now fp.algorithm records
            (p.found.unreadable ++ keys)), p.given⟩ := by
  unfold Progress.finish
  dsimp only
  split <;> rfl

/-- What a capture answers whose walk brought given items. -/
def ofItems (d : Disk) (fp : Fingerprinter) (limits : CaptureLimits) (around : Surroundings)
    (root : Path) (items : List WalkItem) : Captured :=
  match (explore limits around root items).value with
  | .error h => ⟨.error h, []⟩
  | .ok p => ((p.takeAll d fp limits around).finish d fp limits around root).value

section Items

variable {d : Disk} {fp : Fingerprinter} {limits : CaptureLimits} {around : Surroundings}
  {root : Path} {items : List WalkItem}

/-- When none of the items comes late, neither does the survey. -/
theorem survey_not_late {clock : Readings}
    (h : ∀ k < items.length, isLate limits clock (clock.atItem k) = false) :
    (survey (fun k => isLate limits clock (clock.atItem k)) 0 items).value.late = false := by
  rw [← Bool.not_eq_true, late_survey_iff]
  rintro ⟨k, hk, hlate⟩
  rw [Nat.zero_add, h k hk] at hlate
  cases hlate

/-- A capture of items that visits files finds those of the items, and does so in time. -/
theorem explore_eq_ok {p : Progress} (h : (explore limits around root items).value = .ok p) :
    (∀ k < items.length, isLate limits around.clock (around.clock.atItem k) = false) ∧
      p = Survey.begun around
        ⟨items.filterMap WalkItem.found?, items.filterMap WalkItem.unreadableKey?, false⟩ := by
  rw [value_explore] at h
  dsimp only at h
  split at h
  · cases h
  split at h
  · cases h
  rename_i hlate
  split at h
  · cases h
  · cases h
    refine ⟨fun k hk => Bool.not_eq_true _ ▸ fun hitem => ?_, ?_⟩
    · exact hlate (late_survey_iff.2 ⟨k, hk, (Nat.zero_add k).symm ▸ hitem⟩)
    · rw [value_survey_of_not_late (by simpa using hlate)]

/-- A capture whose deadline the clock can tell, which has its workers and at none of whose items
runs late, visits the files of the items. -/
theorem explore_of_not_late (htell : canTell limits around.clock = true)
    (hpool : around.pool (max limits.workers 1) = .ok ())
    (hitem : ∀ k < items.length, isLate limits around.clock (around.clock.atItem k) = false) :
    (explore limits around root items).value = .ok (Survey.begun around
      ⟨items.filterMap WalkItem.found?, items.filterMap WalkItem.unreadableKey?, false⟩) := by
  rw [value_explore, value_survey_of_not_late (survey_not_late hitem), htell, hpool]
  rfl

/-- A capture that is not late but cannot have its workers fails for that. -/
theorem ofItems_of_no_workers {message : String} (htell : canTell limits around.clock = true)
    (hpool : around.pool (max limits.workers 1) = .error message)
    (hitem : ∀ k < items.length, isLate limits around.clock (around.clock.atItem k) = false) :
    (ofItems d fp limits around root items).snapshot =
      .error (.failed (poolFailure message)) := by
  rw [ofItems, value_explore, value_survey_of_not_late (survey_not_late hitem), htell, hpool]
  rfl

/-- What a capture answers that visits the files of its items. -/
theorem ofItems_of_explored {p : Progress}
    (h : (explore limits around root items).value = .ok p) :
    ofItems d fp limits around root items =
      let files := items.filterMap WalkItem.found?
      let given :=
        (around.finishing.order files.length).filterMap (calledAt limits around.clock files)
      if isLate limits around.clock around.clock.atEnd then
        ⟨.error (.failed (lateFailure root limits)), given⟩
      else
        ⟨Halt.lift ((collect (lateFailure root limits)
          (results d fp limits around.clock files)).value.map fun (records, keys) =>
            .ofRecords root.display d.now fp.algorithm records
              (items.filterMap WalkItem.unreadableKey? ++ keys)), given⟩ := by
  obtain ⟨-, rfl⟩ := explore_eq_ok h
  rw [ofItems, h]
  dsimp only
  rw [takeAll_begun, value_finish, List.filterMap_map, Function.id_comp, List.filterMap_some]

private theorem collected_eq_untimed (whenLate : Failure) (d : Disk) (fp : Fingerprinter)
    (root : Path) (items : List WalkItem) :
    ((collect whenLate ((items.filterMap WalkItem.found?).map (examine d fp))).value.map
      fun (records, keys) => Snapshot.ofRecords root.display d.now fp.algorithm records
        (items.filterMap WalkItem.unreadableKey? ++ keys)) = untimed d fp root items := by
  rw [value_collect_examine]
  simp only [untimed]
  cases (items.filterMap WalkItem.found?).findSome? (FoundFile.failure? d fp) <;> rfl

/-- A capture that gives a snapshot gives the one that its walk determines, however late it may
have run. -/
theorem ofItems_eq_ok {s : Snapshot}
    (h : (ofItems d fp limits around root items).snapshot = .ok s) :
    untimed d fp root items = .ok s := by
  cases hexplore : (explore limits around root items).value with
  | error halt =>
    rw [ofItems, hexplore] at h
    cases h
  | ok p =>
    rw [ofItems_of_explored hexplore] at h
    dsimp only at h
    split at h
    · cases h
    rw [Halt.lift_eq_ok_iff] at h
    cases hfound : (collect (lateFailure root limits) (results d fp limits around.clock
        (items.filterMap WalkItem.found?))).value with
    | error f =>
      rw [hfound] at h
      cases h
    | ok found =>
      rw [results_of_collect hfound, collected_eq_untimed] at h
      exact h

/-- A capture that has its workers and is late at none of the readings that it takes gives exactly
what its walk determines. -/
theorem ofItems_of_not_late (htell : canTell limits around.clock = true)
    (hpool : around.pool (max limits.workers 1) = .ok ())
    (hitem : ∀ k < items.length, isLate limits around.clock (around.clock.atItem k) = false)
    (hfile : ∀ k < (items.filterMap WalkItem.found?).length,
      isLate limits around.clock (around.clock.atFile k) = false)
    (hend : isLate limits around.clock around.clock.atEnd = false) :
    (ofItems d fp limits around root items).snapshot =
      Halt.lift (untimed d fp root items) := by
  rw [ofItems_of_explored (explore_of_not_late htell hpool hitem)]
  dsimp only
  rw [hend, if_neg Bool.false_ne_true, results_of_not_late hfile, collected_eq_untimed]

/-- A capture that nothing hinders gives exactly what its walk determines. -/
theorem ofItems_of_unhindered (h : Unhindered limits around) :
    (ofItems d fp limits around root items).snapshot =
      Halt.lift (untimed d fp root items) :=
  ofItems_of_not_late h.told h.staffed (fun k _ => h.atItem k) (fun k _ => h.atFile k) h.atEnd

/-- A capture below a directory fails for running late, for want of workers or for the fingerprint
of a file. -/
theorem ofItems_eq_error {f : Failure}
    (h : (ofItems d fp limits around root items).snapshot = .error (.failed f)) :
    f = lateFailure root limits ∨
      (∃ message, around.pool (max limits.workers 1) = .error message ∧
        f = poolFailure message) ∨
      ∃ file ∈ items.filterMap WalkItem.found?,
        fp.fingerprint d file.path file.key = .error f := by
  cases hexplore : (explore limits around root items).value with
  | error halt =>
    rw [ofItems, hexplore] at h
    cases h
    rw [value_explore] at hexplore
    dsimp only at hexplore
    split at hexplore
    · cases hexplore
    split at hexplore
    · cases hexplore
      exact .inl rfl
    split at hexplore
    · rename_i message hpool
      cases hexplore
      exact .inr (.inl ⟨message, hpool, rfl⟩)
    · cases hexplore
  | ok p =>
    rw [ofItems_of_explored hexplore] at h
    dsimp only at h
    split at h
    · cases h
      exact .inl rfl
    · rcases collect_eq_error (eq_error_of_map (Halt.lift_eq_failed_iff.1 h)) with hlate | hfailed
      · exact .inl hlate
      · exact .inr (.inr (exists_of_failed_mem hfailed))

/-- A capture below a directory crashes exactly if the clock cannot tell its deadline. -/
theorem ofItems_eq_crashed_iff :
    (ofItems d fp limits around root items).snapshot = .error .crashed ↔
      canTell limits around.clock = false := by
  constructor
  · intro h
    cases hexplore : (explore limits around root items).value with
    | error halt =>
      rw [ofItems, hexplore] at h
      cases h
      rw [value_explore] at hexplore
      dsimp only at hexplore
      split at hexplore
      · rename_i hcannot
        simpa using hcannot
      split at hexplore
      · cases hexplore
      split at hexplore <;> cases hexplore
    | ok p =>
      rw [ofItems_of_explored hexplore] at h
      dsimp only at h
      split at h
      · cases h
      · exact absurd h Halt.lift_ne_crashed
  · intro h
    rw [ofItems, value_explore, h]
    rfl

end Items

end Capture

section

variable {d : Disk} {fp : Fingerprinter} {limits : CaptureLimits} {around : Surroundings}
  {root : Path}

theorem Capture.value_start (d : Disk) (limits : CaptureLimits) (around : Surroundings)
    (root : Path) : (start d limits around root).value =
      match requireRoot around.files d root with
      | .error f => .error (.failed f)
      | .ok () => (explore limits around root (around.files.walk d root)).value := by
  unfold start
  rw [Logged.value_bind]
  cases requireRoot around.files d root <;> rfl

/-- A capture at one go visits all files of its walk and puts their results together. -/
theorem Capture.value_capture (d : Disk) (fp : Fingerprinter) (limits : CaptureLimits)
    (around : Surroundings) (root : Path) : (capture d fp limits around root).value =
      match (start d limits around root).value with
      | .error h => ⟨.error h, []⟩
      | .ok p => ((p.takeAll d fp limits around).finish d fp limits around root).value := by
  unfold capture
  rw [Logged.value_bind]
  cases (start d limits around root).value <;> rfl

theorem value_capture_of_root (hroot : Capture.requireRoot around.files d root = .ok ()) :
    (capture d fp limits around root).value =
      Capture.ofItems d fp limits around root (around.files.walk d root) := by
  rw [Capture.value_capture, Capture.value_start, hroot]
  rfl

theorem value_capture_of_error {f : Failure}
    (hroot : Capture.requireRoot around.files d root = .error f) :
    (capture d fp limits around root).value = ⟨.error (.failed f), []⟩ := by
  rw [Capture.value_capture, Capture.value_start, hroot]

/-- A capture that gives a snapshot has a directory as its root and gives the snapshot that its
walk determines. -/
theorem capture_eq_ok {s : Snapshot}
    (h : (capture d fp limits around root).value.snapshot = .ok s) :
    Capture.requireRoot around.files d root = .ok () ∧
      Capture.untimed d fp root (around.files.walk d root) = .ok s := by
  cases hroot : Capture.requireRoot around.files d root with
  | error f =>
    rw [value_capture_of_error hroot] at h
    cases h
  | ok u =>
    rw [value_capture_of_root hroot] at h
    exact ⟨rfl, Capture.ofItems_eq_ok h⟩

/-- A capture that nothing hinders, below a root that is a directory, gives exactly what its walk
determines. -/
theorem capture_of_unhindered (h : Capture.Unhindered limits around)
    (hroot : Capture.requireRoot around.files d root = .ok ()) :
    (capture d fp limits around root).value.snapshot =
      Halt.lift (Capture.untimed d fp root (around.files.walk d root)) := by
  rw [value_capture_of_root hroot]
  exact Capture.ofItems_of_unhindered h

/-- A capture fails for its root, for running late, for want of workers, or for the fingerprint of
a file. -/
theorem capture_eq_error {f : Failure}
    (h : (capture d fp limits around root).value.snapshot = .error (.failed f)) :
    Capture.requireRoot around.files d root = .error f ∨ f = Capture.lateFailure root limits ∨
      (∃ message, around.pool (max limits.workers 1) = .error message ∧
        f = Capture.poolFailure message) ∨
      ∃ file ∈ (around.files.walk d root).filterMap WalkItem.found?,
        fp.fingerprint d file.path file.key = .error f := by
  cases hroot : Capture.requireRoot around.files d root with
  | error g =>
    rw [value_capture_of_error hroot] at h
    cases h
    exact .inl rfl
  | ok u =>
    rw [value_capture_of_root hroot] at h
    exact .inr (Capture.ofItems_eq_error h)

/-- A capture crashes exactly if its root is a directory and the clock cannot tell its deadline. -/
theorem capture_eq_crashed_iff :
    (capture d fp limits around root).value.snapshot = .error .crashed ↔
      Capture.requireRoot around.files d root = .ok () ∧
        Capture.canTell limits around.clock = false := by
  cases hroot : Capture.requireRoot around.files d root with
  | error g => simp [value_capture_of_error hroot]
  | ok u => simp [value_capture_of_root hroot, Capture.ofItems_eq_crashed_iff]

/-- The order in which the workers finish makes no difference but to the order of their calls. -/
theorem capture_of_finishing {around' : Surroundings} (hclock : around'.clock = around.clock)
    (hfiles : around'.files = around.files) (hpool : around'.pool = around.pool) :
    (capture d fp limits around' root).value.snapshot =
        (capture d fp limits around root).value.snapshot ∧
      (capture d fp limits around' root).value.given.Perm
        (capture d fp limits around root).value.given := by
  cases hroot : Capture.requireRoot around.files d root with
  | error f =>
    rw [value_capture_of_error hroot, value_capture_of_error (hfiles ▸ hroot)]
    exact ⟨rfl, .refl _⟩
  | ok u =>
    rw [value_capture_of_root hroot, value_capture_of_root (hfiles ▸ hroot), hfiles]
    generalize around.files.walk d root = items
    have hexplore : (Capture.explore limits around' root items).value.map Capture.Progress.found =
        (Capture.explore limits around root items).value.map Capture.Progress.found := by
      rw [Capture.value_explore, Capture.value_explore, hclock, hpool]
      dsimp only
      split
      · rfl
      split
      · rfl
      · cases around.pool (max limits.workers 1) <;> rfl
    cases h : (Capture.explore limits around root items).value <;>
      cases h' : (Capture.explore limits around' root items).value <;>
      rw [h, h'] at hexplore <;>
      simp only [Except.map, Except.error.injEq, reduceCtorEq] at hexplore
    · rw [Capture.ofItems, Capture.ofItems, h, h', hexplore]
      exact ⟨rfl, .refl _⟩
    · rw [Capture.ofItems_of_explored h, Capture.ofItems_of_explored h', hclock]
      have hcalls (files : List Capture.FoundFile) :
          ((around'.finishing.order files.length).filterMap
            (Capture.calledAt limits around.clock files)).Perm
          ((around.finishing.order files.length).filterMap
            (Capture.calledAt limits around.clock files)) :=
        ((around'.finishing.complete _).trans (around.finishing.complete _).symm).filterMap _
      dsimp only
      split
      · exact ⟨rfl, hcalls _⟩
      · exact ⟨rfl, hcalls _⟩

end

/-- The snapshot that a walk determines carries the name of the fingerprinter's algorithm. -/
theorem Capture.algorithm_of_untimed {d : Disk} {fp : Fingerprinter} {root : Path}
    {items : List WalkItem} {s : Snapshot} (h : Capture.untimed d fp root items = .ok s) :
    s.algorithm = fp.algorithm := by
  simp only [Capture.untimed] at h
  split at h
  · cases h
  · cases h
    rfl

end CacheAudit
