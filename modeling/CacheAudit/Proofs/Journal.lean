import CacheAudit.Journal

/-!
# What a journal says of a call

The events of one operation tell its course when they begin with its start, mark nothing on the way
and end with how it ended. A computation put together from others records what these record.
-/

namespace CacheAudit

namespace Logged

variable {α β : Type} {P Q : Event → Prop} {x : Logged α}

/-- A computation of which every recorded event has a property. -/
def Records (P : Event → Prop) (x : Logged α) : Prop :=
  ∀ e ∈ x.events, P e

theorem records_pure (P : Event → Prop) (a : α) : (pure a : Logged α).Records P :=
  List.forall_mem_nil P

theorem records_record {e : Event} (he : P e) : (record e).Records P :=
  List.forall_mem_singleton.2 he

theorem Records.bind (hx : x.Records P) {f : α → Logged β} (hf : (f x.value).Records P) :
    (x >>= f).Records P :=
  List.forall_mem_append.2 ⟨hx, hf⟩

theorem Records.mono (hx : x.Records P) (hPQ : ∀ e, P e → Q e) : x.Records Q :=
  fun e he => hPQ e (hx e he)

/-- Recording a list of events records these. -/
theorem events_forM (events : Journal) : (events.forM record).events = events := by
  induction events with
  | nil => rfl
  | cons e rest ih =>
    rw [List.forM_eq_forM, List.forM_cons, events_bind, events_record, ← List.forM_eq_forM, ih,
      List.singleton_append]

end Logged

/-- An event closes a call that returned a result, or one that failed with a code. -/
def Event.Closes (e : Event) : Option String → Prop
  | none => e.mark = some .finish
  | some code => e.mark = some .failed ∧ ∃ kind : FailureKind, kind.code = code ∧
      ("err.kind", kind.name) ∈ e.fields ∧ ("err.code", kind.code) ∈ e.fields

theorem Event.closes_ending (op : String) (fields : List Field) :
    (Event.ending op fields).Closes none :=
  rfl

theorem Event.closes_failing (op : String) (kind : FailureKind) (fields : List Field) :
    (Event.failing op kind fields).Closes (some kind.code) :=
  ⟨rfl, kind, rfl, by simp [failing], by simp [failing]⟩

namespace Journal

variable {j own rest : Journal} {op : String} {error? : Option String} {stop : Event}

/-! ### The events of one operation -/

theorem ofOperation_append (first second : Journal) (op : String) :
    ofOperation (first ++ second) op = first.ofOperation op ++ second.ofOperation op :=
  List.filter_append ..

theorem ofOperation_eq_self (h : ∀ e ∈ j, e.op = op) : j.ofOperation op = j :=
  List.filter_eq_self.2 fun e he => beq_iff_eq.2 (h e he)

theorem ofOperation_eq_nil (h : ∀ e ∈ j, e.op ≠ op) : j.ofOperation op = [] :=
  List.filter_eq_nil_iff.2 fun e he => by simpa using h e he

/-! ### Brackets -/

/-- Events that begin with a start and mark nothing after it. -/
def IsOpen (own : Journal) : Prop :=
  ∃ start rest, own = start :: rest ∧ start.mark = some .start ∧ ∀ e ∈ rest, e.mark = none

/-- Events that begin with a start, mark nothing on the way and end with what closes the call. -/
def IsClosed (own : Journal) (error? : Option String) : Prop :=
  ∃ front stop, own = front ++ [stop] ∧ IsOpen front ∧ stop.Closes error?

/-- Events that close a failed call, mark nothing after that, and then close the call as if it had
returned a result. -/
def IsReclosed (own : Journal) (code : String) : Prop :=
  ∃ front rest stop, own = front ++ (rest ++ [stop]) ∧ IsClosed front (some code) ∧
    (∀ e ∈ rest, e.mark = none) ∧ stop.Closes none

theorem isOpen_starting (op : String) (fields : List Field) :
    IsOpen [Event.starting op fields] :=
  ⟨_, [], rfl, rfl, List.forall_mem_nil _⟩

theorem IsOpen.append (h : own.IsOpen) (hrest : ∀ e ∈ rest, e.mark = none) :
    IsOpen (own ++ rest) := by
  obtain ⟨start, more, rfl, hstart, hmore⟩ := h
  exact ⟨start, more ++ rest, rfl, hstart, List.forall_mem_append.2 ⟨hmore, hrest⟩⟩

theorem IsOpen.close (h : own.IsOpen) (hstop : stop.Closes error?) :
    IsClosed (own ++ [stop]) error? :=
  ⟨own, stop, rfl, h, hstop⟩

/-! ### Marks

The marks of the events tell an open call, a closed one and one closed twice apart. -/

theorem marks_of_unmarked (h : ∀ e ∈ own, e.mark = none) : own.filterMap Event.mark = [] :=
  List.filterMap_eq_nil_iff.2 h

theorem marks_of_closes (h : stop.Closes error?) :
    [stop].filterMap Event.mark = [if error?.isSome then .failed else .finish] := by
  cases error? with
  | none => exact List.filterMap_cons_some h
  | some code => exact List.filterMap_cons_some h.1

theorem IsOpen.marks (h : own.IsOpen) : own.filterMap Event.mark = [.start] := by
  obtain ⟨start, rest, rfl, hstart, hrest⟩ := h
  rw [List.filterMap_cons_some hstart, marks_of_unmarked hrest]

theorem IsClosed.marks (h : own.IsClosed error?) :
    own.filterMap Event.mark = [.start, if error?.isSome then .failed else .finish] := by
  obtain ⟨front, stop, rfl, hfront, hstop⟩ := h
  rw [List.filterMap_append, hfront.marks, marks_of_closes hstop, List.singleton_append]

theorem IsOpen.not_isClosed (h : own.IsOpen) (error? : Option String) : ¬own.IsClosed error? :=
  fun hclosed => by cases h.marks.symm.trans hclosed.marks

theorem not_isClosed_nil (error? : Option String) : ¬IsClosed [] error? :=
  fun hclosed => by cases hclosed.marks

/-- What is closed and then closed again is not closed once. -/
theorem IsReclosed.not_isClosed {code : String} (h : own.IsReclosed code)
    (error? : Option String) : ¬own.IsClosed error? := by
  intro hclosed
  obtain ⟨front, rest, stop, rfl, hfront, hrest, hstop⟩ := h
  have hmarks := hclosed.marks
  rw [List.filterMap_append, List.filterMap_append, hfront.marks, marks_of_unmarked hrest,
    marks_of_closes hstop] at hmarks
  simp at hmarks

end Journal

/-! ### Records that fit a value -/

namespace Logged

open Journal (ofOperation_append ofOperation_eq_nil ofOperation_eq_self)

variable {α β : Type} {op : String} {own : Journal} {fits : Journal → α → Prop}

/-- A computation that leaves a value which fits what an operation has recorded by then, given what
the operation had recorded before. -/
def Leaves (op : String) (own : Journal) (fits : Journal → α → Prop) (x : Logged α) : Prop :=
  fits (own ++ x.events.ofOperation op) x.value

theorem leaves_pure {a : α} (h : fits own a) : (pure a : Logged α).Leaves op own fits := by
  rw [Leaves, events_pure, ofOperation_eq_nil (List.forall_mem_nil _), List.append_nil]
  exact h

/-- What is silent on the operation changes nothing. -/
theorem Leaves.after_silent {x : Logged β} (hx : x.Records fun e => e.op ≠ op) {f : β → Logged α}
    (h : (f x.value).Leaves op own fits) : (x >>= f).Leaves op own fits := by
  rw [Leaves, events_bind, ofOperation_append, ofOperation_eq_nil hx, List.nil_append]
  exact h

theorem Leaves.after_record {e : Event} (he : e.op = op) {f : Unit → Logged α}
    (h : (f ()).Leaves op (own ++ [e]) fits) : (record e >>= f).Leaves op own fits := by
  rw [Leaves, events_bind, ofOperation_append, events_record,
    ofOperation_eq_self (List.forall_mem_singleton.2 he), ← List.append_assoc]
  exact h

theorem Leaves.map {x : Logged β} {g : β → α} (h : x.Leaves op own fun own b => fits own (g b)) :
    (x >>= fun b => pure (g b)).Leaves op own fits := by
  rw [Leaves, events_bind, events_pure, List.append_nil]
  exact h

end Logged

end CacheAudit
