import CacheAudit.Failure

/-!
# The journal of an operation

Operations record structured events: what started, what ended and how, and what was skipped on
the way. A `Logged` computation is its value together with the events it recorded, oldest first.
Times and durations are no part of an event.
-/

namespace CacheAudit

/-- How serious an event is. -/
inductive Level
  | debug
  | info
  | warn
  | error
deriving DecidableEq, Repr

/-- The name of a level. -/
def Level.name : Level → String
  | debug => "DEBUG"
  | info => "INFO"
  | warn => "WARN"
  | error => "ERROR"

/-- The place of an event in the life of an operation. -/
inductive Mark
  | start
  | finish
  | failed
deriving DecidableEq, Repr

/-- The name of a mark. -/
def Mark.name : Mark → String
  | start => "start"
  | finish => "end"
  | failed => "end_error"

/-- A named value of an event. -/
abbrev Field := String × String

/-- The field of a count. -/
def Field.count (name : String) (n : Nat) : Field :=
  (name, toString n)

/-- One recorded event of an operation. -/
structure Event where
  level : Level
  op : String
  mark : Option Mark := none
  fields : List Field := []
deriving DecidableEq

namespace Event

/-- All fields of an event, its operation and its mark among them. -/
def allFields (e : Event) : List Field :=
  ("op", e.op) :: (e.mark.toList.map fun m => ("event", m.name)) ++ e.fields

/-- The beginning of an operation. -/
def starting (op : String) (fields : List Field := []) : Event :=
  ⟨.info, op, some .start, fields⟩

/-- The end of an operation that returned a result. -/
def ending (op : String) (fields : List Field := []) : Event :=
  ⟨.info, op, some .finish, fields⟩

/-- The end of an operation that failed: the kind and code of the failure come first. -/
def failing (op : String) (kind : FailureKind) (fields : List Field := []) : Event :=
  ⟨.error, op, some .failed, [("err.kind", kind.name), ("err.code", kind.code)] ++ fields⟩

/-- Whether an event marks a stage of an operation. -/
def isMark (e : Event) (op mark : String) : Bool :=
  e.op == op && e.mark.any fun m => m.name == mark

end Event

/-- Recorded events, oldest first. -/
abbrev Journal := List Event

namespace Journal

/-- The events of one operation. -/
def ofOperation (j : Journal) (op : String) : Journal :=
  j.filter fun e => e.op == op

/-- How often an operation reached a stage. -/
def count (j : Journal) (op mark : String) : Nat :=
  (j.filter fun e => e.isMark op mark).length

/-- The stages that an operation reached, oldest first. -/
def marks (j : Journal) (op : String) : List Mark :=
  (j.ofOperation op).filterMap Event.mark

/-- Demands that an operation reached a stage; the complaint lists the stages it did reach. -/
def expect (j : Journal) (op mark : String) : Except String Unit :=
  let seen := (j.marks op).map Mark.name
  if seen.contains mark then .ok ()
  else
    let quoted := seen.map fun m => "\"" ++ m ++ "\""
    .error ("no " ++ mark ++ " event for op " ++ op ++ " (saw [" ++ ", ".intercalate quoted ++ "])")

end Journal

/-- A value and the events recorded on the way to it. -/
structure Logged (α : Type) where
  value : α
  events : Journal

namespace Logged

variable {α β : Type}

instance : Monad Logged where
  pure a := ⟨a, []⟩
  bind x f := ⟨(f x.value).value, x.events ++ (f x.value).events⟩

/-- Records one event. -/
def record (e : Event) : Logged Unit :=
  ⟨(), [e]⟩

@[simp] theorem value_bind (x : Logged α) (f : α → Logged β) :
    (x >>= f).value = (f x.value).value := rfl

@[simp] theorem events_bind (x : Logged α) (f : α → Logged β) :
    (x >>= f).events = x.events ++ (f x.value).events := rfl

@[simp] theorem value_pure (a : α) : (pure a : Logged α).value = a := rfl

@[simp] theorem events_pure (a : α) : (pure a : Logged α).events = [] := rfl

@[simp] theorem events_record (e : Event) : (record e).events = [e] := rfl

end Logged

end CacheAudit
