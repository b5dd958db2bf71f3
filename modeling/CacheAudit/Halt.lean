/-!
# Ends without a result

An operation that comes to no result has failed with an error, which its caller may answer, or has
crashed, which its caller cannot. A position that a list does not have crashes, and so does a sum
of machine words that is no machine word.
-/

namespace CacheAudit

/-- How an operation ends that comes to no result: with an error, or by crashing. -/
inductive Halt (ε : Type)
  | failed (error : ε)
  | crashed
deriving DecidableEq

namespace Halt

variable {ε φ α : Type}

/-- The result or the error of an operation that does not crash. -/
def lift : Except ε α → Except (Halt ε) α
  | .ok a => .ok a
  | .error e => .error (.failed e)

/-- The same end with another error in the place of the error. -/
def map (f : ε → φ) : Halt ε → Halt φ
  | failed e => failed (f e)
  | crashed => crashed

/-- A number as a machine word. -/
def word (n : Nat) : Except (Halt ε) UInt64 :=
  if n < UInt64.size then .ok (UInt64.ofNat n) else .error .crashed

/-- The sum of two machine words. -/
def add (a b : UInt64) : Except (Halt ε) UInt64 :=
  word (a.toNat + b.toNat)

/-- The item of a list at a position. -/
def item (xs : List α) (i : UInt64) : Except (Halt ε) α :=
  match xs[i.toNat]? with
  | some x => .ok x
  | none => .error .crashed

theorem lift_eq_ok_iff {x : Except ε α} {a : α} : lift x = .ok a ↔ x = .ok a := by
  cases x <;> simp [lift]

theorem lift_eq_failed_iff {x : Except ε α} {e : ε} :
    lift x = .error (.failed e) ↔ x = .error e := by
  cases x <;> simp [lift]

theorem lift_ne_crashed {x : Except ε α} : lift x ≠ .error .crashed := by
  cases x <;> simp [lift]

theorem word_eq {n : Nat} (h : n < UInt64.size) :
    (word n : Except (Halt ε) UInt64) = .ok (UInt64.ofNat n) :=
  if_pos h

theorem add_eq {a b : UInt64} (h : a.toNat + b.toNat < UInt64.size) :
    (add a b : Except (Halt ε) UInt64) = .ok (a + b) := by
  rw [add, word_eq h, UInt64.ofNat_add, UInt64.ofNat_toNat, UInt64.ofNat_toNat]

theorem add_eq_crashed {a b : UInt64} (h : UInt64.size ≤ a.toNat + b.toNat) :
    (add a b : Except (Halt ε) UInt64) = .error .crashed :=
  if_neg (Nat.not_lt.2 h)

theorem add_one_eq {a : UInt64} (h : a.toNat + 1 < UInt64.size) :
    (add a 1 : Except (Halt ε) UInt64) = .ok (a + 1) :=
  add_eq h

theorem add_one_eq_crashed {a : UInt64} (h : a.toNat + 1 = UInt64.size) :
    (add a 1 : Except (Halt ε) UInt64) = .error .crashed :=
  add_eq_crashed (Nat.le_of_eq h.symm)

theorem item_eq {xs : List α} {i : UInt64} (h : i.toNat < xs.length) :
    (item xs i : Except (Halt ε) α) = .ok xs[i.toNat] := by
  rw [item, List.getElem?_eq_getElem h]

theorem item_eq_ok_iff {xs : List α} {i : UInt64} {x : α} :
    (item xs i : Except (Halt ε) α) = .ok x ↔ xs[i.toNat]? = some x := by
  rw [item]
  cases xs[i.toNat]? <;> simp

end Halt

end CacheAudit
