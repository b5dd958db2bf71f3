import CacheAudit.Proofs.Dataset.Gathering
import CacheAudit.Proofs.Dataset.WeightSums
import CacheAudit.Proofs.Reconciliation.Projection

/-!
# What a dataset tells of its making

A keyed dataset is made step by step: members are inserted under keys, a key is ensured, and the
members under a key are replaced by one value. All that can be told from the dataset in the end is
which keys the steps named, and for each key the value of the last replacement with what was
inserted since. Steps that name different keys, or replace nothing, can be taken in any order. A
weighted dataset is made by additions alone, and each of its weights is the sum of those for its
member.
-/

namespace CacheAudit

open SnapshotDiff (AscendsInBytes ascendsInBytes_of_pairwise nodup_of_ascending)

namespace KeyedDataset

/-- A step in the making of a dataset. -/
inductive Step
  | insert (key member : String)
  | insertScalar (key value : String)
  | ensureKey (key : String)
  | insertAll (key : String) (members : List String)

namespace Step

/-- The key that a step names. -/
def key : Step → String
  | insert key _ | insertScalar key _ | ensureKey key | insertAll key _ => key

/-- The dataset after a step. -/
def applyTo (d : KeyedDataset) : Step → KeyedDataset
  | insert key member => d.insert key member
  | insertScalar key value => d.insertScalar key value
  | ensureKey key => d.ensureKey key
  | insertAll key members => d.insertAll key members

/-- A step inserts a member under a key, beside what is there. -/
def Inserts (key member : String) : Step → Prop
  | insert key' member' => key' = key ∧ member' = member
  | insertAll key' members => key' = key ∧ member ∈ members
  | insertScalar .. | ensureKey _ => False

/-- A step replaces what is under a key. -/
def Replaces (key : String) (s : Step) : Prop :=
  ∃ value, s = insertScalar key value

/-- Two steps name different keys, or neither replaces anything. -/
def Independent (s t : Step) : Prop :=
  s.key ≠ t.key ∨ ∀ key, ¬s.Replaces key ∧ ¬t.Replaces key

end Step

/-- The dataset made by some steps. -/
def after (label : String) (steps : List Step) : KeyedDataset :=
  steps.foldl Step.applyTo (empty label)

/-- The members that some steps leave under a key: the value of the last step that replaced what was
there, if any did, and all members inserted since. -/
inductive LeftUnder (key : String) (steps : List Step) (members : StringSet) : Prop
  | accumulated (hsince : ∀ s ∈ steps, ¬s.Replaces key)
      (hmembers : ∀ member, member ∈ members ↔ ∃ s ∈ steps, s.Inserts key member)
  | replaced (before : List Step) (value : String) (since : List Step)
      (hsteps : steps = before ++ .insertScalar key value :: since)
      (hsince : ∀ s ∈ since, ¬s.Replaces key)
      (hmembers : ∀ member, member ∈ members ↔
        member = value ∨ ∃ s ∈ since, s.Inserts key member)

/-- A dataset has the keys that some steps named, and under each what they left there. -/
structure Reflects (d : KeyedDataset) (steps : List Step) : Prop where
  unnamed : ∀ key, d.get? key = none ↔ ∀ s ∈ steps, s.key ≠ key
  members : ∀ key members, d.get? key = some members → LeftUnder key steps members

/-- The keys of a dataset and the members under each ascend in the order of their UTF-8 bytes. -/
structure Ascends (d : KeyedDataset) : Prop where
  keys : AscendsInBytes d.keys
  members : ∀ e ∈ d.entries.entries, AscendsInBytes e.2.toList ∧ e.2.toList.Nodup

variable {d : KeyedDataset} {s t : Step} {steps steps' : List Step} {label key member : String}

theorem ascends (d : KeyedDataset) : d.Ascends where
  keys := ascendsInBytes_of_pairwise d.entries.ascending
  members e _ := ⟨ascendsInBytes_of_pairwise e.2.ascending, e.2.nodup_toList⟩

/-! ### One step -/

theorem label_applyTo (d : KeyedDataset) (s : Step) : (s.applyTo d).label = d.label := by
  cases s with
  | insertAll key members => exact label_insertAll d key members
  | _ => rfl

theorem label_after (label : String) (steps : List Step) : (after label steps).label = label :=
  List.foldlRecOn (motive := fun d : KeyedDataset => d.label = label) steps _ rfl
    fun d h s _ => (label_applyTo d s).trans h

/-- A step adds its key and no other. -/
theorem mem_keys_applyTo : key ∈ (s.applyTo d).keys ↔ s.key = key ∨ key ∈ d.keys := by
  rw [eq_comm (a := s.key)]
  cases s with
  | insert => exact mem_keys_insert
  | insertScalar => exact mem_keys_insertScalar
  | ensureKey => exact mem_keys_ensureKey
  | insertAll => exact mem_keys_insertAll

/-- After a step a member is under a key if the step puts it there, or if it was there before and
the step does not replace it. -/
theorem has_applyTo : (s.applyTo d).Has key member ↔
    s = .insertScalar key member ∨ s.Inserts key member ∨ (¬s.Replaces key ∧ d.Has key member) := by
  cases s with
  | insert key' member' =>
    rw [Step.applyTo, has_insert]
    simp [Step.Inserts, Step.Replaces, eq_comm]
  | insertScalar key' value =>
    rw [Step.applyTo, has_insertScalar]
    simp [Step.Inserts, Step.Replaces, eq_comm]
  | ensureKey key' =>
    rw [Step.applyTo, has_ensureKey]
    simp [Step.Inserts, Step.Replaces]
  | insertAll key' members =>
    rw [Step.applyTo, has_insertAll]
    simp [Step.Inserts, Step.Replaces, eq_comm]

/-! ### Any number of steps -/

theorem after_append (label : String) (steps : List Step) (s : Step) :
    after label (steps ++ [s]) = s.applyTo (after label steps) := by
  rw [after, List.foldl_append]
  rfl

theorem mem_keys_after : key ∈ (after label steps).keys ↔ ∃ s ∈ steps, s.key = key := by
  have hstep (d : KeyedDataset) (s : Step) :
      key ∈ (s.applyTo d).keys ↔ s.key = key ∨ key ∈ d.keys := mem_keys_applyTo
  rw [after, foldl_iff (key ∈ KeyedDataset.keys ·) hstep, or_iff_left (not_mem_keys_empty label)]

/-- One more step leaves its value alone if it replaces, and otherwise adds what it inserts. -/
theorem LeftUnder.append {members members' : StringSet} (h : LeftUnder key steps members)
    (hstep : ∀ member, member ∈ members' ↔ s = .insertScalar key member ∨
      s.Inserts key member ∨ (¬s.Replaces key ∧ member ∈ members)) :
    LeftUnder key (steps ++ [s]) members' := by
  by_cases hreplaces : s.Replaces key
  · -- all steps so far lie before the last replacement
    obtain ⟨value, rfl⟩ := hreplaces
    refine .replaced steps value [] rfl (fun _ hs => nomatch hs) fun member => ?_
    rw [hstep]
    simp [Step.Inserts, Step.Replaces, eq_comm]
  · have hadds (member : String) :
        member ∈ members' ↔ s.Inserts key member ∨ member ∈ members := by
      rw [hstep, and_iff_right hreplaces, or_iff_right fun hscalar => hreplaces ⟨member, hscalar⟩]
    have hmore {since : List Step} (hsince : ∀ s ∈ since, ¬s.Replaces key) :
        ∀ s' ∈ since ++ [s], ¬s'.Replaces key := by
      intro s' hs'
      rcases List.mem_append.1 hs' with hs' | hs'
      · exact hsince s' hs'
      · rwa [List.mem_singleton.1 hs']
    cases h with
    | accumulated hsince hmembers =>
      refine .accumulated (hmore hsince) fun member => ?_
      rw [hadds, hmembers]
      simp [or_and_right, exists_or, or_comm]
    | replaced before value since hsteps hsince hmembers =>
      have hsteps' : steps ++ [s] = before ++ .insertScalar key value :: (since ++ [s]) := by
        simp [hsteps]
      refine .replaced before value (since ++ [s]) hsteps' (hmore hsince) fun member => ?_
      rw [hadds, hmembers, or_left_comm]
      simp [or_and_right, exists_or, or_comm]

theorem leftUnder_after (label key : String) (steps : List Step) :
    LeftUnder key steps (((after label steps).get? key).getD ∅) := by
  -- from the last step back, as the last replacement decides
  induction steps using List.reverseRecOn with
  | nil =>
    refine .accumulated (fun _ hs => nomatch hs) fun member => ?_
    exact iff_of_false (not_has_empty label) fun ⟨_, hs, _⟩ => nomatch hs
  | append_singleton steps s ih =>
    refine ih.append fun member => ?_
    rw [after_append]
    exact has_applyTo

/-- A dataset tells of the steps that made it which keys they named, and what they left there. -/
theorem reflects_after (label : String) (steps : List Step) :
    (after label steps).Reflects steps where
  unnamed key := by
    have hnone : (after label steps).get? key = none ↔ key ∉ (after label steps).keys :=
      StringMap.get?_eq_none_iff
    rw [hnone, mem_keys_after]
    simp only [not_exists, not_and, ne_eq]
  members key members hget := by
    have hleft := leftUnder_after label key steps
    rwa [hget] at hleft

example : ((after "candidate" [.insert "k" "a", .insertAll "j" ["x"], .insert "k" "d",
    .insertScalar "k" "c", .ensureKey "k", .insert "k" "b"]).get? "k").map StringSet.toList =
      some ["b", "c"] := by
  decide

/-! ### The order of steps -/

theorem Step.Independent.symm (h : s.Independent t) : t.Independent s :=
  h.imp Ne.symm fun hboth key => (hboth key).symm

instance : Std.Symm Step.Independent :=
  ⟨fun _ _ => Step.Independent.symm⟩

theorem Step.Inserts.key_eq (h : s.Inserts key member) : s.key = key := by
  cases s with
  | insert => exact h.1
  | insertAll => exact h.1
  | insertScalar => cases h
  | ensureKey => cases h

/-- What a step puts under a key is not replaced by an independent one. -/
theorem Step.Independent.not_replaces (h : s.Independent t)
    (hs : s = .insertScalar key member ∨ s.Inserts key member) : ¬t.Replaces key := by
  rintro ⟨value, rfl⟩
  rcases h with hkey | hneither
  · apply hkey
    rcases hs with rfl | hinserts
    · rfl
    · exact hinserts.key_eq
  · exact (hneither key).2 ⟨value, rfl⟩

/-- Independent steps commute. -/
theorem Step.Independent.applyTo_comm (h : s.Independent t) (d : KeyedDataset) :
    t.applyTo (s.applyTo d) = s.applyTo (t.applyTo d) := by
  refine eq_of_has ?_ (fun key => ?_) fun key member => ?_
  · simp only [label_applyTo]
  · rw [mem_keys_applyTo, mem_keys_applyTo, mem_keys_applyTo, mem_keys_applyTo, or_left_comm]
  · have hs : s = .insertScalar key member ∨ s.Inserts key member → ¬t.Replaces key :=
      h.not_replaces
    have ht : t = .insertScalar key member ∨ t.Inserts key member → ¬s.Replaces key :=
      h.symm.not_replaces
    -- so in either order a member is there if one of the steps puts it there, or if it was there
    -- and neither replaces it
    simp only [has_applyTo]
    tauto

/-- Independent steps make the same dataset in any order. -/
theorem foldl_applyTo_perm (hperm : steps.Perm steps') (h : steps.Pairwise Step.Independent)
    (d : KeyedDataset) : steps.foldl Step.applyTo d = steps'.foldl Step.applyTo d := by
  have hcomm : ∀ s ∈ steps, ∀ t ∈ steps, ∀ d : KeyedDataset,
      t.applyTo (s.applyTo d) = s.applyTo (t.applyTo d) := by
    intro s hs t ht d
    by_cases heq : s = t
    · rw [heq]
    · exact (h.forall hs ht heq).applyTo_comm d
  exact hperm.foldl_eq' hcomm d

end KeyedDataset

namespace WeightedDataset

/-- A weight that is added for a member under a key. -/
structure Addition where
  key : String
  member : String
  weight : Float

namespace Addition

/-- The dataset after an addition. -/
def applyTo (d : WeightedDataset) (a : Addition) : WeightedDataset :=
  d.add a.key a.member a.weight

/-- The weight that an addition gives to a member under a key. -/
def given? (key member : String) (a : Addition) : Option Float :=
  if a.key = key ∧ a.member = member then some a.weight else none

end Addition

/-- The dataset made by some additions. -/
def after (label : String) (additions : List Addition) : WeightedDataset :=
  additions.foldl Addition.applyTo (empty label)

/-- The weights added for a member under a key, in their order. -/
def given (additions : List Addition) (key member : String) : List Float :=
  additions.filterMap (Addition.given? key member)

/-- A dataset has the keys for which something was added, and the weight of each member is the sum
of what was added for it alone, from zero on and in order. -/
structure Reflects (d : WeightedDataset) (additions : List Addition) : Prop where
  unnamed : ∀ key, d.get? key = none ↔ ∀ a ∈ additions, a.key ≠ key
  weights : ∀ key member, d.weight? key member =
    if given additions key member = [] then none
    else some ((given additions key member).foldl (· + ·) 0.0)

/-- The keys of a dataset and the members under each ascend in the order of their UTF-8 bytes. -/
structure Ascends (d : WeightedDataset) : Prop where
  keys : AscendsInBytes d.keys
  members : ∀ e ∈ d.entries.entries, AscendsInBytes e.2.keys ∧ e.2.keys.Nodup

/-- A keyed dataset is a weighted one without its weights. -/
structure Unweighted (d : WeightedDataset) (k : KeyedDataset) : Prop where
  label : k.label = d.label
  keys : k.keys = d.keys
  members : ∀ key member, k.Has key member ↔ (d.weight? key member).isSome = true

theorem ascends (d : WeightedDataset) : d.Ascends where
  keys := ascendsInBytes_of_pairwise d.entries.ascending
  members e _ := ⟨ascendsInBytes_of_pairwise e.2.ascending, nodup_of_ascending e.2.ascending⟩

theorem mem_keys_after {label key : String} {additions : List Addition} :
    key ∈ (after label additions).keys ↔ ∃ a ∈ additions, a.key = key := by
  have hstep (d : WeightedDataset) (a : Addition) :
      key ∈ (a.applyTo d).keys ↔ a.key = key ∨ key ∈ d.keys := by
    rw [eq_comm (a := a.key)]
    exact StringMap.mem_keys_alter
  have hempty : key ∉ (empty label).keys := List.not_mem_nil
  rw [after, foldl_iff (key ∈ WeightedDataset.keys ·) hstep, or_iff_left hempty]

theorem reflects_after (label : String) (additions : List Addition) :
    (after label additions).Reflects additions where
  unnamed key := by
    have hnone : (after label additions).get? key = none ↔ key ∉ (after label additions).keys :=
      StringMap.get?_eq_none_iff
    rw [hnone, mem_keys_after]
    simp only [not_exists, not_and, ne_eq]
  weights key member := by
    refine weight?_foldl (fun d a => ?_) label additions
    rw [Addition.applyTo, weight?_add, Addition.given?]
    split <;> rfl

theorem unweighted_toKeyed (d : WeightedDataset) : d.Unweighted d.toKeyed where
  label := rfl
  keys := keys_toKeyed d
  members key member := by
    rw [KeyedDataset.Has, get?_toKeyed, weight?]
    cases d.get? key with
    | none => exact iff_of_false List.not_mem_nil Bool.false_ne_true
    | some weights => exact StringMap.mem_keys

theorem has_toKeyed {d : WeightedDataset} {key member : String} : d.toKeyed.Has key member ↔
    ∃ weights, (key, weights) ∈ d.entries.entries ∧ member ∈ weights.keys := by
  rw [KeyedDataset.Has, get?_toKeyed]
  constructor
  · intro hmember
    cases hget : d.get? key with
    | none =>
      rw [hget] at hmember
      cases hmember
    | some weights =>
      rw [hget] at hmember
      exact ⟨weights, StringMap.get?_eq_some_iff.1 hget, hmember⟩
  · rintro ⟨weights, hentry, hmember⟩
    have hget : d.get? key = some weights := StringMap.get?_eq_some_iff.2 hentry
    rw [hget]
    exact hmember

/-- Dropping the weights is inserting, key by key, all members that have one. -/
theorem toKeyed_eq_after (d : WeightedDataset) :
    d.toKeyed = .after d.label (d.entries.entries.map fun e => .insertAll e.1 e.2.keys) := by
  refine KeyedDataset.eq_of_has ?_ (fun key => ?_) fun key member => ?_
  · rw [KeyedDataset.label_after]
    rfl
  · rw [KeyedDataset.mem_keys_after, keys_toKeyed]
    simp [keys, StringMap.keys, KeyedDataset.Step.key]
  · have hstep (k : KeyedDataset) (e : String × StringMap Float) :
        ((KeyedDataset.Step.insertAll e.1 e.2.keys).applyTo k).Has key member ↔
          (key = e.1 ∧ member ∈ e.2.keys) ∨ k.Has key member := KeyedDataset.has_insertAll
    rw [KeyedDataset.after, List.foldl_map, has_toKeyed,
      foldl_iff (KeyedDataset.Has · key member) hstep,
      or_iff_left (KeyedDataset.not_has_empty d.label)]
    simp

end WeightedDataset

open KeyedDataset (Step)

/-- A keyed dataset that steps made is ordered, and tells which keys they named and what the last
replacement under a key and the insertions since have left there. Independent steps commute, and so
any number of them can be taken in any order. A weighted dataset that additions made is ordered too,
and each of its weights is the sum of those added for its member alone. Without the weights it has
the same label, keys and members, as if these had been inserted key by key. -/
theorem datasets_reflect_history (label : String) :
    (∀ steps, (KeyedDataset.after label steps).Ascends ∧
      (KeyedDataset.after label steps).Reflects steps) ∧
    (∀ (d : KeyedDataset) (s t : Step), s.Independent t →
      t.applyTo (s.applyTo d) = s.applyTo (t.applyTo d)) ∧
    (∀ (d : KeyedDataset) (steps steps' : List Step), steps.Perm steps' →
      steps.Pairwise Step.Independent →
        steps.foldl Step.applyTo d = steps'.foldl Step.applyTo d) ∧
    (∀ additions, (WeightedDataset.after label additions).Ascends ∧
      (WeightedDataset.after label additions).Reflects additions) ∧
    (∀ d : WeightedDataset, d.Unweighted d.toKeyed ∧
      d.toKeyed = .after d.label (d.entries.entries.map fun e => .insertAll e.1 e.2.keys)) := by
  refine ⟨fun steps => ?_, ?_, ?_, fun additions => ?_, fun d => ?_⟩
  · exact ⟨KeyedDataset.ascends _, KeyedDataset.reflects_after label steps⟩
  · exact fun d s t h => h.applyTo_comm d
  · exact fun d steps steps' hperm h => KeyedDataset.foldl_applyTo_perm hperm h d
  · exact ⟨WeightedDataset.ascends _, WeightedDataset.reflects_after label additions⟩
  · exact ⟨d.unweighted_toKeyed, d.toKeyed_eq_after⟩

end CacheAudit
