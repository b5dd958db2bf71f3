import CacheAudit.Proofs.Capture.Contents
import CacheAudit.Proofs.Capture.Timeless

/-!
# Captures taken step by step on a disk that others change

A capture at one go is what its steps come to when nothing happens between them. When between the
steps nothing happens to the files that the walk found, but for their times, the steps come to the
capture of the disk that the walk met.
-/

namespace CacheAudit.Capture

variable {a d : Disk} {fp : Fingerprinter} {limits : CaptureLimits} {around : Surroundings}
  {root : Path} {p p' : Progress}

/-! ### Captures of a disk that stays as it is -/

namespace Progress

theorem take_of_cons {i : Nat} {rest : List Nat} (h : p.pending = i :: rest) :
    p.take d fp limits around = visit d fp limits around { p with pending := rest } i := by
  obtain ⟨found, pending, slots, given⟩ := p
  cases h
  rfl

/-- Who is still to be visited makes no difference to a visit. -/
theorem visit_pending (p : Progress) (pending : List Nat) (i : Nat) :
    visit d fp limits around { p with pending := pending } i =
      { p.visit d fp limits around i with pending := pending } := by
  rw [visit, visit]
  dsimp only
  split
  · rfl
  · split <;> rfl

theorem takeAll_of_pending (h : p.pending = []) : p.takeAll d fp limits around = p := by
  obtain ⟨found, pending, slots, given⟩ := p
  cases h
  rfl

theorem takeAll_take : (p.take d fp limits around).takeAll d fp limits around =
    p.takeAll d fp limits around := by
  obtain ⟨found, pending, slots, given⟩ := p
  cases pending with
  | nil => rfl
  | cons i rest =>
    rw [take_of_cons rfl, visit_pending _ rest, takeAll, takeAll, List.foldl_cons,
      visit_pending _ []]

end Progress

/-- A capture that has begun and goes on on the same disk comes to the capture at one go. -/
theorem value_finish_takeAll (h : (start d limits around root).value = .ok p) :
    ((p.takeAll d fp limits around).finish d fp limits around root).value =
      (capture d fp limits around root).value := by
  rw [value_capture, h]

/-! ### Captures that repeat others -/

/-- A capture under way that has brought, apart from times, what the capture of disk `a` brings. -/
structure Progress.Repeats (a : Disk) (fp : Fingerprinter) (limits : CaptureLimits)
    (around : Surroundings) (root : Path) (p : Progress) : Prop where
  /-- The walks came across the same. -/
  found : ∃ first, (start a limits around root).value = .ok first ∧ first.found = p.found
  /-- The files that were visited have the same results, and the fingerprinter was called for the
  same of them. -/
  visited : ∃ done, done ++ p.pending = around.finishing.order p.found.files.length ∧
    p.slots.map (Option.map FileResult.timeless) =
      done.foldl
        (handIn ((results a fp limits around.clock p.found.files).map FileResult.timeless))
        (List.replicate p.found.files.length none) ∧
    p.given = done.filterMap (calledAt limits around.clock p.found.files)

theorem start_eq_ok (h : (start a limits around root).value = .ok p) :
    p = Survey.begun around p.found := by
  rw [value_start] at h
  split at h
  · cases h
  · obtain ⟨-, rfl⟩ := explore_eq_ok h
    rfl

/-- A capture that has just begun repeats those that begin in the same way. -/
theorem Progress.repeats_of_start (h : (start a limits around root).value = .ok p) :
    p.Repeats a fp limits around root := by
  refine ⟨⟨p, h, rfl⟩, [], ?_⟩
  rw [start_eq_ok h]
  exact ⟨rfl, by simp [Survey.begun], rfl⟩

theorem Progress.Repeats.length_slots (h : p.Repeats a fp limits around root) :
    p.slots.length = p.found.files.length := by
  obtain ⟨done, -, hslots, -⟩ := h.visited
  have hlength := congrArg List.length hslots
  rwa [List.length_map, length_foldl_handIn, List.length_replicate] at hlength

/-- The visit to a file repeats that to a file with the same content. -/
theorem Progress.Repeats.take (h : p.Repeats a fp limits around root)
    (hfiles : ∀ file ∈ p.found.files,
      (examine a fp file).timeless = (examine d fp file).timeless) :
    (p.take d fp limits around).Repeats a fp limits around root := by
  cases hpending : p.pending with
  | nil =>
    rw [Progress.take, hpending]
    exact h
  | cons i rest =>
    obtain ⟨done, horder, hslots, hgiven⟩ := h.visited
    have hresult : (results d fp limits around.clock p.found.files)[i]?.map FileResult.timeless =
        ((results a fp limits around.clock p.found.files).map FileResult.timeless)[i]? := by
      rw [List.getElem?_map, results, results, List.getElem?_mapIdx, List.getElem?_mapIdx]
      cases hfile : p.found.files[i]? with
      | none => rfl
      | some file =>
        have hsame := hfiles file (List.mem_of_getElem? hfile)
        simp only [Option.map_some, Option.some.injEq, resultAt]
        split
        · rfl
        · exact hsame.symm
    rw [take_of_cons hpending, visit_eq (by exact h.length_slots)]
    refine ⟨h.found, done ++ [i], ?_, ?_, ?_⟩
    · rw [List.append_assoc, ← horder, hpending]
      rfl
    · rw [List.foldl_append, ← hslots, handIn, List.map_set, hresult]
      rfl
    · rw [List.filterMap_append, ← hgiven, List.filterMap_cons]
      cases calledAt limits around.clock p.found.files i <;> rfl

/-- What is put together depends on nothing but the walk and the results, and on their times only
for the times of the snapshot. -/
theorem Progress.timeless_finish (hfound : p.found = p'.found)
    (hresults : (p.slots.filterMap id).map FileResult.timeless =
      (p'.slots.filterMap id).map FileResult.timeless) (hgiven : p.given = p'.given) :
    (p.finish a fp limits around root).value.timeless =
      (p'.finish d fp limits around root).value.timeless := by
  rw [value_finish, value_finish, hfound, hgiven]
  split
  · rfl
  have hcollect := value_collect_timeless (lateFailure root limits) (p.slots.filterMap id)
  rw [hresults, value_collect_timeless] at hcollect
  rw [Captured.timeless, Captured.timeless]
  cases hp : (collect (lateFailure root limits) (p.slots.filterMap id)).value <;>
    cases hp' : (collect (lateFailure root limits) (p'.slots.filterMap id)).value <;>
    rw [hp, hp'] at hcollect <;>
    simp only [Except.map, Except.ok.injEq, Except.error.injEq, Prod.mk.injEq,
      reduceCtorEq] at hcollect
  · rw [hcollect]
    rfl
  · simp only [Except.map, Halt.lift, Snapshot.timeless_ofRecords, hcollect]

/-- When all files were examined, the results put together are the capture that was repeated. -/
theorem Progress.Repeats.finish (h : p.Repeats a fp limits around root)
    (hpending : p.pending = []) :
    (p.finish d fp limits around root).value.timeless =
      (capture a fp limits around root).value.timeless := by
  obtain ⟨first, hstart, hfound⟩ := h.found
  obtain ⟨done, horder, hslots, hgiven⟩ := h.visited
  rw [hpending, List.append_nil] at horder
  rw [value_capture, hstart]
  dsimp only
  rw [start_eq_ok hstart, hfound, takeAll_begun]
  refine timeless_finish rfl ?_ (by rw [hgiven, horder])
  have hall := foldl_handIn_eq around.finishing
    ((results a fp limits around.clock p.found.files).map FileResult.timeless)
  rw [List.length_map, length_results, ← horder, ← hslots] at hall
  rw [List.filterMap_map, Function.id_comp, List.filterMap_some, List.map_filterMap]
  have hkept := congrArg (List.filterMap id) hall
  rw [List.filterMap_map, Function.id_comp, List.filterMap_map, Function.id_comp,
    List.filterMap_some] at hkept
  exact hkept

/-! ### Captures while others work elsewhere -/

/-- Whether a root is a directory has nothing to do with times. -/
theorem requireRoot_congr (h : (a.follow root).map (fun (l, e) => (l, e.timeless)) =
    (d.follow root).map fun (l, e) => (l, e.timeless)) :
    requireRoot {} a root = requireRoot {} d root := by
  unfold requireRoot
  dsimp only
  rcases ha : a.follow root with error | ⟨l, e⟩ <;>
    rcases hd : d.follow root with error' | ⟨l', e'⟩ <;>
    rw [ha, hd] at h <;>
    simp only [Except.map, Except.ok.injEq, Except.error.injEq, Prod.mk.injEq,
      reduceCtorEq] at h
  · rw [h]
  · cases e <;> cases e' <;> first
      | rfl
      | simp [Entry.timeless] at h

section Grown

variable (hfiles : around.files = {}) (hroot : root.Forward)
  (hgrown : Disk.Grown (Location.ofPath a.cwd root) a d)
  (hreaches : a.Reaches (Location.ofPath a.cwd root))

include hfiles hroot hgrown hreaches

/-- A capture begins in the same way with the others and without. -/
theorem start_of_grown (hnamed : Path.below root.parts = [] → root.bytes = []) :
    (start a limits around root).value = (start d limits around root).value := by
  have hfollow := hgrown.follow_of_reaches hroot hreaches
  have hrequire : requireRoot around.files a root = requireRoot around.files d root := by
    rw [hfiles]
    exact requireRoot_congr hfollow
  have hwalk : around.files.walk a root = around.files.walk d root := by
    rw [hfiles, FileAccess.walk, FileAccess.walk]
    exact congrArg (fun items => (items.map WalkItem.visit).map (Visit.item root))
      (hgrown.walk hroot hreaches hnamed)
  rw [value_start, value_start, hrequire, hwalk]

/-- The files that a capture has found are the same, but for times, with the others and without. -/
theorem timeless_examine_of_grown (hfp : fp.ReadsContents)
    (hstart : (start a limits around root).value = .ok p) :
    ∀ file ∈ p.found.files, (examine a fp file).timeless = (examine d fp file).timeless := by
  rw [value_start] at hstart
  split at hstart
  · cases hstart
  rename_i hrequire
  obtain ⟨-, rfl⟩ := explore_eq_ok hstart
  intro file hfile
  obtain ⟨path, names, hitem, rfl⟩ := mem_found.1 hfile
  rw [hfiles] at hrequire hitem
  rw [FileAccess.walk_default hgrown.tree] at hitem
  have hdirectory : ∃ l, a.follow root = .ok (l, .directory) := by
    rw [requireRoot] at hrequire
    split at hrequire
    · exact ⟨_, by assumption⟩
    all_goals cases hrequire
  obtain ⟨l, hfollow⟩ := hdirectory
  obtain ⟨rfl, -⟩ := Disk.place_of_follow hroot hgrown.linkFree hfollow
  obtain ⟨rfl, -, hisFile⟩ := (Disk.lists_walk hgrown.tree hfollow).files _ _ hitem
  have hne : root.bytes ≠ [] := (Disk.lookup_of_follow hfollow).1.1
  exact timeless_examine hfp (hgrown.read hroot hne hreaches hisFile)

end Grown

end CacheAudit.Capture
