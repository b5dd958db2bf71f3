import CacheAudit.Proofs.Verification.Members

/-!
# Runs side by side

Plans that are accepted have roots apart from each other, so no step of one run disturbs another
that keeps to its root. By induction on the schedule no run is ever disturbed, and when all are over
each has the outcome that it has alone on the disk that all of them began with.
-/

namespace CacheAudit

open Disk (Spares Apart)

namespace Scenarios

variable {scenarios : List Scenario} {members : List Member} {d₀ d : Disk} {doing : Doing}

/-! ### Roots apart from each other -/

theorem not_overlap_iff {a b : Location} : overlap a b = false ↔ Apart a b := by
  rw [overlap, Bool.or_eq_false_iff, Apart, ← Bool.not_eq_true, ← Bool.not_eq_true,
    Location.isWithin_iff, Location.isWithin_iff, and_comm]

/-- Places among which no overlap is found are apart from each other. -/
theorem pairwise_apart {places : List Location} (h : firstOverlap? places = none) :
    places.Pairwise Apart := by
  induction places with
  | nil => exact .nil
  | cons a rest ih =>
    rw [firstOverlap?] at h
    split at h
    · cases h
    · rename_i hnone
      refine .cons (fun b hb => ?_) (ih h)
      rw [← not_overlap_iff]
      simpa using List.find?_eq_none.1 hnone b hb

/-- The roots of plans that are accepted are apart from each other. -/
theorem apart_of_checkDisjoint {cwd : Location}
    (h : checkDisjoint cwd (scenarios.map Scenario.plan) = .ok ()) {i j : Nat} (hij : i ≠ j)
    {s t : Scenario} (hs : scenarios[i]? = some s) (ht : scenarios[j]? = some t) :
    Apart (Location.ofPath cwd s.plan.root) (Location.ofPath cwd t.plan.root) := by
  have hnone : firstOverlap? ((scenarios.map Scenario.plan).map fun p =>
      Location.ofPath cwd p.root) = none := by
    rw [checkDisjoint] at h
    split at h
    · assumption
    · cases h
  have hpairwise := pairwise_apart hnone
  rw [List.map_map, List.pairwise_map] at hpairwise
  obtain ⟨hi, rfl⟩ := List.getElem?_eq_some_iff.1 hs
  obtain ⟨hj, rfl⟩ := List.getElem?_eq_some_iff.1 ht
  rcases Nat.lt_or_gt_of_ne hij with hlt | hgt
  · exact List.pairwise_iff_getElem.1 hpairwise i j hi hj hlt
  · exact (List.pairwise_iff_getElem.1 hpairwise j i hj hi hgt).symm

/-! ### Schedules -/

/-- What holds of the item in each place holds of all items. -/
theorem forall_mem_of_places {α : Type} {P : α → Prop} {xs : List α}
    (hlength : xs.length = scenarios.length)
    (h : ∀ (i : Nat) (s : Scenario) (x : α), scenarios[i]? = some s → xs[i]? = some x → P x) :
    ∀ x ∈ xs, P x := by
  intro x hx
  obtain ⟨i, hi, rfl⟩ := List.mem_iff_getElem.1 hx
  exact h i _ _ (List.getElem?_eq_getElem (hlength ▸ hi)) (List.getElem?_eq_getElem hi)

/-- Members of which none has been disturbed. -/
structure NoneDisturbed (scenarios : List Scenario) (d₀ : Disk) (members : List Member) (d : Disk) :
    Prop where
  length : members.length = scenarios.length
  member : ∀ (i : Nat) (s : Scenario) (m : Member), scenarios[i]? = some s →
    members[i]? = some m → m.Undisturbed s d₀ d

theorem NoneDisturbed.isCapture (h : NoneDisturbed scenarios d₀ members d) :
    ∀ m ∈ members, m.capturing.isSome = true → m.run.stage.isCapture = true :=
  forall_mem_of_places h.length fun i s m hs hm => (h.member i s m hs hm).isCapture

/-- What an undisturbed member may do among others. -/
def IsHarmless (doing : Doing) (d₀ : Disk) : Prop :=
  ∀ (s : Scenario) (m : Member) (d : Disk), s.KeepsToRoot d₀.cwd → s.plan.root.Forward →
    m.Undisturbed s d₀ d → Member.Harmless s d₀ d (doing s.plan s.setting m d).value

theorem doOne_cases (doing : Doing) (scenarios : List Scenario) (i : Nat) (members : List Member)
    (d : Disk) : (scenarios[i]? = none ∨ members[i]? = none) ∧
        (doOne doing scenarios i members d).value = (members, d) ∨
      ∃ s m, scenarios[i]? = some s ∧ members[i]? = some m ∧
        (doOne doing scenarios i members d).value =
          (members.set i (doing s.plan s.setting m d).value.1,
            (doing s.plan s.setting m d).value.2) := by
  rw [doOne]
  cases scenarios[i]? with
  | none => exact .inl ⟨.inl rfl, rfl⟩
  | some s =>
    cases members[i]? with
    | none => exact .inl ⟨.inr rfl, rfl⟩
    | some m => exact .inr ⟨s, m, rfl, rfl, rfl⟩

/-- A schedule that has each of a number of members at least as many times as its run is steps away
from the end. -/
def Suffices (schedule : List Nat) (n : Nat) (members : List Member) : Prop :=
  ∀ (i : Nat) (m : Member), i < n → members[i]? = some m →
    m.run.stage.left ≤ schedule.count i

/-- A round brings its member nearer to the end, so that the rest of the schedule will do. -/
theorem suffices_doOne {i : Nat} {rest : List Nat}
    (hcapturing : ∀ m ∈ members, m.capturing.isSome = true → m.run.stage.isCapture = true)
    (hsuffices : Suffices (i :: rest) scenarios.length members) :
    Suffices rest scenarios.length
      (Scenarios.doOne Member.round scenarios i members d).value.1 := by
  intro j m hj hm
  have hstays {m : Member} (hij : i ≠ j) (hm : members[j]? = some m) :
      m.run.stage.left ≤ rest.count j := by
    rw [← List.count_cons_of_ne hij]
    exact hsuffices j m hj hm
  rcases doOne_cases Member.round scenarios i members d with
    ⟨hnone, hsame⟩ | ⟨s, m₀, hs, hm₀, hset⟩
  · rw [hsame] at hm
    refine hstays (fun hij => ?_) hm
    subst hij
    rcases hnone with hnone | hnone
    · exact absurd hj (by simpa using hnone)
    · cases hnone.symm.trans hm
  rw [hset] at hm
  by_cases hij : i = j
  · subst hij
    obtain ⟨hi, -⟩ := List.getElem?_eq_some_iff.1 hm₀
    rw [List.getElem?_set_self hi] at hm
    cases hm
    have hcloser := Member.left_round s.plan s.setting d
      (hcapturing m₀ (List.mem_of_getElem? hm₀))
    have hcount := hsuffices i m₀ hj hm₀
    rw [List.count_cons_self] at hcount
    omega
  · rw [List.getElem?_set_ne hij] at hm
    exact hstays hij hm

/-- What is kept whoever does something is kept by a schedule. -/
theorem follow_keeps {Keeps : List Member → Disk → Prop}
    (hone : ∀ (i : Nat) (members : List Member) (d : Disk), Keeps members d →
      Keeps (doOne doing scenarios i members d).value.1
        (doOne doing scenarios i members d).value.2)
    (schedule : List Nat) (h : Keeps members d) :
    Keeps (follow doing scenarios schedule members d).value.1
      (follow doing scenarios schedule members d).value.2 := by
  induction schedule generalizing members d with
  | nil => exact h
  | cons i rest ih => exact ih (hone i members d h)

/-- A schedule of rounds that is long enough brings all members to their ends, if what is kept
meanwhile has captures under way only where they are taken next. -/
theorem suffices_follow {Keeps : List Member → Disk → Prop}
    (hone : ∀ (i : Nat) (members : List Member) (d : Disk), Keeps members d →
      Keeps (doOne Member.round scenarios i members d).value.1
        (doOne Member.round scenarios i members d).value.2)
    (hcapturing : ∀ (members : List Member) (d : Disk), Keeps members d →
      ∀ m ∈ members, m.capturing.isSome = true → m.run.stage.isCapture = true)
    {schedule : List Nat} (h : Keeps members d)
    (hsuffices : Suffices schedule scenarios.length members) :
    Suffices [] scenarios.length
      (follow Member.round scenarios schedule members d).value.1 := by
  induction schedule generalizing members d with
  | nil => exact hsuffices
  | cons i rest ih =>
    exact ih (hone i members d h) (suffices_doOne (hcapturing members d h) hsuffices)

section Schedules

variable (hdisjoint : checkDisjoint d₀.cwd (scenarios.map Scenario.plan) = .ok ())
  (hkeep : ∀ s ∈ scenarios, s.KeepsToRoot d₀.cwd)
  (hforward : ∀ s ∈ scenarios, s.plan.root.Forward)

include hdisjoint hkeep hforward

/-- When one member does something harmless, none is disturbed. -/
theorem NoneDisturbed.doOne (hdoing : IsHarmless doing d₀)
    (h : NoneDisturbed scenarios d₀ members d) (i : Nat) :
    NoneDisturbed scenarios d₀ (doOne doing scenarios i members d).value.1
      (doOne doing scenarios i members d).value.2 := by
  rcases doOne_cases doing scenarios i members d with ⟨-, hsame⟩ | ⟨s, m, hs, hm, hset⟩
  · rw [hsame]
    exact h
  have hharmless := hdoing s m d (hkeep s (List.mem_of_getElem? hs))
    (hforward s (List.mem_of_getElem? hs)) (h.member i s m hs hm)
  obtain ⟨hi, -⟩ := List.getElem?_eq_some_iff.1 hm
  rw [hset]
  refine ⟨by simpa using h.length, fun j t m' ht hm' => ?_⟩
  by_cases hij : i = j
  · subst hij
    cases hs.symm.trans ht
    rw [List.getElem?_set_self hi] at hm'
    cases hm'
    exact hharmless.undisturbed
  · rw [List.getElem?_set_ne hij] at hm'
    exact (h.member j t m' ht hm').elsewhere hharmless.undisturbed.tree hharmless.spares
      (apart_of_checkDisjoint hdisjoint hij hs ht)

/-- Whatever the order in which members do something harmless, none is disturbed. -/
theorem NoneDisturbed.follow (hdoing : IsHarmless doing d₀) (schedule : List Nat)
    (h : NoneDisturbed scenarios d₀ members d) :
    NoneDisturbed scenarios d₀ (follow doing scenarios schedule members d).value.1
      (follow doing scenarios schedule members d).value.2 :=
  follow_keeps (fun i _ _ h => h.doOne hdisjoint hkeep hforward hdoing i) schedule h

/-- A schedule of rounds that is long enough brings all members to their ends. -/
theorem NoneDisturbed.suffices_follow {schedule : List Nat}
    (h : NoneDisturbed scenarios d₀ members d)
    (hsuffices : Suffices schedule scenarios.length members) :
    Suffices [] scenarios.length
      (Scenarios.follow Member.round scenarios schedule members d).value.1 := by
  have hround : IsHarmless Member.round d₀ := fun s m d hs hp h => h.round hs hp
  exact Scenarios.suffices_follow (fun i _ _ h => h.doOne hdisjoint hkeep hforward hround i)
    (fun _ _ h => h.isCapture) h hsuffices

end Schedules

/-- Each of a number of runs has as many rounds as it can need. -/
theorem le_count_remaining {n i : Nat} (hi : i < n) : Run.length ≤ (remaining n).count i := by
  obtain ⟨before, after, hrange⟩ := List.append_of_mem (List.mem_range.2 hi)
  rw [remaining, hrange, List.flatMap_append, List.flatMap_cons, List.count_append,
    List.count_append, List.count_replicate_self]
  omega

/-! ### How several runs end -/

/-- What several runs come to depends on nothing but their outcomes. -/
theorem conclude_congr {runs runs' : List Run}
    (h : runs.map Run.outcome? = runs'.map Run.outcome?) : conclude runs = conclude runs' := by
  have hcrashes (runs : List Run) : (runs.filter fun r => r.outcome?.isNone).length =
      ((runs.map Run.outcome?).filter Option.isNone).length := by
    rw [List.filter_map, List.length_map]
    rfl
  have houtcomes (runs : List Run) :
      runs.filterMap Run.outcome? = (runs.map Run.outcome?).filterMap id := by
    rw [List.filterMap_map]
    rfl
  rw [conclude, conclude, hcrashes, hcrashes, houtcomes, houtcomes, h]

end Scenarios

/-- What becomes of plans that are accepted. -/
theorem value_interleave {scenarios : List Scenario} {d : Disk}
    (h : Scenarios.checkDisjoint d.cwd (scenarios.map Scenario.plan) = .ok ())
    (schedule : List Nat) : (interleave scenarios schedule d).value =
      let begun := (Scenarios.follow Member.step scenarios schedule
        (scenarios.map fun _ => ({} : Member)) d).value
      let ended := (Scenarios.follow Member.round scenarios
        (Scenarios.remaining scenarios.length) begun.1 begun.2).value
      (Scenarios.conclude (ended.1.map Member.run), ended.1.map Member.run, ended.2) := by
  unfold interleave
  rw [h]
  simp only [Logged.value_bind]
  split <;> rfl

/-! ### One run after the other -/

namespace Scenarios

variable {scenarios : List Scenario} {members : List Member} {d : Disk} {i : Nat}

theorem value_follow_append (doing : Doing) (scenarios : List Scenario) (first rest : List Nat)
    (members : List Member) (d : Disk) :
    (follow doing scenarios (first ++ rest) members d).value =
      (follow doing scenarios rest (follow doing scenarios first members d).value.1
        (follow doing scenarios first members d).value.2).value := by
  induction first generalizing members d with
  | nil => rfl
  | cons i first ih => exact ih _ _

/-- A member that a schedule does not name stays as it is. -/
theorem getElem?_follow (doing : Doing) {schedule : List Nat} (h : i ∉ schedule)
    (members : List Member) (d : Disk) :
    (follow doing scenarios schedule members d).value.1[i]? = members[i]? := by
  induction schedule generalizing members d with
  | nil => rfl
  | cons j rest ih =>
    rw [List.mem_cons, not_or] at h
    have hone : (doOne doing scenarios j members d).value.1[i]? = members[i]? := by
      rcases doOne_cases doing scenarios j members d with ⟨-, hsame⟩ | ⟨s, m, -, -, hset⟩
      · rw [hsame]
      · rw [hset, List.getElem?_set_ne (Ne.symm h.1)]
    exact (ih h.2 _ _).trans hone

/-- Rounds of one member are the steps of its run. -/
theorem value_follow_replicate {s : Scenario} {r : Run} (n : Nat) (hs : scenarios[i]? = some s)
    (hm : members[i]? = some { run := r }) :
    (follow Member.round scenarios (List.replicate n i) members d).value =
      (members.set i { run := (Run.advance s.plan s.setting n r d).value.1 },
        (Run.advance s.plan s.setting n r d).value.2) := by
  obtain ⟨hi, -⟩ := List.getElem?_eq_some_iff.1 hm
  induction n generalizing members r d with
  | zero =>
    have hsame : members.set i { run := r } = members := by
      obtain ⟨_, hget⟩ := List.getElem?_eq_some_iff.1 hm
      rw [← hget, List.set_getElem_self]
    exact Prod.ext hsame.symm rfl
  | succ n ih =>
    have hround : (doOne Member.round scenarios i members d).value =
        (members.set i { run := (Run.step s.plan s.setting r d).value.1 },
          (Run.step s.plan s.setting r d).value.2) := by
      simp only [doOne, hs, hm, Logged.value_bind, Logged.value_pure, Member.value_round]
    rw [List.replicate_succ, follow, Logged.value_bind, hround]
    refine (ih (List.getElem?_set_self hi) (by simpa using hi)).trans ?_
    rw [List.set_set]
    rfl

/-- The first run, when none of its steps is scheduled, is carried out alone on the disk that the
steps of the others leave. -/
theorem outcome_of_first {s : Scenario} {rest : List Scenario} {schedule : List Nat}
    (h : checkDisjoint d.cwd ((s :: rest).map Scenario.plan) = .ok ()) (hfirst : 0 ∉ schedule) :
    let begun := (follow Member.step (s :: rest) schedule
      ((s :: rest).map fun _ => ({} : Member)) d).value
    (interleave (s :: rest) schedule d).value.2.1[0]? =
      some (s.plan.verify s.setting begun.2).value.1 := by
  intro begun
  have hbegun : begun.1[0]? = some ({} : Member) := getElem?_follow Member.step hfirst _ d
  have hremaining : remaining (s :: rest).length =
      List.replicate Run.length 0 ++
        (List.range rest.length).flatMap fun i => List.replicate Run.length (i + 1) := by
    rw [remaining, List.length_cons, List.range_succ_eq_map, List.flatMap_cons, List.flatMap_map]
  have hothers : 0 ∉ (List.range rest.length).flatMap
      fun i => List.replicate Run.length (i + 1) := by
    simp
  rw [value_interleave h]
  show ((follow Member.round (s :: rest) (remaining (s :: rest).length) begun.1
    begun.2).value.1.map Member.run)[0]? = _
  rw [List.getElem?_map, hremaining, value_follow_append, getElem?_follow _ hothers,
    value_follow_replicate Run.length (s := s) rfl hbegun]
  obtain ⟨hi, -⟩ := List.getElem?_eq_some_iff.1 hbegun
  rw [List.getElem?_set_self hi]
  rfl

end Scenarios

/-! ### Two services -/

/-- A service that answers with success and does nothing. -/
def Service.idle : Service := fun _ _ d => ⟨.response 200 true, 0, d, []⟩

/-- A service that puts a file into a directory, unless the directory is missing or has something of
that name. -/
def Service.filing (l : Location) (n content : Bytes) : Service := fun _ _ d =>
  if d.entry? l = some .directory ∧ d.entry? (l ++ [n]) = none then
    ⟨.response 200 true, 0, d.put (l ++ [n]) (.file content d.now), []⟩
  else ⟨.response 200 true, 0, d, []⟩

theorem Service.succeeds_idle (d : Disk) (request : Request) :
    (idle request (.ofMillis 1000) d).Succeeds (.ofMillis 1000) d :=
  ⟨⟨200, rfl⟩, Nat.zero_le _, rfl⟩

theorem Service.keepsTo_idle (request : Request) (timeout : Duration) (l : Location) :
    idle.KeepsTo request timeout l :=
  ⟨fun _ htree _ hlink => ⟨htree, rfl, rfl, hlink⟩,
    fun _ _ _ _ _ _ _ _ _ hpart => ⟨rfl, rfl, hpart⟩⟩

/-- A service that puts files into a directory keeps to it. -/
theorem Service.keepsTo_filing {l : Location} {n : Bytes} (hn : ProperName n) (content : Bytes)
    (request : Request) (timeout : Duration) :
    (filing l n content).KeepsTo request timeout l := by
  refine ⟨fun d htree hreaches hlink => ?_, fun a d _ _ _ _ _ _ _ hpart => ?_⟩
  · rw [filing]
    split
    · rename_i hfree
      refine ⟨htree.put hn hfree.1 hfree.2, Disk.cwd_put .., ?_, fun m hm target hentry => ?_⟩
      · have hwithin : (l ++ [n]).isWithin l = true :=
          Location.isWithin_iff.2 (List.prefix_append l [n])
        rw [Disk.put_of_free (by simp) hfree.2, Disk.outside, Disk.outside, List.filter_append]
        simp [hwithin]
      · have hne : m ≠ l ++ [n] := by
          rintro rfl
          have hlength := hm.length_le
          rw [List.length_append, List.length_singleton] at hlength
          omega
        exact hlink m hm target ((Disk.entry?_put_of_ne hne).symm.trans hentry)
    · exact ⟨htree, rfl, rfl, hlink⟩
  · have hhere := Disk.kindAt_of_part hpart List.prefix_rfl
    have hthere := Disk.kindAt_of_part hpart (List.prefix_append l [n])
    have hfree : (d.entry? l = some .directory ∧ d.entry? (l ++ [n]) = none) ↔
        (a.entry? l = some .directory ∧ a.entry? (l ++ [n]) = none) := by
      rw [← Disk.kindAt_eq_directory, ← Disk.kindAt_eq_none, hhere, hthere,
        Disk.kindAt_eq_directory, Disk.kindAt_eq_none]
    rw [filing, filing]
    by_cases ha : a.entry? l = some .directory ∧ a.entry? (l ++ [n]) = none
    · have hd := hfree.2 ha
      rw [if_pos ha, if_pos hd]
      refine ⟨rfl, rfl, ?_⟩
      dsimp only
      rw [Disk.part_put (by simp) hd.2, Disk.part_put (by simp) ha.2, hpart]
      rfl
    · rw [if_neg ha, if_neg (mt hfree.1 ha)]
      exact ⟨rfl, rfl, hpart⟩

namespace Scenario

/-- A scenario with a root and a service, and with fingerprints that are all the same. -/
def serving (root : String) (service : Service) : Scenario where
  plan := ⟨.ofString root, .null, .null, "", "", .ofMillis 0, .ofMillis 1000, .ofMillis 1000, 1,
    false⟩
  setting := {
    service := service
    fingerprinter := fun _ => ⟨"none", fun _ _ key => .ok ⟨key, "", 0, none⟩⟩
    runId := "run", firstId := "first", secondId := "second" }

variable {root : String} {service : Service} {d d₀ d₁ : Disk} {l cwd : Location}

theorem keepsToRoot_serving (hproper : 0 ∉ (Path.ofString root).bytes)
    (hkeep : ∀ request,
      service.KeepsTo request (.ofMillis 1000) (Location.ofPath cwd (.ofString root))) :
    (serving root service).KeepsToRoot cwd :=
  ⟨hproper, fun _ => rfl, fun _ _ _ _ _ _ => rfl, hkeep _, hkeep _⟩

section Outcome

variable (hclean : Run.emptyRoot {} d (.ofString root) = (d₀, .ok ()))
  (hfirst : ∀ request, (service request (.ofMillis 1000) d₀).Succeeds (.ofMillis 1000) d₁)
  (hroot : d₁.follow (.ofString root) = .ok (l, .directory))

include hclean hfirst hroot

/-- A run passes if the service leaves a file and then no longer does anything. -/
theorem passes_serving (hsecond : ∀ request,
      (service request (.ofMillis 1000) d₁).Succeeds (.ofMillis 1000) d₁)
    {path : Path} {names : List Bytes}
    (hwalk : ({} : FileAccess).walk d₁ (.ofString root) = [.other, .file path names]) :
    ∃ report, ((serving root service).plan.verify (serving root service).setting
      d).value.1.outcome? = some (.pass report) := by
  have hroot' : Capture.requireRoot {} d₁ (.ofString root) = .ok () :=
    Capture.requireRoot_of_follow hroot
  have hall : Capture.AllRecorded d₁ ((serving root service).setting.fingerprinter [])
      (({} : FileAccess).walk d₁ (.ofString root)) := by
    rw [hwalk]
    exact List.forall_mem_cons.2 ⟨.inl rfl,
      List.forall_mem_singleton.2 (.inr ⟨path, names, _, rfl, rfl⟩)⟩
  have hfile : ∃ path names,
      .file path names ∈ ({} : FileAccess).walk d₁ (.ofString root) := by
    rw [hwalk]
    exact ⟨path, names, List.mem_of_getLast? rfl⟩
  have hkey : ((serving root service).setting.fingerprinter []).FilesUnderKey := by
    rintro _ _ _ _ ⟨⟩
    rfl
  have htime : Capture.Unhindered ⟨1, some (.ofMillis 1000)⟩ {} :=
    Capture.unhindered_of_still (by decide) (by decide)
  have hpasses : ((serving root service).plan.verify (serving root service).setting
      d).value.1.captured = [d₁, d₁] ∧ ∃ report, ((serving root service).plan.verify
        (serving root service).setting d).value.1.outcome? = some (.pass report) ∧
          report.warnings = [] := by
    refine Plan.passes_of_keys (fun _ => rfl) hkey hclean (hfirst _) (hsecond _)
      (fun _ => htime) hroot' hroot' hall hall hfile
      (fun path names hitem => ⟨path, names, hitem, rfl⟩) ?_
    rintro _ _ _ _ _ _ _ _ _ ⟨⟩ ⟨⟩
    rfl
  obtain ⟨-, report, hpass, -⟩ := hpasses
  exact ⟨report, hpass⟩

/-- A run is aborted if the service leaves no file. -/
theorem aborted_serving (hwalk : ({} : FileAccess).walk d₁ (.ofString root) = [.other]) :
    ∃ run, ((serving root service).plan.verify (serving root service).setting
      d).value.1.outcome? = some (.aborted run) := by
  have hroot' : Capture.requireRoot {} d₁ (.ofString root) = .ok () :=
    Capture.requireRoot_of_follow hroot
  have huntimed (fp : Fingerprinter) : Capture.untimed d₁ fp (.ofString root)
      (({} : FileAccess).walk d₁ (.ofString root)) =
        .ok (.ofRecords (Path.ofString root).display d₁.now fp.algorithm [] []) := by
    rw [hwalk]
    rfl
  have hbefore (given : List (List String)) : (capture d₁
      ((serving root service).setting.fingerprinter given) ⟨1, some (.ofMillis 1000)⟩ {}
      (.ofString root)).value.snapshot =
        .ok (.ofRecords (Path.ofString root).display d₁.now "none" [] []) :=
    (capture_of_unhindered (Capture.unhindered_of_still (by decide) (by decide)) hroot').trans
      (congrArg Halt.lift (huntimed _))
  exact ⟨_, Run.aborted_of_isEmpty hclean (hfirst _) hbefore rfl⟩

end Outcome

theorem passes_filing : ∃ report, ((serving "a" (.filing [[97]] [102] [65])).plan.verify
    (serving "a" (.filing [[97]] [102] [65])).setting {}).value.1.outcome? =
      some (.pass report) := by
  have hname : Path.ofString "a" = ⟨[97]⟩ := rfl
  have hclean : Run.emptyRoot {} {} (.ofString "a") =
      ({ entries := [([[97]], .directory)] }, .ok ()) := by
    rw [hname]
    cbv
  have hfirst (request : Request) : (Service.filing [[97]] [102] [65] request (.ofMillis 1000)
      { entries := [([[97]], .directory)] }).Succeeds (.ofMillis 1000)
        { entries := [([[97]], .directory), ([[97], [102]], .file [65] .epoch)] } :=
    ⟨⟨200, by cbv⟩, by cbv, by cbv⟩
  have hsecond (request : Request) : (Service.filing [[97]] [102] [65] request (.ofMillis 1000)
      { entries := [([[97]], .directory), ([[97], [102]], .file [65] .epoch)] }).Succeeds
        (.ofMillis 1000)
        { entries := [([[97]], .directory), ([[97], [102]], .file [65] .epoch)] } :=
    ⟨⟨200, by cbv⟩, by cbv, by cbv⟩
  have hroot : Disk.follow
      { entries := [([[97]], .directory), ([[97], [102]], .file [65] .epoch)] }
        (.ofString "a") = .ok ([[97]], .directory) := by
    rw [hname]
    cbv
  have hwalk : ({} : FileAccess).walk
      { entries := [([[97]], .directory), ([[97], [102]], .file [65] .epoch)] }
        (.ofString "a") = [.other, .file ⟨[97, 47, 102]⟩ [[102]]] := by
    rw [hname]
    cbv
  exact passes_serving hclean hfirst hroot hsecond hwalk

theorem aborted_idle : ∃ run, ((serving "b" .idle).plan.verify
    (serving "b" .idle).setting {}).value.1.outcome? = some (.aborted run) := by
  have hname : Path.ofString "b" = ⟨[98]⟩ := rfl
  have hclean : Run.emptyRoot {} {} (.ofString "b") =
      ({ entries := [([[98]], .directory)] }, .ok ()) := by
    rw [hname]
    cbv
  have hroot : Disk.follow { entries := [([[98]], .directory)] } (.ofString "b") =
      .ok ([[98]], .directory) := by
    rw [hname]
    cbv
  have hwalk :
      ({} : FileAccess).walk { entries := [([[98]], .directory)] } (.ofString "b") = [.other] := by
    rw [hname]
    cbv
  exact aborted_serving hclean (Service.succeeds_idle _) hroot hwalk

end Scenario

/-! ### Roots that go up after a name -/

namespace Scenarios

/-- A disk with a file in a directory. -/
def leftover : Disk :=
  { entries := [([[98]], .directory), ([[98], [111]], .file [65] .epoch)] }

/-- A run whose root leads through a directory, and a run that makes this directory. -/
def crossing : List Scenario :=
  [.serving "y/../b" .idle, .serving "y/c" .idle]

theorem ofString_upwards : Path.ofString "y/../b" = ⟨[121, 47, 46, 46, 47, 98]⟩ :=
  rfl

/-- Alone the first run makes the directory on its way, and what was in its root stays. -/
theorem passes_crossing : ∃ report, ((Scenario.serving "y/../b" .idle).plan.verify
    (Scenario.serving "y/../b" .idle).setting leftover).value.1.outcome? = some (.pass report) := by
  have hclean : Run.emptyRoot {} leftover (.ofString "y/../b") =
      ({ entries := leftover.entries ++ [([[121]], .directory)] }, .ok ()) := by
    rw [ofString_upwards]
    cbv
  have hroot : Disk.follow { entries := leftover.entries ++ [([[121]], .directory)] }
      (.ofString "y/../b") = .ok ([[98]], .directory) := by
    rw [ofString_upwards]
    cbv
  have hwalk : ({} : FileAccess).walk { entries := leftover.entries ++ [([[121]], .directory)] }
      (.ofString "y/../b") = [.other, .file ⟨[121, 47, 46, 46, 47, 98, 47, 111]⟩ [[111]]] := by
    rw [ofString_upwards]
    cbv
  exact Scenario.passes_serving hclean (Service.succeeds_idle _) hroot (Service.succeeds_idle _)
    hwalk

/-- Once the other run has made that directory, the first run empties its root. -/
theorem aborted_crossing : ∃ run, ((Scenario.serving "y/../b" .idle).plan.verify
    (Scenario.serving "y/../b" .idle).setting (follow Member.step crossing [1]
      (crossing.map fun _ => ({} : Member)) leftover).value.2).value.1.outcome? =
        some (.aborted run) := by
  have hmade : Run.emptyRoot {} leftover (.ofString "y/c") = ({ entries := leftover.entries ++
      [([[121]], .directory), ([[121], [99]], .directory)] }, .ok ()) := by
    rw [show Path.ofString "y/c" = ⟨[121, 47, 99]⟩ from rfl]
    cbv
  have hbegun : (follow Member.step crossing [1] (crossing.map fun _ => ({} : Member))
      leftover).value.2 = { entries := leftover.entries ++
        [([[121]], .directory), ([[121], [99]], .directory)] } := by
    show (Run.step (Scenario.serving "y/c" .idle).plan (Scenario.serving "y/c" .idle).setting {}
      leftover).value.2 = _
    rw [Run.value_step_clean rfl hmade]
  have hclean : Run.emptyRoot {} { entries := leftover.entries ++
      [([[121]], .directory), ([[121], [99]], .directory)] } (.ofString "y/../b") =
        ({ entries := [([[121]], .directory), ([[121], [99]], .directory),
            ([[98]], .directory)] }, .ok ()) := by
    rw [ofString_upwards]
    cbv
  have hroot : Disk.follow { entries := [([[121]], .directory), ([[121], [99]], .directory),
      ([[98]], .directory)] } (.ofString "y/../b") = .ok ([[98]], .directory) := by
    rw [ofString_upwards]
    cbv
  have hwalk : ({} : FileAccess).walk { entries := [([[121]], .directory),
      ([[121], [99]], .directory), ([[98]], .directory)] } (.ofString "y/../b") = [.other] := by
    rw [ofString_upwards]
    cbv
  rw [hbegun]
  exact Scenario.aborted_serving hclean (Service.succeeds_idle _) hroot hwalk

end Scenarios

/-! ### Runs side by side and alone -/

/-- Runs of plans that are accepted do not disturb each other as long as each keeps to its root and
no root goes up after a name: whatever the order of their steps, each has the outcome that it has
when it is carried out alone on the disk that all of them began with, and what they come to together
is what they come to one by one. -/
theorem interleave_eq_alone {scenarios : List Scenario} (schedule : List Nat) {d : Disk}
    (htree : d.IsTree) (hcwd : d.entry? d.cwd = some .directory)
    (hdisjoint : Scenarios.checkDisjoint d.cwd (scenarios.map Scenario.plan) = .ok ())
    (hlink : ∀ s ∈ scenarios, d.LinkFree (Location.ofPath d.cwd s.plan.root))
    (hkeep : ∀ s ∈ scenarios, s.KeepsToRoot d.cwd)
    (hforward : ∀ s ∈ scenarios, s.plan.root.Forward) :
    let alone := scenarios.map fun s => (s.plan.verify s.setting d).value.1
    (interleave scenarios schedule d).value.1 = Scenarios.conclude alone ∧
      (interleave scenarios schedule d).value.2.1.map Run.outcome? =
        alone.map Run.outcome? := by
  have hstart : Scenarios.NoneDisturbed scenarios d (scenarios.map fun _ => ({} : Member)) d := by
    refine ⟨by simp, fun i s m hs hm => ?_⟩
    obtain rfl : m = {} := by
      rw [List.getElem?_map, hs] at hm
      exact (Option.some.inj hm).symm
    exact Member.undisturbed_of_start htree hcwd (hlink s (List.mem_of_getElem? hs))
  -- neither the schedule nor the rounds that follow it disturb anyone
  have hbegun := hstart.follow hdisjoint hkeep hforward (fun s m d hs hp h => h.step hs hp) schedule
  have hended := hbegun.follow hdisjoint hkeep hforward (fun s m d hs hp h => h.round hs hp)
    (Scenarios.remaining scenarios.length)
  have hover := hbegun.suffices_follow hdisjoint hkeep hforward
    fun i m hi _ => m.run.stage.left_le.trans (Scenarios.le_count_remaining hi)
  have houtcomes : (interleave scenarios schedule d).value.2.1.map Run.outcome? =
      (scenarios.map fun s => (s.plan.verify s.setting d).value.1).map Run.outcome? := by
    rw [value_interleave hdisjoint, List.map_map, List.map_map]
    refine List.ext_getElem (by simpa using hended.length) fun i hi hi' => ?_
    rw [List.length_map] at hi hi'
    rw [List.getElem_map, List.getElem_map]
    have hm := List.getElem?_eq_getElem hi
    exact (hended.member i _ _ (List.getElem?_eq_getElem hi') hm).outcome?_eq
      (Nat.le_zero.1 (hover i _ hi' hm))
  refine ⟨?_, houtcomes⟩
  rw [← Scenarios.conclude_congr houtcomes, value_interleave hdisjoint]

/-- A run whose service puts a file into the root, step by step in turn with one whose service does
nothing, passes as it does alone, and the other is aborted as it is alone. -/
theorem interleave_eq_alone_of_filing :
    let filing : Scenario := .serving "a" (.filing [[97]] [102] [65])
    let idle : Scenario := .serving "b" .idle
    let alone := [filing, idle].map fun s => (s.plan.verify s.setting {}).value.1
    (∃ report run, alone.map Run.outcome? = [some (.pass report), some (.aborted run)]) ∧
      (interleave [filing, idle] [0, 1, 0, 1, 0, 1, 0, 1] {}).value.1 =
        Scenarios.conclude alone ∧
      (interleave [filing, idle] [0, 1, 0, 1, 0, 1, 0, 1] {}).value.2.1.map Run.outcome? =
        alone.map Run.outcome? := by
  intro filing idle alone
  refine ⟨?_, interleave_eq_alone [0, 1, 0, 1, 0, 1, 0, 1] (by decide) rfl rfl
    (fun _ _ => Disk.linkFree_of_entries (by simp) _) ?_ ?_⟩
  · obtain ⟨report, hpass⟩ := Scenario.passes_filing
    obtain ⟨run, haborted⟩ := Scenario.aborted_idle
    exact ⟨report, run, by rw [← hpass, ← haborted]; rfl⟩
  · have hfiling : filing.KeepsToRoot [] := Scenario.keepsToRoot_serving (by decide)
      fun request => Service.keepsTo_filing (by decide) [65] request (.ofMillis 1000)
    have hidle : idle.KeepsToRoot [] := Scenario.keepsToRoot_serving (by decide)
      fun request => Service.keepsTo_idle request (.ofMillis 1000) _
    exact List.forall_mem_cons.2 ⟨hfiling, List.forall_mem_singleton.2 hidle⟩
  · exact List.forall_mem_cons.2 ⟨by decide, List.forall_mem_singleton.2 (by decide)⟩

/-- A root that goes up after a name is another place for the comparison of roots than for the disk
until the way is there, and a run that makes the way changes the outcome of the other one. -/
theorem interleave_ne_alone :
    let d := Scenarios.leftover
    let scenarios := Scenarios.crossing
    d.IsTree ∧ d.entry? d.cwd = some .directory ∧
      Scenarios.checkDisjoint d.cwd (scenarios.map Scenario.plan) = .ok () ∧
      (∀ s ∈ scenarios, d.LinkFree (Location.ofPath d.cwd s.plan.root)) ∧
      (∀ s ∈ scenarios, s.KeepsToRoot d.cwd) ∧
      (interleave scenarios [1] d).value.2.1.map Run.outcome? ≠
        (scenarios.map fun s => (s.plan.verify s.setting d).value.1).map Run.outcome? := by
  dsimp only
  have hdisjoint : Scenarios.checkDisjoint Scenarios.leftover.cwd
      (Scenarios.crossing.map Scenario.plan) = .ok () := rfl
  have hlink (l : Location) : Scenarios.leftover.LinkFree l :=
    Disk.linkFree_of_entries (by simp [Scenarios.leftover]) l
  have hkeep (root : String) (hproper : 0 ∉ (Path.ofString root).bytes) :
      (Scenario.serving root .idle).KeepsToRoot Scenarios.leftover.cwd :=
    Scenario.keepsToRoot_serving hproper fun request =>
      Service.keepsTo_idle request (.ofMillis 1000) _
  refine ⟨by decide, rfl, hdisjoint, fun _ _ => hlink _, ?_, fun heq => ?_⟩
  · exact List.forall_mem_cons.2 ⟨hkeep _ (by decide),
      List.forall_mem_singleton.2 (hkeep _ (by decide))⟩
  obtain ⟨report, hpass⟩ := Scenarios.passes_crossing
  obtain ⟨run, haborted⟩ := Scenarios.aborted_crossing
  have hfirst : (interleave Scenarios.crossing [1] Scenarios.leftover).value.2.1[0]? =
      some ((Scenario.serving "y/../b" .idle).plan.verify (Scenario.serving "y/../b" .idle).setting
        (Scenarios.follow Member.step Scenarios.crossing [1]
          (Scenarios.crossing.map fun _ => ({} : Member)) Scenarios.leftover).value.2).value.1 :=
    Scenarios.outcome_of_first hdisjoint (by decide)
  have hone : ((interleave Scenarios.crossing [1] Scenarios.leftover).value.2.1.map
      Run.outcome?)[0]? = some (some (.aborted run)) := by
    rw [List.getElem?_map, hfirst, Option.map_some, haborted]
  rw [heq] at hone
  cases hone.symm.trans (congrArg some hpass)

end CacheAudit
