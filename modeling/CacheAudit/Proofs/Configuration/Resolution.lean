import CacheAudit.CommandLine.Execution
import CacheAudit.Proofs.Disk.Lookup

/-!
# Loading a configuration and accepting it

A configuration is accepted or refused after its relative paths were put below the directory of
its file. Of the settings that are judged only the root is a path, and of the root only whether it
is empty; so a refusal outlives the resolution, with one exception: an empty root becomes the
directory of the file, and a run empties its root.
-/

namespace CacheAudit

/-- A joined path is empty only when both of its parts are. -/
theorem Path.join_eq_empty_iff {p q : Path} :
    (p.join q).bytes = [] ↔ p.bytes = [] ∧ q.bytes = [] := by
  unfold join
  split
  · rename_i habsolute
    have hq : q.bytes ≠ [] := by
      intro hnil
      simp [isAbsolute, hnil] at habsolute
    simp [hq]
  · split
    · simp
    · rename_i hp
      have hp : p.bytes ≠ [] := fun hnil => hp (.inl (by simp [hnil]))
      simp [hp]

namespace Configuration

/-- The settings other than the root are such that a run can be carried out with them. -/
def AcceptableBesidesRoot (c : Configuration) : Prop :=
  ∀ root : Path, root.bytes ≠ [] → { c with root := root }.validate = .ok ()

/-- A file gives its directory to a configuration in place of an empty root. -/
def SuppliesRoot (path : Path) (c : Configuration) : Prop :=
  c.root.bytes = [] ∧ ∃ base, path.parent? = some base ∧ base.bytes ≠ []

/-- Of a root it is judged only whether it is empty. -/
theorem validate_withRoot {c : Configuration} {root root' : Path}
    (h : root.bytes = [] ↔ root'.bytes = []) :
    { c with root := root }.validate = { c with root := root' }.validate := by
  have hempty : root.bytes.isEmpty = root'.bytes.isEmpty := by
    rw [Bool.eq_iff_iff, List.isEmpty_iff, List.isEmpty_iff, h]
  simp only [validate, hempty, algorithm?]

/-- Resolution matters to acceptance only through the root. -/
theorem validate_resolveIn (c : Configuration) (base : Path) :
    (c.resolveIn base).validate = { c with root := base.join c.root }.validate := rfl

/-- The configuration that a file with a given text is loaded as. -/
def resolvedFor (c : Configuration) (path : Path) : Configuration :=
  match path.parent? with
  | some base => c.resolveIn base
  | none => c

theorem load_eq_ok {d : Disk} {path : Path} {text : String} {c : Configuration}
    (htext : textAt d path = .ok text) (hc : ofText text = .ok c) :
    load d path = .ok (c.resolvedFor path) := by
  unfold load resolvedFor
  rw [htext]
  simp only [hc]
  cases path.parent? <;> rfl

/-- Unless the file supplies the root, the loaded configuration is judged like the written one. -/
theorem validate_resolvedFor {c : Configuration} {path : Path} (h : ¬SuppliesRoot path c) :
    (c.resolvedFor path).validate = c.validate := by
  unfold resolvedFor
  cases hparent : path.parent? with
  | none => rfl
  | some base =>
    rw [validate_resolveIn]
    apply validate_withRoot
    rw [Path.join_eq_empty_iff]
    refine ⟨And.right, fun hroot => ⟨?_, hroot⟩⟩
    exact Classical.byContradiction fun hbase => h ⟨hroot, base, hparent, hbase⟩

/-- A supplied root is accepted whatever it is. -/
theorem validate_of_suppliesRoot {c : Configuration} {path : Path} (h : SuppliesRoot path c) :
    (c.resolvedFor path).validate = .ok () ↔ c.AcceptableBesidesRoot := by
  obtain ⟨-, base, hparent, hbase⟩ := h
  have hne : (base.join c.root).bytes ≠ [] := fun hnil => hbase (Path.join_eq_empty_iff.1 hnil).1
  have hresolved : (c.resolvedFor path).validate =
      { c with root := base.join c.root }.validate := by
    unfold resolvedFor
    rw [hparent]
    rfl
  rw [hresolved]
  constructor
  · intro hok root hroot
    rw [← hok]
    exact validate_withRoot (by simp [hroot, hne])
  · intro hother
    exact hother _ hne

theorem toPlan_of_refused {c : Configuration} {f : Failure} (h : c.validate = .error f) (d : Disk)
    (processors : Nat) : c.toPlan d processors = .error f := by
  unfold toPlan
  rw [h]
  rfl

end Configuration

namespace CommandLine

/-- The command that verifies with a configuration file and no settings besides. -/
def VerifyCommand.plain (path : Path) : VerifyCommand :=
  ⟨path, none, none, none, none⟩

/-- A command on a refused configuration fails before it touches the disk. -/
theorem runVerify_of_refused (m : Machine) {d : Disk} {path : Path} {c : Configuration}
    {f : Failure} (hload : Configuration.load d path = .ok c) (hc : c.validate = .error f) :
    runVerify m d (.plain path) = failing d f.display := by
  have hconfigured : (VerifyCommand.plain path).configured d = .ok c := by
    unfold VerifyCommand.configured VerifyCommand.plain
    rw [hload]
    rfl
  have hplan := Configuration.toPlan_of_refused hc d m.processors
  simp only [runVerify, hconfigured, hplan, bind, Except.bind]

end CommandLine

/-- A configuration that is refused as it is written is loaded from its file all the same, and
refused for the same reason, unless the directory of the file takes the place of an empty root. What
is refused after loading gives no plan, and the command leaves the disk alone. -/
theorem Configuration.load_keeps_refusal (m : CommandLine.Machine) {d : Disk} {path : Path}
    {text : String} {c : Configuration} {f : Failure} (htext : textAt d path = .ok text)
    (hc : ofText text = .ok c) (hrefused : c.validate = .error f) :
    ∃ loaded, load d path = .ok loaded ∧
      (¬SuppliesRoot path c → loaded.validate = .error f) ∧
      (loaded.validate = .ok () ↔ SuppliesRoot path c ∧ c.AcceptableBesidesRoot) ∧
      ∀ g, loaded.validate = .error g →
        (∀ processors, loaded.toPlan d processors = .error g) ∧
        CommandLine.runVerify m d (.plain path) = CommandLine.failing d g.display := by
  have hload := load_eq_ok htext hc
  have hkept : ¬SuppliesRoot path c → (c.resolvedFor path).validate = .error f := fun h =>
    (validate_resolvedFor h).trans hrefused
  refine ⟨_, hload, hkept, ?_, fun g hg =>
    ⟨toPlan_of_refused hg d, CommandLine.runVerify_of_refused m hload hg⟩⟩
  by_cases h : SuppliesRoot path c
  · rw [validate_of_suppliesRoot h]
    exact ⟨fun hother => ⟨h, hother⟩, And.right⟩
  · rw [hkept h]
    simp [h]

section Examples

/-- Settings with a given root and endpoint, and one file for both workloads. -/
def settingsText (root endpoint : String) : String :=
  "root = \"" ++ root ++ "\"\nendpoint = \"" ++ endpoint ++ "\"\n" ++
    "first_payload = \"a\"\nsecond_payload = \"a\"\n"

/-- A disk with settings in `conf/t` and a workload beside them. -/
def settingsDisk (text : String) : Disk where
  entries :=
    let conf := Text.Utf8.ofString "conf"
    [([conf], .directory),
      ([conf, Text.Utf8.ofString "a"], .file (Text.Utf8.ofString "null") .epoch),
      ([conf, Text.Utf8.ofString "t"], .file (Text.Utf8.ofString text) .epoch)]

theorem settingsDisk_read_workload (text : String) :
    (settingsDisk text).read (.ofString "conf/a") = .ok (Text.Utf8.ofString "null") := by
  have hsteps : Disk.strictSteps (.ofString "conf/a") =
      [Text.Utf8.ofString "conf", Text.Utf8.ofString "a"] := by decide
  rw [Disk.read_eq (by decide)]
  simp +decide [hsteps, Disk.lookup, Disk.entry?, settingsDisk]

theorem settingsDisk_read_settings (text : String) :
    (settingsDisk text).read (.ofString "conf/t") = .ok (Text.Utf8.ofString text) := by
  have hsteps : Disk.strictSteps (.ofString "conf/t") =
      [Text.Utf8.ofString "conf", Text.Utf8.ofString "t"] := by decide
  rw [Disk.read_eq (by decide)]
  simp +decide [hsteps, Disk.lookup, Disk.entry?, settingsDisk]

theorem textAt_settingsDisk {text : String}
    (h : Text.Utf8.toString? (Text.Utf8.ofString text) = some text) :
    Configuration.textAt (settingsDisk text) (.ofString "conf/t") = .ok text := by
  rw [Configuration.textAt, settingsDisk_read_settings]
  simp only [h]

/-- To empty the directory of the settings is to remove them and the workload. -/
theorem settingsDisk_emptyRoot (text : String) :
    Run.emptyRoot {} (settingsDisk text) (.ofString "conf/") =
      ({ entries := [([Text.Utf8.ofString "conf"], .directory)] }, .ok ()) := by
  have hsteps : Disk.steps (.ofString "conf/") = [Text.Utf8.ofString "conf"] := by decide
  have hstrict : Disk.strictSteps (.ofString "conf/") =
      [Text.Utf8.ofString "conf", Path.dot] := by decide
  simp +decide [Run.emptyRoot, Disk.follow, Disk.resolve, Disk.removeTree, Disk.clear,
    Disk.removeDirectory, Disk.lastDots?, Disk.createDirectories, Disk.makeDirectories,
    Disk.makeDirectory, Disk.resolveSteps, hsteps, hstrict, Disk.lookup, Disk.entry?,
    settingsDisk, Disk.erase, Disk.put]

/-- The configuration of such settings. -/
def settingsConfiguration (root endpoint : String) : Configuration where
  root := .ofString root
  endpoint := endpoint
  firstPayload := .ofString "a"
  secondPayload := .ofString "a"

open CacheAudit.Configuration

theorem Configuration.ofSettings?_required (root endpoint : String) :
    ofSettings? [("root", .text root), ("endpoint", .text endpoint), ("first_payload", .text "a"),
      ("second_payload", .text "a")] = some (settingsConfiguration root endpoint) := rfl

/-- A blank endpoint is refused in whatever directory the file lies, and nothing is run. -/
theorem Configuration.load_keeps_blank_endpoint :
    let d := settingsDisk (settingsText "c" " ")
    let c := settingsConfiguration "c" " "
    let f := (Problem.configInvalid "endpoint must not be empty").toFailure
    (textAt d (.ofString "conf/t") = .ok (settingsText "c" " ") ∧
      ofText (settingsText "c" " ") = .ok c ∧ c.validate = .error f) ∧
    ∃ loaded, load d (.ofString "conf/t") = .ok loaded ∧ loaded.validate = .error f ∧
      CommandLine.runVerify ⟨1, "", "", "", .epoch⟩ d (.plain (.ofString "conf/t")) =
        CommandLine.failing d f.display := by
  have htext : textAt (settingsDisk (settingsText "c" " ")) (.ofString "conf/t") =
      .ok (settingsText "c" " ") := textAt_settingsDisk (by decide +kernel)
  have hsettings : Toml.settings? (settingsText "c" " ") = some [("root", .text "c"),
      ("endpoint", .text " "), ("first_payload", .text "a"), ("second_payload", .text "a")] := by
    decide +kernel
  have hc : ofText (settingsText "c" " ") = .ok (settingsConfiguration "c" " ") := by
    rw [ofText, hsettings, Option.bind_some, ofSettings?_required]
  have hf : (settingsConfiguration "c" " ").validate =
      .error (Problem.configInvalid "endpoint must not be empty").toFailure := rfl
  have hroot : ¬SuppliesRoot (.ofString "conf/t") (settingsConfiguration "c" " ") := fun h =>
    absurd h.1 (by decide)
  obtain ⟨loaded, hload, hkept, -, hrefused⟩ :=
    load_keeps_refusal ⟨1, "", "", "", .epoch⟩ htext hc hf
  exact ⟨⟨htext, hc, hf⟩, loaded, hload, hkept hroot, (hrefused _ (hkept hroot)).2⟩

theorem Configuration.isBlankText_host : isBlankText "http://h" = false := by
  decide +kernel

theorem Configuration.acceptableBesidesRoot_settings (root : String) :
    (settingsConfiguration root "http://h").AcceptableBesidesRoot := by
  intro other hother
  have hempty : other.bytes.isEmpty = false := by simpa using hother
  simp only [validate, settingsConfiguration, isBlankText_host, hempty]
  rfl

/-- An empty root is refused as it is written, but a file `conf/t` gives it the directory `conf/`:
there is a plan, and its first step removes the files beside the settings and the settings. -/
theorem Configuration.load_accepts_empty_root :
    let d := settingsDisk (settingsText "" "http://h")
    ∃ c loaded plan, textAt d (.ofString "conf/t") = .ok (settingsText "" "http://h") ∧
      ofText (settingsText "" "http://h") = .ok c ∧
      c.validate = .error (Problem.configInvalid "root must not be empty").toFailure ∧
      load d (.ofString "conf/t") = .ok loaded ∧ loaded.validate = .ok () ∧
      loaded.toPlan d 1 = .ok plan ∧ plan.root = .ofString "conf/" ∧
      Run.emptyRoot {} d plan.root =
        ({ entries := [([Text.Utf8.ofString "conf"], .directory)] }, .ok ()) := by
  have htext : textAt (settingsDisk (settingsText "" "http://h")) (.ofString "conf/t") =
      .ok (settingsText "" "http://h") := textAt_settingsDisk (by decide +kernel)
  have hsettings : Toml.settings? (settingsText "" "http://h") = some [("root", .text ""),
      ("endpoint", .text "http://h"), ("first_payload", .text "a"),
      ("second_payload", .text "a")] := by decide +kernel
  have hc : ofText (settingsText "" "http://h") = .ok (settingsConfiguration "" "http://h") := by
    rw [ofText, hsettings, Option.bind_some, ofSettings?_required]
  have hrefused : (settingsConfiguration "" "http://h").validate =
      .error (Problem.configInvalid "root must not be empty").toFailure := by
    simp only [validate, settingsConfiguration, isBlankText_host]
    rfl
  have hparent : (Path.ofString "conf/t").parent? = some (.ofString "conf") := by decide
  have hsupplies : SuppliesRoot (.ofString "conf/t") (settingsConfiguration "" "http://h") :=
    ⟨rfl, _, hparent, by decide⟩
  have hresolved : (settingsConfiguration "" "http://h").resolvedFor (.ofString "conf/t") =
      (settingsConfiguration "" "http://h").resolveIn (.ofString "conf") := by
    rw [resolvedFor, hparent]
  have hload := load_eq_ok htext hc
  have hvalid := (validate_of_suppliesRoot hsupplies).2 (acceptableBesidesRoot_settings "")
  rw [hresolved] at hload hvalid
  have hroot : (Path.ofString "conf").join (.ofString "") = .ofString "conf/" := by decide
  have hfile : (Path.ofString "conf").join (.ofString "a") = .ofString "conf/a" := by decide
  have hpayload : payload (settingsDisk (settingsText "" "http://h")) (.ofString "conf/a") =
      .ok .null := by
    rw [payload, textAt, settingsDisk_read_workload]
    rfl
  refine ⟨_, _, ⟨.ofString "conf/", .null, .null, "5000", "2024-09-30",
    .ofMillis 5000, .ofMillis 60000, .ofMillis 60000, 1, false⟩,
    htext, hc, hrefused, hload, hvalid, ?_, rfl, settingsDisk_emptyRoot _⟩
  rw [toPlan, hvalid]
  simp only [resolveIn, settingsConfiguration, hroot, hfile, hpayload]
  rfl

end Examples

end CacheAudit
