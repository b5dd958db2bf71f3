import CacheAudit.Storage.SnapshotFile
import CacheAudit.Proofs.Json.Records
import CacheAudit.Proofs.Timestamp

/-!
# Snapshots and their documents

The document of a snapshot describes that snapshot again, whatever texts and times it holds, as
long as its sizes are those of files, of 64 bits. Reading it back therefore answers the snapshot if
its entries are sound, and otherwise what is wrong with the first entry that is not.
-/

namespace CacheAudit

open Json (Reads isExact)

theorem reads_moment (t : Timestamp) : Reads Json.Raw.moment? (.text t.text) t := by
  have htext : (Json.written (.text t.text)).text? = some t.text := Json.reads_text t.text
  rw [Reads, Json.Raw.moment?, htext, Option.bind_some, Timestamp.ofString?_text]

namespace FileRecord

theorem isExact_toJson (r : FileRecord) : isExact r.toJson = true := by
  cases h : r.modifiedAt <;> simp [toJson, h, isExact, Json.fieldsExact, Json.nat, Json.optional]

/-- The document of a record describes the record. -/
theorem reads {r : FileRecord} (h : r.size < 2 ^ 64) : Reads ofRaw? r.toJson r := by
  have hfields := Json.record?_written
    [("path", .text r.path), ("content_hash", .text r.contentHash), ("size", .nat r.size),
      ("modified_at", .optional (fun t => .text (Timestamp.text t)) r.modifiedAt)]
    ["path", "content_hash", "size", "modified_at"] 0 rfl (by decide)
  have hmodified := Json.absent?_written (fun t => .text (Timestamp.text t)) r.modifiedAt
    (fun t => by simp [Json.written]) reads_moment
  rw [Reads, ofRaw?, toJson, hfields]
  simp only [List.map_cons, List.map_nil, Json.required?_written (Json.reads_text _),
    Json.required?_written (Json.reads_nat h), hmodified]
  rfl

end FileRecord

namespace Snapshot

/-- Whether every size is one that a file can have. -/
def Sized (s : Snapshot) : Prop :=
  ∀ e ∈ s.entries.entries, e.2.size < 2 ^ 64

instance (s : Snapshot) : Decidable s.Sized :=
  inferInstanceAs (Decidable (∀ e ∈ s.entries.entries, e.2.size < 2 ^ 64))

theorem isExact_toJson (s : Snapshot) : isExact s.toJson = true := by
  have hentries : Json.fieldsExact (s.entries.entries.map fun e => (e.1, e.2.toJson)) = true := by
    rw [Json.fieldsExact_iff]
    intro f hf
    obtain ⟨e, -, rfl⟩ := List.mem_map.1 hf
    exact e.2.isExact_toJson
  have hunreadable : Json.itemsExact (s.unreadable.toList.map .text) = true := by
    rw [Json.itemsExact_iff]
    intro v hv
    obtain ⟨path, -, rfl⟩ := List.mem_map.1 hv
    rfl
  simp [toJson, isExact, Json.fieldsExact, Json.texts, hentries, hunreadable]

/-- The document of a snapshot describes the snapshot. -/
theorem reads {s : Snapshot} (h : s.Sized) : Reads ofRaw? s.toJson s := by
  have hfields := Json.record?_written
    [("root", .text s.root), ("captured_at", .text s.capturedAt.text),
      ("algorithm", .text s.algorithm),
      ("entries", .object (s.entries.entries.map fun e => (e.1, e.2.toJson))),
      ("unreadable", .texts s.unreadable.toList)]
    ["root", "captured_at", "algorithm", "entries", "unreadable"] 1 rfl (by decide)
  have hentries : Reads (Json.Raw.map? FileRecord.ofRaw?)
      (.object (s.entries.entries.map fun e => (e.1, e.2.toJson))) s.entries :=
    Json.reads_map fun key r hr => FileRecord.reads (h (key, r) (StringMap.get?_eq_some_iff.1 hr))
  rw [Reads, ofRaw?, toJson, hfields]
  simp only [List.map_cons, List.map_nil, Json.required?_written (Json.reads_text _),
    Json.required?_written (reads_moment _), Json.required?_written hentries,
    Json.given?_written (Json.reads_set _)]
  rfl

/-! ### Sound entries -/

/-- Whether an entry is filed under the path it records and has a digest. -/
def IsSoundEntry (key : String) (r : FileRecord) : Prop :=
  key = r.path ∧ r.contentHash ≠ ""

/-- The wording of what is wrong with an entry that is not sound. -/
def complaint (key : String) (r : FileRecord) : String :=
  if key ≠ r.path then "entry keyed '" ++ key ++ "' records path '" ++ r.path ++ "'"
  else "entry has an empty content hash"

/-- An entry that is not sound, while all entries with lesser keys are. -/
structure FirstUnsound (s : Snapshot) (key : String) (r : FileRecord) : Prop where
  recorded : s.get? key = some r
  unsound : ¬IsSoundEntry key r
  least : ∀ key' r', key' < key → s.get? key' = some r' → IsSoundEntry key' r'

theorem defect?_eq_none {key : String} {r : FileRecord} (h : IsSoundEntry key r) :
    defect? key r = none := by
  simp [defect?, h.1.symm, h.2]

theorem defect?_eq_some {key : String} {r : FileRecord} (h : ¬IsSoundEntry key r) :
    defect? key r = some { kind := .invalidSnapshot, op := some "check_consistency"
                           path := some key, message := complaint key r } := by
  by_cases hkey : key = r.path
  · have hempty : r.contentHash = "" := by
      apply Classical.byContradiction
      exact fun hne => h ⟨hkey, hne⟩
    simp [defect?, complaint, ← hkey, hempty]
  · simp [defect?, complaint, hkey]

theorem isSoundEntry_of_defect? {key : String} {r : FileRecord} (h : defect? key r = none) :
    IsSoundEntry key r := by
  apply Classical.byContradiction
  intro hunsound
  rw [defect?_eq_some hunsound] at h
  cases h

/-- A check that refuses a snapshot names its first entry that is not sound. -/
theorem exists_firstUnsound {s : Snapshot} {f : Failure} (h : s.check = .error f) :
    ∃ key r, s.FirstUnsound key r ∧
      f = { kind := .invalidSnapshot, op := some "check_consistency", path := some key
            message := complaint key r } := by
  have hfound : (s.entries.entries.findSome? fun e => defect? e.1 e.2) = some f := by
    unfold check at h
    split at h
    · rename_i hfound
      cases h
      exact hfound
    · cases h
  obtain ⟨before, ⟨key, r⟩, after, hentries, hdefect, hbefore⟩ :=
    List.findSome?_eq_some_iff.1 hfound
  have hunsound : ¬IsSoundEntry key r := by
    intro hsound
    rw [defect?_eq_none hsound] at hdefect
    cases hdefect
  rw [defect?_eq_some hunsound] at hdefect
  refine ⟨key, r, ⟨?_, hunsound, ?_⟩, (Option.some.inj hdefect).symm⟩
  · refine StringMap.get?_eq_some_iff.2 ?_
    rw [hentries]
    exact List.mem_append_right _ List.mem_cons_self
  · intro key' r' hlt hget
    have hmem : (key', r') ∈ before ++ (key, r) :: after :=
      hentries ▸ StringMap.get?_eq_some_iff.1 hget
    have hascending := s.entries.ascending
    rw [hentries, List.map_append, List.map_cons, List.pairwise_append, List.pairwise_cons]
      at hascending
    rcases List.mem_append.1 hmem with hmem | hmem
    · exact isSoundEntry_of_defect? (hbefore _ hmem)
    · -- the keys from the entry on are not below its own
      rcases List.mem_cons.1 hmem with heq | hmem
      · cases heq
        exact absurd hlt (String.lt_irrefl key)
      · have hgt : key < key' := hascending.2.1.1 key' (List.mem_map_of_mem hmem)
        exact absurd (String.lt_trans hlt hgt) (String.lt_irrefl key')

/-! ### Reading a document back -/

/-- The content of a snapshot file is read as the snapshot, which is then checked. -/
theorem ofContent_fileContent {s : Snapshot} (h : s.Sized) (path : Path) :
    ofContent path s.fileContent = match s.check with
      | .ok () => .ok s
      | .error f => .error { f with path := some path.display } := by
  have hparse : Json.parse? (Text.Utf8.lenient s.fileContent) = some (Json.written s.toJson) := by
    rw [fileContent, Text.Utf8.ofString, Text.Utf8.lenient_encode]
    exact Json.ofString?_pretty s.isExact_toJson
  have hread : ofRaw? (Json.written s.toJson) = some s := reads h
  cases hcheck : s.check with
  | ok _ => simp only [ofContent, hparse, Option.bind_some, hread, hcheck]
  | error f => simp only [ofContent, hparse, Option.bind_some, hread, hcheck]

end Snapshot

end CacheAudit
