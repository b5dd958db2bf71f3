import CacheAudit.Capture.Basic

/-!
# What captures rely on in a fingerprinter

A record is filed under the key that was asked for, and its digest is a function of the content that
the path opens. The digests that are in use here have both properties, and fail only on files that
cannot be opened.
-/

namespace CacheAudit

/-- Every record is filed under the key that was asked for. -/
def Fingerprinter.FilesUnderKey (fp : Fingerprinter) : Prop :=
  ∀ d path key r, fp.fingerprint d path key = .ok r → r.path = key

/-- Every record is filed under the key that was asked for, with a digest that is a function of the
content which the path opens. -/
def Fingerprinter.DigestsBy (fp : Fingerprinter) (digest : Bytes → String) : Prop :=
  ∀ d path key r, fp.fingerprint d path key = .ok r → r.path = key ∧
    ∃ content modified, d.open? path = .ok (content, modified) ∧ r.contentHash = digest content

theorem Fingerprinter.DigestsBy.filesUnderKey {fp : Fingerprinter} {digest : Bytes → String}
    (h : fp.DigestsBy digest) : fp.FilesUnderKey :=
  fun d path key r hr => (h d path key r hr).1

namespace Algorithm

/-- The digest that the record of a content carries. -/
def contentHash (a : Algorithm) (content : Bytes) : String :=
  match a.ofReads (reads content) with
  | .ok (digest, _) => digest.hex
  | .error _ => ""

/-- Reads that nothing interrupts bring a digest. -/
theorem absorb_pieces {α : Type} [Inhabited α] [Add α] [AndOp α] [XorOp α] [Complement α]
    (v : Digest.Variant α) (h : Digest.Hasher α) (pieces : List Bytes) :
    ∃ h', absorb v h (pieces.map .piece) = .ok h' := by
  induction pieces generalizing h with
  | nil => exact ⟨h, rfl⟩
  | cons bytes rest ih =>
    rw [List.map_cons, absorb]
    split
    · exact ⟨h, rfl⟩
    · exact ih (h.update v bytes)

theorem exists_ofReads (a : Algorithm) (content : Bytes) :
    ∃ digest size, a.ofReads (reads content) = .ok (digest, size) := by
  cases a with
  | sha256 =>
    obtain ⟨h, hreads⟩ :=
      absorb_pieces Digest.sha256 Digest.sha256.start (Digest.chunks readLimit content)
    exact ⟨_, _, by rw [ofReads, reads, hreads]; rfl⟩
  | sha512 =>
    obtain ⟨h, hreads⟩ :=
      absorb_pieces Digest.sha512 Digest.sha512.start (Digest.chunks readLimit content)
    exact ⟨_, _, by rw [ofReads, reads, hreads]; rfl⟩

variable {a : Algorithm} {d : Disk} {path : Path} {key : String}

/-- A file that can be opened has a record. -/
theorem fingerprint_of_open (a : Algorithm) (key : String) {content : Bytes}
    {modified : Timestamp} (h : d.open? path = .ok (content, modified)) :
    ∃ size, a.fingerprint d path key = .ok ⟨key, a.contentHash content, size, some modified⟩ := by
  obtain ⟨digest, size, hreads⟩ := a.exists_ofReads content
  refine ⟨size, ?_⟩
  simp only [fingerprint, recordAt, contentHash, h, hreads]

/-- A record is filed under the key that was asked for, and has the digest of the content that the
path opens. -/
theorem fingerprint_eq_ok {r : FileRecord} (h : a.fingerprint d path key = .ok r) :
    r.path = key ∧ ∃ content modified, d.open? path = .ok (content, modified) ∧
      r.contentHash = a.contentHash content := by
  cases hopen : d.open? path with
  | error e => simp [fingerprint, hopen] at h
  | ok opened =>
    obtain ⟨content, modified⟩ := opened
    obtain ⟨size, hrecord⟩ := a.fingerprint_of_open key hopen
    cases h.symm.trans hrecord
    exact ⟨rfl, content, modified, rfl, rfl⟩

/-- A file of which no record can be taken is unreadable. -/
theorem fingerprint_eq_error {f : Failure} (h : a.fingerprint d path key = .error f) :
    f.kind = .fileUnreadable := by
  cases hopen : d.open? path with
  | error e =>
    rw [fingerprint, hopen] at h
    cases h
    rfl
  | ok opened =>
    obtain ⟨size, hrecord⟩ := a.fingerprint_of_open key hopen
    cases h.symm.trans hrecord

theorem digestsBy (a : Algorithm) : a.fingerprinter.DigestsBy a.contentHash :=
  fun _ _ _ _ h => fingerprint_eq_ok h

end Algorithm

end CacheAudit
