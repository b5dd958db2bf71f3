import CacheAudit.Digest.Sha2
import CacheAudit.Disk.Basic
import CacheAudit.Halt
import CacheAudit.Problem
import CacheAudit.Snapshot.Basic

/-!
# Fingerprints of files

A fingerprint is the digest and the size of a file's content, taken as the content is read piece
by piece up to a read that brings nothing. A read that was interrupted is repeated; any other
failure makes the file unreadable. The time at which the file was modified is noted where the system
tells it; one outside the calendar crashes.
-/

namespace CacheAudit

/-- The digests that a fingerprint can use. -/
inductive Algorithm
  | sha256
  | sha512
deriving DecidableEq, Repr

/-- What one read of a file brings: a piece of the content, which is empty at the end of the file,
an interruption, or a failure. -/
inductive Delivery
  | piece (bytes : Bytes)
  | interrupted
  | failed (e : SystemError)

/-- A file that was opened: when it was modified, where the system tells that, and what its reads
bring. -/
structure OpenFile where
  modified : Option SystemTime
  reads : List Delivery

namespace Algorithm

/-- The name of an algorithm. -/
def name : Algorithm → String
  | sha256 => "sha256"
  | sha512 => "sha512"

/-- The algorithm with a given name. -/
def ofName? (s : String) : Option Algorithm :=
  [sha256, sha512].find? fun a => a.name == s

/-- The digest of a content. -/
def digest (a : Algorithm) (content : Bytes) : Bytes :=
  match a with
  | sha256 => Digest.sha256.digest content
  | sha512 => Digest.sha512.digest content

/-- A digest after the reads of a file, up to its end or the first failure. -/
def absorb {α : Type} [Inhabited α] [Add α] [AndOp α] [XorOp α] [Complement α]
    (v : Digest.Variant α) (h : Digest.Hasher α) :
    List Delivery → Except SystemError (Digest.Hasher α)
  | [] => .ok h
  | .piece bytes :: rest =>
    if bytes.isEmpty then .ok h else absorb v (h.update v bytes) rest
  | .interrupted :: rest => absorb v h rest
  | .failed e :: _ => .error e

/-- The digest and the size of a file as its reads bring them. -/
def ofReads (a : Algorithm) (reads : List Delivery) : Except SystemError (Bytes × Nat) :=
  match a with
  | sha256 =>
    (absorb Digest.sha256 Digest.sha256.start reads).map fun h =>
      (h.finish Digest.sha256, h.length)
  | sha512 =>
    (absorb Digest.sha512 Digest.sha512.start reads).map fun h =>
      (h.finish Digest.sha512, h.length)

/-- The greatest number of bytes that one read brings. -/
def readLimit : Nat := 65536

/-- The reads of a content when nothing interrupts them. -/
def reads (content : Bytes) : List Delivery :=
  (Digest.chunks readLimit content).map .piece

/-- The failure of a file that cannot be read. -/
def unreadable (path : Path) (e : SystemError) : Failure :=
  (Problem.fileUnreadable path.display e.message).toFailure

/-- The record of a file from its reads and the time that is noted. -/
def recordAt (a : Algorithm) (path : Path) (key : String) (modified : Option Timestamp)
    (reads : List Delivery) : Except Failure FileRecord :=
  match a.ofReads reads with
  | .ok (digest, size) => .ok ⟨key, digest.hex, size, modified⟩
  | .error e => .error (unreadable path e)

/-- The time that is noted of a file. -/
def noted : Option SystemTime → Except (Halt Failure) (Option Timestamp)
  | none => .ok none
  | some t =>
    match Timestamp.ofSystem? t with
    | some moment => .ok (some moment)
    | none => .error .crashed

/-- The record of a file as the system gives access to it, filed under a key. -/
def record (a : Algorithm) (path : Path) (key : String) :
    Except SystemError OpenFile → Except (Halt Failure) FileRecord
  | .error e => .error (.failed (unreadable path e))
  | .ok file => do
    let r ← Halt.lift (a.recordAt path key none file.reads)
    return { r with modifiedAt := ← noted file.modified }

/-- The record of the file at a path, filed under a key. -/
def fingerprint (a : Algorithm) (d : Disk) (path : Path) (key : String) :
    Except Failure FileRecord :=
  match d.open? path with
  | .ok (content, modified) => a.recordAt path key (some modified) (reads content)
  | .error e => .error (unreadable path e)

end Algorithm

end CacheAudit
