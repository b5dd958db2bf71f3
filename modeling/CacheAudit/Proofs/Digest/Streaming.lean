import CacheAudit.Proofs.Capture.Fingerprints

/-!
# Digests of contents that arrive in pieces

A digest under way keeps the registers as the whole blocks seen so far have left them, and the bytes
that do not fill a block yet. What has been seen determines both, so updating with one piece after
another is updating with all of them at once. Hence the record of a file depends neither on the
pieces in which its content is read nor on interruptions between them. A read that fails leaves no
record, whatever was read before.
-/

namespace CacheAudit

namespace Digest

/-! ### Pieces of one size -/

section Chunks

variable {size : Nat} {bytes rest : Bytes}

theorem chunksOf_congr (hsize : 0 < size) {fuel fuel' : Nat} (h : bytes.length ≤ fuel)
    (h' : bytes.length ≤ fuel') : chunksOf size bytes fuel = chunksOf size bytes fuel' := by
  induction fuel generalizing bytes fuel' with
  | zero =>
    have hnil : bytes = [] := List.length_eq_zero_iff.1 (by omega)
    subst hnil
    cases fuel' <;> rfl
  | succ fuel ih =>
    cases fuel' with
    | zero =>
      have hnil : bytes = [] := List.length_eq_zero_iff.1 (by omega)
      subst hnil
      rfl
    | succ fuel' =>
      have hrest :
          chunksOf size (bytes.drop size) fuel = chunksOf size (bytes.drop size) fuel' := by
        apply ih <;> (rw [List.length_drop]; omega)
      rw [chunksOf, chunksOf, hrest]

theorem chunks_of_ne_nil (hsize : 0 < size) (h : bytes ≠ []) :
    chunks size bytes = bytes.take size :: chunks size (bytes.drop size) := by
  have hlength : 0 < bytes.length := List.length_pos_iff.2 h
  obtain ⟨n, hn⟩ : ∃ n, bytes.length = n + 1 := ⟨bytes.length - 1, by omega⟩
  rw [chunks, hn, chunksOf, if_neg (by simpa using h), chunks]
  congr 1
  apply chunksOf_congr hsize
  · rw [List.length_drop]
    omega
  · exact Nat.le_refl _

/-- Whole pieces are cut off a byte string whatever follows them. -/
theorem chunks_append (hsize : 0 < size) (h : size ∣ bytes.length) :
    chunks size (bytes ++ rest) = chunks size bytes ++ chunks size rest := by
  obtain ⟨n, hn⟩ := h
  induction n generalizing bytes with
  | zero =>
    have hnil : bytes = [] := List.length_eq_zero_iff.1 (by omega)
    subst hnil
    rfl
  | succ n ih =>
    rw [Nat.mul_succ] at hn
    have hbytes : bytes ≠ [] := List.length_pos_iff.1 (by omega)
    have hrest : (bytes.drop size).length = size * n := by
      rw [List.length_drop]
      omega
    rw [chunks_of_ne_nil hsize hbytes, chunks_of_ne_nil hsize (by simp [hbytes]),
      List.take_append_of_le_length (by omega), List.drop_append_of_le_length (by omega), ih hrest]
    rfl

end Chunks

/-! ### Digests under way -/

section Hashers

variable {α : Type} [Inhabited α] [Add α] [AndOp α] [XorOp α] [Complement α]
variable {v : Variant α} {hasher hasher' : Hasher α} {seen : Bytes}

/-- A digest under way has seen some bytes: their whole blocks have been stirred into the registers,
and what is left of them is less than a block and waits. -/
structure Hasher.HasSeen (v : Variant α) (hasher : Hasher α) (seen : Bytes) : Prop where
  length_eq : hasher.length = seen.length
  pending_lt : hasher.pending.length < v.blockBytes
  stirred : ∃ whole, seen = whole ++ hasher.pending ∧ v.blockBytes ∣ whole.length ∧
    hasher.registers = (chunks v.blockBytes whole).foldl v.compress v.initial

theorem hasSeen_start (hv : 0 < v.blockBytes) : v.start.HasSeen v [] where
  length_eq := rfl
  pending_lt := hv
  stirred := ⟨[], rfl, Nat.dvd_zero _, rfl⟩

/-- The whole blocks of a byte string are known by its length. -/
theorem length_of_whole {block : Nat} {whole pending : Bytes} (hwhole : block ∣ whole.length)
    (hpending : pending.length < block) :
    whole.length = (whole ++ pending).length / block * block := by
  obtain ⟨n, hn⟩ := hwhole
  rw [List.length_append, hn, Nat.mul_add_div (by omega), Nat.div_eq_of_lt hpending, Nat.add_zero,
    Nat.mul_comm]

/-- What has been seen determines a digest under way. -/
theorem Hasher.HasSeen.unique (h : hasher.HasSeen v seen) (h' : hasher'.HasSeen v seen) :
    hasher = hasher' := by
  obtain ⟨registers, pending, length⟩ := hasher
  obtain ⟨registers', pending', length'⟩ := hasher'
  obtain ⟨hlength, hlt, whole, hseen, hwhole, hregisters⟩ := h
  obtain ⟨hlength', hlt', whole', hseen', hwhole', hregisters'⟩ := h'
  dsimp only at hlength hlt hseen hregisters hlength' hlt' hseen' hregisters'
  have hsame : whole.length = whole'.length := by
    rw [length_of_whole hwhole hlt, length_of_whole hwhole' hlt', ← hseen, ← hseen']
  obtain ⟨rfl, rfl⟩ := List.append_inj (hseen.symm.trans hseen') hsame
  rw [hregisters, hregisters', hlength, hlength']

theorem Hasher.HasSeen.update (h : hasher.HasSeen v seen) (bytes : Bytes) :
    (hasher.update v bytes).HasSeen v (seen ++ bytes) := by
  obtain ⟨whole, hseen, hwhole, hregisters⟩ := h.stirred
  have hv : 0 < v.blockBytes := Nat.zero_lt_of_lt h.pending_lt
  let all := hasher.pending ++ bytes
  let cut := all.length / v.blockBytes * v.blockBytes
  have hcut : (all.take cut).length = cut :=
    List.length_take_of_le (Nat.div_mul_le_self _ _)
  refine ⟨?_, ?_, whole ++ all.take cut, ?_, ?_, ?_⟩
  · show hasher.length + bytes.length = _
    rw [List.length_append, h.length_eq]
  · show (all.drop cut).length < v.blockBytes
    have hdivided := Nat.div_add_mod' all.length v.blockBytes
    have hrest := Nat.mod_lt all.length hv
    rw [List.length_drop]
    omega
  · show seen ++ bytes = whole ++ all.take cut ++ all.drop cut
    rw [List.append_assoc, List.take_append_drop, hseen, List.append_assoc]
  · rw [List.length_append, hcut]
    exact Nat.dvd_add hwhole (Nat.dvd_mul_left _ _)
  · show (chunks v.blockBytes (all.take cut)).foldl v.compress hasher.registers = _
    rw [chunks_append hv hwhole, List.foldl_append, hregisters]

/-- Updating with nothing changes nothing. -/
theorem Hasher.HasSeen.update_nil (h : hasher.HasSeen v seen) : hasher.update v [] = hasher := by
  have hupdated := h.update []
  rw [List.append_nil] at hupdated
  exact hupdated.unique h

/-- Updating with two pieces one after the other is updating with them joined. -/
theorem Hasher.HasSeen.update_update (h : hasher.HasSeen v seen) (bytes more : Bytes) :
    (hasher.update v bytes).update v more = hasher.update v (bytes ++ more) := by
  have htwice := (h.update bytes).update more
  rw [List.append_assoc] at htwice
  exact htwice.unique (h.update (bytes ++ more))

/-- A digest under way comes to the digest of what it has seen. -/
theorem Hasher.HasSeen.finish (h : hasher.HasSeen v seen) : hasher.finish v = v.digest seen := by
  obtain ⟨whole, hseen, hwhole, hregisters⟩ := h.stirred
  have hv : 0 < v.blockBytes := Nat.zero_lt_of_lt h.pending_lt
  rw [Hasher.finish, Variant.digest, h.length_eq, hregisters, ← List.foldl_append,
    ← chunks_append hv hwhole, ← List.append_assoc, ← hseen]

end Hashers

end Digest

/-! ### Files -/

namespace Algorithm

/-- The reads of a file bring a content: pieces that are not empty and not longer than one read,
with interruptions anywhere between them. -/
inductive Delivers : List Delivery → Bytes → Prop
  | done : Delivers [] []
  | piece {bytes content : Bytes} {reads : List Delivery} (hsome : bytes ≠ [])
    (hlimit : bytes.length ≤ readLimit) (hrest : Delivers reads content) :
    Delivers (.piece bytes :: reads) (bytes ++ content)
  | interrupted {content : Bytes} {reads : List Delivery} (hrest : Delivers reads content) :
    Delivers (.interrupted :: reads) content

/-- The reads that nothing interrupts bring the content. -/
theorem delivers_reads (content : Bytes) : Delivers (reads content) content := by
  have hlimit : 0 < readLimit := by decide
  induction hn : content.length using Nat.strongRecOn generalizing content with
  | ind n ih =>
    by_cases hnil : content = []
    · subst hnil
      exact .done
    · have hlength : 0 < content.length := List.length_pos_iff.2 hnil
      have hrest : Delivers (reads (content.drop readLimit)) (content.drop readLimit) := by
        refine ih _ ?_ _ rfl
        rw [List.length_drop]
        omega
      have hpiece : Delivers (.piece (content.take readLimit) ::
          reads (content.drop readLimit))
          (content.take readLimit ++ content.drop readLimit) := by
        refine .piece ?_ ?_ hrest
        · rw [Ne, List.take_eq_nil_iff]
          rintro (hzero | hempty)
          · omega
          · exact hnil hempty
        · rw [List.length_take]
          omega
      rw [List.take_append_drop] at hpiece
      rwa [reads, Digest.chunks_of_ne_nil hlimit hnil]

/-- What is left of the reads of a file at its end: none, or one that brings nothing, after which no
other is made. -/
def AtEnd (reads : List Delivery) : Prop :=
  reads = [] ∨ ∃ later, reads = .piece [] :: later

section Absorbing

variable {content : Bytes} {reads : List Delivery}
variable {α : Type} [Inhabited α] [Add α] [AndOp α] [XorOp α] [Complement α]
variable {v : Digest.Variant α} {hasher : Digest.Hasher α} {seen : Bytes}

/-- Reading a content piece by piece is reading it at once, whatever comes after. -/
theorem absorb_of_delivers (h : hasher.HasSeen v seen) (hreads : Delivers reads content)
    (rest : List Delivery) :
    absorb v hasher (reads ++ rest) = absorb v (hasher.update v content) rest := by
  induction hreads generalizing hasher seen with
  | done => rw [List.nil_append, h.update_nil]
  | piece hsome _ _ ih =>
    rw [List.cons_append, absorb, if_neg (by simpa using hsome), ih (h.update _), h.update_update]
  | interrupted _ ih => exact ih h

theorem absorb_of_atEnd (h : AtEnd reads) : absorb v hasher reads = .ok hasher := by
  obtain rfl | ⟨later, rfl⟩ := h
  · rfl
  · rfl

end Absorbing

variable {a : Algorithm} {content : Bytes} {reads rest : List Delivery}

theorem ofReads_of_delivers (h : Delivers reads content) (hend : AtEnd rest) :
    a.ofReads (reads ++ rest) = .ok (a.digest content, content.length) := by
  cases a with
  | sha256 =>
    have hstart : Digest.sha256.start.HasSeen Digest.sha256 [] := Digest.hasSeen_start (by decide)
    have hcontent := hstart.update content
    rw [ofReads, absorb_of_delivers hstart h, absorb_of_atEnd hend, Except.map, hcontent.finish,
      hcontent.length_eq]
    rfl
  | sha512 =>
    have hstart : Digest.sha512.start.HasSeen Digest.sha512 [] := Digest.hasSeen_start (by decide)
    have hcontent := hstart.update content
    rw [ofReads, absorb_of_delivers hstart h, absorb_of_atEnd hend, Except.map, hcontent.finish,
      hcontent.length_eq]
    rfl

example : (sha256.ofReads [.piece [97], .interrupted, .piece [98, 99]]).toOption.map
    (fun (digest, size) => (digest.hex, size)) =
      some ("ba7816bf8f01cfea414140de5dae2223b00361a396177a9cb410ff61f20015ad", 3) := by
  decide +kernel

theorem ofReads_of_failed (h : Delivers reads content) (e : SystemError) (later : List Delivery) :
    a.ofReads (reads ++ .failed e :: later) = .error e := by
  cases a with
  | sha256 =>
    rw [ofReads, absorb_of_delivers (Digest.hasSeen_start (by decide)) h]
    rfl
  | sha512 =>
    rw [ofReads, absorb_of_delivers (Digest.hasSeen_start (by decide)) h]
    rfl

theorem noted_eq_ok {modified : Option SystemTime} {time : Option Timestamp}
    (h : modified.map Timestamp.ofSystem? = time.map some) : noted modified = .ok time := by
  cases modified with
  | none =>
    cases time with
    | none => rfl
    | some time => cases h
  | some t =>
    cases time with
    | none => cases h
    | some time => rw [noted, Option.some.inj h]

theorem noted_eq_crashed {modified : Option SystemTime}
    (h : modified.map Timestamp.ofSystem? = some none) : noted modified = .error .crashed := by
  cases modified with
  | none => cases h
  | some t => rw [noted, Option.some.inj h]

end Algorithm

end CacheAudit
