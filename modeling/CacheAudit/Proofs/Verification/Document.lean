import CacheAudit.Verification.Outcome
import CacheAudit.Dataset.Keyed
import CacheAudit.Proofs.Snapshot.Document

/-!
# Documents of outcomes, differences and datasets

An outcome, a difference and a keyed dataset are read back from their documents, whatever texts,
paths and times they hold. The document of an outcome is an object with the verdict before the
fields of its variant. A reader first gives every part of it a value, then takes the verdict out
and reads the other fields as the verdict says.
-/

namespace CacheAudit

open Json (Reads isExact written writtenFields)

namespace Json

variable {α : Type}

/-- A reader answers with `a` to both texts of a document, the one without white space and the one
with its parts on lines of their own. -/
structure ReadsBack (read : Raw → Option α) (v : Json) (a : α) : Prop where
  compact : (ofString? v.compact).bind read = some a
  pretty : (ofString? v.pretty).bind read = some a

theorem Reads.back {read : Raw → Option α} {v : Json} {a : α} (h : Reads read v a)
    (hexact : isExact v = true) : ReadsBack read v a where
  compact := by
    rw [ofString?_compact hexact, Option.bind_some]
    exact h
  pretty := by
    rw [ofString?_pretty hexact, Option.bind_some]
    exact h

theorem isExact_texts (xs : List String) : isExact (.texts xs) = true := by
  rw [texts, isExact, itemsExact_iff]
  intro v hv
  obtain ⟨x, -, rfl⟩ := List.mem_map.1 hv
  rfl

theorem reads_bool (b : Bool) : Reads Raw.bool? (.bool b) b := by
  rw [Reads, written, Raw.bool?]

theorem reads_texts (xs : List String) : Reads (Raw.list? Raw.text?) (.texts xs) xs :=
  reads_list fun x _ => reads_text x

/-! ### Documents of any form -/

/-- A document with at most `n` containers around each value, in which every part has a value for
a reader that takes documents of any form. -/
structure IsFree (n : Nat) (v : Json) : Prop where
  depth_le : (written v).depth ≤ n
  isSome_value? : (written v).value?.isSome

namespace IsFree

variable {n : Nat} {v : Json}

theorem null : IsFree n .null :=
  ⟨by simp [written, Raw.depth], by simp [written, Raw.value?]⟩

theorem bool (b : Bool) : IsFree n (.bool b) :=
  ⟨by simp [written, Raw.depth], by simp [written, Raw.value?]⟩

theorem text (s : String) : IsFree n (.text s) :=
  ⟨by simp [written, Raw.depth], by simp [written, Raw.value?, Piece.text?_ofText]⟩

/-- An integer of 64 bits has a value; a greater one might still be read as a double. -/
theorem nat {k : Nat} (h : k < 2 ^ 64) : IsFree n (.nat k) := by
  have hinteger : (Numeral.ofInt k).integer? = some (k : Int) := by
    have hk : k < Nat.pow 2 64 := h
    simp [Numeral.integer?, Numeral.ofInt, Numeral.isInteger, Numeral.magnitude,
      Decimal.digitsValue_digitsOf, hk]
  exact ⟨by simp [Json.nat, written, Raw.depth], by simp [Json.nat, written, Raw.value?, hinteger]⟩

theorem array {vs : List Json} (h : ∀ v ∈ vs, IsFree n v) : IsFree (n + 1) (.array vs) := by
  have hitems : Raw.depthItems (writtenItems vs) ≤ n ∧
      (Raw.valueItems? (writtenItems vs)).isSome := by
    induction vs with
    | nil => simp [writtenItems, Raw.depthItems, Raw.valueItems?]
    | cons v vs ih =>
      have hv := h v List.mem_cons_self
      obtain ⟨hdepth, hvalue⟩ := ih fun w hw => h w (List.mem_cons_of_mem v hw)
      obtain ⟨a, ha⟩ := Option.isSome_iff_exists.1 hv.isSome_value?
      obtain ⟨as, has⟩ := Option.isSome_iff_exists.1 hvalue
      constructor
      · rw [writtenItems, Raw.depthItems]
        exact max_le hv.depth_le hdepth
      · simp only [writtenItems, Raw.valueItems?, ha, has, Option.isSome_some]
  constructor
  · rw [written, Raw.depth]
    omega
  · rw [written, Raw.value?, Option.isSome_map]
    exact hitems.2

theorem object {fs : List (String × Json)} (h : ∀ f ∈ fs, IsFree n f.2) :
    IsFree (n + 1) (.object fs) := by
  have hfields : Raw.depthFields (writtenFields fs) ≤ n ∧
      (Raw.valueFields? (writtenFields fs)).isSome := by
    induction fs with
    | nil => simp [writtenFields, Raw.depthFields, Raw.valueFields?]
    | cons f fs ih =>
      have hf := h f List.mem_cons_self
      obtain ⟨hdepth, hvalue⟩ := ih fun g hg => h g (List.mem_cons_of_mem f hg)
      obtain ⟨a, ha⟩ := Option.isSome_iff_exists.1 hf.isSome_value?
      obtain ⟨as, has⟩ := Option.isSome_iff_exists.1 hvalue
      constructor
      · rw [writtenFields, Raw.depthFields]
        exact max_le hf.depth_le hdepth
      · simp only [writtenFields, Raw.valueFields?, Piece.text?_ofText, ha, has,
          Option.isSome_some]
  constructor
  · rw [written, Raw.depth]
    omega
  · rw [written, Raw.value?, Option.isSome_map]
    exact hfields.2

theorem texts (xs : List String) : IsFree (n + 1) (.texts xs) := by
  apply array
  intro v hv
  obtain ⟨x, -, rfl⟩ := List.mem_map.1 hv
  exact text x

theorem isSome_freeForm? (h : IsFree n v) (hn : n ≤ 127) : (written v).freeForm?.isSome := by
  rw [Raw.freeForm?, if_pos (h.depth_le.trans hn)]
  exact h.isSome_value?

end IsFree

end Json

/-! ### Differences -/

namespace SnapshotDiff

theorem isExact_toJson (d : SnapshotDiff) : isExact d.toJson = true := by
  simp [toJson, isExact, Json.fieldsExact, Json.isExact_texts, Json.nat]

/-- The document of a difference describes the difference, whose count is one of 64 bits. -/
theorem reads {d : SnapshotDiff} (h : d.unchanged < 2 ^ 64) : Reads ofRaw? d.toJson d := by
  have hfields := Json.record?_written
    [("changed", .texts d.changed), ("added", .texts d.added), ("removed", .texts d.removed),
      ("unchanged", .nat d.unchanged)]
    ["changed", "added", "removed", "unchanged"] 0 rfl (by decide)
  rw [Reads, ofRaw?, toJson, hfields]
  simp only [List.map_cons, List.map_nil, Json.required?_written (Json.reads_texts _),
    Json.required?_written (Json.reads_nat h)]
  rfl

theorem isFree_toJson {d : SnapshotDiff} (h : d.unchanged < 2 ^ 64) : Json.IsFree 2 d.toJson := by
  apply Json.IsFree.object
  simp only [List.forall_mem_cons, List.not_mem_nil, false_implies, implies_true, and_true]
  exact ⟨.texts _, .texts _, .texts _, .nat h⟩

end SnapshotDiff

/-! ### Keyed datasets -/

namespace KeyedDataset

theorem isExact_toJson (d : KeyedDataset) : isExact d.toJson = true := by
  have hentries : Json.fieldsExact (d.entries.entries.map fun e => (e.1, .texts e.2.toList)) =
      true := by
    rw [Json.fieldsExact_iff]
    intro f hf
    obtain ⟨e, -, rfl⟩ := List.mem_map.1 hf
    exact Json.isExact_texts e.2.toList
  simp [toJson, isExact, Json.fieldsExact, hentries]

/-- The document of a dataset describes the dataset. -/
theorem reads (d : KeyedDataset) : Reads ofRaw? d.toJson d := by
  have hfields := Json.record?_written
    [("label", .text d.label),
      ("entries", .object (d.entries.entries.map fun e => (e.1, .texts e.2.toList)))]
    ["label", "entries"] 0 rfl (by decide)
  have hentries : Reads (Json.Raw.map? Json.Raw.set?)
      (.object (d.entries.entries.map fun e => (e.1, .texts e.2.toList))) d.entries :=
    Json.reads_map fun _ members _ => Json.reads_set members
  rw [Reads, ofRaw?, toJson, hfields]
  simp only [List.map_cons, List.map_nil, Json.required?_written (Json.reads_text _),
    Json.required?_written hentries]
  rfl

end KeyedDataset

/-! ### Outcomes -/

theorem Phase.reads (p : Phase) : Reads (Phase.ofRaw? Phase.isNullOrEmpty) p.toJson p := by
  have htext : (written (.text p.name)).text? = some p.name := Json.reads_text p.name
  rw [Reads, Phase.toJson]
  simp only [written] at htext ⊢
  rw [Phase.ofRaw?, htext, Option.bind_some, Phase.ofName?_name]
  simp

namespace VerificationReport

/-- The fields of a report describe the report. -/
theorem reads {r : VerificationReport} (h : r.diff.unchanged < 2 ^ 64) :
    Reads ofRaw? (.object r.fields) r := by
  have hfields := Json.record?_written r.fields
    ["run_id", "root", "first_request_id", "second_request_id", "started_at", "finished_at",
      "before_files", "after_files", "diff", "warnings", "inconclusive"] 0 rfl (by decide)
  rw [Reads, ofRaw?, hfields, fields]
  simp only [List.map_cons, List.map_nil, Json.required?_written (Json.reads_text _),
    Json.required?_written (reads_moment _), Json.required?_written (Json.reads_texts _),
    Json.required?_written (SnapshotDiff.reads h), Json.required?_written (Json.reads_bool _)]
  rfl

theorem isExact_fields (r : VerificationReport) : Json.fieldsExact r.fields = true := by
  simp [fields, isExact, Json.fieldsExact, Json.isExact_texts, SnapshotDiff.isExact_toJson]

theorem isFree_fields {r : VerificationReport} (h : r.diff.unchanged < 2 ^ 64) :
    ∀ f ∈ r.fields, Json.IsFree 2 f.2 := by
  simp only [fields, List.forall_mem_cons, List.not_mem_nil, false_implies, implies_true, and_true]
  exact ⟨.text _, .text _, .text _, .text _, .text _, .text _, .texts _, .texts _,
    SnapshotDiff.isFree_toJson h, .texts _, .bool _⟩

end VerificationReport

namespace AbortedRun

/-- The fields of an aborted run describe the run. -/
theorem reads (a : AbortedRun) : Reads ofRaw? (.object a.fields) a := by
  have hfields := Json.record?_written a.fields
    ["run_id", "root", "phase", "error_code", "message", "request_id", "started_at",
      "finished_at"] 0 rfl (by decide)
  have hid := Json.absent?_written .text a.requestId (fun s => by simp [written]) Json.reads_text
  rw [Reads, ofRaw?, hfields, fields]
  simp only [List.map_cons, List.map_nil, Json.required?_written (Json.reads_text _),
    Json.required?_written (reads_moment _), Json.required?_written (Phase.reads _), hid]
  rfl

theorem isExact_fields (a : AbortedRun) : Json.fieldsExact a.fields = true := by
  cases h : a.requestId <;> simp [fields, h, isExact, Json.fieldsExact, Json.optional, Phase.toJson]

theorem isFree_fields (a : AbortedRun) : ∀ f ∈ a.fields, Json.IsFree 2 f.2 := by
  have hid : Json.IsFree 2 (.optional .text a.requestId) := by
    cases a.requestId with
    | none => exact .null
    | some id => exact .text id
  simp only [fields, List.forall_mem_cons, List.not_mem_nil, false_implies, implies_true, and_true]
  exact ⟨.text _, .text _, .text _, .text _, .text _, hid, .text _, .text _⟩

end AbortedRun

namespace Outcome

/-- The fields of the variant of an outcome. -/
def fields : Outcome → List (String × Json)
  | pass r | fail r => r.fields
  | aborted a => a.fields

theorem toJson_eq (o : Outcome) :
    o.toJson = .object (("verdict", .text o.verdict) :: o.fields) := by
  cases o <;> rfl

/-- Whether the counts of an outcome are of 64 bits. -/
def Sized (o : Outcome) : Prop :=
  ∀ r, o.report? = some r → r.diff.unchanged < 2 ^ 64

theorem isExact_toJson (o : Outcome) : isExact o.toJson = true := by
  rw [toJson_eq]
  cases o with
  | pass r | fail r => simp [fields, isExact, Json.fieldsExact, r.isExact_fields]
  | aborted a => simp [fields, isExact, Json.fieldsExact, a.isExact_fields]

theorem isFree_toJson {o : Outcome} (h : o.Sized) : Json.IsFree 3 o.toJson := by
  have hfields : ∀ f ∈ o.fields, Json.IsFree 2 f.2 := by
    cases o with
    | pass r | fail r => exact VerificationReport.isFree_fields (h r rfl)
    | aborted a => exact a.isFree_fields
  rw [toJson_eq]
  apply Json.IsFree.object
  rw [List.forall_mem_cons]
  exact ⟨.text _, hfields⟩

/-- No variant has a field of the verdict's name. -/
theorem name_ne_verdict (o : Outcome) : ∀ f ∈ o.fields, f.1 ≠ "verdict" := by
  cases o <;> simp [fields, VerificationReport.fields, AbortedRun.fields]

theorem isVerdict_written {f : String × Json} :
    isVerdict (Json.Piece.ofText f.1, written f.2) = decide (f.1 = "verdict") := by
  simp [isVerdict, Json.Piece.text?_ofText]

/-- The other fields are what is left when the verdict is taken out. -/
theorem filter_isVerdict (o : Outcome) :
    (writtenFields o.fields).filter isVerdict = [] ∧
      ((writtenFields o.fields).filter fun f => !isVerdict f) = writtenFields o.fields := by
  have hother : ∀ f ∈ writtenFields o.fields, isVerdict f = false := by
    intro f hf
    rw [Json.writtenFields_eq_map] at hf
    obtain ⟨g, hg, rfl⟩ := List.mem_map.1 hf
    rw [isVerdict_written, decide_eq_false_iff_not]
    exact o.name_ne_verdict g hg
  constructor
  · rw [List.filter_eq_nil_iff]
    intro f hf
    simp [hother f hf]
  · rw [List.filter_eq_self]
    intro f hf
    simp [hother f hf]

theorem ofVerdict?_fields {o : Outcome} (h : o.Sized) :
    ofVerdict? o.verdict (written (.object o.fields)) = some o := by
  cases o with
  | pass r =>
    have hread : VerificationReport.ofRaw? (written (.object r.fields)) = some r :=
      VerificationReport.reads (h r rfl)
    simp [ofVerdict?, verdict, fields, hread]
  | fail r =>
    have hread : VerificationReport.ofRaw? (written (.object r.fields)) = some r :=
      VerificationReport.reads (h r rfl)
    simp [ofVerdict?, verdict, fields, hread]
  | aborted a =>
    have hread : AbortedRun.ofRaw? (written (.object a.fields)) = some a := a.reads
    simp [ofVerdict?, verdict, fields, hread]

/-- The document of an outcome describes the outcome. -/
theorem reads {o : Outcome} (h : o.Sized) : Reads ofRaw? o.toJson o := by
  obtain ⟨value, hvalue⟩ :=
    Option.isSome_iff_exists.1 ((isFree_toJson h).isSome_freeForm? (by omega))
  have hverdict : isVerdict (Json.Piece.ofText "verdict", written (.text o.verdict)) = true := by
    rw [isVerdict_written (f := ("verdict", .text o.verdict))]
    rfl
  obtain ⟨hnone, hall⟩ := o.filter_isVerdict
  have htext : (written (.text o.verdict)).text? = some o.verdict := Json.reads_text o.verdict
  have hread := ofVerdict?_fields h
  rw [toJson_eq] at hvalue
  rw [Reads, toJson_eq]
  simp only [written, writtenFields] at hvalue hverdict htext hread ⊢
  simp only [ofRaw?, hvalue, List.filter_cons, hverdict, hnone, hall, if_true, Bool.not_true,
    Bool.false_eq_true, if_false, htext, Option.bind_some, hread]

end Outcome

/-- Every outcome, difference and keyed dataset is read back from both texts of its document. Both
texts of an outcome are an object with the verdict first and then the fields of the variant. -/
theorem documents_read_back (o : Outcome) (d : SnapshotDiff) (k : KeyedDataset) (ho : o.Sized)
    (hd : d.unchanged < 2 ^ 64) :
    Json.ReadsBack Outcome.ofRaw? o.toJson o ∧
      Json.ReadsBack SnapshotDiff.ofRaw? d.toJson d ∧
      Json.ReadsBack KeyedDataset.ofRaw? k.toJson k ∧
      ∀ text ∈ [o.toJson.compact, o.toJson.pretty], Json.ofString? text = some (.object
        ((Json.Piece.ofText "verdict", .text (Json.Piece.ofText o.verdict)) ::
          writtenFields o.fields)) := by
  have hwritten : written o.toJson = .object
      ((Json.Piece.ofText "verdict", .text (Json.Piece.ofText o.verdict)) ::
        writtenFields o.fields) := by
    simp only [o.toJson_eq, written, writtenFields]
  refine ⟨(Outcome.reads ho).back o.isExact_toJson, (SnapshotDiff.reads hd).back d.isExact_toJson,
    k.reads.back k.isExact_toJson, ?_⟩
  intro text htext
  rw [← hwritten]
  simp only [List.mem_cons, List.not_mem_nil, or_false] at htext
  rcases htext with rfl | rfl
  · exact Json.ofString?_compact o.isExact_toJson
  · exact Json.ofString?_pretty o.isExact_toJson

/-- A failed run whose paths need escapes, in the last year that is written with four digits. -/
def quotedOutcome : Outcome :=
  .fail {
    runId := "run"
    root := "cache\\\u0022a\u0022"
    firstRequestId := ""
    secondRequestId := "\u2028"
    startedAt := ⟨⟨0, 2, 29⟩, ⟨23, 59, 60, 999999999⟩, by decide⟩
    finishedAt := ⟨⟨9999, 12, 31⟩, ⟨0, 0, 0, 1000⟩, by decide⟩
    beforeFiles := ["a\nb", "c"]
    afterFiles := ["c"]
    diff := { removed := ["a\nb"], unchanged := 2 ^ 64 - 1 }
    warnings := []
    inconclusive := false }

theorem quotedOutcome_reads_back :
    Json.ReadsBack Outcome.ofRaw? quotedOutcome.toJson quotedOutcome := by
  have hsized : quotedOutcome.Sized := by
    rintro r ⟨⟩
    decide
  exact (documents_read_back quotedOutcome { changed := ["\t"] } (.empty "") hsized
    (by decide)).1

end CacheAudit
