import CacheAudit.Proofs.Text.Lines
import CacheAudit.Reconciliation.TextLog

/-!
# The keys that the logs of a reconciliation name

Both logs have a line for each mismatching key and end with the summary of their report. The log of
members also names the keys that are on one side only. The log of weights does not: whatever these
keys are, it reads the same.
-/

namespace CacheAudit

open Text (EndsLine)

/-! ### Lines -/

/-- A text in which some line begins with a part: the part stands at the beginning of the text or
after a line feed. -/
def StartsLine (text part : String) : Prop :=
  ∃ before after, EndsLine before.toList ∧ text = before ++ part ++ after

section Lines

variable {text part before : String} {texts : List String}

theorem endsLine_append {front back : List Char} (hfront : EndsLine front)
    (hback : EndsLine back) : EndsLine (front ++ back) := by
  rcases hback with rfl | hlast
  · rwa [List.append_nil]
  · right
    rw [List.getLast?_append, hlast, Option.some_or]

theorem endsLine_feed (text : String) : EndsLine (text ++ "\n").toList := by
  right
  rw [String.toList_append]
  exact List.getLast?_concat

theorem endsLine_join (h : ∀ t ∈ texts, EndsLine t.toList) :
    EndsLine (String.join texts).toList := by
  induction texts with
  | nil => exact .inl rfl
  | cons t rest ih =>
    rw [String.join_cons, String.toList_append]
    exact endsLine_append (h t List.mem_cons_self) (ih fun u hu => h u (List.mem_cons_of_mem t hu))

theorem startsLine_self (part : String) : StartsLine part part :=
  ⟨"", "", .inl rfl, by simp⟩

theorem StartsLine.append (h : StartsLine text part) (more : String) :
    StartsLine (text ++ more) part := by
  obtain ⟨front, back, hfront, rfl⟩ := h
  exact ⟨front, back ++ more, hfront, by simp only [String.append_assoc]⟩

theorem StartsLine.after (h : StartsLine text part) (hbefore : EndsLine before.toList) :
    StartsLine (before ++ text) part := by
  obtain ⟨front, back, hfront, rfl⟩ := h
  refine ⟨before ++ front, back, ?_, by simp only [String.append_assoc]⟩
  rw [String.toList_append]
  exact endsLine_append hbefore hfront

/-- In a text joined from whole lines each of them starts a line. -/
theorem startsLine_join (hends : ∀ t ∈ texts, EndsLine t.toList) {t : String} (ht : t ∈ texts)
    (hpart : StartsLine t part) : StartsLine (String.join texts) part := by
  obtain ⟨front, back, rfl⟩ := List.append_of_mem ht
  rw [String.join_append, String.join_cons]
  exact (hpart.append _).after (endsLine_join fun t ht => hends t (List.mem_append_left _ ht))

/-- What starts a line of a text stands in it. -/
theorem StartsLine.isInfix (h : StartsLine text part) : part.toList <:+: text.toList := by
  obtain ⟨front, back, -, rfl⟩ := h
  exact ⟨front.toList, back.toList, by simp only [String.toList_append]⟩

end Lines

/-! ### Naming -/

/-- A text that has a line for a mismatching key. -/
def NamesMismatch (text key : String) : Prop :=
  StartsLine text ("Key: " ++ key ++ ", ")

/-- A text that names a key in the line of those that only the side with some label has. -/
def NamesOneSided (text label key : String) : Prop :=
  ∃ before after, StartsLine text
    ("Keys only in " ++ label ++ ": " ++ ", ".intercalate (before ++ key :: after) ++ "\n")

/-- What a log has to tell: the mismatching keys, those on one side only, and the summary. -/
structure LogSubject where
  referenceLabel : String
  candidateLabel : String
  mismatching : List String
  referenceOnly : List String
  candidateOnly : List String
  summary : String

/-- A text that tells all of it, the summary in its last line. -/
structure LogSubject.ToldBy (s : LogSubject) (text : String) : Prop where
  mismatching : ∀ key ∈ s.mismatching, NamesMismatch text key
  referenceOnly : ∀ key ∈ s.referenceOnly, NamesOneSided text s.referenceLabel key
  candidateOnly : ∀ key ∈ s.candidateOnly, NamesOneSided text s.candidateLabel key
  ends : ∃ before, EndsLine before.toList ∧ text = before ++ s.summary ++ "\n"

namespace Reconciliation

variable (r : Reconciliation)

/-- What the log of members is about. -/
def subject : LogSubject :=
  ⟨r.referenceLabel, r.candidateLabel, r.mismatches.map KeyComparison.key, r.referenceOnlyKeys,
    r.candidateOnlyKeys, r.summaryLine⟩

theorem startsLine_mismatchLine (c : KeyComparison) :
    StartsLine (r.mismatchLine c) ("Key: " ++ c.key ++ ", ") := by
  unfold mismatchLine
  iterate 12 refine StartsLine.append ?_ _
  exact startsLine_self _

theorem endsLine_mismatches :
    EndsLine (String.join (r.mismatches.map r.mismatchLine)).toList := by
  refine endsLine_join fun t ht => ?_
  obtain ⟨c, -, rfl⟩ := List.mem_map.1 ht
  exact endsLine_feed _

theorem endsLine_oneSidedLine (label : String) (keys : List String) :
    EndsLine (oneSidedLine label keys).toList := by
  unfold oneSidedLine
  split
  · exact .inl rfl
  · exact endsLine_feed _

theorem startsLine_oneSidedLine (label : String) {keys : List String} {key : String}
    (h : key ∈ keys) : NamesOneSided (oneSidedLine label keys) label key := by
  obtain ⟨before, after, rfl⟩ := List.append_of_mem h
  refine ⟨before, after, ?_⟩
  rw [oneSidedLine, if_neg (by simp)]
  exact startsLine_self _

/-- The log of members tells all that its report has to tell. -/
theorem toldBy_textLog : r.subject.ToldBy r.textLog := by
  have hreference := endsLine_append r.endsLine_mismatches
    (endsLine_oneSidedLine r.referenceLabel r.referenceOnlyKeys)
  rw [← String.toList_append] at hreference
  have hcandidate := endsLine_append hreference
    (endsLine_oneSidedLine r.candidateLabel r.candidateOnlyKeys)
  rw [← String.toList_append] at hcandidate
  refine ⟨fun key hkey => ?_, fun key hkey => ?_, fun key hkey => ?_, ⟨_, hcandidate, rfl⟩⟩
  · obtain ⟨c, hc, rfl⟩ := List.mem_map.1 hkey
    have hlines : StartsLine (String.join (r.mismatches.map r.mismatchLine))
        ("Key: " ++ c.key ++ ", ") := by
      refine startsLine_join (fun t ht => ?_) (List.mem_map_of_mem hc) (r.startsLine_mismatchLine c)
      obtain ⟨c', -, rfl⟩ := List.mem_map.1 ht
      exact endsLine_feed _
    exact (((hlines.append _).append _).append _).append _
  · obtain ⟨before, after, hline⟩ := startsLine_oneSidedLine r.referenceLabel hkey
    exact ⟨before, after, (((hline.after r.endsLine_mismatches).append _).append _).append _⟩
  · obtain ⟨before, after, hline⟩ := startsLine_oneSidedLine r.candidateLabel hkey
    exact ⟨before, after, ((hline.after hreference).append _).append _⟩

end Reconciliation

namespace WeightReconciliation

variable (r : WeightReconciliation)

/-- What the log of weights is about. -/
def subject : LogSubject :=
  ⟨r.referenceLabel, r.candidateLabel, r.mismatches.map WeightMismatch.key, r.referenceOnlyKeys,
    r.candidateOnlyKeys, r.summaryLine⟩

theorem startsLine_mismatchLine (m : WeightMismatch) :
    StartsLine (r.mismatchLine m) ("Key: " ++ m.key ++ ", ") := by
  unfold mismatchLine
  iterate 6 refine StartsLine.append ?_ _
  exact startsLine_self _

theorem endsLine_mismatches :
    EndsLine (String.join (r.mismatches.map r.mismatchLine)).toList := by
  refine endsLine_join fun t ht => ?_
  obtain ⟨c, -, rfl⟩ := List.mem_map.1 ht
  exact endsLine_feed _

/-- The log of weights tells all that its report has to tell but the keys on one side only. -/
theorem toldBy_textLog_shared :
    { r.subject with referenceOnly := [], candidateOnly := [] }.ToldBy r.textLog := by
  refine ⟨fun key hkey => ?_, (fun _ h => nomatch h), (fun _ h => nomatch h),
    ⟨_, r.endsLine_mismatches, rfl⟩⟩
  obtain ⟨m, hm, rfl⟩ := List.mem_map.1 hkey
  have hlines : StartsLine (String.join (r.mismatches.map r.mismatchLine))
      ("Key: " ++ m.key ++ ", ") := by
    refine startsLine_join (fun t ht => ?_) (List.mem_map_of_mem hm) (r.startsLine_mismatchLine m)
    obtain ⟨m', -, rfl⟩ := List.mem_map.1 ht
    exact endsLine_feed _
  exact (hlines.append _).append _

/-- The log of weights is the same whatever keys are on one side only. -/
theorem textLog_oneSided (ks ks' : List String) :
    { r with referenceOnlyKeys := ks, candidateOnlyKeys := ks' }.textLog = r.textLog :=
  rfl

/-- A report of no shared key, with the given keys on one side only. -/
def ofOneSided (referenceOnly candidateOnly : List String) : WeightReconciliation :=
  ⟨"", "", 0, 0, [], referenceOnly, candidateOnly⟩

theorem textLog_ofOneSided (ks ks' : List String) : (ofOneSided ks ks').textLog =
    "" ++ ("Total Same Keys: " ++ toString 0 ++ ", Total Mismatched Keys: " ++ toString 0 ++
      ", Percentage: " ++ "N/A") ++ "\n" :=
  rfl

/-- The log of such a report has no line of one-sided keys. -/
theorem not_namesOneSided_ofOneSided (ks ks' : List String) (label key : String) :
    ¬ NamesOneSided (ofOneSided ks ks').textLog label key := by
  rintro ⟨before, after, hline⟩
  have hfound := hline.isInfix
  have hhead : "Keys only in ".toList <:+: (ofOneSided ks ks').textLog.toList := by
    refine List.IsInfix.trans ?_ hfound
    simp only [String.toList_append, List.append_assoc]
    exact (List.prefix_append _ _).isInfix
  rw [textLog_ofOneSided] at hhead
  revert hhead
  decide +kernel

end WeightReconciliation

/-! ### Both logs -/

/-- The log of members tells all of its report. The log of weights tells the mismatching keys and
the summary and does not depend on the keys on one side only, so it tells all of its report, for
every report with the same keys on one side only, just when there are none. -/
theorem logs_tell_keys (r : Reconciliation) (w : WeightReconciliation) (ks ks' : List String) :
    r.subject.ToldBy r.textLog ∧
      { w.subject with referenceOnly := [], candidateOnly := [] }.ToldBy w.textLog ∧
      { w with referenceOnlyKeys := ks, candidateOnlyKeys := ks' }.textLog = w.textLog ∧
      ((∀ v : WeightReconciliation,
        { v.subject with referenceOnly := ks, candidateOnly := ks' }.ToldBy
          { v with referenceOnlyKeys := ks, candidateOnlyKeys := ks' }.textLog) ↔
        ks = [] ∧ ks' = []) := by
  refine ⟨r.toldBy_textLog, w.toldBy_textLog_shared, w.textLog_oneSided ks ks', fun h => ?_, ?_⟩
  · have htold := h (.ofOneSided ks ks')
    have hnone := WeightReconciliation.not_namesOneSided_ofOneSided ks ks' ""
    exact ⟨
      List.eq_nil_iff_forall_not_mem.2 fun key hkey => hnone key (htold.referenceOnly key hkey),
      List.eq_nil_iff_forall_not_mem.2 fun key hkey => hnone key (htold.candidateOnly key hkey)⟩
  · rintro ⟨rfl, rfl⟩ v
    exact v.toldBy_textLog_shared

/-- A key with a weight on the reference side only: the report has it, its log does not. -/
theorem weight_log_drops_key :
    let reference := (WeightedDataset.empty "reference").add "2024-01-02" "A" 50.0
    let r := WeightReconciliation.of reference (.empty "candidate") 0.01
    r.referenceOnlyKeys = ["2024-01-02"] ∧
      ¬ "2024-01-02".toList <:+: r.textLog.toList ∧ ¬ r.subject.ToldBy r.textLog := by
  intro reference r
  have hkeys : r.referenceOnlyKeys = ["2024-01-02"] := rfl
  have hshared : WeightReconciliation.shared reference (.empty "candidate") = [] := rfl
  have htext : r.textLog = (WeightReconciliation.ofOneSided [] []).textLog := by
    simp only [r, WeightReconciliation.of, hshared]
    rfl
  have hunnamed : ¬ "2024-01-02".toList <:+: r.textLog.toList := by
    rw [htext, WeightReconciliation.textLog_ofOneSided]
    decide +kernel
  refine ⟨hkeys, hunnamed, fun htold => ?_⟩
  have hmem : "2024-01-02" ∈ r.referenceOnlyKeys := hkeys ▸ List.mem_singleton_self _
  obtain ⟨before, after, hline⟩ := htold.referenceOnly _ hmem
  rw [htext] at hline
  exact WeightReconciliation.not_namesOneSided_ofOneSided [] [] _ _ ⟨before, after, hline⟩

end CacheAudit
