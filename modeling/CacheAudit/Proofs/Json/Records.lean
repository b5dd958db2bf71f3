import CacheAudit.Proofs.Json.RoundTrip
import CacheAudit.Proofs.Ordered.Finite

/-!
# Typed readings of written documents

A typed reader gives back what was written: a text, an integer of 64 bits, a list, a set, a map, a
value or its absence, and the fields of a record in their order. A reader of a whole record is put
together from the readers of its fields.
-/

namespace CacheAudit.Json

variable {α : Type}

/-- A reader that answers with `a` to what is written for `v`. -/
def Reads (read : Raw → Option α) (v : Json) (a : α) : Prop :=
  read (written v) = some a

theorem mapM_eq_some_map {β γ : Type} {f : β → Option γ} {g : β → γ} {l : List β}
    (h : ∀ b ∈ l, f b = some (g b)) : l.mapM f = some (l.map g) := by
  induction l with
  | nil => rfl
  | cons b rest ih =>
    have hrest := ih fun b' hb' => h b' (List.mem_cons_of_mem b hb')
    rw [List.mapM_cons, h b List.mem_cons_self, hrest]
    rfl

theorem reads_text (s : String) : Reads Raw.text? (.text s) s := by
  rw [Reads, written, Raw.text?, Piece.text?_ofText]

theorem reads_nat {n : Nat} (h : n < 2 ^ 64) : Reads Raw.unsigned? (.nat n) n := by
  rw [Reads, nat, written, Raw.unsigned?, Numeral.unsigned?_ofInt h]

theorem reads_list {read : Raw → Option α} {encode : α → Json} {xs : List α}
    (h : ∀ x ∈ xs, Reads read (encode x) x) :
    Reads (Raw.list? read) (.array (xs.map encode)) xs := by
  have hitems : xs.mapM (read ∘ written ∘ encode) = some (xs.map id) := mapM_eq_some_map h
  rw [Reads, written, Raw.list?, writtenItems_eq_map, List.map_map, List.mapM_map, hitems,
    List.map_id]

theorem reads_set (s : StringSet) : Reads Raw.set? (.texts s.toList) s := by
  have hlist : Reads (Raw.list? Raw.text?) (.texts s.toList) s.toList :=
    reads_list fun x _ => reads_text x
  rw [Reads] at hlist ⊢
  rw [Raw.set?, hlist, Option.map_some, StringSet.ofList_toList]

theorem reads_map {read : Raw → Option α} {encode : α → Json} {m : StringMap α}
    (h : ∀ k a, m.get? k = some a → Reads read (encode a) a) :
    Reads (Raw.map? read) (.object (m.entries.map fun e => (e.1, encode e.2))) m := by
  have hentries : m.entries.mapM (Raw.field? read ∘
      (fun f => (Piece.ofText f.1, written f.2)) ∘ fun e => (e.1, encode e.2)) =
        some (m.entries.map id) := by
    refine mapM_eq_some_map ?_
    rintro ⟨k, a⟩ he
    have hread : read (written (encode a)) = some a := h k a (StringMap.get?_eq_some_iff.2 he)
    simp only [Function.comp_apply, Raw.field?, Piece.text?_ofText, hread, id_eq]
  rw [Reads, written, Raw.map?, writtenFields_eq_map, List.map_map, List.mapM_map, hentries,
    List.map_id, Option.map_some, StringMap.ofList_entries]

/-- A value that may be missing is read back, missing or not, when it is never written as `null`
itself. -/
theorem absent?_written {read : Raw → Option α} (encode : α → Json) (x : Option α)
    (hnull : ∀ a, written (encode a) ≠ .null) (h : ∀ a, Reads read (encode a) a) :
    Raw.absent? read (some (written (optional encode x))) = some x := by
  cases x with
  | none => rfl
  | some a =>
    have hread : read (written (encode a)) = some a := h a
    rw [Raw.absent?, optional, Raw.optional?, hread, Option.map_some]
    exact hnull a

theorem required?_written {read : Raw → Option α} {v : Json} {a : α} (h : Reads read v a) :
    Raw.required? read (some (written v)) = some a :=
  h

theorem given?_written {read : Raw → Option α} {default : α} {v : Json} {a : α}
    (h : Reads read v a) : Raw.given? read default (some (written v)) = some a :=
  h

theorem eraseDups_of_nodup {names : List String} (h : names.Nodup) : names.eraseDups = names := by
  induction names with
  | nil => rfl
  | cons name rest ih =>
    obtain ⟨hname, hrest⟩ := List.nodup_cons.1 h
    have hkept : rest.filter (fun other => !other == name) = rest := by
      rw [List.filter_eq_self]
      intro other hother
      have hne : other ≠ name := fun heq => hname (heq ▸ hother)
      simpa using hne
    rw [List.eraseDups_cons, hkept, ih hrest]

theorem find?_name {fields : List (String × Json)} (h : (fields.map Prod.fst).Nodup)
    {f : String × Json} (hf : f ∈ fields) : fields.find? (fun g => g.1 == f.1) = some f := by
  have hsome : (fields.find? fun g => g.1 == f.1).isSome := by
    rw [List.find?_isSome]
    exact ⟨f, hf, by simp⟩
  obtain ⟨g, hg⟩ := Option.isSome_iff_exists.1 hsome
  have hname : g.1 = f.1 := by simpa using List.find?_some hg
  rw [hg, List.inj_on_of_nodup_map h (List.mem_of_find?_eq_some hg) hf hname]

/-- The fields of a record are found in the order of their names. -/
theorem record?_written (fields : List (String × Json)) (names : List String) (spare : Nat)
    (hnames : fields.map Prod.fst = names) (h : names.Nodup) :
    (written (.object fields)).record? names spare =
      some (fields.map fun f => some (written f.2)) := by
  subst hnames
  have hnamed : (writtenFields fields).mapM (Raw.field? some) =
      some (fields.map fun f => (f.1, written f.2)) := by
    rw [writtenFields_eq_map, List.mapM_map]
    refine mapM_eq_some_map fun f _ => ?_
    simp only [Function.comp_apply, Raw.field?, Piece.text?_ofText]
  have hknown : ((fields.map fun f => (f.1, written f.2)).map Prod.fst).filter
      (fields.map Prod.fst).contains = fields.map Prod.fst := by
    rw [List.map_map, List.filter_eq_self.2]
    · rfl
    · intro name hname
      rwa [List.contains_iff_mem]
  have hfound : ∀ f ∈ fields,
      ((fields.map fun f => (f.1, written f.2)).find? fun g => g.1 == f.1).map Prod.snd =
        some (written f.2) := by
    intro f hf
    have hfind := find?_name h hf
    rw [List.find?_map, Function.comp_def, hfind]
    rfl
  rw [written, Raw.record?, hnamed]
  dsimp only
  rw [hknown, eraseDups_of_nodup h, if_pos rfl, List.map_map]
  exact congrArg some (List.map_congr_left hfound)

end CacheAudit.Json
