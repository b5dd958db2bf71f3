import CacheAudit.Proofs.Disk.Standing
import CacheAudit.Proofs.Storage.ParentDirectories

/-!
# Blocked ways

A way is blocked by a name that stands for something and leads to no directory: a file, a link that
leads elsewhere or nowhere, a name that is too long. No directory can be made beyond it. So a path
that goes up only at its beginning, once it has been vacated and made, stands at some place.
-/

namespace CacheAudit

namespace Disk

open CacheAudit.Path (dotDot)

variable {d : Disk} {p : Path} {l here : Location} {links : Nat} {parts : List Bytes}

/-! ### How far a way leads -/

/-- A name that does not lead on from a directory to another. -/
structure Stuck (d : Disk) (links : Nat) (here : Location) (n : Bytes) : Prop where
  not_dot : n ≠ Path.dot
  not_dotDot : n ≠ dotDot
  no_way : ∀ links' l, ¬d.Leads links here [n] links' l

/-- Parts lead to a directory, or as far as a name that does not. -/
theorem leads_or_stuck (d : Disk) (links : Nat) (here : Location) (parts : List Bytes) :
    (∃ links' l, d.Leads links here parts links' l) ∨
      ∃ front n rest links' l, parts = front ++ n :: rest ∧ d.Leads links here front links' l ∧
        d.Stuck links' l n := by
  induction parts using List.reverseRecOn with
  | nil => exact .inl ⟨links, here, .here ..⟩
  | append_singleton parts n ih =>
    rcases ih with ⟨links', l, hleads⟩ | ⟨front, m, rest, links', l, rfl, hleads, hstuck⟩
    · by_cases hmore : ∃ links'' l', d.Leads links' l [n] links'' l'
      · obtain ⟨links'', l', hmore⟩ := hmore
        exact .inl ⟨links'', l', hleads.append hmore⟩
      · refine .inr ⟨parts, n, [], links', l, rfl, hleads, ?_, ?_, fun links'' l' h =>
          hmore ⟨links'', l', h⟩⟩
        · rintro rfl
          exact hmore ⟨_, _, .dot (.here ..)⟩
        · rintro rfl
          exact hmore ⟨_, _, .up (.here ..)⟩
    · exact .inr ⟨front, m, rest ++ [n], links', l, by simp, hleads, hstuck⟩

/-- Parts that lead to a directory are found, also when a link at the end is not followed. -/
theorem Leads.found {links' : Nat} {l' : Location} (h : d.Leads links l parts links' l')
    (follow : Bool) : ∃ l'' e, d.lookup follow links l .directory parts = .ok (.found l'' e) := by
  induction h with
  | here links l => exact ⟨l, _, lookup_nil ..⟩
  | dot _ ih =>
    rw [lookup_dot]
    exact ih
  | up _ ih =>
    rw [lookup_dotDot]
    exact ih
  | enter hdot hdots hlong hentry _ ih =>
    rw [lookup_entry hdot hdots hlong (by simp) hentry]
    exact ih
  | @follow links links' l l' part rest target hdot hdots hlong hentry hempty _ ih =>
    by_cases hlast : rest.isEmpty && !follow
    · obtain ⟨rfl, rfl⟩ : rest = [] ∧ follow = false := by simpa using hlast
      refine ⟨l ++ [part], .link target, ?_⟩
      rw [lookup_last hdot hdots hlong fun _ _ => rfl, placeAt, hentry]
    · rw [lookup_link hdot hdots hlong hlast hentry]
      simp only [hempty]
      exact ih

/-- A path all of whose parts lead to a directory leads there. -/
theorem follow_of_leads {links' : Nat} (hne : p.bytes ≠ []) (hshort : p.bytes.length < pathLimit)
    (hleads : d.Leads linkLimit (d.start p) (steps p) links' l) :
    d.follow p = .ok (l, .directory) := by
  have hlookup : d.lookup true linkLimit (d.start p) .directory (strictSteps p) =
      .ok (.found l .directory) := by
    rw [strictSteps]
    split
    · rw [hleads.lookup_append, lookup_dot, lookup_nil]
    · exact hleads.lookup
  have hresolve : d.resolve p = .ok (.found l .directory) := by
    rw [resolve, resolveSteps, if_neg (by simpa using hne), if_neg (by omega)]
    exact hlookup
  rw [Disk.follow, hresolve]

/-- Where all parts lead to a directory, none is made. -/
theorem makeDirectories_of_leads {links' : Nat} (hne : p.bytes ≠ [])
    (hshort : p.bytes.length < pathLimit)
    (hleads : d.Leads linkLimit (d.start p) (steps p) links' l) (fuel : Nat) :
    d.makeDirectories p (fuel + 1) = (d, .ok ()) := by
  obtain ⟨l', e, hfound⟩ := hleads.found false
  have hmake : d.makeDirectory p = .error .fileExists := by
    have hresolve : d.resolveSteps false p (steps p) = .ok (.found l' e) := by
      rw [resolveSteps, if_neg (by simpa using hne), if_neg (by omega)]
      exact hfound
    rw [makeDirectory, hresolve]
  have hthere : d.isDirectory p = true := by
    rw [isDirectory, follow_of_leads hne hshort hleads]
  rw [makeDirectories_of_error fuel hne hmake (by simp), if_pos hthere]

/-! ### Beyond a block -/

section Stuck

variable {front rest : List Bytes} {n : Bytes}

/-- A lookup that succeeds ends at the name where the way is stuck, and not at a directory. -/
theorem Stuck.last_of_lookup (h : d.Stuck links here n) {follow : Bool} {place : Place}
    (hlookup : d.lookup follow links here .directory (n :: rest) = .ok place) :
    rest = [] ∧ ∀ l, place ≠ .found l .directory := by
  have hno {links' : Nat} {l : Location} {more : List Bytes} :
      ¬d.Leads links here ([n] ++ more) links' l := by
    intro hleads
    obtain ⟨links'', l', hfirst, -⟩ := hleads.exists_append
    exact h.no_way links'' l' hfirst
  refine ⟨?_, ?_⟩
  · by_contra hrest
    obtain ⟨-, links', l, hleads⟩ := exists_leads (by simp) hlookup
    rw [List.dropLast_cons_of_ne_nil hrest] at hleads
    exact hno hleads
  · rintro l rfl
    obtain ⟨-, links', hleads⟩ := (resolves_of_lookup hlookup).exists_leads
    exact hno hleads

variable (hsteps : steps p = front ++ n :: rest)
  (hleads : d.Leads linkLimit (d.start p) front links here) (hstuck : d.Stuck links here n)

include hsteps hleads hstuck

/-- What a path beyond a block leads to is no directory, and the block itself. -/
theorem Stuck.of_follow {e : Entry} (hfollow : d.follow p = .ok (l, e)) :
    rest = [] ∧ e ≠ .directory := by
  obtain ⟨dots, hstrict⟩ := exists_strictSteps p
  have hlookup : d.lookup true linkLimit (d.start p) .directory (strictSteps p) =
      .ok (.found l e) := (lookup_of_follow hfollow).2
  rw [hstrict, hsteps, List.append_assoc, List.cons_append, hleads.lookup_append] at hlookup
  obtain ⟨hnil, hfound⟩ := hstuck.last_of_lookup hlookup
  refine ⟨(List.append_eq_nil_iff.1 hnil).1, ?_⟩
  rintro rfl
  exact hfound l rfl

theorem Stuck.not_isDirectory : ¬d.isDirectory p = true := by
  rw [isDirectory]
  rcases hfollow : d.follow p with error | ⟨l, e⟩
  · simp
  · have hne := (hstuck.of_follow hsteps hleads hfollow).2
    cases e with
    | directory => exact absurd rfl hne
    | file content modified => simp
    | link target => simp

variable (hblocked : d.entry? (here ++ [n]) ≠ none)

include hblocked

/-- No directory is made at a path that is blocked. Only beyond the block something is said to be
missing. -/
theorem Stuck.makeDirectory : ∃ error, d.makeDirectory p = .error error ∧
    (error = .noEntry → rest ≠ [] ∧ p.bytes.length < pathLimit) := by
  have hne := bytes_ne_nil_of_steps hsteps
  by_cases hshort : p.bytes.length < pathLimit
  swap
  · refine ⟨.nameTooLong, ?_, by simp⟩
    rw [Disk.makeDirectory, resolveSteps, if_neg (by simpa using hne), if_pos (by omega)]
  rw [Disk.makeDirectory, resolveSteps_append hshort hsteps hleads false]
  rcases hlookup : d.lookup false links here .directory (n :: rest) with error | place
  · refine ⟨error, rfl, ?_⟩
    rintro rfl
    refine ⟨?_, hshort⟩
    rintro rfl
    by_cases hlong : nameLimit < n.length
    · rw [lookup_long hstuck.not_dot hstuck.not_dotDot hlong] at hlookup
      cases hlookup
    · rw [lookup_last hstuck.not_dot hstuck.not_dotDot hlong fun _ _ => rfl] at hlookup
      cases hlookup
  · obtain ⟨rfl, -⟩ := hstuck.last_of_lookup hlookup
    cases place with
    | found l e => exact ⟨.fileExists, rfl, by simp⟩
    | free l =>
      obtain ⟨rfl, hfree⟩ := free_of_lookup_last hlookup
      exact absurd hfree hblocked

end Stuck

/-- The parent of a path beyond a block is beyond it too, or all its parts lead to a directory. -/
theorem parent_cases {q : Path} {front rest : List Bytes} {n : Bytes}
    (hsteps : steps p = front ++ n :: rest)
    (hleads : d.Leads linkLimit (d.start p) front links here) (hparent : p.parent? = some q)
    (hq : q.bytes ≠ []) : d.start q = d.start p ∧ ((∃ rest', steps q = front ++ n :: rest') ∨
      ∃ links' l, d.Leads linkLimit (d.start q) (steps q) links' l) := by
  obtain ⟨hbegins, habsolute, -⟩ := Path.steps_parent_prefix hparent hq
  have hstart : d.start q = d.start p := by rw [start, start, habsolute]
  refine ⟨hstart, ?_⟩
  rw [hstart]
  rw [hsteps] at hbegins
  rcases List.prefix_or_prefix_of_prefix hbegins (List.prefix_append front (n :: rest)) with
    ⟨tail, rfl⟩ | ⟨tail, htail⟩
  · obtain ⟨links', l, hfirst, -⟩ := hleads.exists_append
    exact .inr ⟨links', l, hfirst⟩
  · rw [← htail, List.prefix_append_right_inj] at hbegins
    cases tail with
    | nil =>
      rw [List.append_nil] at htail
      exact .inr ⟨links, here, htail ▸ hleads⟩
    | cons m rest' =>
      obtain ⟨rfl, -⟩ := List.cons_prefix_cons.1 hbegins
      exact .inl ⟨rest', htail.symm⟩

/-- No directory is made at or beyond a block, whatever is made above it. -/
theorem Stuck.not_made {front : List Bytes} {n : Bytes} {start : Location}
    (hleads : d.Leads linkLimit start front links here) (hstuck : d.Stuck links here n)
    (hblocked : d.entry? (here ++ [n]) ≠ none) (fuel : Nat) {rest : List Bytes}
    (hstart : d.start p = start) (hsteps : steps p = front ++ n :: rest) :
    (d.makeDirectories p fuel).2 ≠ .ok () := by
  induction fuel generalizing p rest with
  | zero => simp [makeDirectories]
  | succ fuel ih =>
    subst hstart
    have hne := bytes_ne_nil_of_steps hsteps
    have hnot := hstuck.not_isDirectory hsteps hleads
    obtain ⟨error, hmake, herror⟩ := hstuck.makeDirectory hsteps hleads hblocked
    by_cases hmissing : error = .noEntry
    swap
    · rw [makeDirectories_of_error fuel hne hmake hmissing, if_neg hnot]
      simp
    subst hmissing
    obtain ⟨-, hshort⟩ := herror rfl
    rw [makeDirectories, if_neg (by simpa using hne), hmake]
    dsimp only
    cases hparent : p.parent? with
    | none => simp
    | some q =>
      dsimp only
      -- above the block there is nothing to be made
      have habove : d.makeDirectories q fuel = (d, .ok ()) ∨
          (d.makeDirectories q fuel).2 ≠ .ok () := by
        cases fuel with
        | zero => exact .inr (by simp [makeDirectories])
        | succ fuel =>
          by_cases hq : q.bytes = []
          · exact .inl (by rw [makeDirectories, if_pos (by simpa using hq)])
          obtain ⟨hstart, ⟨rest', hbeyond⟩ | ⟨links', l, hthere⟩⟩ :=
            parent_cases hsteps hleads hparent hq
          · exact .inr (ih hstart hbeyond)
          · have hlength := length_parent? hparent
            exact .inl (makeDirectories_of_leads hq (by omega) hthere fuel)
      rcases habove with hsame | hfails
      · rw [hsame]
        dsimp only
        rw [hmake]
        dsimp only
        rw [if_neg hnot]
        simp
      · rcases hresult : d.makeDirectories q fuel with ⟨d', error | u⟩
        · simp
        · rw [hresult] at hfails
          exact absurd rfl hfails

/-! ### Where a path can be cleaned -/

/-- A path that goes up only at its beginning stands at some place, if it has been vacated and a
directory can be made at it. -/
theorem exists_standsAt (hp : p.Forward) (hne : p.bytes ≠ []) (hvacated : (d.vacate p).2 = .ok ())
    (hmade : ((d.vacate p).1.createDirectories p).2 = .ok ()) : ∃ l, d.StandsAt p l := by
  rcases leads_or_stuck d linkLimit (d.start p) (steps p) with
    ⟨links, l, hleads⟩ | ⟨front, n, rest, links, l, hsteps, hleads, hstuck⟩
  · have hshort := length_lt_of_created hne hmade
    -- the directory has been removed, so the path ends in a name
    rw [vacate, follow_of_leads hne hshort hleads] at hvacated
    obtain ⟨⟨front, n, hsteps, hdot, hdots⟩, -⟩ := exists_of_removeTree (Prod.ext rfl hvacated)
    rw [hsteps] at hleads
    obtain ⟨links', here, hfront, -⟩ := hleads.exists_append
    exact ⟨_, .last hsteps hdot hdots hfront⟩
  by_cases hrest : rest = []
  · subst hrest
    exact ⟨_, .last hsteps hstuck.not_dot hstuck.not_dotDot hleads⟩
  cases hentry : d.entry? (l ++ [n]) with
  | none =>
    obtain ⟨dots, hstrict⟩ := exists_strictSteps p
    have hempty : n ≠ [] := by
      rintro rfl
      exact nil_not_mem_steps p (hsteps ▸ by simp)
    have hall : front ++ n :: (rest ++ dots) = strictSteps p := by
      rw [hstrict, hsteps, List.append_assoc, List.cons_append]
    have hdown := not_mem_of_forward hp hall hstuck.not_dot hstuck.not_dotDot hempty
    exact ⟨_, .missing hsteps hstuck.not_dot hstuck.not_dotDot hleads hentry
      fun hmem => hdown (List.mem_append_left _ hmem)⟩
  | some e =>
    have hfollow : ∃ error, d.follow p = .error error := by
      rcases hfollow : d.follow p with error | ⟨l', e'⟩
      · exact ⟨error, rfl⟩
      · exact absurd (hstuck.of_follow hsteps hleads hfollow).1 hrest
    obtain ⟨error, hfollow⟩ := hfollow
    rw [vacate, hfollow] at hmade
    exact absurd hmade (hstuck.not_made hleads (by simp [hentry]) _ rfl hsteps)

end Disk

end CacheAudit
