import OvStorage.Watch.Candidates

/-!
# The registry of scopes

`WatchScopes` keeps at most `MAX_CANDIDATE_SCOPES` scopes, whatever is cached: a scope that is noted takes the
place of the coldest one that is not watched, and a directory is never colder than what it covers
(`registry_keeps_hot`).
-/

namespace OvStorage.Watch

open Address Cache Listing Routing StableSort Table

variable {U : UrlCrate} {V : Victims}

namespace WatchScopes

variable {s : WatchScopes} {scope : Url} {now : Instant} {history : List Event}

/-- What covers the scope is touched. -/
def touch (s : WatchScopes) (scope : Url) : Table Bytes ScopeEntry :=
  s.scopes.map fun entry => if isAncestorOrSelf entry.url.toParts scope.toParts then
    { entry with touched := s.clock + 1 } else entry

/-- What a note does: its scope has a row, and a row that goes is the coldest of those that are not watched, if any. -/
structure Notes (s s' : WatchScopes) (scope : Url) : Prop where
  present : (s'.scopes.get scope.asStr).isSome
  evicts : ∀ key entry, (s.touch scope).get key = some entry → s'.scopes.get key = none →
    (∀ row ∈ (s.touch scope).rows,
      entry.watched = false ∧ row.2.watched = true ∨ entry.watched = row.2.watched ∧ entry.touched ≤ row.2.touched) ∧
      ∀ other ≠ key, s'.scopes.get other = none → (s.touch scope).get other = none

/-- What the registry is, whatever has been noted and watched. -/
structure Registry (s : WatchScopes) : Prop where
  enabled : s.enabled = true
  bounded : s.scopes.rows.length ≤ MAX_CANDIDATE_SCOPES
  keyed : ∀ row ∈ s.scopes.rows, row.1 = row.2.url.asStr
  stamped : ∀ row ∈ s.scopes.rows, row.2.touched ≤ s.clock
  ordered : ∀ row ∈ s.scopes.rows, ∀ row' ∈ s.scopes.rows,
    isAncestorOrSelf row.2.url.toParts row'.2.url.toParts = true → row'.2.touched ≤ row.2.touched

/-! ### A note -/

theorem noteScope_cases :
    (s.noteScope V scope now).clock = s.clock + 1 ∧ (s.noteScope V scope now).enabled = s.enabled ∧
    (((s.touch scope).get scope.asStr).isSome ∧
        (s.noteScope V scope now).scopes =
          (s.touch scope).modify scope.asStr (fun entry => { entry with directTouch := now }) ∨
      (s.touch scope).get scope.asStr = none ∧ ∃ room : Table Bytes ScopeEntry,
        (s.noteScope V scope now).scopes = room.insert scope.asStr ⟨scope, s.clock + 1, now, false⟩ ∧
          ((s.touch scope).rows.length < MAX_CANDIDATE_SCOPES ∧ room = s.touch scope ∨
            ∃ key, V.coldest (s.touch scope) = some key ∧ room = (s.touch scope).erase key)) := by
  unfold noteScope
  dsimp only
  split
  next entry hentry => exact ⟨rfl, rfl, .inl ⟨Option.isSome_iff_exists.mpr ⟨entry, hentry⟩, rfl⟩⟩
  next hnone =>
    refine ⟨rfl, rfl, .inr ⟨hnone, _, rfl, ?_⟩⟩
    split_ifs with hfull
    · refine .inr ?_
      cases hpick : V.coldest (s.touch scope) with
      | none =>
        have hrows := V.coldest_none hpick
        rw [touch] at hrows
        rw [hrows] at hfull
        exact absurd hfull (by decide)
      | some key =>
        refine ⟨key, rfl, ?_⟩
        rw [touch] at hpick ⊢
        rw [hpick]
        rfl
    · exact .inl ⟨Nat.lt_of_not_le hfull, rfl⟩

theorem length_noteScope (h : s.scopes.rows.length ≤ MAX_CANDIDATE_SCOPES) :
    (s.noteScope V scope now).scopes.rows.length ≤ MAX_CANDIDATE_SCOPES := by
  have htouch : (s.touch scope).rows.length = s.scopes.rows.length := List.length_map _
  obtain ⟨-, -, ⟨-, heq⟩ | ⟨hnone, room, heq, hroom⟩⟩ := @noteScope_cases V s scope now
  · rw [heq, length_modify, htouch]
    exact h
  · have hinsert : ∀ table : Table Bytes ScopeEntry, table.get scope.asStr = none → ∀ entry,
        (table.insert scope.asStr entry).rows.length = table.rows.length + 1 := fun table hfree entry => by
      conv_rhs => rw [← erase_of_get_none hfree]
      rfl
    rcases hroom with ⟨hlt, rfl⟩ | ⟨key, hkey, rfl⟩
    · rw [heq, hinsert _ hnone]
      exact hlt
    · obtain ⟨entry, hget, -⟩ := V.coldest_spec hkey
      have hne : scope.asStr ≠ key := fun hk => by rw [hk, hget] at hnone; cases hnone
      rw [heq, hinsert _ ((get_erase_of_ne _ hne).trans hnone), length_erase hget, htouch]
      exact h

/-- A row after a note was there before it, touched if it covers the scope, or is the scope's own. -/
theorem mem_noteScope {row : Bytes × ScopeEntry} (h : row ∈ (s.noteScope V scope now).scopes.rows) :
    (∃ old ∈ s.scopes.rows, row.1 = old.1 ∧ row.2.url = old.2.url ∧
      row.2.touched = if isAncestorOrSelf old.2.url.toParts scope.toParts then s.clock + 1 else old.2.touched) ∨
      row.1 = scope.asStr ∧ row.2.url = scope ∧ row.2.touched = s.clock + 1 := by
  have htouch : ∀ row ∈ (s.touch scope).rows, ∃ old ∈ s.scopes.rows, row.1 = old.1 ∧ row.2.url = old.2.url ∧
      row.2.touched = if isAncestorOrSelf old.2.url.toParts scope.toParts then s.clock + 1 else old.2.touched := by
    intro row hrow
    obtain ⟨old, hold, rfl⟩ := List.mem_map.mp hrow
    refine ⟨old, hold, rfl, ?_⟩
    dsimp only
    split_ifs <;> exact ⟨rfl, rfl⟩
  obtain ⟨-, -, ⟨-, heq⟩ | ⟨-, room, heq, hroom⟩⟩ := @noteScope_cases V s scope now
  · rw [heq] at h
    obtain ⟨old, hold, rfl⟩ := List.mem_map.mp h
    refine .inl ?_
    split_ifs <;> exact htouch old hold
  · rw [heq] at h
    rcases mem_insert.mp h with rfl | ⟨hrow, -⟩
    · exact .inr ⟨rfl, rfl, rfl⟩
    · rcases hroom with ⟨-, rfl⟩ | ⟨key, -, rfl⟩
      · exact .inl (htouch row hrow)
      · exact .inl (htouch row (mem_erase.mp hrow).1)

theorem notes_noteScope : Notes s (s.noteScope V scope now) scope := by
  obtain ⟨-, -, ⟨hsome, heq⟩ | ⟨hnone, room, heq, hroom⟩⟩ := @noteScope_cases V s scope now
  · refine ⟨by rw [heq, get_modify_self, Option.isSome_map]; exact hsome, fun key entry hentry hgone => ?_⟩
    rw [heq] at hgone
    by_cases hkey : key = scope.asStr
    · rw [hkey, get_modify_self, Option.map_eq_none_iff, ← hkey, hentry] at hgone
      cases hgone
    · rw [get_modify_of_ne _ _ hkey, hentry] at hgone
      cases hgone
  · refine ⟨by rw [heq, get_insert_self]; rfl, fun key entry hentry hgone => ?_⟩
    have hkey : key ≠ scope.asStr := fun h => by rw [h, hnone] at hentry; cases hentry
    rw [heq, get_insert_of_ne _ _ hkey] at hgone
    rcases hroom with ⟨-, rfl⟩ | ⟨coldest, hcoldest, rfl⟩
    · rw [hentry] at hgone
      cases hgone
    obtain rfl : key = coldest := by
      by_contra hne
      rw [get_erase_of_ne _ hne, hentry] at hgone
      cases hgone
    obtain ⟨entry', hentry', hmin⟩ := V.coldest_spec hcoldest
    cases hentry.symm.trans hentry'
    refine ⟨fun row hrow => ?_, fun other hother hfree => ?_⟩
    · exact (Prod.Lex.le_iff.mp (hmin row hrow)).imp_left Bool.lt_iff.mp
    · by_cases heq' : other = scope.asStr
      · rw [heq', hnone]
      · rwa [heq, get_insert_of_ne _ _ heq', get_erase_of_ne _ hother] at hfree

/-! ### A history -/

theorem Registry.noteScope (h : s.Registry) : (s.noteScope V scope now).Registry := by
  obtain ⟨hclock, henabled, -⟩ := @noteScope_cases V s scope now
  have hstamped : ∀ row ∈ (s.noteScope V scope now).scopes.rows, row.2.touched ≤ s.clock + 1 := fun row hrow => by
    rcases mem_noteScope hrow with ⟨old, hold, -, -, htouched⟩ | ⟨-, -, htouched⟩
    · rw [htouched]
      split_ifs
      · exact le_rfl
      · exact Nat.le_succ_of_le (h.stamped old hold)
    · exact htouched.le
  refine ⟨henabled.trans h.enabled, length_noteScope h.bounded, fun row hrow => ?_, fun row hrow => ?_,
    fun row hrow row' hrow' habove => ?_⟩
  · rcases mem_noteScope hrow with ⟨old, hold, hkey, hurl, -⟩ | ⟨hkey, hurl, -⟩
    · rw [hkey, hurl, h.keyed old hold]
    · rw [hkey, hurl]
  · rw [hclock]
    exact hstamped row hrow
  · rcases mem_noteScope hrow with ⟨old, hold, -, hurl, htouched⟩ | ⟨-, -, htouched⟩
    · rw [hurl] at habove
      by_cases hcovers : isAncestorOrSelf old.2.url.toParts scope.toParts = true
      · rw [htouched, if_pos hcovers]
        exact hstamped row' hrow'
      · -- what it covers does not cover the scope either
        rcases mem_noteScope hrow' with ⟨old', hold', -, hurl', htouched'⟩ | ⟨-, hurl', -⟩
        · rw [hurl'] at habove
          rw [htouched, htouched', if_neg hcovers,
            if_neg fun hcovers' => hcovers (isAncestorOrSelf_trans habove hcovers')]
          exact h.ordered old hold old' hold' habove
        · exact absurd (hurl' ▸ habove) hcovers
    · rw [htouched]
      exact hstamped row' hrow'

theorem registry_after (history : List Event) : (after U V true history).Registry := by
  unfold after
  induction history using List.reverseRecOn with
  | nil =>
    exact ⟨rfl, Nat.zero_le _, fun _ h => absurd h List.not_mem_nil, fun _ h => absurd h List.not_mem_nil,
      fun _ h => absurd h List.not_mem_nil⟩
  | append_singleton history event ih =>
    rw [List.foldl_append]
    generalize history.foldl (handle U V) (.new true) = s at ih
    cases event with
    | noteCached address time =>
      change (s.noteCached U V address time).Registry
      rw [noteCached, if_pos ih.enabled]
      cases scopeOf U address with
      | none => exact ih
      | some scope => exact ih.noteScope
    | deny scope mode root generation time => exact { ih with }
    | markWatched watched =>
      refine ⟨ih.enabled, (List.length_map _).trans_le ih.bounded, fun row hrow => ?_, fun row hrow => ?_,
        fun row hrow row' hrow' => ?_⟩
      all_goals obtain ⟨old, hmem, rfl⟩ := List.mem_map.mp hrow
      · exact ih.keyed old hmem
      · exact ih.stamped old hmem
      · obtain ⟨old', hmem', rfl⟩ := List.mem_map.mp hrow'
        exact ih.ordered old hmem old' hmem'

/-- The candidates are scopes of the table, each once. -/
theorem Registry.candidates (h : s.Registry) (ownedBy : Url → ℕ → Url → Bool) (now : Instant) :
    (s.candidates ownedBy now).Subperm (s.scopes.rows.map fun row => row.2.url) ∧ (s.candidates ownedBy now).Nodup := by
  have hsort :=
    (perm_sortByKeyDesc entryKey ((s.scopes.rows.map Prod.snd).filter (s.isLive ownedBy now))).map ScopeEntry.url
  have hsub : (((s.scopes.rows.map Prod.snd).filter (s.isLive ownedBy now)).map ScopeEntry.url).Sublist
      (s.scopes.rows.map fun row => row.2.url) := by
    have hall := (List.filter_sublist (p := s.isLive ownedBy now) (l := s.scopes.rows.map Prod.snd)).map ScopeEntry.url
    rwa [List.map_map] at hall
  have hnodup : (s.scopes.rows.map fun row => row.2.url).Nodup := by
    refine List.Nodup.of_map (fun u : Url => u.asStr) ?_
    have hkeys : s.scopes.rows.map Prod.fst = s.scopes.rows.map fun row => row.2.url.asStr :=
      List.map_congr_left h.keyed
    rw [List.map_map]
    exact hkeys ▸ s.scopes.nodup
  exact ⟨hsort.subperm.trans hsub.subperm, hsort.nodup_iff.mpr (hnodup.sublist hsub)⟩

/-- The registry stays bounded, its candidates are scopes of its own, each once, and a note drops nothing but the
coldest of the scopes that are not watched, or of all if all are; a directory is never colder than what it covers. -/
theorem registry_keeps_hot (U : UrlCrate) (V : Victims) (history : List Event) : (after U V true history).Registry ∧
    (∀ ownedBy now, ((after U V true history).candidates ownedBy now).Subperm
      ((after U V true history).scopes.rows.map fun row => row.2.url) ∧
      ((after U V true history).candidates ownedBy now).Nodup) ∧
    ∀ address now scope, scopeOf U address = some scope →
      Notes (after U V true history) ((after U V true history).noteCached U V address now) scope := by
  have hregistry := registry_after (U := U) (V := V) history
  refine ⟨hregistry, hregistry.candidates, fun address now scope hscope => ?_⟩
  rw [noteCached, if_pos hregistry.enabled, hscope]
  exact notes_noteScope

end WatchScopes

end OvStorage.Watch
