import OvStorage.ByteCache.Sections

/-!
# What an eviction sheds

`evict_to_limit` of `ovstorage-cache/src/byte.rs`, run by itself. Its loop walks the rows from the oldest on, skips
those whose blob is leased, and stops once the running total is within the budget: it sheds load (`shed`) off the
rows that are not leased. Blobs and tracking rows follow the rows: a blob is unlinked when its last row is gone, and
its tracking row is dropped once it is off the disk and nothing leases or pins it.

`cache_entries` is only ever narrowed for what was unlinked. A row that was stale before stays stale, and a blob that
is pinned but not leased goes while its row stays (`evictToLimit_leaves_rows`).
-/

namespace OvStorage.ByteCache

open List

/-! ### Shedding load -/

section Shed

variable {α : Type*} (limit : ℕ) (weight : α → ℕ)

/-- The first of the items, until the total without them is within the limit. -/
def shed : ℕ → List α → List α
  | _, [] => []
  | total, x :: xs => if total ≤ limit then [] else x :: shed (total - weight x) xs

/-- What they weigh. -/
def load (xs : List α) : ℕ := (xs.map weight).sum

variable {limit weight} {total : ℕ} {xs : List α}

theorem shed_of_le (h : total ≤ limit) : shed limit weight total xs = [] := by
  cases xs with
  | nil => rfl
  | cons x xs => exact if_pos h

theorem shed_initial : shed limit weight total xs <+: xs := by
  induction xs generalizing total with
  | nil => exact List.nil_prefix
  | cons x xs ih =>
    rw [shed]
    split_ifs
    · exact List.nil_prefix
    · exact cons_prefix_cons.mpr ⟨rfl, ih⟩

/-- Each item that is shed is shed above the limit. -/
theorem shed_needed {before : List α} {x : α} (h : before ++ [x] <+: shed limit weight total xs) :
    limit + load weight before < total := by
  induction xs generalizing total before with
  | nil => exact absurd (prefix_nil.mp h) (by simp)
  | cons y ys ih =>
    rw [shed] at h
    split_ifs at h with htotal
    · exact absurd (prefix_nil.mp h) (by simp)
    · cases before with
      | nil =>
        rw [load, map_nil, sum_nil]
        omega
      | cons z before =>
        obtain ⟨rfl, hrest⟩ := cons_prefix_cons.mp h
        have hlt := ih hrest
        rw [load, map_cons, sum_cons, ← load]
        omega

/-- Enough is shed, or everything. -/
theorem shed_enough : total ≤ limit + load weight (shed limit weight total xs) ∨ shed limit weight total xs = xs := by
  induction xs generalizing total with
  | nil => exact .inr rfl
  | cons x xs ih =>
    rw [shed]
    split_ifs with htotal
    · exact .inl (htotal.trans (Nat.le_add_right _ _))
    · rw [load, map_cons, sum_cons, ← load]
      rcases @ih (total - weight x) with hle | hall
      · exact .inl (by omega)
      · exact .inr (by rw [hall])

end Shed

namespace Store

variable {τ κ : Type*} [DecidableEq τ] [DecidableEq κ]

/-! ### The eviction -/

/-- `evict_to_limit`, with the rows in the order in which its query gives them: whether it succeeds, and the store. -/
def evictToLimit (readOnly : Bool) (maxBytes : Option ℕ) (disk : Disk κ) (s : Store τ κ)
    (victims : List (τ × EntryRow κ)) :
    Bool × Store τ κ :=
  if readOnly then (true, s)
  else
    match maxBytes with
    | none => (true, s)
    | some maxBytes =>
      let (s, filesToRemove) := s.evict maxBytes victims
      let untrack := filesToRemove.filter disk.unlinks
      let s := { s with files := untrack.foldl Table.erase s.files }
      (filesToRemove.all disk.unlinks, s.untrackAll untrack)

/-- The summed size of the rows. -/
def totalBytes (s : Store τ κ) : ℕ := s.entries.weight EntryRow.size

/-- The rows that no lease protects. -/
def unleased (s : Store τ κ) (victims : List (τ × EntryRow κ)) : List (τ × EntryRow κ) :=
  victims.filter fun victim => s.leaseCount victim.2.casKey = 0

/-- The rows that go. -/
def victimsShed (maxBytes : ℕ) (s : Store τ κ) (totalBytes : ℕ) (victims : List (τ × EntryRow κ)) :
    List (τ × EntryRow κ) :=
  shed maxBytes (fun victim => victim.2.size) totalBytes (s.unleased victims)

/-- The index without some rows. -/
def deleteEntries (s : Store τ κ) (removed : List (τ × EntryRow κ)) : Store τ κ :=
  removed.foldl (fun s victim => s.deleteEntry victim.1) s

section Victims

variable {maxBytes : ℕ} {s : Store τ κ} {total : ℕ} {victims removed : List (τ × EntryRow κ)} {target : τ}
  {row : EntryRow κ} {k : κ}

theorem evict_eq : s.evict maxBytes victims = evictVictims maxBytes s s.totalBytes victims := by
  unfold evict
  cases victims with
  | nil => exact ite_self _
  | cons victim victims =>
    rw [evictVictims]
    exact ite_eq_right_iff.mpr fun h => (if_pos h).symm

omit [DecidableEq τ] in
theorem victimsShed_of_leased (h : 0 < s.leaseCount row.casKey) :
    victimsShed maxBytes s total ((target, row) :: victims) = victimsShed maxBytes s total victims := by
  rw [victimsShed, unleased, filter_cons_of_neg (by simpa using h.ne')]
  rfl

theorem victimsShed_of_unleased (h : ¬0 < s.leaseCount row.casKey) (htotal : ¬total ≤ maxBytes) :
    victimsShed maxBytes s total ((target, row) :: victims) =
      (target, row) :: victimsShed maxBytes (s.deleteEntry target) (total - row.size) victims := by
  rw [victimsShed, unleased, filter_cons_of_pos (by simpa using h), shed, if_neg htotal]
  rfl

/-- The loop deletes the rows that are shed. -/
theorem evictVictims_fst :
    (evictVictims maxBytes s total victims).1 = s.deleteEntries (victimsShed maxBytes s total victims) := by
  induction victims generalizing s total with
  | nil => rfl
  | cons victim victims ih =>
    obtain ⟨target, row⟩ := victim
    simp only [evictVictims]
    split_ifs with htotal hleased
    · rw [victimsShed, shed_of_le htotal]
      rfl
    · rw [ih, victimsShed_of_leased hleased]
    all_goals
      rw [victimsShed_of_unleased hleased htotal]
      exact ih

/-- The rows that are there, each once. -/
structure Present (s : Store τ κ) (rows : List (τ × EntryRow κ)) : Prop where
  get : ∀ v ∈ rows, s.entries.get v.1 = some v.2
  nodup : (rows.map Prod.fst).Nodup

section

omit [DecidableEq κ]

theorem Present.tail {victim : τ × EntryRow κ} (h : s.Present (victim :: removed)) :
    (s.deleteEntry victim.1).Present removed := by
  obtain ⟨hnot, hnodup⟩ := nodup_cons.mp h.nodup
  refine ⟨fun v hv => ?_, hnodup⟩
  have hne : v.1 ≠ victim.1 := fun hsame => hnot (hsame ▸ mem_map_of_mem hv)
  exact (Table.get_erase_of_ne _ hne).trans (h.get v (mem_cons_of_mem _ hv))

theorem Present.sublist {rows : List (τ × EntryRow κ)} (h : s.Present rows) (hsub : removed.Sublist rows) :
    s.Present removed :=
  ⟨fun v hv => h.get v (hsub.subset hv), h.nodup.sublist (hsub.map _)⟩

theorem VictimOrder.present (h : s.VictimOrder victims) : s.Present victims :=
  ⟨fun _ hv => Table.mem_rows_iff.mp (h.1.mem_iff.mp hv), (h.1.map Prod.fst).nodup_iff.mpr s.entries.nodup⟩

end

omit [DecidableEq τ] in
theorem victimsShed_initial : victimsShed maxBytes s total victims <+: s.unleased victims := shed_initial

theorem Present.shed (h : s.Present victims) : s.Present (victimsShed maxBytes s total victims) :=
  h.sublist (victimsShed_initial.sublist.trans filter_sublist)

section

omit [DecidableEq κ]

theorem deleteEntries_frame (s : Store τ κ) (removed : List (τ × EntryRow κ)) :
    (s.deleteEntries removed).files = s.files ∧ (s.deleteEntries removed).cacheEntries = s.cacheEntries := by
  induction removed generalizing s with
  | nil => exact ⟨rfl, rfl⟩
  | cons victim removed ih => exact ih (s.deleteEntry victim.1)

/-- What is left of the rows. -/
theorem mem_deleteEntries (h : s.Present removed) {v : τ × EntryRow κ} :
    v ∈ (s.deleteEntries removed).entries.rows ↔ v ∈ s.entries.rows ∧ v ∉ removed := by
  induction removed generalizing s with
  | nil => simp [deleteEntries]
  | cons victim removed ih =>
    rw [deleteEntries, foldl_cons, ← deleteEntries, ih h.tail, deleteEntry, Table.mem_erase, mem_cons,
      not_or, and_assoc]
    refine and_congr_right fun hv => and_congr_left fun _ =>
      not_congr ⟨fun hsame => ?_, fun hsame => congrArg Prod.fst hsame⟩
    have hget := Table.mem_rows_iff.mp hv
    rw [hsame, h.get victim mem_cons_self] at hget
    exact Prod.ext hsame (Option.some.inj hget).symm

/-- What is left of the load. -/
theorem totalBytes_deleteEntries (h : s.Present removed) :
    (s.deleteEntries removed).totalBytes + load (fun victim => victim.2.size) removed = s.totalBytes := by
  induction removed generalizing s with
  | nil => rfl
  | cons victim removed ih =>
    have hsplit : (s.deleteEntry victim.1).totalBytes + victim.2.size = s.totalBytes :=
      Table.weight_erase EntryRow.size (h.get victim mem_cons_self)
    rw [deleteEntries, foldl_cons, ← deleteEntries, load, map_cons, sum_cons, ← load, ← hsplit, ← ih h.tail]
    omega

end

/-- A blob that is named still has a row that is not shed. -/
theorem referenced_deleteEntries (h : s.Present removed) :
    (s.deleteEntries removed).referenced k = true ↔ ∃ v ∈ s.entries.rows, v ∉ removed ∧ v.2.casKey = k := by
  simp only [referenced, any_eq_true, beq_iff_eq, mem_deleteEntries h, and_assoc]

/-- A blob that is no longer named had a row that was shed. -/
theorem exists_of_lost (h : s.Present removed) (hbefore : s.referenced k = true)
    (hafter : (s.deleteEntries removed).referenced k = false) :
    ∃ v ∈ removed, v.2.casKey = k := by
  obtain ⟨v, hv, hkey⟩ := any_eq_true.mp hbefore
  by_contra hnone
  refine Bool.false_ne_true (hafter.symm.trans
    ((referenced_deleteEntries h).mpr ⟨v, hv, fun hmem => ?_, beq_iff_eq.mp hkey⟩))
  exact hnone ⟨v, hmem, beq_iff_eq.mp hkey⟩

/-- A blob that is still named was named. -/
theorem referenced_of_deleteEntries (h : s.Present removed) (hafter : (s.deleteEntries removed).referenced k = true) :
    s.referenced k = true := by
  obtain ⟨v, hv, -, hkey⟩ := (referenced_deleteEntries h).mp hafter
  exact any_eq_true.mpr ⟨v, hv, beq_iff_eq.mpr hkey⟩

/-- The blobs that are selected: those that the loop takes the last row of. -/
theorem mem_evictVictims_snd (h : s.Present victims) :
    k ∈ (evictVictims maxBytes s total victims).2 ↔
      (∃ v ∈ victimsShed maxBytes s total victims, v.2.casKey = k) ∧
        (evictVictims maxBytes s total victims).1.referenced k = false := by
  induction victims generalizing s total with
  | nil => simp [evictVictims, victimsShed, unleased, shed]
  | cons victim victims ih =>
    obtain ⟨target, row⟩ := victim
    simp only [evictVictims]
    split_ifs with htotal hleased href
    · rw [victimsShed, shed_of_le htotal]
      simp
    · rw [victimsShed_of_leased hleased]
      exact ih (h.sublist (sublist_cons_self _ _))
    all_goals
      rw [victimsShed_of_unleased hleased htotal]
      have hrest := @ih (s.deleteEntry target) (total - row.size) h.tail
      have hshed : (s.deleteEntry target).Present
        (victimsShed maxBytes (s.deleteEntry target) (total - row.size) victims) := h.tail.shed
      rw [evictVictims_fst] at hrest ⊢
    · rw [hrest, exists_mem_cons_iff]
      refine and_congr_left fun hlost => ⟨Or.inr, ?_⟩
      rintro (rfl | hmem)
      · exact exists_of_lost hshed href hlost
      · exact hmem
    · rw [mem_cons, hrest, exists_mem_cons_iff]
      constructor
      · rintro (rfl | ⟨hmem, hlost⟩)
        · refine ⟨.inl rfl, Bool.eq_false_iff.mpr fun hafter => href (referenced_of_deleteEntries hshed hafter)⟩
        · exact ⟨.inr hmem, hlost⟩
      · rintro ⟨rfl | hmem, hlost⟩
        · exact .inl rfl
        · exact .inr ⟨hmem, hlost⟩

end Victims

/-! ### What an eviction does -/

/-- The blob was named by a row, and is no more. -/
def Lost (s s' : Store τ κ) (k : κ) : Prop := s.referenced k = true ∧ s'.referenced k = false

instance (s s' : Store τ κ) (k : κ) : Decidable (Lost s s' k) := inferInstanceAs (Decidable (_ ∧ _))

/-- What an eviction does that removes some of its candidates. -/
structure Evicts (maxBytes : ℕ) (disk : Disk κ) (s s' : Store τ κ) (victims removed : List (τ × EntryRow κ)) :
    Prop where
  /-- The rows go in the order of the candidates, past those that are leased. -/
  in_order : removed <+: s.unleased victims
  entries : ∀ row, row ∈ s'.entries.rows ↔ row ∈ s.entries.rows ∧ row ∉ removed
  /-- Before each of them the rows are over the budget. -/
  needed : ∀ before victim, before ++ [victim] <+: removed →
    maxBytes + load (fun victim => victim.2.size) before < s.totalBytes
  /-- After them they are not, or what is left is leased. -/
  enough : s'.totalBytes ≤ maxBytes ∨ ∀ row ∈ s'.entries.rows, 0 < s.leaseCount row.2.casKey
  /-- A blob is unlinked whose last row went. -/
  files : ∀ k, s'.files.get k = if Lost s s' k ∧ disk.unlinks k = true then none else s.files.get k
  /-- So is its tracking row dropped, unless it is pinned. -/
  cacheEntries : ∀ k, s'.cacheEntries.get k =
    if (Lost s s' k ∧ disk.unlinks k = true) ∧ s.pinned k = 0 then none else s.cacheEntries.get k

section Evicts

variable {maxBytes : ℕ} {disk : Disk κ} {s s' : Store τ κ} {victims removed : List (τ × EntryRow κ)}

omit [DecidableEq τ] in
/-- No row goes whose blob is leased. -/
theorem Evicts.spares (h : Evicts maxBytes disk s s' victims removed) {row : τ × EntryRow κ}
    (hrow : row ∈ s.entries.rows) (hleased : 0 < s.leaseCount row.2.casKey) : row ∈ s'.entries.rows := by
  refine (h.entries row).mpr ⟨hrow, fun hmem => ?_⟩
  have hunleased := of_mem_filter (h.in_order.subset hmem)
  exact hleased.ne' (of_decide_eq_true hunleased)

omit [DecidableEq τ] in
/-- Of an index that tracks the blobs on disk, and pins none, it leaves one that does. -/
theorem Evicts.tracks (h : Evicts maxBytes disk s s' victims removed) (hpins : ∀ k, s.pinned k = s.leaseCount k)
    (htracked : ∀ k, s.tracked k = s.exists_ k) (k : κ) : s'.tracked k = s'.exists_ k := by
  unfold tracked exists_
  rw [h.files, h.cacheEntries]
  by_cases hgone : Lost s s' k ∧ disk.unlinks k = true
  · have hunpinned : s.pinned k = 0 := by
      obtain ⟨⟨row, hrow, hkey⟩, hlost⟩ : (∃ row ∈ s.entries.rows, row.2.casKey = k) ∧ s'.referenced k = false := by
        obtain ⟨row, hrow, hkey⟩ := any_eq_true.mp hgone.1.1
        exact ⟨⟨row, hrow, beq_iff_eq.mp hkey⟩, hgone.1.2⟩
      by_contra hpinned
      have hkept := h.spares hrow (by rw [hkey, ← hpins]; exact Nat.pos_of_ne_zero hpinned)
      exact Bool.false_ne_true (hlost.symm.trans (any_eq_true.mpr ⟨row, hkept, beq_iff_eq.mpr hkey⟩))
    rw [if_pos hgone, if_pos ⟨hgone, hunpinned⟩]
    rfl
  · rw [if_neg hgone, if_neg fun h => hgone h.1]
    exact htracked k

end Evicts

section Phases

variable {maxBytes : ℕ} {disk : Disk κ} {s : Store τ κ} {victims : List (τ × EntryRow κ)}

/-- The store after phase 2: the rows are shed, and the blobs of `untrack` unlinked. -/
def afterUnlinks (s : Store τ κ) (removed : List (τ × EntryRow κ)) (untrack : List κ) : Store τ κ :=
  { s.deleteEntries removed with files := untrack.foldl Table.erase (s.deleteEntries removed).files }

theorem evictToLimit_snd : (s.evictToLimit false (some maxBytes) disk victims).2 =
    (s.afterUnlinks (victimsShed maxBytes s s.totalBytes victims)
      ((evictVictims maxBytes s s.totalBytes victims).2.filter disk.unlinks)).untrackAll
      ((evictVictims maxBytes s s.totalBytes victims).2.filter disk.unlinks) := by
  rw [afterUnlinks, ← evictVictims_fst, ← evict_eq]
  rfl

/-- What is selected is what loses its last row. -/
theorem mem_selected_iff (h : s.Present victims) (hrows : ∀ v ∈ victims, v ∈ s.entries.rows) (k : κ) :
    k ∈ (evictVictims maxBytes s s.totalBytes victims).2 ↔
      Lost s (s.deleteEntries (victimsShed maxBytes s s.totalBytes victims)) k := by
  rw [mem_evictVictims_snd h, evictVictims_fst]
  refine ⟨?_, fun hlost => ⟨exists_of_lost h.shed hlost.1 hlost.2, hlost.2⟩⟩
  rintro ⟨⟨v, hv, hkey⟩, hlost⟩
  have hvictim : v ∈ victims := mem_of_mem_filter (victimsShed_initial.subset hv)
  exact ⟨any_eq_true.mpr ⟨v, hrows v hvictim, beq_iff_eq.mpr hkey⟩, hlost⟩

end Phases

theorem exists_evicts (maxBytes : ℕ) (disk : Disk κ) {s : Store τ κ} {victims : List (τ × EntryRow κ)}
    (h : s.VictimOrder victims) :
    ∃ removed, Evicts maxBytes disk s (s.evictToLimit false (some maxBytes) disk victims).2 victims removed := by
  rw [evictToLimit_snd]
  refine ⟨victimsShed maxBytes s s.totalBytes victims, ?_⟩
  have hselected : ∀ k, k ∈ (evictVictims maxBytes s s.totalBytes victims).2 ↔ _ :=
    mem_selected_iff h.present fun v hv => h.1.mem_iff.mp hv
  have hshed : s.Present (victimsShed maxBytes s s.totalBytes victims) := h.present.shed
  generalize hremoved : victimsShed maxBytes s s.totalBytes victims = removed at hselected hshed ⊢
  generalize (evictVictims maxBytes s s.totalBytes victims).2 = filesToRemove at hselected ⊢
  obtain ⟨hfiles, hcacheEntries⟩ := deleteEntries_frame s removed
  obtain ⟨hentries, hunlinked, -⟩ :=
    get_untrackAll (s.afterUnlinks removed (filesToRemove.filter disk.unlinks)) (filesToRemove.filter disk.unlinks)
  generalize hs' : (s.afterUnlinks removed (filesToRemove.filter disk.unlinks)).untrackAll
    (filesToRemove.filter disk.unlinks) = s'
    at hentries hunlinked ⊢
  replace hentries : s'.entries = (s.deleteEntries removed).entries := hentries
  have href : ∀ k, s'.referenced k = (s.deleteEntries removed).referenced k := fun k => by
    rw [referenced, hentries, ← referenced]
  have hlost : ∀ k, k ∈ filesToRemove.filter disk.unlinks ↔ Lost s s' k ∧ disk.unlinks k = true := by
    intro k
    rw [mem_filter, hselected, Lost, Lost, href]
  constructor
  · exact hremoved ▸ victimsShed_initial
  · intro row
    rw [hentries]
    exact mem_deleteEntries hshed
  · intro before victim hbefore
    exact shed_needed (hremoved ▸ hbefore)
  · have htotal : s'.totalBytes + load (fun victim => victim.2.size) removed = s.totalBytes := by
      rw [← totalBytes_deleteEntries hshed, totalBytes, hentries, ← totalBytes]
    rcases @shed_enough _ maxBytes
      (fun victim : τ × EntryRow κ => victim.2.size) s.totalBytes (s.unleased victims) with hle | hall
    · rw [← victimsShed, hremoved] at hle
      exact .inl (by omega)
    · rw [← victimsShed, hremoved] at hall
      refine .inr fun row hrow => Nat.pos_of_ne_zero fun hunleased => ?_
      rw [hentries, mem_deleteEntries hshed, hall] at hrow
      exact hrow.2 (mem_filter.mpr ⟨h.1.mem_iff.mpr hrow.1, decide_eq_true hunleased⟩)
  · intro k
    rw [hunlinked, afterUnlinks, Table.get_foldl_erase, hfiles]
    exact if_congr (hlost k) rfl rfl
  · intro k
    have hmid : (s.afterUnlinks removed (filesToRemove.filter disk.unlinks)).cacheEntries = s.cacheEntries :=
      hcacheEntries
    have hpinned : (s.afterUnlinks removed (filesToRemove.filter disk.unlinks)).pinned k = s.pinned k := by
      rw [pinned, hmid, ← pinned]
    rw [← hs', cacheEntries_untrackAll, hs', hmid]
    refine if_congr ?_ rfl rfl
    rw [hlost, casIsReclaimable_iff, hpinned]
    constructor
    · exact fun hdropped => ⟨hdropped.1, hdropped.2.2⟩
    · exact fun hgone => ⟨hgone.1, (href k).symm.trans hgone.1.1.2, hgone.2⟩

/-- **An eviction sheds the oldest rows that are not leased** until the rest is within the budget, and with their last
rows the blobs and what tracks them. -/
theorem evictToLimit_evicts (maxBytes : ℕ) (disk : Disk κ) {s : Store τ κ} {victims : List (τ × EntryRow κ)}
    (h : s.VictimOrder victims) :
    let s' := (s.evictToLimit false (some maxBytes) disk victims).2
    (∃ removed, Evicts maxBytes disk s s' victims removed) ∧
      (∀ row ∈ s.entries.rows, 0 < s.leaseCount row.2.casKey → row ∈ s'.entries.rows) ∧
      ((∀ k, s.pinned k = s.leaseCount k) → (∀ k, s.tracked k = s.exists_ k) → ∀ k, s'.tracked k = s'.exists_ k) := by
  obtain ⟨removed, hevicts⟩ := exists_evicts maxBytes disk h
  exact ⟨⟨removed, hevicts⟩, fun _ hrow hleased => hevicts.spares hrow hleased, hevicts.tracks⟩

/-! ### Two targets of one blob -/

namespace Samples

/-- A file system that does what it is asked. -/
def willing : Disk ℕ := ⟨true, true, fun _ => true⟩

/-- Two targets of the blob `7`, and one of the blob `8`, which is leased. -/
def shared : Store String ℕ where
  entries := ((Table.empty.insert "a" ⟨7, 4, 10, 10⟩).insert "b" ⟨7, 4, 20, 30⟩).insert "c" ⟨8, 5, 20, 20⟩
  cacheEntries := (Table.empty.insert 7 ⟨4, 0, 0⟩).insert 8 ⟨5, 0, 1⟩
  files := (Table.empty.insert 7 ⟨4, 7⟩).insert 8 ⟨5, 8⟩

/-- Its rows, from the oldest on. -/
def oldestFirst : List (String × EntryRow ℕ) := [("a", ⟨7, 4, 10, 10⟩), ("c", ⟨8, 5, 20, 20⟩), ("b", ⟨7, 4, 20, 30⟩)]

/-- A tracking row without a blob. -/
def stale : Store String ℕ := ⟨Table.empty, Table.empty.insert 7 ⟨4, 0, 0⟩, Table.empty⟩

/-- A blob that is pinned, and not leased. -/
def pinnedBlob : Store String ℕ :=
  ⟨Table.empty.insert "a" ⟨7, 4, 10, 10⟩, Table.empty.insert 7 ⟨4, 1, 0⟩, Table.empty.insert 7 ⟨4, 7⟩⟩

end Samples

open Samples in
/-- What is leased stays, also over the budget. -/
theorem evictToLimit_evicts_shared :
    let s' := (shared.evictToLimit false (some 4) willing oldestFirst).2
    (∃ removed, Evicts 4 willing shared s' oldestFirst removed) ∧
      (∀ row ∈ shared.entries.rows, 0 < shared.leaseCount row.2.casKey → row ∈ s'.entries.rows) ∧
      ∀ k, s'.tracked k = s'.exists_ k := by
  obtain ⟨hevicts, hspares, htracks⟩ := evictToLimit_evicts 4 willing (show shared.VictimOrder oldestFirst by decide)
  refine ⟨hevicts, hspares, htracks (fun k => ?_) fun k => ?_⟩
  · by_cases h8 : k = 8
    · subst h8
      rfl
    · by_cases h7 : k = 7
      · subst h7
        rfl
      · simp [pinned, leaseCount, shared, Table.get_insert_of_ne, h8, h7]
  · by_cases h8 : k = 8
    · subst h8
      rfl
    · by_cases h7 : k = 7
      · subst h7
        rfl
      · simp [tracked, exists_, shared, Table.get_insert_of_ne, h8, h7]

open Samples in
/-- A stale tracking row stays, and so does that of a pinned blob which goes. -/
theorem evictToLimit_leaves_rows :
    (stale.VictimOrder [] ∧ (stale.evictToLimit false (some 0) willing []).2.tracked 7 = true ∧
      (stale.evictToLimit false (some 0) willing []).2.exists_ 7 = false) ∧
    pinnedBlob.VictimOrder [("a", ⟨7, 4, 10, 10⟩)] ∧
      (pinnedBlob.evictToLimit false (some 0) willing [("a", ⟨7, 4, 10, 10⟩)]).2.tracked 7 = true ∧
      (pinnedBlob.evictToLimit false (some 0) willing [("a", ⟨7, 4, 10, 10⟩)]).2.exists_ 7 = false := by
  decide

end Store

end OvStorage.ByteCache
