import OvStorage.ByteCache.Store

/-!
# What the critical sections of the byte cache do
-/

namespace OvStorage.ByteCache

open Table

variable {τ κ : Type*} [DecidableEq τ] [DecidableEq κ]

namespace Store

/-! ### The queries -/

variable {s s' : Store τ κ} {k k' : κ}

theorem referenced_iff : s.referenced k = true ↔ ∃ target row, s.entries.get target = some row ∧ row.casKey = k := by
  simp only [referenced, List.any_eq_true, beq_iff_eq, Prod.exists, mem_rows_iff]

variable {target : τ}

theorem referenced_of_get {row : EntryRow κ} (h : s.entries.get target = some row) :
    s.referenced row.casKey = true := referenced_iff.mpr ⟨target, row, h, rfl⟩

section

omit [DecidableEq τ]

theorem leaseCount_le_pinned (s : Store τ κ) (k : κ) : s.leaseCount k ≤ s.pinned k := by
  unfold leaseCount pinned
  cases s.cacheEntries.get k with
  | none => exact le_rfl
  | some row => exact Nat.le_add_right _ _

theorem tracked_of_pinned (h : 0 < s.pinned k) : s.tracked k = true := by
  unfold pinned at h
  unfold tracked
  cases hk : s.cacheEntries.get k with
  | none => simp [hk] at h
  | some row => rfl

theorem casIsReclaimable_iff : s.casIsReclaimable k = true ↔ s.referenced k = false ∧ s.pinned k = 0 := by
  simp [casIsReclaimable]

/-- A tracking row that goes takes no count with it when the blob was not pinned. -/
theorem pinned_congr (h : s'.cacheEntries.get k = s.cacheEntries.get k ∨ s'.cacheEntries.get k = none ∧
      s.pinned k = 0) :
    s'.pinned k = s.pinned k := by
  rcases h with h | ⟨h, h0⟩
  · unfold pinned
    rw [h]
  · rw [h0]
    unfold pinned
    rw [h]
    rfl

theorem leaseCount_congr
    (h : s'.cacheEntries.get k = s.cacheEntries.get k ∨ s'.cacheEntries.get k = none ∧ s.pinned k = 0) :
    s'.leaseCount k = s.leaseCount k := by
  rcases h with h | ⟨h, h0⟩
  · unfold leaseCount
    rw [h]
  · have hle := leaseCount_le_pinned s k
    have hz : s.leaseCount k = 0 := by omega
    rw [hz]
    unfold leaseCount
    rw [h]
    rfl

@[simp] theorem referenced_unlinkAndUntrack (s : Store τ κ) (k k' : κ) :
    (s.unlinkAndUntrack k).referenced k' = s.referenced k' := rfl

@[simp] theorem entries_unlinkAndUntrack (s : Store τ κ) (k : κ) : (s.unlinkAndUntrack k).entries = s.entries := rfl

@[simp] theorem files_unlinkAndUntrack (s : Store τ κ) (k : κ) : (s.unlinkAndUntrack k).files = s.files.erase k := rfl

@[simp] theorem cacheEntries_unlinkAndUntrack (s : Store τ κ) (k : κ) :
    (s.unlinkAndUntrack k).cacheEntries = s.cacheEntries.erase k := rfl

end

/-! ### Removals -/

/-- What a removal does, the keys of `pending` still to be reclaimed: it drops rows of the
index, and it unlinks and untracks blobs that nothing names or pins. -/
structure Trims (disk : Disk κ) (pending : List κ) (s s' : Store τ κ) : Prop where
  /-- Rows go, and no row changes. -/
  entries : ∀ target, s'.entries.get target = s.entries.get target ∨ s'.entries.get target = none
  /-- Only an unpinned blob goes. -/
  files : ∀ k, s'.files.get k = s.files.get k ∨ s'.files.get k = none ∧ s.pinned k = 0
  /-- Only a blob that is gone and that no row names is untracked. -/
  cacheEntries : ∀ k, s'.cacheEntries.get k = s.cacheEntries.get k ∨
    s'.cacheEntries.get k = none ∧ s.pinned k = 0 ∧ s'.referenced k = false ∧ s'.files.get k = none
  /-- A blob that lost its last row and is still there is pinned, or could not be unlinked. -/
  reclaimed : ∀ k, k ∉ pending → s.referenced k = true → s'.referenced k = false → s'.exists_ k = true →
    0 < s.pinned k ∨ disk.unlinks k = false

namespace Trims

variable {disk : Disk κ} {pending : List κ} {s s' s'' : Store τ κ}

theorem refl (disk : Disk κ) (s : Store τ κ) : Trims disk pending s s where
  entries _ := Or.inl rfl
  files _ := Or.inl rfl
  cacheEntries _ := Or.inl rfl
  reclaimed k _ h h' := by simp [h] at h'

theorem pinned (h : Trims disk pending s s') (k : κ) : s'.pinned k = s.pinned k :=
  pinned_congr ((h.cacheEntries k).imp id fun h => ⟨h.1, h.2.1⟩)

theorem leaseCount (h : Trims disk pending s s') (k : κ) : s'.leaseCount k = s.leaseCount k :=
  leaseCount_congr ((h.cacheEntries k).imp id fun h => ⟨h.1, h.2.1⟩)

variable {k : κ}

theorem referenced (h : Trims disk pending s s') (hr : s'.referenced k = true) : s.referenced k = true := by
  obtain ⟨target, row, hg, rfl⟩ := referenced_iff.mp hr
  rcases h.entries target with he | he
  · exact referenced_of_get (he ▸ hg)
  · simp [he] at hg

theorem exists_ (h : Trims disk pending s s') (he : s'.exists_ k = true) : s.exists_ k = true := by
  unfold Store.exists_ at he ⊢
  rcases h.files k with hf | ⟨hf, -⟩
  · rwa [hf] at he
  · simp [hf] at he

/-- A file that is leased stays. -/
theorem exists_of_leased (h : Trims disk pending s s') (hl : s.leaseCount k ≠ 0) (he : s.exists_ k = true) :
    s'.exists_ k = true := by
  unfold Store.exists_ at he ⊢
  rcases h.files k with hf | ⟨-, hp⟩
  · rwa [hf]
  · have := leaseCount_le_pinned s k
    omega

/-- One reclamation settles the key it is for. -/
theorem reclaim (h : Trims disk (k :: pending) s s') : Trims disk pending s (s'.reclaimUnreferencedCas disk k) := by
  unfold reclaimUnreferencedCas
  by_cases hk : s'.casIsReclaimable k = true
  · obtain ⟨hr, hp⟩ := casIsReclaimable_iff.mp hk
    rw [h.pinned k] at hp
    simp only [hk, Bool.not_true, Bool.false_eq_true, if_false]
    cases hu : disk.unlinks k with
    | false =>
      simp only [Bool.false_eq_true, if_false]
      refine ⟨h.entries, h.files, h.cacheEntries, fun k' hk' => ?_⟩
      by_cases hkk : k' = k
      · exact fun _ _ _ => Or.inr (hkk ▸ hu)
      · exact h.reclaimed k' (by simp [hkk, hk'])
    | true =>
      simp only [if_true]
      refine ⟨h.entries, fun k' => ?_, fun k' => ?_, fun k' hk' hr hr' he => ?_⟩
      · by_cases hkk : k' = k
        · exact Or.inr ⟨by simp [hkk], hkk ▸ hp⟩
        · simpa [get_erase_of_ne _ hkk] using h.files k'
      · by_cases hkk : k' = k
        · exact Or.inr ⟨by simp [hkk], hkk ▸ hp, hkk ▸ hr, by simp [hkk]⟩
        · simpa [get_erase_of_ne _ hkk] using h.cacheEntries k'
      · by_cases hkk : k' = k
        · simp [Store.exists_, hkk] at he
        · refine h.reclaimed k' (by simp [hkk, hk']) hr hr' ?_
          simpa [Store.exists_, get_erase_of_ne _ hkk] using he
  · simp only [Bool.not_eq_true] at hk
    simp only [hk, Bool.not_false, if_true]
    refine ⟨h.entries, h.files, h.cacheEntries, fun k' hk' _ hr' _ => ?_⟩
    by_cases hkk : k' = k
    · subst hkk
      left
      rw [← h.pinned k']
      simpa [casIsReclaimable, hr', Nat.pos_iff_ne_zero] using hk
    · exact h.reclaimed k' (by simp [hkk, hk']) ‹_› hr' ‹_›

/-- Reclaiming in turn settles every key. -/
theorem reclaimAll {keys : List κ} (h : Trims disk keys s s') :
    Trims disk [] s (keys.foldl (reclaimUnreferencedCas disk) s') := by
  induction keys generalizing s' with
  | nil => exact h
  | cons k keys ih => exact ih h.reclaim

theorem trans {pending' : List κ} (h : Trims disk pending s s') (h' : Trims disk pending' s' s'') :
    Trims disk (pending ++ pending') s s'' where
  entries target := by
    rcases h'.entries target with he | he
    · rw [he]
      exact h.entries target
    · exact Or.inr he
  files k := by
    rcases h'.files k with hf | ⟨hf, hp⟩
    · rw [hf]
      exact h.files k
    · exact Or.inr ⟨hf, (h.pinned k).symm.trans hp⟩
  cacheEntries k := by
    rcases h'.cacheEntries k with hc | ⟨hc, hp, hr, hf⟩
    · rw [hc]
      refine (h.cacheEntries k).imp id fun ⟨hn, hp, hr, hf⟩ => ⟨hn, hp, ?_, ?_⟩
      · exact Bool.eq_false_iff.mpr fun hr' => by simp [h'.referenced hr'] at hr
      · rcases h'.files k with hf' | ⟨hf', -⟩
        · rw [hf', hf]
        · exact hf'
    · exact Or.inr ⟨hc, (h.pinned k).symm.trans hp, hr, hf⟩
  reclaimed k hk hr hr' he := by
    rw [List.mem_append, not_or] at hk
    cases hm : s'.referenced k with
    | true => simpa [h.pinned k] using h'.reclaimed k hk.2 hm hr' he
    | false => exact h.reclaimed k hk.1 hr hm (h'.exists_ he)

/-- Rows dropped from the index alone. -/
theorem of_retain (disk : Disk κ) {keep : τ → EntryRow κ → Bool}
    (h : ∀ target row, s.entries.get target = some row → keep target row = false →
      row.casKey ∈ pending ∨ s.exists_ row.casKey = false) :
    Trims disk pending s { s with entries := s.entries.retain keep } where
  entries target := by
    rw [get_retain]
    cases hg : s.entries.get target with
    | none => exact Or.inl rfl
    | some row => cases hk : keep target row <;> simp [hk]
  files _ := Or.inl rfl
  cacheEntries _ := Or.inl rfl
  reclaimed k hk hr hr' he := by
    obtain ⟨target, row, hg, rfl⟩ := referenced_iff.mp hr
    cases hkeep : keep target row with
    | true =>
      have hg' : (s.entries.retain keep).get target = some row := by rw [get_retain, hg]; simp [hkeep]
      have hr'' : ({ s with entries := s.entries.retain keep } : Store τ κ).referenced row.casKey = true :=
        referenced_iff.mpr ⟨target, row, hg', rfl⟩
      rw [hr''] at hr'
      cases hr'
    | false =>
      rcases h target row hg hkeep with hm | hf
      · exact absurd hm hk
      · exact absurd (hf.symm.trans (he : s.exists_ row.casKey = true)) Bool.false_ne_true

/-- One row dropped, whose key is then to be reclaimed. -/
theorem deleteEntry (disk : Disk κ) {row : EntryRow κ} (h : s.entries.get target = some row) :
    Trims disk [row.casKey] s (s.deleteEntry target) := by
  apply of_retain
  intro target' row' hg hk
  obtain rfl : target' = target := by simpa using hk
  rw [h] at hg
  cases hg
  exact Or.inl List.mem_cons_self

theorem deleteEntry_of_none (disk : Disk κ) (h : s.entries.get target = none) :
    Trims disk [] s (s.deleteEntry target) := by
  apply of_retain
  intro target' row' hg hk
  obtain rfl : target' = target := by simpa using hk
  simp [h] at hg

/-- What is named again or gone is not pending. -/
theorem drop_head (h : Trims disk [k] s s') (hr : s'.referenced k = true) : Trims disk [] s s' where
  entries := h.entries
  files := h.files
  cacheEntries := h.cacheEntries
  reclaimed k' _ hk hk' := h.reclaimed k' (by simp only [List.mem_singleton]; rintro rfl; simp [hr] at hk') hk hk'

end Trims

omit [DecidableEq κ] in
theorem currentCasKey_eq_some (h : s.currentCasKey target = some k) :
    ∃ row, s.entries.get target = some row ∧ row.casKey = k := by
  simpa [currentCasKey] using h

omit [DecidableEq κ] in
theorem currentCasKey_eq_none : s.currentCasKey target = none ↔ s.entries.get target = none := by
  simp [currentCasKey]

theorem removeIndex_trims (disk : Disk κ) (s : Store τ κ) (target : τ) :
    Trims disk [] s (s.removeIndex disk target) := by
  unfold removeIndex
  split
  next casKey h =>
    obtain ⟨row, hg, rfl⟩ := currentCasKey_eq_some h
    exact (Trims.deleteEntry disk hg).reclaim
  next h => exact Trims.deleteEntry_of_none disk (currentCasKey_eq_none.mp h)

theorem compareAndRemove_trims (disk : Disk κ) (s : Store τ κ) (target : τ) (expected : Option κ) :
    Trims disk [] s (s.compareAndRemove disk target expected).2 := by
  unfold compareAndRemove
  split
  · exact Trims.refl disk s
  · split
    next => exact Trims.refl disk s
    next casKey h =>
      obtain ⟨row, hg, rfl⟩ := currentCasKey_eq_some h
      exact (Trims.deleteEntry disk hg).reclaim

theorem removeIndexReturning_trims (disk : Disk κ) (s : Store τ κ) (target : τ) :
    Trims disk [] s (s.removeIndexReturning disk target) := by
  unfold removeIndexReturning
  split
  next => exact Trims.refl disk s
  next row hg =>
    split
    next => exact Trims.refl disk s
    next =>
      split
      · exact Trims.refl disk s
      · exact (Trims.deleteEntry disk hg).reclaim

theorem removePrefix_trims (disk : Disk κ) (s : Store τ κ) (startsWith : τ → Bool) :
    Trims disk [] s (s.removePrefix disk startsWith) := by
  apply Trims.reclaimAll
  apply Trims.of_retain
  intro target row hg hk
  left
  refine List.mem_map.mpr ⟨(target, row), List.mem_filter.mpr ⟨mem_rows_iff.mpr hg, ?_⟩, rfl⟩
  simpa using hk

theorem recover_trims (disk : Disk κ) (s : Store τ κ) : Trims disk [] s (s.recover disk) := by
  apply Trims.reclaimAll
  apply Trims.of_retain
  intro target row hg hk
  exact Or.inr hk

variable {victims : List (τ × EntryRow κ)}

/-- Eviction's victim loop: what it drops and does not leave named is selected, and no leased
blob is. -/
theorem evictVictims_trims (disk : Disk κ) (maxBytes : ℕ) {totalBytes : ℕ}
    (hv : ∀ v ∈ victims, s.entries.get v.1 = some v.2) (hn : (victims.map Prod.fst).Nodup) :
    Trims disk (evictVictims maxBytes s totalBytes victims).2 s (evictVictims maxBytes s totalBytes victims).1 ∧
      (∀ k ∈ (evictVictims maxBytes s totalBytes victims).2, s.leaseCount k = 0) ∧
      (evictVictims maxBytes s totalBytes victims).1.files = s.files := by
  induction victims generalizing s totalBytes with
  | nil => exact ⟨Trims.refl disk s, by simp [evictVictims], rfl⟩
  | cons v victims ih =>
    obtain ⟨target, row⟩ := v
    rw [List.map_cons, List.nodup_cons] at hn
    simp only [evictVictims]
    split_ifs with ht hl hr
    · exact ⟨Trims.refl disk s, by simp, rfl⟩
    · exact ih (fun v hm => hv v (List.mem_cons_of_mem _ hm)) hn.2
    all_goals
      have hdrop := Trims.deleteEntry disk (hv _ List.mem_cons_self)
      have hkeep : ∀ v ∈ victims, (s.deleteEntry target).entries.get v.1 = some v.2 := by
        intro v hm
        have hne : v.1 ≠ target := by
          rintro rfl
          exact hn.1 (List.mem_map.mpr ⟨v, hm, rfl⟩)
        exact (get_erase_of_ne _ hne).trans (hv v (List.mem_cons_of_mem _ hm))
      obtain ⟨htrims, hleases, hfiles⟩ := @ih (s.deleteEntry target) (totalBytes - row.size) hkeep hn.2
    · exact ⟨(hdrop.drop_head hr).trans htrims, hleases, hfiles⟩
    · refine ⟨hdrop.trans htrims, ?_, hfiles⟩
      intro k hk
      rcases List.mem_cons.mp hk with rfl | hk
      · omega
      · exact hleases k hk

theorem evict_trims (disk : Disk κ) (maxBytes : ℕ) (h : s.VictimOrder victims) :
    Trims disk (s.evict maxBytes victims).2 s (s.evict maxBytes victims).1 ∧
      (∀ k ∈ (s.evict maxBytes victims).2, s.leaseCount k = 0) ∧ (s.evict maxBytes victims).1.files = s.files := by
  unfold evict
  dsimp only
  split_ifs
  · exact ⟨Trims.refl disk s, by simp, rfl⟩
  · apply evictVictims_trims
    · intro v hv
      exact mem_rows_iff.mp (h.1.mem_iff.mp hv)
    · exact (h.1.map Prod.fst).nodup_iff.mpr s.entries.nodup

/-! ### Publication -/

omit [DecidableEq τ] in
/-- What is still there after a reclamation is named, pinned, or could not be unlinked. -/
theorem exists_of_reclaim {disk : Disk κ} (h : (s.reclaimUnreferencedCas disk k).exists_ k = true) :
    s.referenced k = true ∨ 0 < s.pinned k ∨ disk.unlinks k = false := by
  unfold reclaimUnreferencedCas at h
  split_ifs at h with hk hu
  · simp only [casIsReclaimable, Bool.not_and, Bool.not_not, Bool.or_eq_true, Bool.not_eq_true', beq_eq_false_iff_ne,
      ne_eq] at hk
    rcases hk with hk | hk
    · exact Or.inl hk
    · exact Or.inr (Or.inl (Nat.pos_of_ne_zero hk))
  · simp [exists_] at h
  · simp only [Bool.not_eq_true] at hu
    exact Or.inr (Or.inr hu)

/-- What a committed publication does, the keys of `pending` still to be reclaimed. -/
structure Publishes (disk : Disk κ) (target : τ) (row : EntryRow κ) (pending : List κ) (s s' : Store τ κ) : Prop where
  entries : s'.entries = s.entries.insert target row
  pinned : ∀ k, s'.pinned k = s.pinned k
  leaseCount : ∀ k, s'.leaseCount k = s.leaseCount k
  /-- Only an unpinned blob goes. -/
  kept : ∀ k, s.exists_ k = true → s'.exists_ k = true ∨ s.pinned k = 0
  /-- Only the blob of the publication comes. -/
  created : ∀ k, s'.exists_ k = true → s.exists_ k = true ∨ k = row.casKey
  tracks : s'.tracked row.casKey = true
  /-- Only a blob that is gone and that no row names is untracked. -/
  tracked : ∀ k, s.tracked k = true → s'.tracked k = true ∨ s'.referenced k = false ∧ s'.exists_ k = false
  /-- The displaced blob goes, unless it is named or pinned or the file system fails. -/
  reclaimed : ∀ k, k ∉ pending → s.currentCasKey target = some k → s'.referenced k = false → s'.exists_ k = true →
    0 < s.pinned k ∨ disk.unlinks k = false ∨ disk.hardLinks = false ∨ disk.removesStaging = false

section

omit [DecidableEq τ]

theorem get_track (s : Store τ κ) (casKey : κ) (size : ℕ) (k : κ) :
    (s.track casKey size).cacheEntries.get k =
      if k = casKey then
        some ⟨size, ((s.cacheEntries.get k).map TrackingRow.pinCount).getD 0, s.leaseCount k⟩
      else s.cacheEntries.get k := by
  unfold track leaseCount
  dsimp only
  split
  all_goals
    next h =>
      split_ifs with hk
      · subst hk
        simp [h]
      · rw [get_insert_of_ne _ _ hk]

theorem pinned_track (s : Store τ κ) (casKey : κ) (size : ℕ) (k : κ) : (s.track casKey size).pinned k = s.pinned k := by
  unfold pinned
  rw [get_track]
  split_ifs
  · unfold leaseCount
    cases s.cacheEntries.get k <;> rfl
  · rfl

theorem leaseCount_track (s : Store τ κ) (casKey : κ) (size : ℕ) (k : κ) :
    (s.track casKey size).leaseCount k = s.leaseCount k := by
  rw [leaseCount, get_track]
  split_ifs <;> rfl

theorem tracked_track (s : Store τ κ) (casKey : κ) (size : ℕ) (k : κ) :
    (s.track casKey size).tracked k = true ↔ s.tracked k = true ∨ k = casKey := by
  unfold tracked
  rw [get_track]
  split_ifs with hk <;> simp [hk]

theorem publishCas_spec (disk : Disk κ) (s : Store τ κ) (casKey : κ) (size : ℕ) :
    (s.publishCas disk casKey size).2.entries = s.entries ∧
      (s.publishCas disk casKey size).2.cacheEntries = s.cacheEntries ∧
      (∀ k, s.exists_ k = true → (s.publishCas disk casKey size).2.exists_ k = true) ∧
      (∀ k, (s.publishCas disk casKey size).2.exists_ k = true → s.exists_ k = true ∨ k = casKey) ∧
      ((s.publishCas disk casKey size).1 = false → disk.hardLinks = false ∨ disk.removesStaging = false) := by
  unfold publishCas
  cases hl : disk.hardLinks with
  | false => exact ⟨rfl, rfl, fun _ h => h, fun _ h => Or.inl h, fun _ => Or.inl rfl⟩
  | true =>
    simp only [Bool.not_true, Bool.false_eq_true, if_false]
    split_ifs with he
    · exact ⟨rfl, rfl, fun _ h => h, fun _ h => Or.inl h, fun h => Or.inr h⟩
    · refine ⟨rfl, rfl, ?_, ?_, fun h => Or.inr h⟩
      all_goals
        intro k hk
        by_cases hkk : k = casKey
        · simp_all [exists_]
        · simpa [exists_, get_insert_of_ne _ _ hkk, hkk] using hk

end

namespace Publishes

variable {disk : Disk κ} {target : τ} {row : EntryRow κ} {pending : List κ} {s s' : Store τ κ}

theorem get_self (h : Publishes disk target row pending s s') : s'.entries.get target = some row := by
  rw [h.entries, get_insert_self]

theorem get_of_ne (h : Publishes disk target row pending s s') {t : τ} (ht : t ≠ target) :
    s'.entries.get t = s.entries.get t := by
  rw [h.entries, get_insert_of_ne _ _ ht]

theorem referenced_self (h : Publishes disk target row pending s s') : s'.referenced row.casKey = true :=
  referenced_of_get h.get_self

/-- What is named after was named before, or is what was published. -/
theorem of_referenced (h : Publishes disk target row pending s s') (hr : s'.referenced k = true) :
    s.referenced k = true ∨ k = row.casKey := by
  obtain ⟨t, r, hg, rfl⟩ := referenced_iff.mp hr
  by_cases ht : t = target
  · rw [ht, h.get_self] at hg
    cases hg
    exact Or.inr rfl
  · rw [h.get_of_ne ht] at hg
    exact Or.inl (referenced_of_get hg)

/-- A key loses its last row only at the target. -/
theorem displaced (h : Publishes disk target row pending s s') (hr : s.referenced k = true)
    (hr' : s'.referenced k = false) : s.currentCasKey target = some k := by
  obtain ⟨t, r, hg, rfl⟩ := referenced_iff.mp hr
  by_cases ht : t = target
  · subst ht
    simp [currentCasKey, hg]
  · rw [← h.get_of_ne ht] at hg
    rw [referenced_of_get hg] at hr'
    cases hr'

/-- One reclamation settles the key it is for. -/
theorem reclaim (h : Publishes disk target row (k :: pending) s s') :
    Publishes disk target row pending s (s'.reclaimUnreferencedCas disk k) := by
  have htrims : Trims disk [] s' (s'.reclaimUnreferencedCas disk k) := (Trims.refl disk s').reclaim
  have hentries : (s'.reclaimUnreferencedCas disk k).entries = s'.entries := by
    unfold reclaimUnreferencedCas
    split_ifs <;> rfl
  have href : ∀ k', (s'.reclaimUnreferencedCas disk k).referenced k' = s'.referenced k' := fun k' => by
    rw [referenced, hentries]
    rfl
  have htracked : ∀ k', s'.tracked k' = true → (s'.reclaimUnreferencedCas disk k).tracked k' = true ∨
      s'.referenced k' = false ∧ (s'.reclaimUnreferencedCas disk k).exists_ k' = false := fun k' ht => by
    rcases htrims.cacheEntries k' with hc | ⟨-, -, hr, hf⟩
    · left
      rwa [Store.tracked, hc]
    · exact Or.inr ⟨href k' ▸ hr, by simp [exists_, hf]⟩
  refine ⟨hentries.trans h.entries, fun k' => (htrims.pinned k').trans (h.pinned k'),
    fun k' => (htrims.leaseCount k').trans (h.leaseCount k'), fun k' he => ?_, fun k' he =>
      h.created k' (htrims.exists_ he),
    ?_, fun k' ht => ?_, fun k' hk' hcur hr he => ?_⟩
  · rcases h.kept k' he with he' | hp
    · rcases htrims.files k' with hf | ⟨-, hp⟩
      · left
        rwa [exists_, hf]
      · exact Or.inr ((h.pinned k').symm.trans hp)
    · exact Or.inr hp
  · rcases htracked row.casKey h.tracks with ht | ⟨hr, -⟩
    · exact ht
    · rw [h.referenced_self] at hr
      cases hr
  · rcases h.tracked k' ht with ht' | ⟨hr, hf⟩
    · exact (htracked k' ht').imp id fun hrf => ⟨(href k').trans hrf.1, hrf.2⟩
    · exact Or.inr ⟨(href k').trans hr, Bool.eq_false_iff.mpr fun he => by simp [htrims.exists_ he] at hf⟩
  · rw [href] at hr
    by_cases hkk : k' = k
    · subst hkk
      rcases exists_of_reclaim he with hr' | hp | hu
      · simp [hr] at hr'
      · exact Or.inl (h.pinned k' ▸ hp)
      · exact Or.inr (Or.inl hu)
    · exact h.reclaimed k' (by simp [hkk, hk']) hcur hr (htrims.exists_ he)

end Publishes

/-- The transaction and the link, before anything is reclaimed. -/
theorem publishCas_publishes (disk : Disk κ) (s : Store τ κ) (target : τ) (casKey : κ) (size now : ℕ) {pending : List κ}
    (h : ∀ k, k ∉ pending → s.currentCasKey target = some k → k ≠ casKey →
      ((s.upsert target casKey size now).publishCas disk casKey size).1 = false) :
    Publishes disk target ⟨casKey, size, now, now⟩ pending s
      ((s.upsert target casKey size now).publishCas disk casKey size).2 := by
  obtain ⟨he, hc, hk, hn, hfail⟩ := publishCas_spec disk (s.upsert target casKey size now) casKey size
  have htracked : ∀ k, ((s.upsert target casKey size now).publishCas disk casKey size).2.tracked k = true ↔
      s.tracked k = true ∨ k = casKey := fun k => by
    rw [tracked, hc]
    exact tracked_track _ casKey size k
  refine ⟨he, fun k => ?_, fun k => ?_, fun k hex => Or.inl (hk k hex), hn, (htracked casKey).mpr (Or.inr rfl),
    fun k ht => Or.inl ((htracked k).mpr (Or.inl ht)), fun k hp hcur hr _ => ?_⟩
  · rw [pinned, hc]
    exact pinned_track _ casKey size k
  · rw [leaseCount, hc]
    exact leaseCount_track _ casKey size k
  · by_cases hkk : k = casKey
    · have hrow : ((s.upsert target casKey size now).publishCas disk casKey size).2.referenced casKey = true := by
        refine referenced_iff.mpr ⟨target, ⟨casKey, size, now, now⟩, ?_, rfl⟩
        rw [he]
        exact get_insert_self _ _ _
      rw [hkk, hrow] at hr
      cases hr
    · exact Or.inr (Or.inr (hfail (h k hp hcur hkk)))

/-- The critical section refuses and changes nothing, or it publishes. -/
theorem putStaged_publishes (disk : Disk κ) (s : Store τ κ) (target : τ) (casKey : κ) (size now : ℕ)
    (guard : PublishGuard κ) :
    s.refuses target guard = true ∧ s.putStaged disk target casKey size now guard = (.refused, s) ∨
      s.refuses target guard = false ∧ (s.putStaged disk target casKey size now guard).1 ≠ .refused ∧
        Publishes disk target ⟨casKey, size, now, now⟩ [] s (s.putStaged disk target casKey size now guard).2 := by
  cases hg : s.refuses target guard with
  | true => exact Or.inl ⟨rfl, by simp [putStaged, hg]⟩
  | false =>
    refine Or.inr ⟨rfl, ?_⟩
    simp only [putStaged, hg, Bool.false_eq_true, if_false]
    cases hp : ((s.upsert target casKey size now).publishCas disk casKey size).1 with
    | false =>
      simp only [Bool.not_false, if_true]
      exact ⟨by simp, publishCas_publishes disk s target casKey size now fun _ _ _ _ => hp⟩
    | true =>
      simp only [Bool.not_true, Bool.false_eq_true, if_false]
      cases hd : (s.currentCasKey target).filter fun key => decide (key ≠ casKey) with
      | none =>
        refine ⟨by simp, publishCas_publishes disk s target casKey size now fun k _ hcur hne => ?_⟩
        simp [hcur, hne] at hd
      | some displaced =>
        refine ⟨by simp, Publishes.reclaim (publishCas_publishes disk s target casKey size now fun k hk hcur hne => ?_)⟩
        simp only [hcur, Option.filter_some, hne, ne_eq, not_false_eq_true, decide_true,
          if_true, Option.some.injEq] at hd
        simp [hd] at hk

theorem referenced_touch (s : Store τ κ) (target : τ) (now : ℕ) (k : κ) :
    (s.touch target now).referenced k = s.referenced k := by
  unfold referenced touch Table.modify
  dsimp only
  rw [List.any_map]
  congr 1
  funext row
  simp only [Function.comp_apply]
  split_ifs <;> rfl

/-! ### Leases and tracking -/

omit [DecidableEq τ]

theorem exists_erase_iff :
    ({ s with files := s.files.erase k } : Store τ κ).exists_ k' = true ↔ k' ≠ k ∧ s.exists_ k' = true := by
  unfold exists_
  by_cases h : k' = k
  · simp [h]
  · simp [h, get_erase_of_ne]

theorem lease_eq_some (h : s.lease k = some s') : ∃ row, s.cacheEntries.get k = some row ∧ s.exists_ k = true ∧
      s' = { s with cacheEntries := s.cacheEntries.insert k { row with leaseCount := row.leaseCount + 1 } } := by
  unfold lease at h
  split at h
  next => cases h
  next row hg =>
    split_ifs at h with he
    simp only [Bool.not_eq_true, Bool.not_eq_false'] at he
    exact ⟨row, hg, he, (Option.some.inj h).symm⟩

theorem leaseCount_lease (h : s.lease k = some s') (k' : κ) :
    s'.leaseCount k' = s.leaseCount k' + if k' = k then 1 else 0 := by
  obtain ⟨row, hg, -, rfl⟩ := lease_eq_some h
  unfold leaseCount
  dsimp only
  split_ifs with hk
  · subst hk
    simp [hg]
  · rw [get_insert_of_ne _ _ hk, Nat.add_zero]

theorem tracked_lease (h : s.lease k = some s') (k' : κ) : s'.tracked k' = s.tracked k' := by
  obtain ⟨row, hg, -, rfl⟩ := lease_eq_some h
  unfold tracked
  by_cases hk : k' = k
  · subst hk
    simp [hg]
  · simp [get_insert_of_ne _ _ hk]

theorem pinned_lease (h : s.lease k = some s') (k' : κ) : s.pinned k' ≤ s'.pinned k' := by
  obtain ⟨row, hg, -, rfl⟩ := lease_eq_some h
  unfold pinned
  by_cases hk : k' = k
  · subst hk
    simp only [hg, Option.map_some, Option.getD_some, get_insert_self]
    omega
  · simp [get_insert_of_ne _ _ hk]

theorem get_releaseLease (s : Store τ κ) (k k' : κ) :
    (s.releaseLease k).cacheEntries.get k' =
      (s.cacheEntries.get k').map fun row => if k' = k then { row with leaseCount := row.leaseCount - 1 } else row := by
  apply Option.ext
  intro row
  unfold releaseLease
  rw [← mem_rows_iff, mem_modify]
  simp only [mem_rows_iff, Option.map_eq_some_iff]
  by_cases hk : k' = k
  · simp [hk, eq_comm]
  · simp [hk]

theorem leaseCount_releaseLease (s : Store τ κ) (k k' : κ) :
    (s.releaseLease k).leaseCount k' = s.leaseCount k' - if k' = k then 1 else 0 := by
  unfold leaseCount
  rw [get_releaseLease]
  cases s.cacheEntries.get k' with
  | none => simp
  | some row => split_ifs <;> rfl

theorem tracked_releaseLease (s : Store τ κ) (k k' : κ) : (s.releaseLease k).tracked k' = s.tracked k' := by
  unfold tracked
  rw [get_releaseLease, Option.isSome_map]

theorem pinned_releaseLease (s : Store τ κ) (h : k' ≠ k) : (s.releaseLease k).pinned k' = s.pinned k' := by
  unfold pinned
  rw [get_releaseLease]
  simp [h]

theorem entries_untrackUnused (s : Store τ κ) (k : κ) : (s.untrackUnused k).entries = s.entries := by
  unfold untrackUnused
  split_ifs <;> rfl

theorem files_untrackUnused (s : Store τ κ) (k : κ) : (s.untrackUnused k).files = s.files := by
  unfold untrackUnused
  split_ifs <;> rfl

theorem get_untrackUnused (s : Store τ κ) (k k' : κ) : (s.untrackUnused k).cacheEntries.get k' =
    if k' = k ∧ s.casIsReclaimable k' = true then none else s.cacheEntries.get k' := by
  unfold untrackUnused
  by_cases hreclaim : s.casIsReclaimable k = true
  · rw [if_pos hreclaim]
    by_cases hk : k' = k
    · subst hk
      rw [if_pos ⟨rfl, hreclaim⟩]
      exact get_erase_self _ _
    · rw [if_neg fun h => hk h.1]
      exact get_erase_of_ne _ hk
  · rw [if_neg hreclaim, if_neg]
    rintro ⟨rfl, h⟩
    exact hreclaim h

/-- Dropping an unused row makes no other one unused. -/
theorem casIsReclaimable_untrackUnused (s : Store τ κ) (k k' : κ) :
    (s.untrackUnused k).casIsReclaimable k' = s.casIsReclaimable k' := by
  have href : (s.untrackUnused k).referenced k' = s.referenced k' := by
    rw [referenced, entries_untrackUnused, referenced]
  refine Bool.eq_iff_iff.mpr ?_
  rw [casIsReclaimable_iff, casIsReclaimable_iff, href, pinned_congr]
  rw [get_untrackUnused]
  split_ifs with h
  · exact .inr ⟨rfl, (casIsReclaimable_iff.mp h.2).2⟩
  · exact .inl rfl

/-- Phase 3 of eviction drops the tracking rows of its keys that nothing names or pins. -/
theorem cacheEntries_untrackAll (s : Store τ κ) (untrack : List κ) (k : κ) : (s.untrackAll untrack).cacheEntries.get k =
    if k ∈ untrack ∧ s.casIsReclaimable k = true then none else s.cacheEntries.get k := by
  induction untrack generalizing s with
  | nil => exact (if_neg fun h => List.not_mem_nil h.1).symm
  | cons k₀ untrack ih =>
    refine (ih (s.untrackUnused k₀)).trans ?_
    rw [casIsReclaimable_untrackUnused, get_untrackUnused]
    by_cases hreclaim : s.casIsReclaimable k = true
    · by_cases hmem : k ∈ untrack
      · simp [hreclaim, hmem]
      · simp [hreclaim, hmem]
    · simp [hreclaim]

/-- Phase 3 of eviction leaves all but tracking rows that nothing names or pins. -/
theorem get_untrackAll (s : Store τ κ) (untrack : List κ) :
    (s.untrackAll untrack).entries = s.entries ∧ (s.untrackAll untrack).files = s.files ∧
      ∀ k, (s.untrackAll untrack).cacheEntries.get k = s.cacheEntries.get k ∨
        k ∈ untrack ∧ (s.untrackAll untrack).cacheEntries.get k = none ∧ s.referenced k = false ∧ s.pinned k = 0 := by
  refine ⟨?_, ?_, fun k => ?_⟩
  · induction untrack generalizing s with
    | nil => rfl
    | cons k₀ untrack ih => exact (ih (s.untrackUnused k₀)).trans (entries_untrackUnused s k₀)
  · induction untrack generalizing s with
    | nil => rfl
    | cons k₀ untrack ih => exact (ih (s.untrackUnused k₀)).trans (files_untrackUnused s k₀)
  · rw [cacheEntries_untrackAll]
    split_ifs with h
    · exact .inr ⟨h.1, rfl, casIsReclaimable_iff.mp h.2⟩
    · exact .inl rfl

end Store

end OvStorage.ByteCache
