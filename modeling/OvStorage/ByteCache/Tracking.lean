import Mathlib.Data.Fintype.Basic
import OvStorage.ByteCache.Machine

/-!
# The tracking table of the byte cache

`cache_entries` is the only record that a blob exists. It is written by publication, and
deleted by reclamation, by eviction's last phase and by the drop of a lease, each under a
guard of its own but the last.

## What is proved

* `tracked_at_rest`: at rest every CAS file and every key of the index is tracked, unless a key is published during the
  last part of a drop, or an unlink fails under an eviction.
* `published_untracked`: a publication that comes during the drop loses its tracking row.

The steps are those of puts, leases and their drops, removals, evictions, recovery and reads;
the readers' own deletes are not among them.
-/

namespace OvStorage.ByteCache

variable {ι τ κ : Type*}

/-- Whether the step is the delete of a reader. -/
def Label.heals : Label ι τ κ → Bool
  | .dropOrphan _ | .quarantine _ _ => true
  | _ => false

namespace LeaseStage

/-- Whether no drop of the lease is under way. -/
def atRest : LeaseStage κ → Bool
  | .live _ | .dropped => true
  | _ => false

/-- The key that the drop has found no row for, and has not ended. -/
def unnamed : LeaseStage κ → Option κ
  | .unreferenced k | .unpinned k | .unlinked k => some k
  | _ => none

/-- The key whose blob the drop is still to look at or to unlink. -/
def owes : LeaseStage κ → Option κ
  | .released k | .unreferenced k | .unpinned k => some k
  | _ => none

end LeaseStage

namespace Machine

/-- No operation is under way. -/
def AtRest (m : Machine ι τ κ) : Prop := (∀ t, (m.ops t).over = true) ∧ ∀ stage ∈ m.leases, stage.atRest = true

/-- The drop of a lease on the key has found no row, and has not ended. -/
def Dropping (m : Machine ι τ κ) (k : κ) : Prop := ∃ stage ∈ m.leases, stage.unnamed = some k

/-- An eviction or the drop of a lease is to unlink the key's file, or to look at it. -/
def Owed (m : Machine ι τ κ) (k : κ) : Prop :=
  (∃ t, k ∈ (m.ops t).filesToRemove) ∨ ∃ stage ∈ m.leases, stage.owes = some k

/-- No eviction has the key's tracking row still to drop. -/
def Settled (m : Machine ι τ κ) (k : κ) : Prop := ∀ t, k ∉ (m.ops t).untrack

variable [DecidableEq κ]

/-- Every CAS file and every key of the index has its row in `cache_entries`. -/
def Tracked [DecidableEq τ] (m : Machine ι τ κ) : Prop :=
  (∀ k, m.store.exists_ k = true → m.store.tracked k = true) ∧
    ∀ target row, m.store.entries.get target = some row → m.store.tracked row.casKey = true

/-- Whether the file system fails the step at the key: a link or an unlink that would have let
the key's blob go. -/
def failsAt [DecidableEq τ] (m : Machine ι τ κ) (k : κ) : Label ι τ κ → Bool
  | .publish t disk now =>
    (m.publication (.publish t disk now)).any fun p =>
      m.store.currentCasKey p.1 == some k && (!disk.unlinks k || !disk.hardLinks || !disk.removesStaging)
  | .unlink t false => (m.ops t).filesToRemove.head? == some k
  | .drop i false => m.leases[i]? == some (.unpinned k)
  | l => m.store.referenced k && l.disk.any fun disk => !disk.unlinks k

/-- The step publishes no key that the drop of a lease is about to untrack, and the file system
fails it at tracked and settled keys only. -/
structure TracksClear [DecidableEq τ] (m : Machine ι τ κ) (l : Label ι τ κ) : Prop where
  publication : ∀ p, m.publication l = some p → ¬ m.Dropping p.2
  failure : ∀ k, m.failsAt k l = true → m.store.tracked k = true ∧ m.Settled k

/-- What every such run keeps. -/
structure TrackInv (m : Machine ι τ κ) : Prop where
  rows : ∀ k, m.store.referenced k = true → m.store.tracked k = true
  files : ∀ k, m.store.exists_ k = true →
    m.Owed k ∨ m.store.tracked k = true ∧ (m.store.referenced k = true ∨ 0 < m.store.pinned k ∨ m.Settled k)
  dropping : ∀ k, m.Dropping k → m.store.referenced k = false
  unlinked : ∀ k, .unlinked k ∈ m.leases → m.store.exists_ k = false

/-- At rest nothing is owed. -/
theorem TrackInv.tracked [DecidableEq τ] {m : Machine ι τ κ} (h : TrackInv m) (hrest : m.AtRest) : m.Tracked := by
  refine ⟨fun k hk => ?_, fun target row hrow => h.rows _ (Store.referenced_of_get hrow)⟩
  rcases h.files k hk with ho | ⟨ht, -⟩
  · exfalso
    rcases ho with ⟨t, ht⟩ | ⟨stage, hm, ho⟩
    · have hover := hrest.1 t
      cases hop : m.ops t <;> simp_all [Op.over, Op.filesToRemove]
    · have hover := hrest.2 stage hm
      cases stage <;> simp_all [LeaseStage.atRest, LeaseStage.owes]
  · exact ht

variable {m : Machine ι τ κ}

omit [DecidableEq κ] in
theorem Owed.goto [DecidableEq ι] {t : ι} {op : Op τ κ} {k : κ} (h : m.Owed k)
    (hf : k ∈ (m.ops t).filesToRemove → k ∈ op.filesToRemove) : (m.goto t op).Owed k := by
  refine h.imp ?_ id
  rintro ⟨t', hm⟩
  refine ⟨t', ?_⟩
  by_cases htt : t' = t
  · rw [htt] at hm
    rw [htt, goto_ops_self]
    exact hf hm
  · rwa [goto_ops_of_ne _ _ htt]

omit [DecidableEq κ] in
theorem Settled.goto [DecidableEq ι] {t : ι} {op : Op τ κ} {k : κ} (h : m.Settled k)
    (hu : k ∈ op.untrack → k ∈ (m.ops t).untrack) : (m.goto t op).Settled k := by
  intro t' hm
  by_cases htt : t' = t
  · rw [htt, goto_ops_self] at hm
    exact h t (hu hm)
  · rw [goto_ops_of_ne _ _ htt] at hm
    exact h t' hm

namespace TrackInv

/-- A thread may go on that keeps the files it is to unlink and takes on none to untrack. -/
theorem goto [DecidableEq ι] (h : TrackInv m) {t : ι} {op : Op τ κ}
    (hf : ∀ k, m.store.exists_ k = true → k ∈ (m.ops t).filesToRemove → k ∈ op.filesToRemove)
    (hu : ∀ k, m.store.exists_ k = true → k ∈ op.untrack → k ∈ (m.ops t).untrack) : TrackInv (m.goto t op) where
  rows := h.rows
  files k hk := by
    rcases h.files k hk with ho | ⟨ht, hw⟩
    · exact Or.inl (ho.goto (hf k hk))
    · exact Or.inr ⟨ht, hw.imp id (Or.imp id fun hs => hs.goto (hu k hk))⟩
  dropping := h.dropping
  unlinked := h.unlinked

theorem goto_idle [DecidableEq ι] (h : TrackInv m) {t : ι} {op : Op τ κ} (hf : (m.ops t).filesToRemove = [])
    (hu : op.untrack = []) : TrackInv (m.goto t op) := h.goto (by simp [hf]) (by simp [hu])

theorem withHistory (h : TrackInv m) {published : ℕ} {lastPublished : τ → ℕ} :
    TrackInv { m with published, lastPublished } := ⟨h.rows, h.files, h.dropping, h.unlinked⟩

/-- A section that changes no blob and no row's key, and takes no pin away but from a blob that
is to be looked at. -/
theorem withStore (h : TrackInv m) {store : Store τ κ} (hr : ∀ k, store.referenced k = m.store.referenced k)
    (ht : ∀ k, store.tracked k = m.store.tracked k) (hp : ∀ k, m.Owed k ∨ m.store.pinned k ≤ store.pinned k)
    (he : ∀ k, store.exists_ k = m.store.exists_ k) : TrackInv { m with store } where
  rows k hk := (ht k).trans (h.rows k ((hr k).symm.trans hk))
  files k hk := by
    rcases hp k with ho | hp
    · exact Or.inl ho
    · refine (h.files k ((he k).symm.trans hk)).imp id fun ⟨h₁, h₂⟩ => ⟨(ht k).trans h₁, ?_⟩
      exact h₂.imp (hr k).trans (Or.imp (fun h₃ => h₃.trans_le hp) id)
  dropping k hk := (hr k).trans (h.dropping k hk)
  unlinked k hk := (he k).trans (h.unlinked k hk)

/-- A removal, where what it fails to unlink is settled. -/
theorem trim [DecidableEq τ] (h : TrackInv m) {disk : Disk κ} {pending : List κ} {store : Store τ κ}
    (htrims : Store.Trims disk pending m.store store)
    (hfail : ∀ k, m.store.referenced k = true → disk.unlinks k = false → m.Settled k)
    (howed : ∀ k ∈ pending, m.Owed k) : TrackInv { m with store } := by
  have htracked : ∀ k, m.store.tracked k = true → store.tracked k = true ∨
      store.referenced k = false ∧ store.exists_ k = false := fun k ht => by
    rcases htrims.cacheEntries k with hc | ⟨-, -, hr, hf⟩
    · left
      rwa [Store.tracked, hc]
    · exact Or.inr ⟨hr, by simp [Store.exists_, hf]⟩
  refine ⟨fun k hk => ?_, fun k hk => ?_, fun k hk => ?_, fun k hk => ?_⟩
  · exact (htracked k (h.rows k (htrims.referenced hk))).resolve_right (by simp [hk])
  · rcases h.files k (htrims.exists_ hk) with ho | ⟨ht, hw⟩
    · exact Or.inl ho
    · have ht' := (htracked k ht).resolve_right (by simp [hk])
      rcases hw with hr | hp | hs
      · cases hr' : store.referenced k with
        | true => exact Or.inr ⟨ht', Or.inl rfl⟩
        | false =>
          by_cases hpend : k ∈ pending
          · exact Or.inl (howed k hpend)
          · rcases htrims.reclaimed k hpend hr hr' hk with hp | hu
            · exact Or.inr ⟨ht', Or.inr (Or.inl ((htrims.pinned k).symm ▸ hp))⟩
            · exact Or.inr ⟨ht', Or.inr (Or.inr (hfail k hr hu))⟩
      · exact Or.inr ⟨ht', Or.inr (Or.inl ((htrims.pinned k).symm ▸ hp))⟩
      · exact Or.inr ⟨ht', Or.inr (Or.inr hs)⟩
  · have hd := h.dropping k hk
    exact Bool.eq_false_iff.mpr fun hr => by simp [htrims.referenced hr] at hd
  · have hu := h.unlinked k hk
    exact Bool.eq_false_iff.mpr fun he => by simp [htrims.exists_ he] at hu

/-- A committed publication of a key that no drop is about to untrack, where what it fails to
reclaim is settled. -/
theorem publish [DecidableEq τ] (h : TrackInv m) {disk : Disk κ} {target : τ} {row : EntryRow κ} {store : Store τ κ}
    (hp : Store.Publishes disk target row [] m.store store) (hd : ¬ m.Dropping row.casKey)
    (hfail : ∀ k, m.store.currentCasKey target = some k →
      disk.unlinks k = false ∨ disk.hardLinks = false ∨ disk.removesStaging = false → m.Settled k) :
    TrackInv { m with store } := by
  refine ⟨fun k hk => ?_, fun k hk => ?_, fun k hk => ?_, fun k hk => ?_⟩
  · rcases hp.of_referenced hk with hr | rfl
    · exact (hp.tracked k (h.rows k hr)).resolve_right (by simp [hk])
    · exact hp.tracks
  · by_cases hkk : k = row.casKey
    · exact Or.inr ⟨hkk ▸ hp.tracks, Or.inl (hkk ▸ hp.referenced_self)⟩
    · rcases h.files k ((hp.created k hk).resolve_right hkk) with ho | ⟨ht, hw⟩
      · exact Or.inl ho
      · have ht' := (hp.tracked k ht).resolve_right (by simp [hk])
        rcases hw with hr | hpin | hs
        · cases hr' : store.referenced k with
          | true => exact Or.inr ⟨ht', Or.inl rfl⟩
          | false =>
            have hcur := hp.displaced hr hr'
            rcases hp.reclaimed k (by simp) hcur hr' hk with hpin | hf
            · exact Or.inr ⟨ht', Or.inr (Or.inl ((hp.pinned k).symm ▸ hpin))⟩
            · exact Or.inr ⟨ht', Or.inr (Or.inr (hfail k hcur hf))⟩
        · exact Or.inr ⟨ht', Or.inr (Or.inl ((hp.pinned k).symm ▸ hpin))⟩
        · exact Or.inr ⟨ht', Or.inr (Or.inr hs)⟩
  · refine Bool.eq_false_iff.mpr fun hr => ?_
    rcases hp.of_referenced hr with hr | rfl
    · simp [h.dropping k hk] at hr
    · exact hd hk
  · refine Bool.eq_false_iff.mpr fun he => ?_
    rcases hp.created k he with he | rfl
    · simp [h.unlinked k hk] at he
    · exact hd ⟨_, hk, rfl⟩

theorem eraseFile (h : TrackInv m) (k : κ) :
    TrackInv { m with store := { m.store with files := m.store.files.erase k } } where
  rows := h.rows
  files k' hk' := h.files k' (Store.exists_erase_iff.mp hk').2
  dropping := h.dropping
  unlinked k' hk' := by
    have hu := h.unlinked k' hk'
    exact Bool.eq_false_iff.mpr fun he => by simp [(Store.exists_erase_iff.mp he).2] at hu

/-- An unlink of phase 2. -/
theorem unlink [DecidableEq ι] (h : TrackInv m) {t : ι} {k : κ} {filesToRemove untrack : List κ}
    (hop : m.ops t = .unlinking (k :: filesToRemove) untrack) :
    TrackInv { m.goto t (.unlinking filesToRemove (untrack ++ [k])) with
      store := { m.store with files := m.store.files.erase k } } := by
  refine (h.eraseFile k).goto (fun k' hk' hm => ?_) (fun k' hk' hm => ?_)
  · have hm : k' ∈ (m.ops t).filesToRemove := hm
    rw [hop] at hm
    exact (List.mem_cons.mp hm).resolve_left (Store.exists_erase_iff.mp hk').1
  · show k' ∈ (m.ops t).untrack
    rw [hop]
    exact (List.mem_append.mp hm).resolve_right fun hk => (Store.exists_erase_iff.mp hk').1 (List.mem_singleton.mp hk)

/-- A file that phase 2 could not unlink. -/
theorem unlinkFails [DecidableEq ι] (h : TrackInv m) {t : ι} {k : κ} {filesToRemove untrack : List κ}
    (hop : m.ops t = .unlinking (k :: filesToRemove) untrack) (ht : m.store.tracked k = true) (hs : m.Settled k) :
    TrackInv (m.goto t (.unlinking filesToRemove untrack)) := by
  have hu : ∀ k', m.Settled k' → (m.goto t (.unlinking filesToRemove untrack)).Settled k' := by
    intro k' hs
    apply hs.goto
    rw [hop]
    exact id
  refine ⟨h.rows, fun k' hk' => ?_, h.dropping, h.unlinked⟩
  by_cases hkk : k' = k
  · subst hkk
    exact Or.inr ⟨ht, Or.inr (Or.inr (hu k' hs))⟩
  · refine (h.files k' hk').imp (fun ho => ho.goto fun hm => ?_) (And.imp_right (Or.imp id (Or.imp id (hu k'))))
    rw [hop] at hm
    exact (List.mem_cons.mp hm).resolve_left hkk

/-- Phase 3. -/
theorem untrack [DecidableEq ι] (h : TrackInv m) {t : ι} {untrack : List κ} (hop : m.ops t = .unlinking [] untrack) :
    TrackInv { m.goto t .idle with store := m.store.untrackAll untrack } := by
  obtain ⟨he, hf, hc⟩ := Store.get_untrackAll m.store untrack
  have href : ∀ k, (m.store.untrackAll untrack).referenced k = m.store.referenced k := fun k => by
    rw [Store.referenced, he]
    rfl
  have hex : ∀ k, (m.store.untrackAll untrack).exists_ k = m.store.exists_ k := fun k => by
    rw [Store.exists_, hf]
    rfl
  have hpin : ∀ k, (m.store.untrackAll untrack).pinned k = m.store.pinned k := fun k =>
    Store.pinned_congr ((hc k).imp id fun h => ⟨h.2.1, h.2.2.2⟩)
  have htracked : ∀ k, m.store.tracked k = true → (m.store.untrackAll untrack).tracked k = true ∨
      k ∈ untrack ∧ m.store.referenced k = false ∧ m.store.pinned k = 0 := fun k ht => by
    rcases hc k with hc | ⟨hm, -, hr, hp⟩
    · left
      rwa [Store.tracked, hc]
    · exact Or.inr ⟨hm, hr, hp⟩
  refine ⟨fun k hk => ?_, fun k hk => ?_, fun k hk => (href k).trans (h.dropping k hk),
    fun k hk => (hex k).trans (h.unlinked k hk)⟩
  · rw [href] at hk
    exact (htracked k (h.rows k hk)).resolve_right fun hn => by simp [hn.2.1] at hk
  · rw [hex] at hk
    rcases h.files k hk with ho | ⟨ht, hw⟩
    · refine Or.inl (ho.goto fun hm => ?_)
      rw [hop] at hm
      cases hm
    · rcases htracked k ht with ht' | ⟨hm, hr, hp⟩
      · refine Or.inr ⟨ht', ?_⟩
        rw [href, hpin]
        exact hw.imp id (Or.imp id fun hs => hs.goto fun hm => (by cases hm))
      · -- the row that goes is neither named nor pinned, and this eviction has it to drop
        exfalso
        rcases hw with hr' | hp' | hs
        · simp [hr] at hr'
        · omega
        · exact hs t (by rw [hop]; exact hm)

omit [DecidableEq κ] in
theorem mem_set_of_ne {leases : List (LeaseStage κ)} {i : ℕ} {old new stage : LeaseStage κ} (hi : leases[i]? = some old)
    (hm : stage ∈ leases) (hne : stage ≠ old) : stage ∈ leases.set i new := by
  obtain ⟨j, hj⟩ := List.mem_iff_getElem?.mp hm
  have hij : i ≠ j := by
    rintro rfl
    rw [hi] at hj
    exact hne (Option.some.inj hj).symm
  exact List.mem_iff_getElem?.mpr ⟨j, by rw [List.getElem?_set_ne hij, hj]⟩

omit [DecidableEq κ] in
theorem mem_set_self {leases : List (LeaseStage κ)} {i : ℕ} {old new : LeaseStage κ} (hi : leases[i]? = some old) :
    new ∈ leases.set i new := List.mem_set (List.getElem?_eq_some_iff.mp hi).1 new

/-- A lease goes on in its drop, with the store as it is. -/
theorem setStage (h : TrackInv m) {i : ℕ} {old new : LeaseStage κ} (hi : m.leases[i]? = some old)
    (howes : ∀ k, old.owes = some k → m.store.exists_ k = true → new.owes = some k ∨
      m.store.tracked k = true ∧ (m.store.referenced k = true ∨ 0 < m.store.pinned k ∨ m.Settled k))
    (hunnamed : ∀ k, new.unnamed = some k → m.store.referenced k = false)
    (hunlinked : ∀ k, new = .unlinked k → m.store.exists_ k = false) :
    TrackInv { m with leases := m.leases.set i new } where
  rows := h.rows
  files k hk := by
    rcases h.files k hk with (hf | ⟨stage, hm, ho⟩) | hw
    · exact Or.inl (Or.inl hf)
    · by_cases hs : stage = old
      · subst hs
        rcases howes k ho hk with ho' | hw
        · exact Or.inl (Or.inr ⟨new, mem_set_self hi, ho'⟩)
        · exact Or.inr hw
      · exact Or.inl (Or.inr ⟨stage, mem_set_of_ne hi hm hs, ho⟩)
    · exact Or.inr hw
  dropping k hk := by
    obtain ⟨stage, hm, hs⟩ := hk
    rcases List.mem_or_eq_of_mem_set hm with hm | rfl
    · exact h.dropping k ⟨stage, hm, hs⟩
    · exact hunnamed k hs
  unlinked k hk := by
    rcases List.mem_or_eq_of_mem_set hk with hm | he
    · exact h.unlinked k hm
    · exact hunlinked k he.symm

theorem grant (h : TrackInv m) {k : κ} {store : Store τ κ} (hs : m.store.lease k = some store) :
    TrackInv { m with store, leases := m.leases ++ [.live k] } := by
  obtain ⟨row, -, -, hstore⟩ := Store.lease_eq_some hs
  have hi : TrackInv { m with store } :=
    h.withStore (fun _ => by rw [hstore]; rfl) (Store.tracked_lease hs) (fun k' => Or.inr (Store.pinned_lease hs k'))
      (fun _ => by rw [hstore]; rfl)
  refine ⟨hi.rows, fun k' hk' => (hi.files k' hk').imp ?_ id, fun k' hk' => hi.dropping k' ?_,
    fun k' hk' => hi.unlinked k' ?_⟩
  · refine Or.imp id fun ⟨stage, hm, ho⟩ => ⟨stage, List.mem_append_left _ hm, ho⟩
  · obtain ⟨stage, hm, hs⟩ := hk'
    rcases List.mem_append.mp hm with hm | hm
    · exact ⟨stage, hm, hs⟩
    · cases List.mem_singleton.mp hm
      cases hs
  · exact (List.mem_append.mp hk').resolve_right (by simp)

/-- The tracking row of a blob that is gone and that no row names. -/
theorem eraseRow (h : TrackInv m) {k : κ} (hr : m.store.referenced k = false) (he : m.store.exists_ k = false) :
    TrackInv { m with store := { m.store with cacheEntries := m.store.cacheEntries.erase k } } where
  rows k' hk' := by
    have hne : k' ≠ k := by
      rintro rfl
      exact absurd (hr.symm.trans hk') Bool.false_ne_true
    have ht := h.rows k' hk'
    unfold Store.tracked at ht ⊢
    rwa [Table.get_erase_of_ne _ hne]
  files k' hk' := by
    have hne : k' ≠ k := by
      rintro rfl
      exact absurd (he.symm.trans hk') Bool.false_ne_true
    have hw := h.files k' hk'
    unfold Store.tracked Store.pinned at hw ⊢
    rwa [Table.get_erase_of_ne _ hne]
  dropping := h.dropping
  unlinked := h.unlinked

/-- The next statement of a lease's drop. -/
theorem drop (h : TrackInv m) {i : ℕ} {unlinks : Bool} {stage stage' : LeaseStage κ} {store : Store τ κ}
    (hi : m.leases[i]? = some stage) (hd : dropLease m.store unlinks stage = some (store, stage'))
    (hfail : ∀ k, stage = .unpinned k → unlinks = false → m.store.tracked k = true ∧ m.Settled k) :
    TrackInv { m with store, leases := m.leases.set i stage' } := by
  have hmem := List.mem_of_getElem? hi
  cases stage with
  | live k =>
    cases hd
    have hset : TrackInv { m with leases := m.leases.set i (.released k) } :=
      h.setStage hi (by simp [LeaseStage.owes]) (by simp [LeaseStage.unnamed]) (by simp)
    refine hset.withStore (fun _ => rfl) (Store.tracked_releaseLease _ k) (fun k' => ?_) (fun _ => rfl)
    by_cases hk : k' = k
    · exact Or.inl (Or.inr ⟨.released k, mem_set_self hi, by rw [hk]; rfl⟩)
    · exact Or.inr (Store.pinned_releaseLease _ hk).ge
  | released k =>
    cases hd
    split_ifs with hr
    · refine h.setStage hi ?_ (by simp [LeaseStage.unnamed]) (by simp)
      rintro k' ⟨⟩ -
      exact Or.inr ⟨h.rows k hr, Or.inl hr⟩
    · refine h.setStage hi (fun k' ho _ => Or.inl ho) ?_ (by simp)
      rintro k' ⟨⟩
      simpa using hr
  | unreferenced k =>
    have hr : m.store.referenced k = false := h.dropping k ⟨_, hmem, rfl⟩
    cases hd
    split_ifs with hp
    · refine h.setStage hi (fun k' ho _ => Or.inl ho) ?_ (by simp)
      rintro k' ⟨⟩
      exact hr
    · refine h.setStage hi ?_ (by simp [LeaseStage.unnamed]) (by simp)
      rintro k' ⟨⟩ -
      have hpos := Nat.pos_of_ne_zero hp
      exact Or.inr ⟨Store.tracked_of_pinned hpos, Or.inr (Or.inl hpos)⟩
  | unpinned k =>
    have hr : m.store.referenced k = false := h.dropping k ⟨_, hmem, rfl⟩
    simp only [dropLease] at hd
    split_ifs at hd with hu
    · cases hd
      have hgone : ({ m.store with files := m.store.files.erase k } : Store τ κ).exists_ k = false :=
        Bool.eq_false_iff.mpr fun he => (Store.exists_erase_iff.mp he).1 rfl
      refine (h.eraseFile k).setStage hi ?_ ?_ ?_
      · rintro k' ⟨⟩ he
        exact absurd (hgone.symm.trans he) Bool.false_ne_true
      · rintro k' ⟨⟩
        exact hr
      · rintro k' ⟨⟩
        exact hgone
    · cases hd
      refine h.setStage hi ?_ (by simp [LeaseStage.unnamed]) (by simp)
      rintro k' ⟨⟩ -
      obtain ⟨ht, hs⟩ := hfail k rfl (by simpa using hu)
      exact Or.inr ⟨ht, Or.inr (Or.inr hs)⟩
  | unlinked k =>
    have hr : m.store.referenced k = false := h.dropping k ⟨_, hmem, rfl⟩
    cases hd
    exact (h.eraseRow hr (h.unlinked k hmem)).setStage hi (by simp [LeaseStage.owes]) (by simp [LeaseStage.unnamed])
      (by simp)
  | dropped => cases hd

end TrackInv

variable [DecidableEq ι] [DecidableEq τ]

theorem trackInv_step {cfg : Config} {m' : Machine ι τ κ} {l : Label ι τ κ} (hi : m.TrackInv) (hl : l.heals = false)
    (hc : m.TracksClear l) (hs : Step cfg m l m') : m'.TrackInv := by
  cases hs with
  | @call t op hover hop =>
    refine hi.goto_idle ?_ ?_
    · cases ho : m.ops t <;> simp_all [Op.over, Op.filesToRemove]
    · cases op <;> simp_all [Op.starts, Op.untrack]
  | leave hf => exact hi.goto_idle hf rfl
  | check hop => exact hi.goto_idle (by rw [hop]; rfl) rfl
  | @publish t disk now target casKey size guard op store hop hr ho hp =>
    have hpub : m.publication (.publish t disk now) = some (target, casKey) := by simp [publication, hop, hr]
    refine (TrackInv.goto_idle (hi.publish hp (hc.publication _ hpub) fun k hcur hf => ?_) ?_ ?_).withHistory
    · refine (hc.failure k ?_).2
      simp only [failsAt, hpub, Option.any_some, hcur, beq_self_eq_true, Bool.true_and, Bool.or_eq_true,
        Bool.not_eq_true']
      exact or_assoc.mpr hf
    · show (m.ops t).filesToRemove = []
      rw [hop]
      rfl
    · rcases ho with rfl | rfl <;> rfl
  | @evict t victims store filesToRemove hop htrims _ =>
    have hgoto : (m.goto t (.unlinking filesToRemove [])).TrackInv := hi.goto_idle (by rw [hop]; rfl) rfl
    refine hgoto.trim (htrims ⟨true, true, fun _ => true⟩) (by simp) fun k hk => Or.inl ⟨t, ?_⟩
    rw [goto_ops_self]
    exact hk
  | unlink hop => exact hi.unlink hop
  | @unlinkFails t k _ _ hop =>
    obtain ⟨ht, hs⟩ := hc.failure k (by simp [failsAt, hop, Op.filesToRemove])
    exact hi.unlinkFails hop ht hs
  | untrack hop => exact hi.untrack hop
  | @trim l disk store hd htrims =>
    refine hi.trim htrims (fun k hr hu => (hc.failure k ?_).2) (by simp)
    cases l <;> simp_all [failsAt, Label.disk]
  | lease hk => exact hi.grant hk
  | look hop => exact hi.goto_idle (by rw [hop]; rfl) rfl
  | @grant t entry store hop hk =>
    refine (hi.grant hk).goto_idle ?_ rfl
    show (m.ops t).filesToRemove = []
    rw [hop]
    rfl
  | read hop => exact hi.goto_idle (by rw [hop]; rfl) rfl
  | @open_ t _ entry lease seen hop =>
    refine hi.goto_idle (by rw [hop]; rfl) ?_
    rcases afterRead_cases cfg m entry lease seen with h | h | h <;> rw [h] <;> rfl
  | @touch t now entry lease hop =>
    have hi' : TrackInv { m with store := m.store.touch entry.resolvedTarget now } :=
      hi.withStore (Store.referenced_touch m.store _ _) (fun _ => rfl) (fun _ => Or.inr le_rfl) fun _ => rfl
    refine hi'.goto_idle ?_ rfl
    show (m.ops t).filesToRemove = []
    rw [hop]
    rfl
  | dropOrphan => cases hl
  | quarantine => cases hl
  | @drop i unlinks stage store stage' hstage hd =>
    refine hi.drop hstage hd ?_
    rintro k rfl rfl
    exact hc.failure k (by simp [failsAt, hstage])
  | @rot k blob he =>
    refine hi.withStore (fun _ => rfl) (fun _ => rfl) (fun _ => Or.inr le_rfl) fun k' => ?_
    by_cases hk : k' = k
    · rw [hk, he]
      simp [Store.exists_]
    · simp [Store.exists_, Table.get_insert_of_ne _ _ hk]

/-- In a run of the operations other than the readers' deletes, where no key is published during
the last part of a lease's drop on it and no unlink fails under an eviction that has still to
untrack the key: at rest every file and every key of the index is tracked. -/
theorem tracked_at_rest (cfg : Config) (trace : List (Label ι τ κ)) (m : Machine ι τ κ)
    (h : RunsWhen cfg (fun m l => l.heals = false ∧ m.TracksClear l) trace m) (hrest : m.AtRest) : m.Tracked := by
  suffices hi : m.TrackInv from hi.tracked hrest
  apply h.stateInvariant
  · rintro _ rfl
    exact ⟨fun _ h => (by cases h), fun _ h => (by cases h), fun _ ⟨_, h, _⟩ => (by cases h), fun _ h => (by cases h)⟩
  · intro m l m' hi hs
    exact trackInv_step hi hs.2.1 hs.2.2 (step_sound hs.1)

instance (m : Machine ι τ κ) (k : κ) : Decidable (m.Dropping k) :=
  inferInstanceAs (Decidable (∃ stage ∈ m.leases, stage.unnamed = some k))

instance [Fintype ι] (m : Machine ι τ κ) (k : κ) : Decidable (m.Settled k) :=
  inferInstanceAs (Decidable (∀ t, k ∉ (m.ops t).untrack))

instance [Fintype ι] (m : Machine ι τ κ) : Decidable m.AtRest := inferInstanceAs (Decidable (_ ∧ _))

instance [Fintype ι] [Fintype κ] (m : Machine ι τ κ) (l : Label ι τ κ) : Decidable (m.TracksClear l) :=
  decidable_of_iff ((∀ p ∈ m.publication l, ¬ m.Dropping p.2) ∧
      ∀ k, m.failsAt k l = true → m.store.tracked k = true ∧ m.Settled k)
    ⟨fun h => ⟨h.1, h.2⟩, fun h => ⟨h.publication, h.failure⟩⟩

end Machine

/-! ### A publication during the drop of a lease -/

/-- The thread puts the one content at the target, and no limit evicts it. -/
def putAt (target : ℕ) : List (Label (Fin 1) ℕ (Fin 1)) :=
  [.call 0 (.putting target 0 1 .Always), .publish 0 ⟨true, true, fun _ => true⟩ 0, .evict 0 []]

/-- A blob is leased, its row is removed, and the drop of the lease comes as far as the unlink. -/
def dropUnlinks : List (Label (Fin 1) ℕ (Fin 1)) :=
  putAt 0 ++ [.lease 0, .removeIndex ⟨true, true, fun _ => true⟩ 0, .drop 0 true, .drop 0 true,
    .drop 0 true, .drop 0 true]

/-- The same content is put at another target after the drop has ended. -/
def putAfterDrop : List (Label (Fin 1) ℕ (Fin 1)) := dropUnlinks ++ [.drop 0 true] ++ putAt 1

/-- The same content is put at another target before the drop's last statement. -/
def putInDrop : List (Label (Fin 1) ℕ (Fin 1)) := dropUnlinks ++ putAt 1 ++ [.drop 0 true]

theorem tracked_at_rest_after :
    ∃ m, Machine.RunsWhen ⟨none, false⟩ (fun m l => l.heals = false ∧ m.TracksClear l) putAfterDrop m ∧ m.AtRest ∧
      m.store.exists_ 0 = true ∧ m.Tracked := by
  obtain ⟨m, hm, hl⟩ := Machine.exists_runWhen ⟨none, false⟩ (fun m l => l.heals = false ∧ m.TracksClear l) putAfterDrop
    (fun m => decide (m.AtRest ∧ m.store.exists_ 0 = true)) (by decide +kernel)
  obtain ⟨hrest, he⟩ := of_decide_eq_true hl
  exact ⟨m, hm, hrest, he, Machine.tracked_at_rest _ _ m hm hrest⟩

/-- A publication that comes before the last statement of a drop is left untracked, its blob
and its row. -/
theorem published_untracked :
    (∀ l ∈ putInDrop, l.heals = false) ∧ ∃ m, Machine.Runs ⟨none, false⟩ putInDrop m ∧ m.AtRest ∧ ¬ m.Tracked := by
  refine ⟨by decide, ?_⟩
  obtain ⟨m, hm, hl⟩ := Machine.exists_run ⟨none, false⟩ putInDrop
    (fun m => decide (m.AtRest ∧ m.store.exists_ 0 = true ∧ m.store.tracked 0 = false)) (by decide +kernel)
  obtain ⟨hrest, he, ht⟩ := of_decide_eq_true hl
  exact ⟨m, hm, hrest, fun h => by simp [h.1 0 he] at ht⟩

end OvStorage.ByteCache
