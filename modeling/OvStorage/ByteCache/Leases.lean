import Mathlib.Data.Fintype.Basic
import OvStorage.ByteCache.Machine

/-!
# Leases of the byte cache

A lease is a promise that the file of its CAS key stays. Eviction selects files under the
connection and unlinks them after it has released it, and the drop of a lease looks, unlinks
and untracks in statements of their own; `lease` asks for neither.

## What is proved

* `live_lease_has_file`: as long as no lease is granted on a key that an eviction has selected
  or a drop has found unpinned, no live lease is left without its file.
* `lease_loses_file`: a lease granted between the two is.
-/

namespace OvStorage.ByteCache

variable {ι τ κ : Type*}

namespace Machine

/-- Every live lease has its file. -/
def LeaseSafe [DecidableEq κ] (m : Machine ι τ κ) : Prop := ∀ k, .live k ∈ m.leases → m.store.exists_ k = true

/-- The key's file is to be unlinked, or its tracking row to be dropped, without another look:
an eviction has selected it, or the drop of a lease has found it unpinned. -/
def Condemned (m : Machine ι τ κ) (k : κ) : Prop :=
  (∃ t, k ∈ (m.ops t).filesToRemove) ∨ .unpinned k ∈ m.leases ∨ .unlinked k ∈ m.leases

/-- The key a step asks a lease for. -/
def leaseKey (m : Machine ι τ κ) : Label ι τ κ → Option κ
  | .lease k => some k
  | .grant t =>
    match m.ops t with
    | .leasing entry => some entry.casKey
    | _ => none
  | _ => none

variable [DecidableEq κ]

/-- The step grants no lease on a condemned key. -/
def GrantsClear (m : Machine ι τ κ) (l : Label ι τ κ) : Prop :=
  ∀ k, m.leaseKey l = some k → (m.store.lease k).isSome → ¬ m.Condemned k

end Machine

variable [DecidableEq κ]

namespace Store

/-- The section leaves the lease counts, and the files of leased blobs. -/
structure Respects (s s' : Store τ κ) : Prop where
  leaseCount : ∀ k, s'.leaseCount k = s.leaseCount k
  kept : ∀ k, s.leaseCount k ≠ 0 → s.exists_ k = true → s'.exists_ k = true

variable {pending : List κ} {s' s : Store τ κ}

theorem Trims.respects [DecidableEq τ] {disk : Disk κ} (h : Trims disk pending s s') :
    Respects s s' := ⟨h.leaseCount, fun _ => h.exists_of_leased⟩

theorem Publishes.respects [DecidableEq τ] {disk : Disk κ} {target : τ} {row : EntryRow κ}
    (h : Publishes disk target row pending s s') : Respects s s' := by
  refine ⟨h.leaseCount, fun k hl he => (h.kept k he).resolve_right fun hp => ?_⟩
  have := leaseCount_le_pinned s k
  omega

theorem untrackAll_respects (s : Store τ κ) (untrack : List κ) : Respects s (s.untrackAll untrack) := by
  obtain ⟨-, hf, hc⟩ := get_untrackAll s untrack
  refine ⟨fun k => leaseCount_congr ((hc k).imp id fun h => ⟨h.2.1, h.2.2.2⟩), fun k _ he => ?_⟩
  rwa [exists_, hf]

theorem deleteEntry_respects [DecidableEq τ] (s : Store τ κ) (target : τ) : Respects s (s.deleteEntry target) :=
  ⟨fun _ => rfl, fun _ _ he => he⟩

theorem touch_respects [DecidableEq τ] (s : Store τ κ) (target : τ) (now : ℕ) : Respects s (s.touch target now) :=
  ⟨fun _ => rfl, fun _ _ he => he⟩

theorem quarantineCorrupt_respects [DecidableEq τ] (disk : Disk κ) (s : Store τ κ) (target : τ) (k : κ) :
    Respects s (s.quarantineCorrupt disk target k) := by
  unfold quarantineCorrupt
  dsimp only
  split_ifs with hp hu
  · exact s.deleteEntry_respects target
  · have hp : s.pinned k = 0 := Nat.eq_zero_of_not_pos hp
    refine ⟨fun k' => leaseCount_congr ?_, fun k' hl he => ?_⟩
    · by_cases hk : k' = k
      · exact Or.inr ⟨by simp [hk], hk ▸ hp⟩
      · exact Or.inl (Table.get_erase_of_ne _ hk)
    · have hk : k' ≠ k := by
        rintro rfl
        have := leaseCount_le_pinned s k'
        omega
      unfold exists_ at he ⊢
      rwa [files_unlinkAndUntrack, Table.get_erase_of_ne _ hk]
  · exact s.deleteEntry_respects target

end Store

variable {leases : List (LeaseStage κ)}

/-- What a drop that goes on leaves of the live leases. -/
theorem count_live_set {i : ℕ} {stage stage' : LeaseStage κ}
    (hi : leases[i]? = some stage) (hlive : ∀ k, stage' ≠ .live k) (k : κ) :
    (leases.set i stage').count (.live k) = leases.count (.live k) - if stage = .live k then 1 else 0 := by
  obtain ⟨hlen, rfl⟩ := List.getElem?_eq_some_iff.mp hi
  rw [List.count_set hlen]
  have hb : (stage' == LeaseStage.live k) = false := by simpa using hlive k
  simp [hb]

omit [DecidableEq κ] in
theorem live_of_mem_set {i : ℕ} {stage' : LeaseStage κ} (hlive : ∀ k, stage' ≠ .live k)
    {k : κ} (h : .live k ∈ leases.set i stage') : .live k ∈ leases :=
  (List.mem_or_eq_of_mem_set h).resolve_right fun he => hlive k he.symm

namespace Machine

/-- What every run keeps that grants leases on clear keys only. -/
structure LeaseInv (m : Machine ι τ κ) : Prop where
  /-- The count covers the live leases. -/
  counted : ∀ k, m.leases.count (.live k) ≤ m.store.leaseCount k
  safe : m.LeaseSafe
  clear : ∀ k, m.Condemned k → .live k ∉ m.leases

namespace LeaseInv

variable {m : Machine ι τ κ}

variable {k : κ}

theorem leaseCount_ne_zero (h : LeaseInv m) (hl : .live k ∈ m.leases) : m.store.leaseCount k ≠ 0 := by
  have hc := h.counted k
  have hp := List.count_pos_iff.mpr hl
  omega

theorem not_live (h : LeaseInv m) (hk : m.store.leaseCount k = 0) : .live k ∉ m.leases :=
  fun hl => h.leaseCount_ne_zero hl hk

variable {store : Store τ κ}

/-- A section that respects the leases keeps the invariant. -/
theorem withStore (h : LeaseInv m) (hs : Store.Respects m.store store) : LeaseInv { m with store } where
  counted k := (h.counted k).trans (hs.leaseCount k).ge
  safe k hl := hs.kept k (h.leaseCount_ne_zero hl) (h.safe k hl)
  clear := h.clear

theorem withHistory (h : LeaseInv m) {published : ℕ} {lastPublished : τ → ℕ} :
    LeaseInv { m with published, lastPublished } := ⟨h.counted, h.safe, h.clear⟩

/-- A thread may go on to anything that unlinks nothing leased. -/
theorem goto [DecidableEq ι] (h : LeaseInv m) {t : ι} {op : Op τ κ} (hop : ∀ k ∈ op.filesToRemove, .live k ∉ m.leases) :
    LeaseInv (m.goto t op) where
  counted := h.counted
  safe := h.safe
  clear k hk := by
    rcases hk with ⟨t', hk⟩ | hk
    · by_cases ht : t' = t
      · rw [ht, goto_ops_self] at hk
        exact hop k hk
      · rw [goto_ops_of_ne _ _ ht] at hk
        exact h.clear k (Or.inl ⟨t', hk⟩)
    · exact h.clear k (Or.inr hk)

theorem goto_clear [DecidableEq ι] (h : LeaseInv m) {t : ι} {op : Op τ κ} (hop : op.filesToRemove = []) :
    LeaseInv (m.goto t op) :=
  h.goto (by simp [hop])

/-- An unlink of a file nobody leases. -/
theorem unlinkFile (h : LeaseInv m) (hk : .live k ∉ m.leases) :
    LeaseInv { m with store := { m.store with files := m.store.files.erase k } } where
  counted := h.counted
  safe k' hl := by
    rw [Store.exists_erase_iff]
    refine ⟨?_, h.safe k' hl⟩
    rintro rfl
    exact hk hl
  clear := h.clear

/-- A grant on a clear key. -/
theorem grant (h : LeaseInv m) (hs : m.store.lease k = some store) (hk : ¬ m.Condemned k) :
    LeaseInv { m with store, leases := m.leases ++ [.live k] } where
  counted k' := by
    rw [Store.leaseCount_lease hs, List.count_append, List.count_singleton]
    have := h.counted k'
    by_cases hkk : k' = k
    · simp only [hkk, beq_self_eq_true, if_true] at this ⊢
      omega
    · have hb : (LeaseStage.live k == LeaseStage.live k') = false := by simpa using Ne.symm hkk
      simp only [hb, hkk, Bool.false_eq_true, if_false, Nat.add_zero]
      exact this
  safe k' hl := by
    obtain ⟨row, -, he, rfl⟩ := Store.lease_eq_some hs
    rcases List.mem_append.mp hl with hl | hl
    · exact h.safe k' hl
    · obtain rfl : k' = k := by simpa using hl
      exact he
  clear k' hc hl := by
    have hc' : m.Condemned k' := by simpa [Condemned] using hc
    rcases List.mem_append.mp hl with hl | hl
    · exact h.clear k' hc' hl
    · obtain rfl : k' = k := by simpa using hl
      exact hk hc'

variable {stage' stage : LeaseStage κ}

/-- A lease goes on in its drop, with the store as it is. -/
theorem setStage (h : LeaseInv m) {i : ℕ} (hi : m.leases[i]? = some stage) (hlive : ∀ k, stage' ≠ .live k)
    (hclear : ∀ k, stage' = .unpinned k ∨ stage' = .unlinked k → .live k ∉ m.leases) :
    LeaseInv { m with leases := m.leases.set i stage' } where
  counted k := by
    rw [count_live_set hi hlive]
    exact (Nat.sub_le _ _).trans (h.counted k)
  safe k hl := h.safe k (live_of_mem_set hlive hl)
  clear k hk hl := by
    have hl' := live_of_mem_set hlive hl
    rcases hk with hk | hk | hk
    · exact h.clear k (Or.inl hk) hl'
    · rcases List.mem_or_eq_of_mem_set hk with hk | hk
      · exact h.clear k (Or.inr (Or.inl hk)) hl'
      · exact hclear k (Or.inl hk.symm) hl'
    · rcases List.mem_or_eq_of_mem_set hk with hk | hk
      · exact h.clear k (Or.inr (Or.inr hk)) hl'
      · exact hclear k (Or.inr hk.symm) hl'

/-- The next statement of a lease's drop. -/
theorem drop (h : LeaseInv m) {i : ℕ} {unlinks : Bool}
    (hi : m.leases[i]? = some stage) (hd : dropLease m.store unlinks stage = some (store, stage')) :
    LeaseInv { m with store, leases := m.leases.set i stage' } := by
  have hmem := List.mem_of_getElem? hi
  cases stage with
  | live k =>
    cases hd
    have hlive : ∀ k', LeaseStage.released k ≠ .live k' := by simp
    refine ⟨fun k' => ?_, fun k' hl => h.safe k' (live_of_mem_set hlive hl), fun k' hk hl => ?_⟩
    · rw [Store.leaseCount_releaseLease, count_live_set hi hlive]
      have := h.counted k'
      simp only [LeaseStage.live.injEq, eq_comm (a := k)]
      omega
    · refine h.clear k' (hk.imp id (Or.imp ?_ ?_)) (live_of_mem_set hlive hl)
      all_goals exact fun hm => (List.mem_or_eq_of_mem_set hm).resolve_right (by simp)
  | released k =>
    cases hd
    split_ifs
    · exact h.setStage hi (by simp) (by simp)
    · exact h.setStage hi (by simp) (by simp)
  | unreferenced k =>
    cases hd
    split_ifs with hp
    · refine h.setStage hi (by simp) ?_
      intro k' hk'
      obtain rfl : k = k' := by simpa using hk'
      have := Store.leaseCount_le_pinned m.store k
      exact h.not_live (by omega)
    · exact h.setStage hi (by simp) (by simp)
  | unpinned k =>
    have hclear : LeaseStage.live k ∉ m.leases := h.clear k (Or.inr (Or.inl hmem))
    simp only [dropLease] at hd
    split_ifs at hd
    · cases hd
      refine (h.unlinkFile hclear).setStage hi (by simp) ?_
      intro k' hk'
      obtain rfl : k = k' := by simpa using hk'
      exact hclear
    · cases hd
      exact h.setStage hi (by simp) (by simp)
  | unlinked k =>
    have hclear : LeaseStage.live k ∉ m.leases := h.clear k (Or.inr (Or.inr hmem))
    cases hd
    refine LeaseInv.setStage (m := { m with store := { m.store with cacheEntries := m.store.cacheEntries.erase k } })
      ⟨fun k' => ?_, h.safe, h.clear⟩ hi (by simp) (by simp)
    by_cases hk : k' = k
    · subst hk
      rw [List.count_eq_zero_of_not_mem hclear]
      exact Nat.zero_le _
    · refine (h.counted k').trans_eq ?_
      unfold Store.leaseCount
      rw [Table.get_erase_of_ne _ hk]
  | dropped => cases hd

end LeaseInv

variable [DecidableEq ι] [DecidableEq τ]

theorem leaseInv_step {cfg : Config} {m m' : Machine ι τ κ} {l : Label ι τ κ} (hi : m.LeaseInv) (hc : m.GrantsClear l)
    (hs : Step cfg m l m') : m'.LeaseInv := by
  cases hs with
  | call _ hop => exact hi.goto_clear (by unfold Op.starts at hop; split at hop <;> simp_all [Op.filesToRemove])
  | leave => exact hi.goto_clear rfl
  | check => exact hi.goto_clear rfl
  | publish _ _ hop hp =>
    refine ((hi.withStore hp.respects).goto_clear ?_).withHistory
    rcases hop with rfl | rfl <;> rfl
  | evict _ htrims hleases =>
    refine (hi.withStore (htrims ⟨true, true, fun _ => true⟩).respects).goto ?_
    intro k hk
    exact hi.not_live (hleases k hk)
  | @unlink t k _ _ hop =>
    have hclear : ∀ k' ∈ (m.ops t).filesToRemove, LeaseStage.live k' ∉ m.leases :=
      fun k' hk' => hi.clear k' (Or.inl ⟨t, hk'⟩)
    rw [hop] at hclear
    refine (hi.unlinkFile (hclear k List.mem_cons_self)).goto ?_
    intro k' hk'
    exact hclear k' (List.mem_cons_of_mem _ hk')
  | @unlinkFails t k _ _ hop =>
    refine hi.goto ?_
    intro k' hk'
    refine hi.clear k' (Or.inl ⟨t, ?_⟩)
    rw [hop]
    exact List.mem_cons_of_mem _ hk'
  | untrack hop => exact (hi.withStore (m.store.untrackAll_respects _)).goto_clear rfl
  | trim _ htrims => exact hi.withStore htrims.respects
  | lease hk => exact hi.grant hk (hc _ rfl (Option.isSome_of_eq_some hk))
  | look => exact hi.goto_clear rfl
  | grant hop hk =>
    refine (hi.grant hk (hc _ ?_ (Option.isSome_of_eq_some hk))).goto_clear rfl
    simp [leaseKey, hop]
  | read => exact hi.goto_clear rfl
  | @open_ t _ entry lease seen =>
    apply hi.goto_clear
    rcases afterRead_cases cfg m entry lease seen with h | h | h <;> rw [h] <;> rfl
  | touch => exact (hi.withStore (m.store.touch_respects _ _)).goto_clear rfl
  | dropOrphan => exact (hi.withStore (m.store.deleteEntry_respects _)).goto_clear rfl
  | quarantine => exact (hi.withStore (m.store.quarantineCorrupt_respects _ _ _)).goto_clear rfl
  | drop hl hd => exact hi.drop hl hd
  | @rot k blob he =>
    refine hi.withStore ⟨fun _ => rfl, fun k' _ he' => ?_⟩
    unfold Store.exists_ at he' ⊢
    by_cases hk : k' = k
    · simp [hk]
    · rwa [Table.get_insert_of_ne _ _ hk]

omit [DecidableEq ι] [DecidableEq τ] in
theorem leaseInv_init : (init : Machine ι τ κ).LeaseInv where
  counted _ := Nat.zero_le _
  safe _ h := by cases h
  clear _ _ h := by cases h

/-- In a run that grants no lease on a condemned key, every live lease has its file. -/
theorem live_lease_has_file (cfg : Config) (trace : List (Label ι τ κ)) (m : Machine ι τ κ)
    (h : RunsWhen cfg GrantsClear trace m) : m.LeaseSafe := by
  suffices hi : m.LeaseInv from hi.safe
  apply h.stateInvariant
  · rintro _ rfl
    exact leaseInv_init
  · intro m l m' hi hs
    exact leaseInv_step hi hs.2 (step_sound hs.1)

instance [Fintype ι] (m : Machine ι τ κ) (k : κ) : Decidable (m.Condemned k) := inferInstanceAs (Decidable (_ ∨ _ ∨ _))

instance [Fintype ι] (m : Machine ι τ κ) (l : Label ι τ κ) : Decidable (m.GrantsClear l) :=
  match h : m.leaseKey l with
  | none => isTrue fun k hk => by simp [h] at hk
  | some k => decidable_of_iff ((m.store.lease k).isSome → ¬ m.Condemned k) (by simp [GrantsClear, h])

end Machine

/-- A file system on which nothing fails. -/
def soundDisk : Disk ℕ := ⟨true, true, fun _ => true⟩

/-- Thread 0 puts one byte. -/
def putFirst : List (Label (Fin 2) ℕ ℕ) :=
  [.call 0 (.putting 0 0 1 .Always), .publish 0 soundDisk 0, .evict 0 [(0, ⟨0, 1, 0, 0⟩)], .untrack 0]

/-- Thread 1 puts another, over the limit of one byte, up to phase 1 of its eviction. -/
def putSecond : List (Label (Fin 2) ℕ ℕ) :=
  [.call 1 (.putting 1 1 1 .Always), .publish 1 soundDisk 1, .evict 1 [(0, ⟨0, 1, 0, 0⟩), (1, ⟨1, 1, 1, 1⟩)]]

/-- The lease on the first blob is taken before the second put. -/
def leaseKept : List (Label (Fin 2) ℕ ℕ) := putFirst ++ [.lease 0] ++ putSecond ++ [.unlink 1 true, .untrack 1]

/-- The lease on the first blob is taken after the eviction has selected it, and the eviction
goes on. -/
def leaseLost : List (Label (Fin 2) ℕ ℕ) := putFirst ++ putSecond ++ [.lease 0, .unlink 1 true]

theorem live_lease_has_file_kept :
    ∃ m, Machine.RunsWhen ⟨some 1, false⟩ Machine.GrantsClear leaseKept m ∧ .live 0 ∈ m.leases ∧ m.LeaseSafe := by
  obtain ⟨m, hm, hl⟩ := Machine.exists_runWhen ⟨some 1, false⟩ Machine.GrantsClear leaseKept
    (fun m => decide (.live 0 ∈ m.leases)) (by decide +kernel)
  exact ⟨m, hm, of_decide_eq_true hl, Machine.live_lease_has_file _ _ m hm⟩

/-- A lease granted on what an eviction has selected loses its file. -/
theorem lease_loses_file : ∃ m, Machine.Runs ⟨some 1, false⟩ leaseLost m ∧ ¬ m.LeaseSafe := by
  obtain ⟨m, hm, hl⟩ := Machine.exists_run ⟨some 1, false⟩ leaseLost
    (fun m => decide (.live 0 ∈ m.leases) && !m.store.exists_ 0) (by decide +kernel)
  simp only [Bool.and_eq_true, decide_eq_true_eq, Bool.not_eq_true'] at hl
  exact ⟨m, hm, fun h => by simp [h 0 hl.1] at hl⟩

end OvStorage.ByteCache
