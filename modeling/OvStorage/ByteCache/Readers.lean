import Mathlib.Data.Fintype.Basic
import OvStorage.ByteCache.Machine

/-!
# Readers of the byte cache

`lookup` reads the index, takes a lease on what it found, and reads the index again;
`get_entry_inner` reads the index, then the file, and deletes the row by its target when the
file is missing or bad. A publication may come between any two of these.

## What is proved

* `lookup_pairs`: as long as no publication puts other content at the target between the two
  reads of a lookup, the lease it returns is on the entry it returns.
* `heal_deletes_own`: as long as no publication of the target comes between a reader's read of
  the index and its delete, the row it deletes is the one it read.
* `lookup_mispairs` and `heal_deletes_newer`: each fails when such a publication comes.
-/

namespace OvStorage.ByteCache

variable {ι τ κ : Type*}

/-- The target and the key a `lookup` has seen and is to read again. -/
def Op.relooking : Op τ κ → Option (τ × κ)
  | .leasing entry => some (entry.resolvedTarget, entry.casKey)
  | .reading target (some k) => some (target, k)
  | _ => none

/-- The entry a reader has read and may still delete, and the publications before it. -/
def Op.reading? : Op τ κ → Option (ByteCacheEntry τ κ × ℕ)
  | .opening entry _ seen | .orphaned entry seen | .corrupt entry seen => some (entry, seen)
  | _ => none

/-- The entry and the lease a reader has, once it has read the index. -/
def Op.paired? : Op τ κ → Option (ByteCacheEntry τ κ × Option κ)
  | .opening entry lease _ | .touching entry lease | .returned entry lease => some (entry, lease)
  | _ => none

/-- Whether the operation has nothing of a reader's. -/
def Op.Blind (op : Op τ κ) : Prop := op.relooking = none ∧ op.reading? = none ∧ op.paired? = none

namespace Machine

variable [DecidableEq τ] [DecidableEq κ]

/-- How a reader goes on. -/
inductive Goes (cfg : Config) (m : Machine ι τ κ) : Op τ κ → Op τ κ → Prop
  | look {target entry} : m.entry target = some entry → Goes cfg m (.looking target) (.leasing entry)
  | grant {entry} : Goes cfg m (.leasing entry) (.reading entry.resolvedTarget (some entry.casKey))
  | read {target lease entry} : m.entry target = some entry →
      Goes cfg m (.reading target lease) (.opening entry lease m.published)
  | open_ {entry lease seen} : Goes cfg m (.opening entry lease seen) (m.afterRead cfg entry lease seen)
  | touch {entry lease} : Goes cfg m (.touching entry lease) (.returned entry lease)

variable [DecidableEq ι] {cfg : Config} {m m' : Machine ι τ κ} {l : Label ι τ κ}

/-- A thread stays, goes on as a reader, or goes on to something blind. -/
theorem step_op (hs : Step cfg m l m') (t : ι) :
    m'.ops t = m.ops t ∨ (m'.ops t).Blind ∨ m.publication l = none ∧ Goes cfg m (m.ops t) (m'.ops t) := by
  -- only the thread that moves is of interest
  have key : ∀ (t₀ : ι) (op : Op τ κ), (op.Blind ∨ m.publication l = none ∧ Goes cfg m (m.ops t₀) op) →
      (m.goto t₀ op).ops t = m.ops t ∨ ((m.goto t₀ op).ops t).Blind ∨
        m.publication l = none ∧ Goes cfg m (m.ops t) ((m.goto t₀ op).ops t) := by
    intro t₀ op h
    by_cases ht : t = t₀
    · subst ht
      rw [goto_ops_self]
      exact Or.inr h
    · exact Or.inl (goto_ops_of_ne _ _ ht)
  cases hs with
  | call _ hop =>
    refine key _ _ (Or.inl ?_)
    unfold Op.starts at hop
    split at hop
    all_goals first | exact ⟨rfl, rfl, rfl⟩ | cases hop
  | leave => exact key _ _ (Or.inl ⟨rfl, rfl, rfl⟩)
  | check => exact key _ _ (Or.inl ⟨rfl, rfl, rfl⟩)
  | publish _ _ hop =>
    refine key _ _ (Or.inl ?_)
    rcases hop with rfl | rfl
    · exact ⟨rfl, rfl, rfl⟩
    · exact ⟨rfl, rfl, rfl⟩
  | evict => exact key _ _ (Or.inl ⟨rfl, rfl, rfl⟩)
  | unlink => exact key _ _ (Or.inl ⟨rfl, rfl, rfl⟩)
  | unlinkFails => exact key _ _ (Or.inl ⟨rfl, rfl, rfl⟩)
  | untrack => exact key _ _ (Or.inl ⟨rfl, rfl, rfl⟩)
  | trim => exact Or.inl rfl
  | lease => exact Or.inl rfl
  | look hop he =>
    refine key _ _ (Or.inr ⟨rfl, ?_⟩)
    rw [hop]
    exact .look he
  | grant hop =>
    refine key _ _ (Or.inr ⟨rfl, ?_⟩)
    rw [hop]
    exact .grant
  | read hop he =>
    refine key _ _ (Or.inr ⟨rfl, ?_⟩)
    rw [hop]
    exact .read he
  | open_ hop =>
    refine key _ _ (Or.inr ⟨rfl, ?_⟩)
    rw [hop]
    exact .open_
  | touch hop =>
    refine key _ _ (Or.inr ⟨rfl, ?_⟩)
    rw [hop]
    exact .touch
  | dropOrphan => exact key _ _ (Or.inl ⟨rfl, rfl, rfl⟩)
  | quarantine => exact key _ _ (Or.inl ⟨rfl, rfl, rfl⟩)
  | drop => exact Or.inl rfl
  | rot => exact Or.inl rfl

omit [DecidableEq κ] in
theorem get_erase_or {s : Store τ κ} (target target' : τ) :
    (s.entries.erase target).get target' = s.entries.get target' ∨ (s.entries.erase target).get target' = none := by
  by_cases h : target' = target
  · subst h
    exact Or.inr (Table.get_erase_self _ _)
  · exact Or.inl (Table.get_erase_of_ne _ h)

/-- The row was there before, with the key it has and of the same publication. -/
def RowKept (m m' : Machine ι τ κ) (target : τ) (row' : EntryRow κ) : Prop :=
  ∃ row, m.store.entries.get target = some row ∧ row.casKey = row'.casKey ∧
    m'.lastPublished target = m.lastPublished target

variable {target : τ}

/-- A row names what it named, or the step published it. -/
theorem step_row (hs : Step cfg m l m') {row' : EntryRow κ} (h : m'.store.entries.get target = some row') :
    RowKept m m' target row' ∨ m.publication l = some (target, row'.casKey) := by
  have fewer : m'.store.entries.get target = m.store.entries.get target ∨ m'.store.entries.get target = none →
      m'.lastPublished = m.lastPublished → RowKept m m' target row' ∨ m.publication l = some (target, row'.casKey) := by
    intro he hp
    rcases he with he | he
    · exact Or.inl ⟨row', he ▸ h, rfl, congrFun hp target⟩
    · simp [he] at h
  have same : m'.store.entries.get target = m.store.entries.get target → m'.lastPublished = m.lastPublished →
      RowKept m m' target row' ∨ m.publication l = some (target, row'.casKey) := fun he => fewer (Or.inl he)
  cases hs with
  | call => exact same rfl rfl
  | leave => exact same rfl rfl
  | check => exact same rfl rfl
  | @publish t disk now target' casKey size guard op store hop hr _ hp =>
    by_cases ht : target = target'
    · subst ht
      right
      have hrow : store.entries.get target = some row' := h
      rw [hp.get_self] at hrow
      cases hrow
      simp [publication, hop, hr]
    · left
      refine ⟨row', ?_, rfl, Function.update_of_ne ht _ _⟩
      rw [← hp.get_of_ne ht]
      exact h
  | evict _ htrims => exact fewer ((htrims ⟨true, true, fun _ => true⟩).entries target) rfl
  | unlink => exact same rfl rfl
  | unlinkFails => exact same rfl rfl
  | untrack => exact same (congrArg (Table.get · target) (Store.get_untrackAll m.store _).1) rfl
  | trim _ htrims => exact fewer (htrims.entries target) rfl
  | lease hk =>
    obtain ⟨_, _, _, rfl⟩ := Store.lease_eq_some hk
    exact same rfl rfl
  | look => exact same rfl rfl
  | grant _ hk =>
    obtain ⟨_, _, _, rfl⟩ := Store.lease_eq_some hk
    exact same rfl rfl
  | read => exact same rfl rfl
  | open_ => exact same rfl rfl
  | @touch t now entry lease hop =>
    have hm : (target, row') ∈ (m.store.touch entry.resolvedTarget now).entries.rows := Table.mem_rows_iff.mpr h
    rcases Table.mem_modify.mp hm with ⟨row, hrow, -, rfl⟩ | ⟨hrow, -⟩
    · exact Or.inl ⟨row, Table.mem_rows_iff.mp hrow, rfl, rfl⟩
    · exact Or.inl ⟨row', Table.mem_rows_iff.mp hrow, rfl, rfl⟩
  | dropOrphan => exact fewer (get_erase_or _ _) rfl
  | @quarantine t disk entry seen hop =>
    refine fewer ?_ rfl
    have he : (m.store.quarantineCorrupt disk entry.resolvedTarget entry.casKey).entries =
        m.store.entries.erase entry.resolvedTarget := by
      unfold Store.quarantineCorrupt
      dsimp only
      split_ifs <;> rfl
    rw [he]
    exact get_erase_or _ _
  | @drop i unlinks stage store stage' _ hd =>
    have he : store.entries = m.store.entries := by
      cases stage with
      | unpinned k =>
        simp only [dropLease] at hd
        split_ifs at hd
        · cases hd
          rfl
        · cases hd
          rfl
      | dropped => cases hd
      | _ =>
        cases hd
        rfl
    exact same (congrArg (Table.get · target) he) rfl
  | rot => exact same rfl rfl

/-- No publication is numbered past the last. -/
theorem lastPublished_le (hs : Step cfg m l m') (h : ∀ target, m.lastPublished target ≤ m.published) (target : τ) :
    m'.lastPublished target ≤ m'.published := by
  cases hs with
  | @publish t disk now target' =>
    by_cases ht : target = target'
    · simp [ht]
    · have hlast : Function.update m.lastPublished target' (m.published + 1) target = m.lastPublished target :=
        Function.update_of_ne ht _ _
      exact hlast.trans_le ((h target).trans (Nat.le_succ _))
  | _ => exact h target

/-! ### The two reads of a lookup -/

/-- The lease a lookup returns is on the entry it returns. -/
def LookupPairs (m : Machine ι τ κ) : Prop := ∀ t entry k, m.ops t = .returned entry (some k) → entry.casKey = k

/-- The step publishes nothing at a target of a lookup between its two reads, but what the
lookup has seen there. -/
def SparesLookups (m : Machine ι τ κ) (l : Label ι τ κ) : Prop :=
  ∀ target k, m.publication l = some (target, k) → ∀ t k', (m.ops t).relooking = some (target, k') → k = k'

/-- What every run keeps that spares lookups. -/
structure PairInv (m : Machine ι τ κ) : Prop where
  relooking : ∀ t target k, (m.ops t).relooking = some (target, k) → ∀ row, m.store.entries.get target = some row →
    row.casKey = k
  paired : ∀ t entry k, (m.ops t).paired? = some (entry, some k) → entry.casKey = k

variable {entry : ByteCacheEntry τ κ}

omit [DecidableEq κ] [DecidableEq ι] in
theorem entry_eq_some (h : m.entry target = some entry) :
    entry.resolvedTarget = target ∧ ∃ row, m.store.entries.get target = some row ∧ row.casKey = entry.casKey := by
  obtain ⟨row, hrow, rfl⟩ := Option.map_eq_some_iff.mp h
  exact ⟨rfl, row, hrow, rfl⟩

variable {old new : Op τ κ}

omit [DecidableEq ι] in
/-- A reader between the reads of a lookup has just read, or was already. -/
theorem goes_relooking (hg : Goes cfg m old new) {k : κ} (h : new.relooking = some (target, k)) :
    old.relooking = some (target, k) ∨ ∃ row, m.store.entries.get target = some row ∧ row.casKey = k := by
  cases hg with
  | look he =>
    obtain ⟨rfl, hrow⟩ := entry_eq_some he
    cases h
    exact Or.inr hrow
  | grant => exact Or.inl h
  | read => cases h
  | @open_ entry lease seen =>
    rcases afterRead_cases cfg m entry lease seen with he | he | he <;> rw [he] at h <;> cases h
  | touch => cases h

omit [DecidableEq ι] in
/-- The entry of a reader with a lease was already its, or is what the second read finds. -/
theorem goes_paired (hg : Goes cfg m old new) {k : κ} (h : new.paired? = some (entry, some k)) :
    old.paired? = some (entry, some k) ∨
      ∃ target row, old.relooking = some (target, k) ∧ m.store.entries.get target = some row ∧
        row.casKey = entry.casKey := by
  cases hg with
  | look => cases h
  | grant => cases h
  | read he =>
    cases h
    obtain ⟨rfl, row, hrow, hk⟩ := entry_eq_some he
    exact Or.inr ⟨_, row, rfl, hrow, hk⟩
  | @open_ entry' lease seen =>
    rcases afterRead_cases cfg m entry' lease seen with he | he | he
    · rw [he] at h
      cases h
    · rw [he] at h
      cases h
    · rw [he] at h
      exact Or.inl h
  | touch => exact Or.inl h

theorem pairInv_step (hi : PairInv m) (hc : m.SparesLookups l) (hs : Step cfg m l m') : PairInv m' where
  relooking t target k hop row' hrow' := by
    rcases step_row hs hrow' with ⟨row, hrow, hk, -⟩ | hp
    · rw [← hk]
      rcases step_op hs t with he | hb | ⟨-, hg⟩
      · exact hi.relooking t target k (he ▸ hop) row hrow
      · simp [hb.1] at hop
      · rcases goes_relooking hg hop with hold | ⟨row₀, hrow₀, rfl⟩
        · exact hi.relooking t target k hold row hrow
        · rw [hrow₀] at hrow
          cases hrow
          rfl
    · rcases step_op hs t with he | hb | ⟨hn, -⟩
      · exact hc _ _ hp t k (he ▸ hop)
      · simp [hb.1] at hop
      · simp [hn] at hp
  paired t entry k hop := by
    rcases step_op hs t with he | hb | ⟨-, hg⟩
    · exact hi.paired t entry k (he ▸ hop)
    · simp [hb.2.2] at hop
    · rcases goes_paired hg hop with hold | ⟨target, row, hold, hrow, hk⟩
      · exact hi.paired t entry k hold
      · exact hk.symm.trans (hi.relooking t target k hold row hrow)

/-- In a run that publishes nothing else between the two reads of a lookup, the lease a lookup
returns is on the entry it returns. -/
theorem lookup_pairs (cfg : Config) (trace : List (Label ι τ κ)) (m : Machine ι τ κ)
    (h : RunsWhen cfg SparesLookups trace m) : m.LookupPairs := by
  suffices hi : m.PairInv from fun t entry k hop => hi.paired t entry k (by rw [hop]; rfl)
  apply h.stateInvariant
  · rintro _ rfl
    exact ⟨fun _ _ _ h => (by cases h), fun _ _ _ h => (by cases h)⟩
  · intro m l m' hi hs
    exact pairInv_step hi hs.2 (step_sound hs.1)

instance [Fintype ι] (m : Machine ι τ κ) (l : Label ι τ κ) : Decidable (m.SparesLookups l) :=
  match h : m.publication l with
  | none => isTrue (by simp [SparesLookups, h])
  | some (target, k) =>
    decidable_of_iff (∀ t, ∀ p ∈ (m.ops t).relooking, p.1 = target → k = p.2) (by
      simp only [SparesLookups, h, Option.some.injEq, Prod.mk.injEq, Option.mem_def, Prod.forall]
      constructor
      · rintro hall _ _ ⟨rfl, rfl⟩ t k' ht
        exact hall t _ k' ht rfl
      · rintro hall t _ k' ht rfl
        exact hall _ _ ⟨rfl, rfl⟩ t k' ht)

/-! ### The delete of a reader -/

/-- The row that a reader is to delete still names the key it observed, and was published
before it read the index. -/
def HealsOwn (m : Machine ι τ κ) : Prop :=
  ∀ t entry seen, m.ops t = .orphaned entry seen ∨ m.ops t = .corrupt entry seen →
    ∀ row, m.store.entries.get entry.resolvedTarget = some row →
      row.casKey = entry.casKey ∧ m.lastPublished entry.resolvedTarget ≤ seen

/-- The step publishes no target that a reader has read and may still delete. -/
def SparesReaders (m : Machine ι τ κ) (l : Label ι τ κ) : Prop :=
  ∀ target k, m.publication l = some (target, k) →
    ∀ t entry seen, (m.ops t).reading? = some (entry, seen) → entry.resolvedTarget ≠ target

/-- What every run keeps that spares readers. -/
structure HealInv (m : Machine ι τ κ) : Prop where
  numbered : ∀ target, m.lastPublished target ≤ m.published
  reading : ∀ t entry seen, (m.ops t).reading? = some (entry, seen) →
    ∀ row, m.store.entries.get entry.resolvedTarget = some row →
      row.casKey = entry.casKey ∧ m.lastPublished entry.resolvedTarget ≤ seen

omit [DecidableEq ι] in
/-- The entry of a reader was already its, or is what it has just read. -/
theorem goes_reading (hg : Goes cfg m old new) {seen : ℕ} (h : new.reading? = some (entry, seen)) :
    old.reading? = some (entry, seen) ∨
      seen = m.published ∧ ∃ row, m.store.entries.get entry.resolvedTarget = some row ∧ row.casKey = entry.casKey := by
  cases hg with
  | look => cases h
  | grant => cases h
  | read he =>
    cases h
    obtain ⟨rfl, row, hrow, hk⟩ := entry_eq_some he
    exact Or.inr ⟨rfl, row, hrow, hk⟩
  | @open_ entry' lease seen' =>
    left
    rcases afterRead_cases cfg m entry' lease seen' with he | he | he
    · rw [he] at h
      exact h
    · rw [he] at h
      exact h
    · rw [he] at h
      cases h
  | touch => cases h

theorem healInv_step (hi : HealInv m) (hc : m.SparesReaders l) (hs : Step cfg m l m') : HealInv m' where
  numbered := lastPublished_le hs hi.numbered
  reading t entry seen hop row' hrow' := by
    rcases step_row hs hrow' with ⟨row, hrow, hk, hlast⟩ | hp
    · rw [← hk, hlast]
      rcases step_op hs t with he | hb | ⟨-, hg⟩
      · exact hi.reading t entry seen (he ▸ hop) row hrow
      · simp [hb.2.1] at hop
      · rcases goes_reading hg hop with hold | ⟨rfl, row₀, hrow₀, hk₀⟩
        · exact hi.reading t entry seen hold row hrow
        · rw [hrow₀] at hrow
          cases hrow
          exact ⟨hk₀, hi.numbered _⟩
    · rcases step_op hs t with he | hb | ⟨hn, -⟩
      · exact absurd rfl (hc _ _ hp t entry seen (he ▸ hop))
      · simp [hb.2.1] at hop
      · simp [hn] at hp

/-- In a run that publishes no target between a reader's read of the index and its delete, a
reader deletes the row it read and no newer one. -/
theorem heal_deletes_own (cfg : Config) (trace : List (Label ι τ κ)) (m : Machine ι τ κ)
    (h : RunsWhen cfg SparesReaders trace m) : m.HealsOwn := by
  suffices hi : m.HealInv by
    intro t entry seen hop
    apply hi.reading t
    rcases hop with hop | hop <;> rw [hop] <;> rfl
  apply h.stateInvariant
  · rintro _ rfl
    exact ⟨fun _ => le_rfl, fun _ _ _ h => (by cases h)⟩
  · intro m l m' hi hs
    exact healInv_step hi hs.2 (step_sound hs.1)

instance [Fintype ι] (m : Machine ι τ κ) (l : Label ι τ κ) : Decidable (m.SparesReaders l) :=
  match h : m.publication l with
  | none => isTrue (by simp [SparesReaders, h])
  | some (target, k) =>
    decidable_of_iff (∀ t, ∀ p ∈ (m.ops t).reading?, p.1.resolvedTarget ≠ target) (by
      simp only [SparesReaders, h, Option.some.injEq, Prod.mk.injEq, Option.mem_def, Prod.forall]
      constructor
      · rintro hall _ _ ⟨rfl, rfl⟩ t entry seen ht
        exact hall t entry seen ht
      · intro hall t entry seen ht
        exact hall _ _ ⟨rfl, rfl⟩ t entry seen ht)

end Machine

/-! ### Publications that come between -/

/-- Thread 0 puts the content `k` at the target 0, and no limit evicts it. -/
def putContent (k : ℕ) : List (Label (Fin 2) ℕ ℕ) :=
  [.call 0 (.putting 0 k 1 .Always), .publish 0 ⟨true, true, fun _ => true⟩ k, .evict 0 []]

/-- Thread 1 looks the target 0 up, up to its lease. -/
def lookupLeases : List (Label (Fin 2) ℕ ℕ) := [.call 1 (.looking 0), .look 1, .grant 1]

/-- The rest of the lookup. -/
def lookupReturns : List (Label (Fin 2) ℕ ℕ) := [.read 1, .open_ 1 false, .touch 1 2]

/-- A put before the lookup, and one after it. -/
def lookupAlone : List (Label (Fin 2) ℕ ℕ) := putContent 0 ++ lookupLeases ++ lookupReturns ++ putContent 1

/-- A put of other content between the lease and the second read. -/
def lookupSplit : List (Label (Fin 2) ℕ ℕ) := putContent 0 ++ lookupLeases ++ putContent 1 ++ lookupReturns

theorem lookup_pairs_alone :
    ∃ m, Machine.RunsWhen ⟨none, false⟩ Machine.SparesLookups lookupAlone m ∧
      (m.ops 1).paired? = some (⟨0, 0, 1⟩, some 0) ∧ m.LookupPairs := by
  obtain ⟨m, hm, hl⟩ := Machine.exists_runWhen ⟨none, false⟩ Machine.SparesLookups lookupAlone
    (fun m => decide ((m.ops 1).paired? = some (⟨0, 0, 1⟩, some 0))) (by decide +kernel)
  exact ⟨m, hm, of_decide_eq_true hl, Machine.lookup_pairs _ _ m hm⟩

/-- A lookup that a put splits returns the new content with a lease on the old. -/
theorem lookup_mispairs : ∃ m, Machine.Runs ⟨none, false⟩ lookupSplit m ∧ ¬ m.LookupPairs := by
  obtain ⟨m, hm, hl⟩ := Machine.exists_run ⟨none, false⟩ lookupSplit
    (fun m => match m.ops 1 with | .returned entry lease => decide (entry.casKey = 1 ∧ lease = some 0) | _ => false)
    (by decide +kernel)
  refine ⟨m, hm, fun h => ?_⟩
  split at hl
  next entry lease hop =>
    obtain ⟨hk, rfl⟩ := of_decide_eq_true hl
    have := h 1 entry 0 hop
    omega
  next => cases hl

/-- Thread 1 reads the index for the target 0. -/
def readerReads : List (Label (Fin 2) ℕ ℕ) := [.call 1 (.reading 0 none), .read 1]

/-- A reader that finds the file of its row rotten. -/
def readerHeals : List (Label (Fin 2) ℕ ℕ) := putContent 0 ++ readerReads ++ [.rot 0 ⟨0, 0⟩, .open_ 1 false]

/-- A put of other content displaces the row and the file before the reader opens it. -/
def readerSplit : List (Label (Fin 2) ℕ ℕ) := putContent 0 ++ readerReads ++ putContent 1 ++ [.open_ 1 false]

theorem heal_deletes_own_rotten :
    ∃ m, Machine.RunsWhen ⟨none, false⟩ Machine.SparesReaders readerHeals m ∧
      (m.ops 1).reading? = some (⟨0, 0, 1⟩, 1) ∧ m.HealsOwn := by
  obtain ⟨m, hm, hl⟩ := Machine.exists_runWhen ⟨none, false⟩ Machine.SparesReaders readerHeals
    (fun m => decide ((m.ops 1).reading? = some (⟨0, 0, 1⟩, 1))) (by decide +kernel)
  exact ⟨m, hm, of_decide_eq_true hl, Machine.heal_deletes_own _ _ m hm⟩

/-- A reader that a put splits is to delete the row of the put. -/
theorem heal_deletes_newer : ∃ m, Machine.Runs ⟨none, false⟩ readerSplit m ∧ ¬ m.HealsOwn := by
  obtain ⟨m, hm, hl⟩ := Machine.exists_run ⟨none, false⟩ readerSplit
    (fun m => decide ((m.ops 1).reading? = some (⟨0, 0, 1⟩, 1) ∧ (m.ops 1).paired? = none ∧
      m.store.currentCasKey 0 = some 1))
    (by decide +kernel)
  obtain ⟨hreading, hpaired, hcur⟩ := of_decide_eq_true hl
  refine ⟨m, hm, fun h => ?_⟩
  obtain ⟨row, hrow, hk⟩ := Store.currentCasKey_eq_some hcur
  have hop : m.ops 1 = .orphaned ⟨0, 0, 1⟩ 1 ∨ m.ops 1 = .corrupt ⟨0, 0, 1⟩ 1 := by
    cases hop : m.ops 1 <;> simp_all [Op.reading?, Op.paired?]
  have := (h 1 _ _ hop row hrow).1
  simp [hk] at this

end OvStorage.ByteCache
