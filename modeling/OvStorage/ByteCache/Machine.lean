import Mathlib.Logic.Function.Basic
import OvStorage.Lib.Transition
import OvStorage.ByteCache.Sections

/-!
# The byte cache under interleaving

The operations of one `ByteCache` run by any number of threads, cut where the source gives up
the connection.

## The model

A step is one critical section (under the connection mutex or in a transaction), one unlink
made outside of them, one read of a CAS file, or one statement of a lease's drop, which runs
on a connection of its own with no transaction around it. A thread's operation is what is left
of its call. The lock on a key, which only takes interleavings away, is left out, and so is
what a call returns when it returns no object.

`rot` is the file going bad under the cache. `published` and `lastPublished` number the
publications: no step reads them but to record what a reader saw.
-/

namespace OvStorage.ByteCache

/-- `ByteCacheEntry`; the path is that of the CAS key. -/
structure ByteCacheEntry (τ κ : Type*) where
  resolvedTarget : τ
  casKey : κ
  size : ℕ
deriving DecidableEq

instance neZero_two : NeZero 2 := inferInstance

/-- What is left of the call a thread is in. -/
inductive Op (τ κ : Type*)
  | idle
  /-- `compare_and_put`, before its advisory check. -/
  | checking (target : τ) (expected : Option κ) (casKey : κ) (size : ℕ)
  /-- A staged blob, before `put_staged_locked`. -/
  | putting (target : τ) (casKey : κ) (size : ℕ) (guard : PublishGuard κ)
  /-- Before phase 1 of `evict_to_limit`. -/
  | evicting
  /-- In phase 2 of `evict_to_limit`, or before phase 3 when no file is left. -/
  | unlinking (filesToRemove untrack : List κ)
  /-- `lookup`, before its first read of the index. -/
  | looking (target : τ)
  /-- `lookup`, before it takes the lease. -/
  | leasing (entry : ByteCacheEntry τ κ)
  /-- `get_entry_inner`, before its read of the index, with the lease of a `lookup`. -/
  | reading (target : τ) (lease : Option κ)
  /-- Before `fs::read`; `seen` publications came before the read of the index. -/
  | opening (entry : ByteCacheEntry τ κ) (lease : Option κ) (seen : ℕ)
  | touching (entry : ByteCacheEntry τ κ) (lease : Option κ)
  /-- Before `drop_orphan_entry`. -/
  | orphaned (entry : ByteCacheEntry τ κ) (seen : ℕ)
  /-- Before `quarantine_corrupt`. -/
  | corrupt (entry : ByteCacheEntry τ κ) (seen : ℕ)
  /-- The object is returned, with the lease of a `lookup`. -/
  | returned (entry : ByteCacheEntry τ κ) (lease : Option κ)

/-- A lease: held, or as far as its drop has come. -/
inductive LeaseStage (κ : Type*)
  | live (casKey : κ)
  /-- `lease_count` is taken down. -/
  | released (casKey : κ)
  /-- No row of `entries` was found. -/
  | unreferenced (casKey : κ)
  /-- No lease or pin was found. -/
  | unpinned (casKey : κ)
  /-- The file is unlinked. -/
  | unlinked (casKey : κ)
  | dropped
deriving DecidableEq

/-- The cache, the threads that call it and the leases it has granted. -/
structure Machine (ι τ κ : Type*) where
  store : Store τ κ
  ops : ι → Op τ κ
  leases : List (LeaseStage κ)
  published : ℕ
  lastPublished : τ → ℕ

/-- `max_bytes` and `verify_checksums_on_read`. -/
structure Config where
  maxBytes : Option ℕ
  verifyChecksumsOnRead : Bool

/-- One step: who takes it, and what it finds outside the cache. -/
inductive Label (ι τ κ : Type*)
  | call (t : ι) (op : Op τ κ)
  | check (t : ι)
  | publish (t : ι) (disk : Disk κ) (now : ℕ)
  | evict (t : ι) (victims : List (τ × EntryRow κ))
  | unlink (t : ι) (ok : Bool)
  | untrack (t : ι)
  | removeIndex (disk : Disk κ) (target : τ)
  | compareAndRemove (disk : Disk κ) (target : τ) (expected : Option κ)
  | removeIndexReturning (disk : Disk κ) (target : τ)
  | removePrefix (disk : Disk κ) (startsWith : τ → Bool)
  | recover (disk : Disk κ)
  | lease (casKey : κ)
  | look (t : ι)
  | grant (t : ι)
  | read (t : ι)
  | open_ (t : ι) (fails : Bool)
  | touch (t : ι) (now : ℕ)
  | dropOrphan (t : ι)
  | quarantine (t : ι) (disk : Disk κ)
  | drop (i : ℕ) (unlinks : Bool)
  | rot (casKey : κ) (blob : Blob κ)

variable {ι τ κ : Type*}

/-- What the file system does in a removal or a recovery pass. -/
def Label.disk : Label ι τ κ → Option (Disk κ)
  | .removeIndex disk _ | .compareAndRemove disk _ _ | .removeIndexReturning disk _ | .removePrefix disk _
  | .recover disk => some disk
  | _ => none

/-- The operations a call starts with. -/
def Op.starts : Op τ κ → Bool
  | .checking .. | .putting _ _ _ .Always | .evicting | .looking _ | .reading _ none => true
  | _ => false

/-- Whether the thread's call is over. -/
def Op.over : Op τ κ → Bool
  | .idle | .returned .. => true
  | _ => false

/-- The files that phase 2 of the thread's eviction has still to unlink. -/
def Op.filesToRemove : Op τ κ → List κ
  | .unlinking filesToRemove _ => filesToRemove
  | _ => []

/-- The files that the thread's eviction has unlinked, before its phase 3. -/
def Op.untrack : Op τ κ → List κ
  | .unlinking _ untrack => untrack
  | _ => []

namespace Machine

/-- A cache with nothing in it, and nobody in a call. -/
def init : Machine ι τ κ := ⟨Store.empty, fun _ => .idle, [], 0, fun _ => 0⟩

variable [DecidableEq ι]

/-- The thread goes on to the operation. -/
def goto (m : Machine ι τ κ) (t : ι) (op : Op τ κ) : Machine ι τ κ := { m with ops := Function.update m.ops t op }

@[simp] theorem goto_ops_self (m : Machine ι τ κ) (t : ι) (op : Op τ κ) : (m.goto t op).ops t = op := by
  simp [goto]

theorem goto_ops_of_ne (m : Machine ι τ κ) {t t' : ι} (op : Op τ κ) (h : t' ≠ t) : (m.goto t op).ops t' = m.ops t' := by
  simp [goto, h]

variable [DecidableEq τ] [DecidableEq κ]

/-- The row at a target, as `entry` returns it. -/
def entry (m : Machine ι τ κ) (target : τ) : Option (ByteCacheEntry τ κ) :=
  (m.store.entries.get target).map fun row => ⟨target, row.casKey, row.size⟩

/-- What `get_entry_inner` goes on to after `fs::read`. -/
def afterRead (cfg : Config) (m : Machine ι τ κ) (entry : ByteCacheEntry τ κ) (lease : Option κ) (seen : ℕ) : Op τ κ :=
  match m.store.files.get entry.casKey with
  | none => .orphaned entry seen
  | some blob =>
    if blob.len ≠ entry.size ∨ cfg.verifyChecksumsOnRead = true ∧ blob.digest ≠ entry.casKey then .corrupt entry seen
    else .touching entry lease

omit [DecidableEq ι] [DecidableEq τ] in
theorem afterRead_cases (cfg : Config) (m : Machine ι τ κ) (entry : ByteCacheEntry τ κ) (lease : Option κ) (seen : ℕ) :
    m.afterRead cfg entry lease seen = .orphaned entry seen ∨ m.afterRead cfg entry lease seen = .corrupt entry seen ∨
      m.afterRead cfg entry lease seen = .touching entry lease := by
  unfold afterRead
  split
  next => exact Or.inl rfl
  next =>
    split_ifs
    · exact Or.inr (Or.inl rfl)
    · exact Or.inr (Or.inr rfl)

/-- The next statement of a lease's drop: the store after it, and the stage. -/
def dropLease (store : Store τ κ) (unlinks : Bool) : LeaseStage κ → Option (Store τ κ × LeaseStage κ)
  | .live k => some (store.releaseLease k, .released k)
  | .released k => some (store, if store.referenced k then .dropped else .unreferenced k)
  | .unreferenced k => some (store, if store.pinned k = 0 then .unpinned k else .dropped)
  | .unpinned k =>
    if unlinks then some ({ store with files := store.files.erase k }, .unlinked k) else some (store, .dropped)
  | .unlinked k => some ({ store with cacheEntries := store.cacheEntries.erase k }, .dropped)
  | .dropped => none

/-- One step of the cache; `none` when the step is not there to take. -/
def step (cfg : Config) (m : Machine ι τ κ) : Label ι τ κ → Option (Machine ι τ κ)
  | .call t op => if (m.ops t).over && op.starts then some (m.goto t op) else none
  | .check t =>
    match m.ops t with
    | .checking target expected casKey size =>
      if m.store.currentCasKey target ≠ expected then some (m.goto t .idle)
      else some (m.goto t (.putting target casKey size (.IfCurrent expected)))
    | _ => none
  | .publish t disk now =>
    match m.ops t with
    | .putting target casKey size guard =>
      match m.store.putStaged disk target casKey size now guard with
      | (.refused, _) => some (m.goto t .idle)
      | (outcome, store) =>
        some { m.goto t (if outcome = .stored then .evicting else .idle) with
          store
          published := m.published + 1
          lastPublished := Function.update m.lastPublished target (m.published + 1) }
    | _ => none
  | .evict t victims =>
    match m.ops t, cfg.maxBytes with
    | .evicting, none => some (m.goto t .idle)
    | .evicting, some maxBytes =>
      if m.store.VictimOrder victims then
        let (store, filesToRemove) := m.store.evict maxBytes victims
        some { m.goto t (.unlinking filesToRemove []) with store }
      else none
    | _, _ => none
  | .unlink t ok =>
    match m.ops t with
    | .unlinking (k :: filesToRemove) untrack =>
      if ok then
        some { m.goto t (.unlinking filesToRemove (untrack ++ [k])) with
          store := { m.store with files := m.store.files.erase k } }
      else some (m.goto t (.unlinking filesToRemove untrack))
    | _ => none
  | .untrack t =>
    match m.ops t with
    | .unlinking [] untrack => some { m.goto t .idle with store := m.store.untrackAll untrack }
    | _ => none
  | .removeIndex disk target => some { m with store := m.store.removeIndex disk target }
  | .compareAndRemove disk target expected => some { m with store := (m.store.compareAndRemove disk target expected).2 }
  | .removeIndexReturning disk target => some { m with store := m.store.removeIndexReturning disk target }
  | .removePrefix disk startsWith => some { m with store := m.store.removePrefix disk startsWith }
  | .recover disk => some { m with store := m.store.recover disk }
  | .lease k => (m.store.lease k).map fun store => { m with store, leases := m.leases ++ [.live k] }
  | .look t =>
    match m.ops t with
    | .looking target =>
      match m.entry target with
      | none => some (m.goto t .idle)
      | some entry => some (m.goto t (.leasing entry))
    | _ => none
  | .grant t =>
    match m.ops t with
    | .leasing entry =>
      match m.store.lease entry.casKey with
      | none => some (m.goto t .idle)
      | some store =>
        some { m.goto t (.reading entry.resolvedTarget (some entry.casKey)) with
          store
          leases := m.leases ++ [.live entry.casKey] }
    | _ => none
  | .read t =>
    match m.ops t with
    | .reading target lease =>
      match m.entry target with
      | none => some (m.goto t .idle)
      | some entry => some (m.goto t (.opening entry lease m.published))
    | _ => none
  | .open_ t fails =>
    match m.ops t with
    | .opening entry lease seen => some (m.goto t (if fails then .idle else m.afterRead cfg entry lease seen))
    | _ => none
  | .touch t now =>
    match m.ops t with
    | .touching entry lease =>
      some { m.goto t (.returned entry lease) with store := m.store.touch entry.resolvedTarget now }
    | _ => none
  | .dropOrphan t =>
    match m.ops t with
    | .orphaned entry _ => some { m.goto t .idle with store := m.store.deleteEntry entry.resolvedTarget }
    | _ => none
  | .quarantine t disk =>
    match m.ops t with
    | .corrupt entry _ =>
      some { m.goto t .idle with store := m.store.quarantineCorrupt disk entry.resolvedTarget entry.casKey }
    | _ => none
  | .drop i unlinks =>
    match m.leases[i]? with
    | none => none
    | some stage =>
      (dropLease m.store unlinks stage).map fun (store, stage) => { m with store, leases := m.leases.set i stage }
  | .rot k blob =>
    if m.store.exists_ k then some { m with store := { m.store with files := m.store.files.insert k blob } } else none

/-- The target and the key that the step publishes. -/
def publication (m : Machine ι τ κ) : Label ι τ κ → Option (τ × κ)
  | .publish t _ _ =>
    match m.ops t with
    | .putting target casKey _ guard => if m.store.refuses target guard then none else some (target, casKey)
    | _ => none
  | _ => none

/-- The runs of the cache. -/
def Runs (cfg : Config) : List (Label ι τ κ) → Machine ι τ κ → Prop :=
  Run (fun m => m = init) fun m l m' => m.step cfg l = some m'

/-- The runs of the cache whose steps all meet a condition. -/
def RunsWhen (cfg : Config) (C : Machine ι τ κ → Label ι τ κ → Prop) : List (Label ι τ κ) → Machine ι τ κ → Prop :=
  Run (fun m => m = init) fun m l m' => m.step cfg l = some m' ∧ C m l

/-- A run to a state that passes a test, by executing its trace. -/
theorem exists_run (cfg : Config) (trace : List (Label ι τ κ)) (p : Machine ι τ κ → Bool)
    (h : (trace.foldlM (step cfg) init).any p = true) : ∃ m, Runs cfg trace m ∧ p m = true := by
  refine Run.of_any ?_ ?_ h
  · exact fun _ _ _ => id
  · rfl

theorem exists_runWhen (cfg : Config) (C : Machine ι τ κ → Label ι τ κ → Prop) [∀ m l, Decidable (C m l)]
    (trace : List (Label ι τ κ)) (p : Machine ι τ κ → Bool)
    (h : (trace.foldlM (fun m l => if C m l then step cfg m l else none) init).any p = true) :
    ∃ m, RunsWhen cfg C trace m ∧ p m = true := by
  refine Run.of_any ?_ ?_ h
  · intro m l m' hs
    split_ifs at hs with hc
    exact ⟨hs, hc⟩
  · rfl

/-! ### What a step does -/

/-- Everything a step can do. -/
inductive Step (cfg : Config) (m : Machine ι τ κ) : Label ι τ κ → Machine ι τ κ → Prop
  | call {t op} : (m.ops t).over = true → op.starts = true → Step cfg m (.call t op) (m.goto t op)
  /-- The thread's call ends with nothing done. -/
  | leave {l t} : (m.ops t).filesToRemove = [] → (m.ops t).untrack = [] → Step cfg m l (m.goto t .idle)
  | check {t target expected casKey size} : m.ops t = .checking target expected casKey size →
      Step cfg m (.check t) (m.goto t (.putting target casKey size (.IfCurrent expected)))
  | publish {t disk now target casKey size guard op store} : m.ops t = .putting target casKey size guard →
      m.store.refuses target guard = false → (op = .evicting ∨ op = .idle) →
      Store.Publishes disk target ⟨casKey, size, now, now⟩ [] m.store store →
      Step cfg m (.publish t disk now)
        { m.goto t op with
          store
          published := m.published + 1
          lastPublished := Function.update m.lastPublished target (m.published + 1) }
  | evict {t victims store filesToRemove} : m.ops t = .evicting →
      (∀ disk, Store.Trims disk filesToRemove m.store store) → (∀ k ∈ filesToRemove, m.store.leaseCount k = 0) →
      Step cfg m (.evict t victims) { m.goto t (.unlinking filesToRemove []) with store }
  | unlink {t k filesToRemove untrack} : m.ops t = .unlinking (k :: filesToRemove) untrack →
      Step cfg m (.unlink t true)
        { m.goto t (.unlinking filesToRemove (untrack ++ [k])) with
          store := { m.store with files := m.store.files.erase k } }
  | unlinkFails {t k filesToRemove untrack} : m.ops t = .unlinking (k :: filesToRemove) untrack →
      Step cfg m (.unlink t false) (m.goto t (.unlinking filesToRemove untrack))
  | untrack {t untrack} : m.ops t = .unlinking [] untrack →
      Step cfg m (.untrack t) { m.goto t .idle with store := m.store.untrackAll untrack }
  /-- A removal, or a recovery pass. -/
  | trim {l disk store} : l.disk = some disk → Store.Trims disk [] m.store store → Step cfg m l { m with store }
  | lease {k store} : m.store.lease k = some store →
      Step cfg m (.lease k) { m with store, leases := m.leases ++ [.live k] }
  | look {t target entry} : m.ops t = .looking target → m.entry target = some entry →
      Step cfg m (.look t) (m.goto t (.leasing entry))
  | grant {t entry store} : m.ops t = .leasing entry → m.store.lease entry.casKey = some store →
      Step cfg m (.grant t)
        { m.goto t (.reading entry.resolvedTarget (some entry.casKey)) with
          store
          leases := m.leases ++ [.live entry.casKey] }
  | read {t target lease entry} : m.ops t = .reading target lease → m.entry target = some entry →
      Step cfg m (.read t) (m.goto t (.opening entry lease m.published))
  | open_ {t fails entry lease seen} : m.ops t = .opening entry lease seen →
      Step cfg m (.open_ t fails) (m.goto t (m.afterRead cfg entry lease seen))
  | touch {t now entry lease} : m.ops t = .touching entry lease →
      Step cfg m (.touch t now)
        { m.goto t (.returned entry lease) with store := m.store.touch entry.resolvedTarget now }
  | dropOrphan {t entry seen} : m.ops t = .orphaned entry seen →
      Step cfg m (.dropOrphan t) { m.goto t .idle with store := m.store.deleteEntry entry.resolvedTarget }
  | quarantine {t disk entry seen} : m.ops t = .corrupt entry seen →
      Step cfg m (.quarantine t disk)
        { m.goto t .idle with store := m.store.quarantineCorrupt disk entry.resolvedTarget entry.casKey }
  | drop {i unlinks stage store stage'} : m.leases[i]? = some stage →
    dropLease m.store unlinks stage = some (store, stage') →
      Step cfg m (.drop i unlinks) { m with store, leases := m.leases.set i stage' }
  | rot {k blob} : m.store.exists_ k = true →
      Step cfg m (.rot k blob) { m with store := { m.store with files := m.store.files.insert k blob } }

theorem step_sound {cfg : Config} {m m' : Machine ι τ κ} {l : Label ι τ κ} (h : m.step cfg l = some m') :
    Step cfg m l m' := by
  cases l with
  | call t op =>
    simp only [step] at h
    split_ifs at h with hc
    cases h
    exact .call (Bool.and_eq_true_iff.mp hc).1 (Bool.and_eq_true_iff.mp hc).2
  | check t =>
    simp only [step] at h
    split at h
    next target expected casKey size hop =>
      split_ifs at h with he
      · cases h
        exact .leave (by rw [hop]; rfl) (by rw [hop]; rfl)
      · cases h
        exact .check hop
    next => cases h
  | publish t disk now =>
    simp only [step] at h
    split at h
    next target casKey size guard hop =>
      rcases m.store.putStaged_publishes disk target casKey size now guard with ⟨-, hr⟩ | ⟨hr, hne, hp⟩
      · rw [hr] at h
        cases h
        exact .leave (by rw [hop]; rfl) (by rw [hop]; rfl)
      · generalize m.store.putStaged disk target casKey size now guard = published at h hne hp
        obtain ⟨outcome, store⟩ := published
        cases outcome with
        | refused => exact absurd rfl hne
        | failed =>
          cases h
          exact .publish hop hr (Or.inr rfl) hp
        | stored =>
          cases h
          exact .publish hop hr (Or.inl rfl) hp
    next => cases h
  | evict t victims =>
    simp only [step] at h
    split at h
    next hop _ =>
      cases h
      exact .leave (by rw [hop]; rfl) (by rw [hop]; rfl)
    next maxBytes hop _ =>
      split_ifs at h with hv
      cases h
      exact .evict hop (fun disk => (Store.evict_trims disk maxBytes hv).1)
        (Store.evict_trims ⟨true, true, fun _ => true⟩ maxBytes hv).2.1
    next => cases h
  | unlink t ok =>
    simp only [step] at h
    split at h
    next k filesToRemove untrack hop =>
      split_ifs at h with hok
      · cases h
        subst hok
        exact .unlink hop
      · cases h
        obtain rfl : ok = false := by simpa using hok
        exact .unlinkFails hop
    next => cases h
  | untrack t =>
    simp only [step] at h
    split at h
    next untrack hop =>
      cases h
      exact .untrack hop
    next => cases h
  | removeIndex disk target =>
    cases h
    exact .trim rfl (m.store.removeIndex_trims disk target)
  | compareAndRemove disk target expected =>
    cases h
    exact .trim rfl (m.store.compareAndRemove_trims disk target expected)
  | removeIndexReturning disk target =>
    cases h
    exact .trim rfl (m.store.removeIndexReturning_trims disk target)
  | removePrefix disk startsWith =>
    cases h
    exact .trim rfl (m.store.removePrefix_trims disk startsWith)
  | recover disk =>
    cases h
    exact .trim rfl (m.store.recover_trims disk)
  | lease k =>
    simp only [step, Option.map_eq_some_iff] at h
    obtain ⟨store, hs, rfl⟩ := h
    exact .lease hs
  | look t =>
    simp only [step] at h
    split at h
    next target hop =>
      split at h
      next =>
        cases h
        exact .leave (by rw [hop]; rfl) (by rw [hop]; rfl)
      next entry he =>
        cases h
        exact .look hop he
    next => cases h
  | grant t =>
    simp only [step] at h
    split at h
    next entry hop =>
      split at h
      next =>
        cases h
        exact .leave (by rw [hop]; rfl) (by rw [hop]; rfl)
      next store hs =>
        cases h
        exact .grant hop hs
    next => cases h
  | read t =>
    simp only [step] at h
    split at h
    next target lease hop =>
      split at h
      next =>
        cases h
        exact .leave (by rw [hop]; rfl) (by rw [hop]; rfl)
      next entry he =>
        cases h
        exact .read hop he
    next => cases h
  | open_ t fails =>
    simp only [step] at h
    split at h
    next entry lease seen hop =>
      cases h
      split_ifs
      · exact .leave (by rw [hop]; rfl) (by rw [hop]; rfl)
      · exact .open_ hop
    next => cases h
  | touch t now =>
    simp only [step] at h
    split at h
    next entry lease hop =>
      cases h
      exact .touch hop
    next => cases h
  | dropOrphan t =>
    simp only [step] at h
    split at h
    next entry seen hop =>
      cases h
      exact .dropOrphan hop
    next => cases h
  | quarantine t disk =>
    simp only [step] at h
    split at h
    next entry seen hop =>
      cases h
      exact .quarantine hop
    next => cases h
  | drop i unlinks =>
    simp only [step] at h
    split at h
    next => cases h
    next stage hl =>
      obtain ⟨⟨store, stage'⟩, hd, rfl⟩ := Option.map_eq_some_iff.mp h
      exact .drop hl hd
  | rot k blob =>
    simp only [step] at h
    split_ifs at h with he
    cases h
    exact .rot he

end Machine

end OvStorage.ByteCache
