import OvStorage.Lib.Table

/-!
# The byte cache's store

The two tables and the blob directory of `ByteCache` (`ovstorage-cache/src/byte.rs`), and what
its operations do to them while they hold the connection.

## The model

A blob is content-addressed: `cas_key` is the digest of what was put, and a file is the length
and the digest a reader finds in it. `entries` names the blob of each target, `cache_entries`
is the record that a blob exists and counts its leases. A function here is one critical
section of the source, from `conn()` to the release of the connection, with the unlinks made
inside it; `Disk` says which calls of the file system fail in it. SQL statements do not fail,
and the cache is not opened read-only.

What each critical section does is `OvStorage.ByteCache.Sections`.
-/

namespace OvStorage.ByteCache

variable {τ κ : Type*}

/-- A row of `entries`. -/
structure EntryRow (κ : Type*) where
  casKey : κ
  size : ℕ
  updatedUnixMs : ℕ
  lastAccessUnixMs : ℕ
deriving DecidableEq

/-- A row of `cache_entries`. -/
structure TrackingRow where
  size : ℕ
  pinCount : ℕ
  leaseCount : ℕ
deriving DecidableEq

/-- A CAS file, as a reader sees it. -/
structure Blob (κ : Type*) where
  len : ℕ
  digest : κ
deriving DecidableEq

/-- The index, the tracking table and the CAS directory. -/
structure Store (τ κ : Type*) where
  entries : Table τ (EntryRow κ)
  cacheEntries : Table κ TrackingRow
  files : Table κ (Blob κ)

/-- Which calls of the file system succeed in a critical section: the hard link of a staged
blob, the removal of the staging file, the unlink of a blob. -/
structure Disk (κ : Type*) where
  hardLinks : Bool
  removesStaging : Bool
  unlinks : κ → Bool

/-- What `put_staged_locked` has done when it releases the connection. -/
inductive PutOutcome
  | refused
  | failed
  | stored
deriving DecidableEq

/-- `PublishGuard`. -/
inductive PublishGuard (κ : Type*)
  | Always
  | IfCurrent (expected : Option κ)

namespace Store

/-- Nothing cached. -/
def empty : Store τ κ := ⟨Table.empty, Table.empty, Table.empty⟩

variable [DecidableEq τ] [DecidableEq κ]

/-! ### Queries -/

/-- `SELECT cas_key FROM entries WHERE resolved_target = ?1`. -/
def currentCasKey (s : Store τ κ) (target : τ) : Option κ := (s.entries.get target).map EntryRow.casKey

/-- `SELECT EXISTS(SELECT 1 FROM entries WHERE cas_key = ?1)`. -/
def referenced (s : Store τ κ) (casKey : κ) : Bool := s.entries.rows.any fun row => row.2.casKey == casKey

/-- `SELECT COALESCE(MAX(lease_count), 0) FROM cache_entries WHERE cas_key = ?1`. -/
def leaseCount (s : Store τ κ) (casKey : κ) : ℕ := ((s.cacheEntries.get casKey).map TrackingRow.leaseCount).getD 0

/-- `SELECT COALESCE(MAX(lease_count + pin_count), 0) FROM cache_entries WHERE cas_key = ?1`. -/
def pinned (s : Store τ κ) (casKey : κ) : ℕ :=
  ((s.cacheEntries.get casKey).map fun row => row.leaseCount + row.pinCount).getD 0

/-- Whether the blob has a row in `cache_entries`. -/
def tracked (s : Store τ κ) (casKey : κ) : Bool := (s.cacheEntries.get casKey).isSome

/-- `path.exists()`. -/
def exists_ (s : Store τ κ) (casKey : κ) : Bool := (s.files.get casKey).isSome

/-- `cas_is_reclaimable`. -/
def casIsReclaimable (s : Store τ κ) (casKey : κ) : Bool := !s.referenced casKey && s.pinned casKey == 0

/-! ### Critical sections -/

/-- `DELETE FROM entries WHERE resolved_target = ?1`. -/
def deleteEntry (s : Store τ κ) (target : τ) : Store τ κ := { s with entries := s.entries.erase target }

/-- Unlink the blob and drop its tracking row. -/
def unlinkAndUntrack (s : Store τ κ) (casKey : κ) : Store τ κ :=
  { s with files := s.files.erase casKey, cacheEntries := s.cacheEntries.erase casKey }

/-- `reclaim_unreferenced_cas`, in its own transaction; a failed unlink rolls it back. -/
def reclaimUnreferencedCas (disk : Disk κ) (s : Store τ κ) (casKey : κ) : Store τ κ :=
  if !s.casIsReclaimable casKey then s
  else if disk.unlinks casKey then s.unlinkAndUntrack casKey
  else s

/-- `INSERT INTO cache_entries … ON CONFLICT(cas_key) DO UPDATE`. -/
def track (s : Store τ κ) (casKey : κ) (size : ℕ) : Store τ κ :=
  { s with
    cacheEntries :=
      match s.cacheEntries.get casKey with
      | some row => s.cacheEntries.insert casKey { row with size }
      | none => s.cacheEntries.insert casKey ⟨size, 0, 0⟩ }

/-- `publish_cas`, which accepts a file that is there: whether it succeeds, and the store. -/
def publishCas (disk : Disk κ) (s : Store τ κ) (casKey : κ) (size : ℕ) : Bool × Store τ κ :=
  if !disk.hardLinks then (false, s)
  else (disk.removesStaging, if s.exists_ casKey then s else { s with files := s.files.insert casKey ⟨size, casKey⟩ })

/-- The upserts of the publishing transaction. -/
def upsert (s : Store τ κ) (target : τ) (casKey : κ) (size now : ℕ) : Store τ κ :=
  { s with entries := s.entries.insert target ⟨casKey, size, now, now⟩ }.track casKey size

/-- Whether the guard refuses the publication. -/
def refuses (s : Store τ κ) (target : τ) : PublishGuard κ → Bool
  | .Always => false
  | .IfCurrent expected => decide (s.currentCasKey target ≠ expected)

/-- The critical section of `put_staged_locked`. -/
def putStaged (disk : Disk κ) (s : Store τ κ) (target : τ) (casKey : κ) (size now : ℕ) (guard : PublishGuard κ) :
    PutOutcome × Store τ κ :=
  if s.refuses target guard then (.refused, s)
  else
    let displaced := (s.currentCasKey target).filter fun key => decide (key ≠ casKey)
    let (published, s) := (s.upsert target casKey size now).publishCas disk casKey size
    if !published then (.failed, s)
    else
      match displaced with
      | some displaced => (.stored, s.reclaimUnreferencedCas disk displaced)
      | none => (.stored, s)

/-- `lease`, up to the grant; `none` when it returns no lease. -/
def lease (s : Store τ κ) (casKey : κ) : Option (Store τ κ) :=
  match s.cacheEntries.get casKey with
  | none => none
  | some row =>
    if !s.exists_ casKey then none
    else some { s with cacheEntries := s.cacheEntries.insert casKey { row with leaseCount := row.leaseCount + 1 } }

/-- The first statement of a lease's drop. -/
def releaseLease (s : Store τ κ) (casKey : κ) : Store τ κ :=
  { s with cacheEntries := s.cacheEntries.modify casKey fun row => { row with leaseCount := row.leaseCount - 1 } }

/-- `remove_index`. -/
def removeIndex (disk : Disk κ) (s : Store τ κ) (target : τ) : Store τ κ :=
  match s.currentCasKey target with
  | some casKey => (s.deleteEntry target).reclaimUnreferencedCas disk casKey
  | none => s.deleteEntry target

/-- `compare_and_remove`: whether it applied, and the store. -/
def compareAndRemove (disk : Disk κ) (s : Store τ κ) (target : τ) (expected : Option κ) : Bool × Store τ κ :=
  if s.currentCasKey target ≠ expected then (false, s)
  else
    match s.currentCasKey target with
    | none => (true, s)
    | some casKey => (true, (s.deleteEntry target).reclaimUnreferencedCas disk casKey)

/-- `remove_index_returning`, which deletes nothing when it cannot read what the row names. -/
def removeIndexReturning (disk : Disk κ) (s : Store τ κ) (target : τ) : Store τ κ :=
  match s.entries.get target with
  | none => s
  | some row =>
    match s.files.get row.casKey with
    | none => s
    | some blob =>
      if blob.len ≠ row.size ∨ blob.digest ≠ row.casKey then s
      else (s.deleteEntry target).reclaimUnreferencedCas disk row.casKey

/-- `remove_prefix`, of the targets that start with the prefix. -/
def removePrefix (disk : Disk κ) (s : Store τ κ) (startsWith : τ → Bool) : Store τ κ :=
  let affected := (s.entries.rows.filter fun row => startsWith row.1).map fun row => row.2.casKey
  let s := { s with entries := s.entries.retain fun target _ => !startsWith target }
  affected.foldl (reclaimUnreferencedCas disk) s

/-- The victim loop of `evict_to_limit`: the rows it deletes, and the blobs it selects. -/
def evictVictims (maxBytes : ℕ) : Store τ κ → ℕ → List (τ × EntryRow κ) → Store τ κ × List κ
  | s, _, [] => (s, [])
  | s, totalBytes, (target, row) :: victims =>
    if totalBytes ≤ maxBytes then (s, [])
    else if 0 < s.leaseCount row.casKey then evictVictims maxBytes s totalBytes victims
    else
      let s := s.deleteEntry target
      let (s', filesToRemove) := evictVictims maxBytes s (totalBytes - row.size) victims
      (s', if s.referenced row.casKey then filesToRemove else row.casKey :: filesToRemove)

/-- The rows in the order of `evict_to_limit`; rows of one age in any order. -/
def VictimOrder (s : Store τ κ) (victims : List (τ × EntryRow κ)) : Prop :=
  victims.Perm s.entries.rows ∧
    victims.Pairwise fun a b =>
      a.2.lastAccessUnixMs < b.2.lastAccessUnixMs ∨
        a.2.lastAccessUnixMs = b.2.lastAccessUnixMs ∧ a.2.updatedUnixMs ≤ b.2.updatedUnixMs

instance (s : Store τ κ) (victims : List (τ × EntryRow κ)) : Decidable (s.VictimOrder victims) :=
  inferInstanceAs (Decidable (_ ∧ _))

/-- Phase 1 of `evict_to_limit`. -/
def evict (s : Store τ κ) (maxBytes : ℕ) (victims : List (τ × EntryRow κ)) : Store τ κ × List κ :=
  let totalBytes := (s.entries.rows.map fun row => row.2.size).sum
  if totalBytes ≤ maxBytes then (s, []) else evictVictims maxBytes s totalBytes victims

/-- Drop a tracking row of phase 3. -/
def untrackUnused (s : Store τ κ) (casKey : κ) : Store τ κ :=
  if s.casIsReclaimable casKey then { s with cacheEntries := s.cacheEntries.erase casKey } else s

/-- Phase 3 of `evict_to_limit`. -/
def untrackAll (s : Store τ κ) (untrack : List κ) : Store τ κ := untrack.foldl untrackUnused s

/-- `quarantine_corrupt`, with `purge_corrupt_cas`. -/
def quarantineCorrupt (disk : Disk κ) (s : Store τ κ) (target : τ) (casKey : κ) : Store τ κ :=
  let s := s.deleteEntry target
  if 0 < s.pinned casKey then s
  else if disk.unlinks casKey then s.unlinkAndUntrack casKey
  else s

/-- `touch`. -/
def touch (s : Store τ κ) (target : τ) (now : ℕ) : Store τ κ :=
  { s with entries := s.entries.modify target fun row => { row with lastAccessUnixMs := now } }

/-- `recover`: drop the rows without a file, then reclaim what no row names. -/
def recover (disk : Disk κ) (s : Store τ κ) : Store τ κ :=
  let s := { s with entries := s.entries.retain fun _ row => s.exists_ row.casKey }
  let orphans := (s.cacheEntries.rows.map Prod.fst).filter fun casKey => s.casIsReclaimable casKey
  orphans.foldl (reclaimUnreferencedCas disk) s

end Store

end OvStorage.ByteCache
