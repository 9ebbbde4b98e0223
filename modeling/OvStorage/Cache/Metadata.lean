import OvStorage.Lib.Table
import OvStorage.Address.Canonical

/-!
# The metadata cache

`MetadataCache` of `ovstorage-cache/src/metadata.rs`: results of `stat`, `list` and
`list_versions`, keyed by the address a request named and the identity it was made
under, with a time to live, a budget counted in object records, and invalidation by
address.

## The model

The state is a `Table` of rows and the counter kept beside it; every operation takes
the state and the moment it runs at and returns the state after. Moments are
nanoseconds on one clock; nothing here needs them to increase from one operation to
the next. Operations hold the lock of the source from end to end, so a run is a
sequence of them. Records (`ObjectInfo`) are a type variable, and counters are
natural numbers.

The order in which `insert` meets the rows of the hash map, and in which the unstable
sort leaves rows that were last used at one moment, is not fixed: `insert` takes the
sorted list of candidates, and `VictimOrder` says what such a list may be.
-/

namespace OvStorage.Cache

open Address SegList

/-! ### Keys and payloads -/

/-- `MetadataKind`. -/
inductive MetadataKind
  | Stat
  | List
  | ListVersions
deriving DecidableEq

/-- `CostFlags`: what a request asked for beyond the cheap answer. -/
structure CostFlags where
  fullMetadata : Bool
  versionedAddress : Bool
deriving DecidableEq

/-- `CostFlags::covers`: every flag the request sets, the row also set. -/
def CostFlags.covers (self requested : CostFlags) : Bool :=
  (self.fullMetadata || !requested.fullMetadata) && (self.versionedAddress || !requested.versionedAddress)

/-- `MetadataCacheKey`. -/
structure MetadataCacheKey where
  kind : MetadataKind
  principalId : Option String
  /-- `node_address` of the address that was asked about. -/
  address : Bytes
  /-- A digest of the credential the address carried. -/
  credentialScope : Option UInt64
deriving DecidableEq

/-- `ListPage`. -/
structure ListPage (Info : Type) where
  items : List Info
  nextPageToken : Option String
deriving DecidableEq

/-- `MetadataCachePayload`. -/
inductive MetadataCachePayload (Info : Type)
  | Stat (info : Info)
  | List (page : ListPage Info)
  | ListVersions (versions : List Info)
deriving DecidableEq

/-- `MetadataLookup`. -/
inductive MetadataLookup (Info : Type)
  | Hit (payload : MetadataCachePayload Info)
  | Narrower (stored : CostFlags)
  | Miss
deriving DecidableEq

/-- A moment, or a span of time, in nanoseconds. -/
abbrev Nanos := ℕ

/-- `Entry`. -/
structure Entry (Info : Type) where
  payload : MetadataCachePayload Info
  insertedAt : Nanos
  lastAccessed : Nanos
  ttl : Nanos
  /-- What the row charges to the budget. -/
  size : ℕ
  flags : CostFlags

/-- `CacheState`. -/
structure CacheState (Info : Type) where
  entries : Table MetadataCacheKey (Entry Info)
  currentSize : ℕ

/-- The two parameters of a `MetadataCache`. -/
structure Limits where
  maxEntries : ℕ
  ttl : Nanos

/-- `MetadataCacheConfig`. -/
structure MetadataCacheConfig where
  maxEntries : Option ℕ
  ttlSeconds : Option ℕ

/-- `DEFAULT_TTL`: thirty seconds. -/
def DEFAULT_TTL : Nanos := 30 * 10 ^ 9

/-- `DEFAULT_MAX_ENTRIES`. -/
def DEFAULT_MAX_ENTRIES : ℕ := 65536

/-- The parameters `MetadataCache::new` reads off its configuration. -/
def Limits.new (config : MetadataCacheConfig) : Limits where
  maxEntries := max (config.maxEntries.getD DEFAULT_MAX_ENTRIES) 1
  ttl := (config.ttlSeconds.map (· * 10 ^ 9)).getD DEFAULT_TTL

variable {Info : Type}

/-- `CacheState::default()`. -/
def CacheState.empty : CacheState Info := ⟨Table.empty, 0⟩

/-- `object_info_count`. -/
def objectInfoCount : MetadataCachePayload Info → ℕ
  | .Stat _ => 1
  | .List page => page.items.length
  | .ListVersions versions => versions.length

/-! ### Reading and storing -/

/-- `entries.remove(key)` and the counter that goes with it. -/
def CacheState.remove (state : CacheState Info) (key : MetadataCacheKey) : CacheState Info :=
  match state.entries.get key with
  | some existing => ⟨state.entries.erase key, state.currentSize - existing.size⟩
  | none => state

/-- `MetadataCache::get`. -/
def CacheState.get (state : CacheState Info) (now : Nanos) (key : MetadataCacheKey) (requested : CostFlags) :
    MetadataLookup Info × CacheState Info :=
  match state.entries.get key with
  | none => (.Miss, state)
  | some entry =>
    if now - entry.insertedAt ≥ entry.ttl then (.Miss, state.remove key)
    else if !entry.flags.covers requested then (.Narrower entry.flags, state)
    else
      (.Hit entry.payload,
        { state with entries := state.entries.modify key fun e => { e with lastAccessed := now } })

/-- The eviction loop of `insert`, over the sorted candidates. -/
def evict (maxEntries size : ℕ) : List (Nanos × MetadataCacheKey) → CacheState Info → CacheState Info
  | [], state => state
  | (_, victim) :: victims, state =>
    if state.currentSize + size ≤ maxEntries then state else evict maxEntries size victims (state.remove victim)

/-- What `sort_unstable_by_key` may leave of the rows of the map: all of them, each with the
moment it was last used, in the order of these moments. -/
structure VictimOrder (state : CacheState Info) (victims : List (Nanos × MetadataCacheKey)) : Prop where
  perm : victims.Perm (state.entries.rows.map fun row => (row.2.lastAccessed, row.1))
  sorted : victims.Pairwise fun a b => a.1 ≤ b.1

/-- The eviction step of `insert`: only when the new row does not fit and there is a row to take. -/
def makeRoom (maxEntries size : ℕ) (victims : List (Nanos × MetadataCacheKey)) (state : CacheState Info) :
    CacheState Info :=
  if state.currentSize + size > maxEntries ∧ state.entries.rows ≠ [] then evict maxEntries size victims state
  else state

/-- `MetadataCache::insert`, with the sorted candidates given. -/
def CacheState.insert (limits : Limits) (state : CacheState Info) (now : Nanos) (key : MetadataCacheKey)
    (payload : MetadataCachePayload Info) (flags : CostFlags) (victims : List (Nanos × MetadataCacheKey)) :
    Bool × CacheState Info :=
  let size := max (objectInfoCount payload) 1
  -- the prior value goes before the budget is looked at
  let state := state.remove key
  if size > limits.maxEntries then (false, state)
  else
    let state := makeRoom limits.maxEntries size victims state
    (true,
      { entries := state.entries.insert key ⟨payload, now, now, limits.ttl, size, flags⟩
        currentSize := state.currentSize + size })

/-! ### Invalidation -/

/-- `retain_with_size`. -/
def CacheState.retainWithSize (state : CacheState Info) (keep : MetadataCacheKey → Entry Info → Bool) :
    CacheState Info :=
  let freed := (state.entries.retain fun k e => !keep k e).weight Entry.size
  ⟨state.entries.retain keep, state.currentSize - freed⟩

/-- `split_query`. -/
def splitQuery (value : Bytes) : Bytes × Option Bytes := cutAt question value

/-- `is_under_prefix`, on serializations. -/
def isUnderPrefix (addr pre : Bytes) : Bool :=
  let (addrPath, addrQuery) := splitQuery addr
  let (prefixPath, prefixQuery) := splitQuery pre
  if prefixQuery.isSome && prefixQuery != addrQuery then false
  else
    let prefixPath := (prefixPath.dropSuffix? [slash]).getD prefixPath
    match addrPath.dropPrefix? prefixPath with
    | some rest => rest.isEmpty || rest.head? == some slash
    | none => false

/-- `invalidate_address`. -/
def CacheState.invalidateAddress (U : UrlCrate) (state : CacheState Info) (address : Url) : CacheState Info :=
  let (bare, slashed) := nodeSpellings U address
  state.retainWithSize fun k _ => k.address != bare && k.address != slashed

/-- `invalidate_prefix`. -/
def CacheState.invalidatePrefix (state : CacheState Info) (pre : Url) : CacheState Info :=
  let needle := nodeAddress pre
  state.retainWithSize fun k _ => !isUnderPrefix k.address needle

/-- `invalidate_lists_containing`. -/
def CacheState.invalidateListsContaining (state : CacheState Info) (address : Url) : CacheState Info :=
  let target := nodeAddress address
  state.retainWithSize fun k _ => !(k.kind == .List && isUnderPrefix target k.address)

/-- `invalidate_all`. -/
def CacheState.invalidateAll (_ : CacheState Info) : CacheState Info := CacheState.empty

/-- `purge_expired`. -/
def CacheState.purgeExpired (state : CacheState Info) (now : Nanos) : CacheState Info :=
  state.retainWithSize fun _ e => decide (now - e.insertedAt < e.ttl)

/-! ### The parts of the state -/

@[simp] theorem retainWithSize_entries (state : CacheState Info) (keep : MetadataCacheKey → Entry Info → Bool) :
    (state.retainWithSize keep).entries = state.entries.retain keep := rfl

theorem remove_entries (state : CacheState Info) (key : MetadataCacheKey) :
    (state.remove key).entries = state.entries.erase key := by
  unfold CacheState.remove
  split
  · rfl
  · rename_i h
    exact (Table.erase_of_get_none h).symm

end OvStorage.Cache
