import OvStorage.Cache.History
import OvStorage.Listing.Entries

/-!
# The metadata cache wrapper

`MetadataCacheWrapper` of `ovstorage-plugin-cache/src/metadata_cache.rs`: `stat` and `list` over
a `MetadataCache`, the fill of rows from both, `stat` answered from a parent listing, and what
each mutation invalidates.

## The model

Each endpoint is a function of the state of the cache, of the request, and of an `Outside`: what
the inner layer answers in this call, at what moments the call meets the cache, and how its
inserts sort the rows they may evict. Of an `ObjectInfo` the address, the kind, the size and the
etag are kept; watch registrations are left out. A request comes with the scope that
`principal_of` reads from its extensions.
-/

namespace OvStorage.Cache

open Address SegList Listing

/-- `ObjectInfo`; of its details, the etag. -/
abbrev CachedInfo := ObjectInfo (Option Bytes)

/-- `ErrorCode`, as far as the cache answers with one. -/
inductive Refusal
  | NotFound (message : String)
  /-- What the inner layer refuses with, other than `NotFound`. -/
  | Other
deriving DecidableEq

/-- `ListOptions`. -/
structure ListOptions where
  recursive : Bool
  maxResults : Option ℕ
  pageToken : Option String
  fullMetadata : Bool
  versionedAddress : Bool
deriving DecidableEq

/-- `ListOptions::default()`. -/
def ListOptions.default : ListOptions := ⟨false, none, none, false, false⟩

/-- A `stat` request. -/
structure StatRequest where
  address : Url
  options : CostFlags
  principal : Option String
  /-- Whether it carries `RESOLVED_OAUTH_CREDENTIAL`. -/
  credentialed : Bool

/-- A `list` request. -/
structure ListRequest where
  address : Url
  options : ListOptions
  principal : Option String
  credentialed : Bool

/-- `stat_is_cacheable`. -/
def statIsCacheable (address : Url) : Bool := !endsWithSlash address

/-- `list_is_cacheable`. -/
def listIsCacheable (listed : Url) (options : ListOptions) : Bool :=
  (!options.recursive && options.maxResults.isNone && options.pageToken.isNone) &&
    listed.query.isNone && listed.fragment.isNone

/-- `CostFlags::is_empty`. -/
def CostFlags.isEmpty (flags : CostFlags) : Bool := !flags.fullMetadata && !flags.versionedAddress

/-- `CostFlags::union`. -/
def CostFlags.union (a b : CostFlags) : CostFlags :=
  ⟨a.fullMetadata || b.fullMetadata, a.versionedAddress || b.versionedAddress⟩

/-- `credential_scope`, with the digest of the standard hasher given. -/
def credentialScope (digest : Bytes × Option Bytes → UInt64) (url : Url) : Option UInt64 :=
  if url.username = [] ∧ url.password = none then none else some (digest (url.username, url.password))

/-- `parent_and_name`. -/
def parentAndName (U : UrlCrate) (url : Url) : Option (Url × Bytes) :=
  if endsWithSlash url || url.fragment.isSome then none
  else
    match (heads slash url.path).getLast? with
    | none => none
    | some head =>
      let name := url.path.drop head.length
      if name = [] then none else some ((U.setPath url head).clearQuery.clearFragment, percentDecode name)

/-- `ListBackedStat`. -/
inductive ListBackedStat
  | Found (info : CachedInfo)
  | NotFound
  | Unavailable
deriving DecidableEq

/-- `find_in_page`. -/
def findInPage (page : ListPage CachedInfo) (address : Url) : ListBackedStat :=
  match page.items.find? fun item => nodeAddress item.address = nodeAddress address ∧ item.kind = .File with
  | some item => .Found { item with address := address }
  | none =>
    if page.items.any fun item => item.kind ≠ .File ∧ nodeKey item.address.toParts = nodeKey address.toParts then
      .Unavailable
    else if page.nextPageToken.isSome then .Unavailable
    else .NotFound

/-- A way to sort the rows that may be evicted, as `sort_unstable_by_key` may. -/
structure Sorter where
  victims : CacheState CachedInfo → List (Nanos × MetadataCacheKey)
  order : ∀ state, VictimOrder state (victims state)

/-- What a call meets outside of the cache. -/
structure Outside where
  /-- When the row of a key is looked up. -/
  readAt : MetadataCacheKey → Nanos
  /-- When the row of a key is stored. -/
  fillAt : MetadataCacheKey → Nanos
  sorter : Sorter
  /-- The inner layer's `stat`. -/
  stat : Url → CostFlags → Except Refusal CachedInfo
  /-- The inner layer's `list`. -/
  list : Url → ListOptions → Except Refusal (ListPage CachedInfo)
  /-- Whether the route of a parent supports listing and wants list-backed stats. -/
  optedIn : Url → Bool

/-- `MetadataCacheWrapper`, without its cache. -/
structure MetadataCacheWrapper where
  U : UrlCrate
  limits : Limits
  digest : Bytes × Option Bytes → UInt64

namespace MetadataCacheWrapper

variable (w : MetadataCacheWrapper) (outside : Outside) (state : CacheState CachedInfo)

/-! ### Keys and fills -/

/-- The key of a `Stat` row, in the credential scope of the request. -/
def statKey (principal : Option String) (scope : Option UInt64) (address : Url) : MetadataCacheKey :=
  ⟨.Stat, principal, nodeAddress address, scope⟩

/-- The key of a `List` row: the directory spelling of the node. -/
def listKey (principal : Option String) (listed : Url) : MetadataCacheKey :=
  ⟨.List, principal, (nodeSpellings w.U listed).2, credentialScope w.digest listed⟩

/-- `MetadataCache::insert`. -/
def insert (key : MetadataCacheKey) (payload : MetadataCachePayload CachedInfo) (flags : CostFlags) :
    CacheState CachedInfo :=
  (state.insert w.limits (outside.fillAt key) key payload flags (outside.sorter.victims (state.remove key))).2

/-- The rows that a page fills for its files. -/
def storeItems (listed : Url) (principal : Option String) (flags : CostFlags) :
    List CachedInfo → CacheState CachedInfo → CacheState CachedInfo
  | [], state => state
  | item :: items, state =>
    let key := statKey principal (credentialScope w.digest listed) item.address
    storeItems listed principal flags items
      (if item.kind = .File then w.insert outside state key (.Stat item) flags else state)

/-- `store_list`. -/
def storeList (listed : Url) (options : ListOptions) (page : ListPage CachedInfo) (principal : Option String) :
    CacheState CachedInfo :=
  if listIsCacheable listed options then
    let flags := ⟨false, options.versionedAddress⟩
    w.storeItems outside listed principal flags page.items
      (w.insert outside state (w.listKey principal listed) (.List page) flags)
  else state

/-! ### The endpoints that read -/

/-- The part of `stat_from_parent_list` behind its look at the cache. -/
def statFromFreshList (request : StatRequest) (parent : Url) : ListBackedStat × CacheState CachedInfo :=
  if !request.options.isEmpty then (.Unavailable, state)
  else if !outside.optedIn parent then (.Unavailable, state)
  else
    match outside.list parent .default with
    | .error _ => (.Unavailable, state)
    | .ok page =>
      (findInPage page request.address, w.storeList outside state parent .default page request.principal)

/-- `stat_from_parent_list`. -/
def statFromParentList (request : StatRequest) : ListBackedStat × CacheState CachedInfo :=
  if request.address.query.isSome || request.address.fragment.isSome then (.Unavailable, state)
  else if endsWithSlash request.address then (.Unavailable, state)
  else
    match parentAndName w.U request.address with
    | none => (.Unavailable, state)
    | some (parent, _) =>
      let key := w.listKey request.principal parent
      match state.get (outside.readAt key) key request.options with
      | (.Hit (.List page), state) => (findInPage page request.address, state)
      | (_, state) => w.statFromFreshList outside state request parent

/-- The inner `stat` of a request, with the row it fills. -/
def statInner (request : StatRequest) (upstream : CostFlags) : Except Refusal CachedInfo × CacheState CachedInfo :=
  match outside.stat request.address upstream with
  | .error refusal => (.error refusal, state)
  | .ok info =>
    let key := statKey request.principal (credentialScope w.digest request.address) request.address
    (.ok info, if statIsCacheable request.address then w.insert outside state key (.Stat info) upstream else state)

/-- The part of `stat` behind a miss of the `Stat` row. -/
def statMissed (request : StatRequest) (upstream : CostFlags) : Except Refusal CachedInfo × CacheState CachedInfo :=
  match w.statFromParentList outside state request with
  | (.Found info, state) => (.ok info, state)
  | (.NotFound, state) => (.error (.NotFound "object not found in cached parent listing"), state)
  | (.Unavailable, state) => w.statInner outside state request upstream

/-- `stat`. -/
def stat (request : StatRequest) : Except Refusal CachedInfo × CacheState CachedInfo :=
  if request.credentialed then (outside.stat request.address request.options, state)
  else if statIsCacheable request.address then
    let key := statKey request.principal (credentialScope w.digest request.address) request.address
    match state.get (outside.readAt key) key request.options with
    | (.Hit (.Stat info), state) => (.ok { info with address := request.address }, state)
    | (.Narrower stored, state) => w.statMissed outside state request (stored.union request.options)
    | (_, state) => w.statMissed outside state request request.options
  else w.statInner outside state request request.options

/-- `list`. -/
def list (request : ListRequest) : Except Refusal (ListPage CachedInfo) × CacheState CachedInfo :=
  match outside.list request.address request.options with
  | .error refusal => (.error refusal, state)
  | .ok page =>
    (.ok page,
      if request.credentialed then state
      else w.storeList outside state request.address request.options page request.principal)

/-! ### The endpoints that change the store -/

/-- `invalidate_for`. -/
def invalidateFor (address : Url) : CacheState CachedInfo :=
  (state.invalidateAddress w.U address).invalidateListsContaining address

/-- `write` and `write_stream`, after the inner call. -/
def write (address : Url) : CacheState CachedInfo := w.invalidateFor state address

/-- `delete`, after the inner call. -/
def delete (address : Url) : CacheState CachedInfo := w.invalidateFor state address

/-- `copy`, after the inner call. -/
def copy (destination : Url) : CacheState CachedInfo := w.invalidateFor state destination

/-- `rename`, after the inner call. -/
def rename (source destination : Url) : CacheState CachedInfo :=
  w.invalidateFor (w.invalidateFor state source) destination

/-- `update_metadata`, after the inner call. -/
def updateMetadata (address : Url) : CacheState CachedInfo := w.invalidateFor state address

/-- `create_directory`, after the inner call. -/
def createDirectory (address : Url) : CacheState CachedInfo := w.invalidateFor state address

/-- `delete_directory`, after the inner call. -/
def deleteDirectory (address : Url) : CacheState CachedInfo := (w.invalidateFor state address).invalidatePrefix address

/-- `continue_write`, after an inner call that answers `WriteStep::Done`. -/
def continueWrite (address : Url) : CacheState CachedInfo := w.invalidateFor state address

end MetadataCacheWrapper

/-- The calls that change the store. -/
inductive Mutation
  | write (address : Url)
  | delete (address : Url)
  | copy (source destination : Url)
  | rename (source destination : Url)
  | updateMetadata (address : Url)
  | createDirectory (address : Url)
  | deleteDirectory (address : Url)
  | continueWrite (address : Url)

/-- How the inner call of a mutation ends; only `copy` and `continue_write` answer redirects. -/
inductive Outcome
  | refused
  | redirects
  | done
deriving DecidableEq

/-- What a mutation does to the cache. -/
def MetadataCacheWrapper.mutate (w : MetadataCacheWrapper) (state : CacheState CachedInfo) (outcome : Outcome) :
    Mutation → CacheState CachedInfo
  | .write address => if outcome = .done then w.write state address else state
  | .delete address => if outcome = .done then w.delete state address else state
  -- a step that only hands out redirects is a success here
  | .copy _ destination => if outcome = .refused then state else w.copy state destination
  | .rename source destination => if outcome = .done then w.rename state source destination else state
  | .updateMetadata address => if outcome = .done then w.updateMetadata state address else state
  | .createDirectory address => if outcome = .done then w.createDirectory state address else state
  | .deleteDirectory address => if outcome = .done then w.deleteDirectory state address else state
  | .continueWrite address => if outcome = .done then w.continueWrite state address else state

end OvStorage.Cache
