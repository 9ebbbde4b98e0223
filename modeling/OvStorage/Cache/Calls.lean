import OvStorage.Cache.Wrapper
import OvStorage.Lib.Routine

/-!
# The calls of the metadata cache wrapper, among others

The endpoints of `MetadataCacheWrapper` once more, as calls that meet the cache and the inner layer step by step: an
operation of the cache holds its lock, and between two of them other calls take theirs. A call that waits for the inner
layer may be dropped, and is heard of no more. What a call answers is a step of its own, so that a run shows it.

A request comes with its extensions, of which the cache reads the principal's id and whether there is a credential that
was resolved for it. The endpoints themselves, each in one piece, are in `OvStorage.Cache.Wrapper`.
-/

namespace OvStorage.Cache

open Address SegList Listing Interleave

/-! ### Requests -/

/-- `Extensions`. -/
structure Extensions where
  /-- `PRINCIPAL_ID`. -/
  principalId : Option Bytes
  /-- Whether there is a `RESOLVED_OAUTH_CREDENTIAL`. -/
  resolvedOauthCredential : Bool
deriving DecidableEq

/-- `{byte:02x}`. -/
def hexByte (byte : UInt8) : List Char := [Nat.digitChar (byte.toNat / 16), Nat.digitChar (byte.toNat % 16)]

/-- `principal_of`. -/
def principalOf (extensions : Extensions) : Option String :=
  extensions.principalId.map fun bytes =>
    match String.fromUTF8? ⟨bytes.toArray⟩ with
    | some id => "s:" ++ id
    | none => "b:" ++ String.ofList (bytes.flatMap hexByte)

/-- `Request<StatRequest>`. -/
structure StatCall where
  address : Url
  options : CostFlags
  extensions : Extensions
deriving DecidableEq

/-- `Request<ListRequest>`. -/
structure ListCall where
  address : Url
  options : ListOptions
  extensions : Extensions
deriving DecidableEq

deriving instance DecidableEq for Mutation

/-- `Invalidation`. -/
inductive Invalidation
  | Address (url : Url)
  | Prefix (url : Url)
  | All

namespace Calls

/-! ### Steps -/

/-- What a call does in one step. -/
inductive Act
  | get (key : MetadataCacheKey) (requested : CostFlags)
  | insert (key : MetadataCacheKey) (payload : MetadataCachePayload CachedInfo) (flags : CostFlags)
  | invalidateAddress (address : Url)
  | invalidatePrefix (pre : Url)
  | invalidateListsContaining (address : Url)
  | invalidateAll
  | purgeExpired
  /-- `root_info_for`, as far as it is read: whether the route of a parent supports listing and wants list-backed stats.
  -/
  | optedIn (parent : Url)
  | innerStat (request : StatCall)
  | innerList (request : ListCall)
  | innerMutate (mutation : Mutation)
  /-- What a `stat` answers. -/
  | reply (result : Except Refusal CachedInfo)
deriving DecidableEq

/-- What comes back: from the cache with the moment of the operation, and from an insert with the order in which it
met the rows that it may evict, and whether the row is retained. -/
abbrev Act.Answer : Act → Type
  | get _ _ => Nanos × MetadataLookup CachedInfo
  | insert _ _ _ => Nanos × List (Nanos × MetadataCacheKey) × Bool
  | purgeExpired => Nanos
  | optedIn _ => Bool
  | innerStat _ => Except Refusal CachedInfo
  | innerList _ => Except Refusal (ListPage CachedInfo)
  | innerMutate _ => Outcome
  | _ => Unit

instance (state : CacheState CachedInfo) (victims : List (Nanos × MetadataCacheKey)) :
    Decidable (VictimOrder state victims) :=
  decidable_of_iff (victims.Perm (state.entries.rows.map fun row => (row.2.lastAccessed, row.1)) ∧
    victims.Pairwise fun a b => a.1 ≤ b.1) ⟨fun h => ⟨h.1, h.2⟩, fun h => ⟨h.perm, h.sorted⟩⟩

/-- A call. -/
abbrev Call := Routine.{0, 0, 0} Act.Answer

/-- One step. -/
def act (a : Act) : Call a.Answer := Routine.perform a

/-- The look at a row. -/
def getRow (key : MetadataCacheKey) (requested : CostFlags) : Call (Nanos × MetadataLookup CachedInfo) :=
  act (.get key requested)

/-- The store of a row. -/
def insertRow (key : MetadataCacheKey) (payload : MetadataCachePayload CachedInfo) (flags : CostFlags) :
    Call (Nanos × List (Nanos × MetadataCacheKey) × Bool) := act (.insert key payload flags)

def askRoute (parent : Url) : Call Bool := act (.optedIn parent)

def innerStat (request : StatCall) : Call (Except Refusal CachedInfo) := act (.innerStat request)

def innerList (request : ListCall) : Call (Except Refusal (ListPage CachedInfo)) := act (.innerList request)

def innerMutate (mutation : Mutation) : Call Outcome := act (.innerMutate mutation)

variable (w : MetadataCacheWrapper)

/-- What a step does. -/
def exec {ι : Type} (_ : ι) : (a : Act) → a.Answer → CacheState CachedInfo → Option (CacheState CachedInfo)
  | .get key requested, (now, found), state =>
    if found = (state.get now key requested).1 then some (state.get now key requested).2 else none
  | .insert key payload flags, (now, victims, retained), state =>
    if VictimOrder (state.remove key) victims ∧ retained = (state.insert w.limits now key payload flags victims).1 then
      some (state.insert w.limits now key payload flags victims).2
    else none
  | .invalidateAddress address, (), state => some (state.invalidateAddress w.U address)
  | .invalidatePrefix pre, (), state => some (state.invalidatePrefix pre)
  | .invalidateListsContaining address, (), state => some (state.invalidateListsContaining address)
  | .invalidateAll, (), state => some state.invalidateAll
  | .purgeExpired, now, state => some (state.purgeExpired now)
  | .optedIn _, _, state => some state
  | .innerStat _, _, state => some state
  | .innerList _, _, state => some state
  | .innerMutate _, _, state => some state
  | .reply _, (), state => some state

/-! ### The endpoints that read -/

/-- The rows that a page fills for its files. -/
def storeItems (request : ListCall) (flags : CostFlags) : List CachedInfo → Call Unit
  | [] => return ()
  | item :: items => do
    if item.kind = .File then
      let key :=
        MetadataCacheWrapper.statKey (principalOf request.extensions)
          (credentialScope w.digest request.address) item.address
      let _ ← insertRow key (.Stat item) flags
    storeItems request flags items

/-- `store_list`, of the page that answers the request. -/
def storeList (request : ListCall) (page : ListPage CachedInfo) : Call Unit := do
  if listIsCacheable request.address request.options then
    let flags := ⟨false, request.options.versionedAddress⟩
    let _ ← insertRow (w.listKey (principalOf request.extensions) request.address) (.List page) flags
    storeItems w request flags page.items

/-- The part of `stat_from_parent_list` behind its look at the cache. -/
def statFromFreshList (request : StatCall) (parent : Url) : Call ListBackedStat := do
  if !request.options.isEmpty then return .Unavailable
  else if !(← askRoute parent) then return .Unavailable
  else
    let list : ListCall := ⟨parent, .default, request.extensions⟩
    match ← innerList list with
    | .error _ => return .Unavailable
    | .ok page =>
      storeList w list page
      return findInPage page request.address

/-- `stat_from_parent_list`. -/
def statFromParentList (request : StatCall) : Call ListBackedStat := do
  if request.address.query.isSome || request.address.fragment.isSome then return .Unavailable
  else if endsWithSlash request.address then return .Unavailable
  else
    match parentAndName w.U request.address with
    | none => return .Unavailable
    | some (parent, _) =>
      match (← getRow (w.listKey (principalOf request.extensions) parent) request.options).2 with
      | .Hit (.List page) => return findInPage page request.address
      | _ => statFromFreshList w request parent

/-- The key of the request's `Stat` row. -/
def statKey (request : StatCall) : MetadataCacheKey :=
  MetadataCacheWrapper.statKey (principalOf request.extensions)
    (credentialScope w.digest request.address) request.address

/-- The inner `stat` of a request, with the row it fills. -/
def statInner (request : StatCall) (upstream : CostFlags) : Call (Except Refusal CachedInfo) := do
  match ← innerStat { request with options := upstream } with
  | .error refusal => return .error refusal
  | .ok info =>
    if statIsCacheable request.address then
      let _ ← insertRow (statKey w request) (.Stat info) upstream
    return .ok info

/-- The part of `stat` behind a miss of the `Stat` row. -/
def statMissed (request : StatCall) (upstream : CostFlags) : Call (Except Refusal CachedInfo) := do
  match ← statFromParentList w request with
  | .Found info => return .ok info
  | .NotFound => return .error (.NotFound "object not found in cached parent listing")
  | .Unavailable => statInner w request upstream

/-- `stat`. -/
def stat (request : StatCall) : Call (Except Refusal CachedInfo) := do
  if request.extensions.resolvedOauthCredential then innerStat request
  else if statIsCacheable request.address then
    match (← getRow (statKey w request) request.options).2 with
    | .Hit (.Stat info) => return .ok { info with address := request.address }
    | .Narrower stored => statMissed w request (stored.union request.options)
    | _ => statMissed w request request.options
  else statInner w request request.options

/-- `list`. -/
def list (request : ListCall) : Call (Except Refusal (ListPage CachedInfo)) := do
  if request.extensions.resolvedOauthCredential then innerList request
  else
    match ← innerList request with
    | .error refusal => return .error refusal
    | .ok page =>
      storeList w request page
      return .ok page

/-! ### The endpoints that change the store -/

/-- `invalidate_for`. -/
def invalidateFor (address : Url) : Call Unit := do
  act (.invalidateAddress address)
  act (.invalidateListsContaining address)

/-- What a mutation invalidates, once the inner call has ended. -/
def invalidateAfter (outcome : Outcome) : Mutation → Call Unit
  | .copy _ destination => if outcome = .refused then return () else invalidateFor destination
  | .rename source destination => do
    if outcome = .done then
      invalidateFor source
      invalidateFor destination
  | .deleteDirectory address => do
    if outcome = .done then
      invalidateFor address
      act (.invalidatePrefix address)
  | .write address => if outcome = .done then invalidateFor address else return ()
  | .delete address => if outcome = .done then invalidateFor address else return ()
  | .updateMetadata address => if outcome = .done then invalidateFor address else return ()
  | .createDirectory address => if outcome = .done then invalidateFor address else return ()
  | .continueWrite address => if outcome = .done then invalidateFor address else return ()

def mutate (mutation : Mutation) : Call Unit := do
  invalidateAfter (← innerMutate mutation) mutation

/-- `invalidate_cached_subtree`, and what a gap in a watch stream does. -/
def invalidateCachedSubtree (pre : Url) : Call Unit := do
  act (.invalidatePrefix pre)
  act (.invalidateListsContaining pre)

/-- What a change event of a watch stream does. -/
def onChange (address : Url) (deleted : Bool) : Call Unit := do
  act (.invalidateAddress address)
  act (.invalidateListsContaining address)
  if deleted then act (.invalidatePrefix address)

/-- `apply_invalidation`, of one event of a notification source. -/
def applyInvalidation : Invalidation → Call Unit
  | .Address url => do
    act (.invalidateAddress url)
    act (.invalidateListsContaining url)
  | .Prefix url => act (.invalidatePrefix url)
  | .All => act .invalidateAll

/-- One tick of the TTL sweeper. -/
def ttlSweep : Call Unit := do
  let _ ← act .purgeExpired

/-- What is called, by a host or by a task of the cache. -/
inductive Op
  | stat (request : StatCall)
  | list (request : ListCall)
  | mutate (mutation : Mutation)
  | invalidateCachedSubtree (pre : Url)
  | onChange (address : Url) (deleted : Bool)
  | applyInvalidation (event : Invalidation)
  | ttlSweep

/-- What a call is among others. -/
def Op.thread : Op → Prog Act.Answer
  | .stat request => (do act (.reply (← Calls.stat w request)) : Call Unit).thread
  | .list request => (Calls.list w request).thread
  | .mutate mutation => (Calls.mutate mutation).thread
  | .invalidateCachedSubtree pre => (Calls.invalidateCachedSubtree pre).thread
  | .onChange address deleted => (Calls.onChange address deleted).thread
  | .applyInvalidation event => (Calls.applyInvalidation event).thread
  | .ttlSweep => Calls.ttlSweep.thread

/-! ### Runs -/

/-- A step of the calls. -/
abbrev Step (ι : Type) := Interleave.Event ι Op Act.Answer

/-- A cache and what is left of the calls on it. -/
abbrev Cached (ι : Type) := Threads ι (CacheState CachedInfo) Act.Answer

variable {ι : Type} [DecidableEq ι]

/-- The runs of a new cache. -/
abbrev Runs : List (Step ι) → Cached ι → Prop :=
  Run (fun s => s = .idle .empty) fun s l s' => s.step (exec w) (Op.thread w) l = some s'

end Calls

end OvStorage.Cache
