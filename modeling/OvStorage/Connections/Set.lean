import OvStorage.Address.Url
import OvStorage.Lib.Interleave
import OvStorage.Lib.Table

/-!
# The connection set

`ConnectionSet` of `ovstorage-plugin/src/connection/set.rs`: the registry of a backend's
connections, the credentials of each in memory and in the secret store, the locks that serialize
the grants, and what subscribers are told.

## The model

An entry is a reference into a heap, as the operations hold it by `Arc` while the registry maps
its id to another. `EntryState` is kept in two halves: `ConnEntry` is what grants work on, `Shown`
what the connection shows. Each critical section of the source, each look at one lock's data and
each call of the driver is one `Action`; what an action may answer and what it does is `exec`.
A bundle is the refresh token of its `oauth` field and the other fields as they are. Times, the
history of attempts and the refresh tasks are left out: a background refresh may begin whenever
its entry is there.

`Past` holds history variables, which no action's answer depends on.
-/

namespace OvStorage.Connections

open Address

abbrev ConnectionId := String

/-- An `Arc<ConnEntry>`. -/
abbrev EntryRef := ℕ

/-- A refresh token. -/
abbrev Token := ℕ

/-- `SecretBundle`. -/
structure SecretBundle where
  /-- The refresh token of the field `oauth`. -/
  oauth : Option Token
  fields : List (String × String)
deriving DecidableEq

/-- `fields.is_empty()`. -/
def SecretBundle.isEmpty (bundle : SecretBundle) : Bool := bundle.oauth.isNone && bundle.fields.isEmpty

/-- `ErrorCode`. -/
inductive ErrorCode
  | Cancelled | InvalidArgument | Internal | NotFound | Transient | Unsupported
  | AuthRequired | AuthExpired | AuthCancelled | CredentialExpired | CredentialUnavailable | PermissionDenied
deriving DecidableEq

/-- `AuthErrorClass`. -/
inductive AuthErrorClass
  | RecoverableCredential | Revoked | NeedsInteractive | PermissionDenied | NotAuth
deriving DecidableEq

/-- `default_classify`. -/
def defaultClassify : ErrorCode → AuthErrorClass
  | .AuthExpired | .CredentialExpired | .CredentialUnavailable => .RecoverableCredential
  | .AuthRequired | .AuthCancelled => .NeedsInteractive
  | .PermissionDenied => .PermissionDenied
  | _ => .NotAuth

/-- `AuthReason`. -/
inductive AuthReason
  | NeverAuthenticated | CredentialsRotated | BackendUnreachable | ManuallyRequested
  | RefreshTokenRevoked | RefreshTokenExpired
deriving DecidableEq

/-- `ConnectionAuthState`. -/
inductive ConnectionAuthState
  | Authenticated
  | Anonymous
  | AwaitingAuth (reason : AuthReason)
  | AuthFailed (error : ErrorCode) (attempts : ℕ)
deriving DecidableEq

/-- The connection needs no bring-up. -/
def ConnectionAuthState.ready : ConnectionAuthState → Bool
  | .Authenticated | .Anonymous => true
  | _ => false

/-- `Obtained`. -/
inductive Obtained
  | Bearer (credentials : SecretBundle)
  | Anonymous
  | AwaitingInteractive (reason : AuthReason)
  | WouldConsume
deriving DecidableEq

/-- `Lineage`. -/
inductive Lineage
  | Fresh | Stored
deriving DecidableEq

/-- `Connection`, as the set shows it. -/
structure Connection where
  id : ConnectionId
  displayName : String
  userMetadata : List (String × String)
  currentAddresses : List Url
  authState : ConnectionAuthState
deriving DecidableEq

/-- `ConnectionChange`. -/
inductive ConnectionChange
  | Added (connection : Connection)
  | Updated (connection : Connection)
  | Removed (id : ConnectionId)
deriving DecidableEq

/-- The set's tunables, the driver's `classify`, and whether grants run under a cross-process lock:
there is a provider, and the runtime has several threads. -/
structure Config where
  maxAuthAttempts : ℕ
  classify : ErrorCode → AuthErrorClass
  locked : Bool

/-- `ConnEntry`, what grants work on. -/
structure ConnEntry where
  id : ConnectionId
  /-- `driver.stable_id()`. -/
  stableId : Option ConnectionId
  credentials : SecretBundle
  credGen : ℕ
  persistDebt : Bool
  purgeOnRemoval : Bool
  /-- `driver.identity_gen()`. -/
  identityGen : ℕ
deriving DecidableEq

/-- The other half of `EntryState`. -/
structure Shown where
  connection : Connection
  attempts : ℕ
  announced : Bool
deriving DecidableEq

/-- The locks that are held across awaits. -/
inductive Lock
  /-- One that `bringup_lock_for` has made. -/
  | bringup (made : ℕ)
  | credentialMutation (entry : EntryRef)
  /-- `purge_lock_for`. -/
  | purge (stable : ConnectionId)
  /-- The cross-process `auth_refresh_lock`. -/
  | authRefresh (stable : ConnectionId)
deriving DecidableEq

/-- The registry, the credentials and the locks. -/
structure Vault (ι : Type) where
  entries : Table ConnectionId EntryRef
  heap : EntryRef → ConnEntry
  nextEntry : EntryRef
  bringupLocks : Table ConnectionId ℕ
  nextLock : ℕ
  held : Lock → Option ι
  /-- The secret store, by stable id. -/
  secrets : ConnectionId → Option SecretBundle

/-- What the connections show, and what their waiters read. -/
structure Face where
  shown : EntryRef → Shown
  /-- When the last failed bring-up was. -/
  cooldowns : Table ConnectionId ℕ
  bringupGens : Table ConnectionId (ℕ × Option ErrorCode)
  refreshGens : Table ConnectionId ℕ
  /-- What subscribers were told, the last first. -/
  events : List ConnectionChange

/-- The refresh tokens. -/
structure Tokens where
  /-- Those that grants were given, the last first; a grant consumes it. -/
  consumed : List Token
  /-- The first that no grant has handed out. -/
  next : Token

/-- History variables. -/
structure Past (ι : Type) where
  tokens : Tokens
  /-- The bundle that a thread has put in memory and has yet to persist. -/
  owes : ι → Option SecretBundle
  /-- The threads that have registered an entry with a refresh token and not yet begun to validate it. -/
  validating : ι → Bool
  /-- The generation of credentials that a thread's operation started on. -/
  started : ι → ℕ
  /-- The generations of credentials that have expired. -/
  expired : List ℕ
  /-- The generations on which a thread's operations have failed, and those for which a refresh was driven. -/
  failed : ι → List ℕ
  driven : List ℕ

/-- `ConnectionSet`, with its entries, its secret store and its subscribers. -/
structure ConnectionSet (ι : Type) where
  vault : Vault ι
  face : Face
  past : Past ι

/-! ### The sections of the registry and of an entry -/

namespace Vault

variable {ι : Type} (v : Vault ι)

/-- Change an entry. -/
def modify (e : EntryRef) (f : ConnEntry → ConnEntry) : Vault ι :=
  { v with heap := Function.update v.heap e (f (v.heap e)) }

/-- `is_registered`: something is, under the id. -/
def isRegistered (id : ConnectionId) : Bool := (v.entries.get id).isSome

/-- `is_live`: the entry itself is. -/
def isLive (e : EntryRef) : Bool := v.entries.get (v.heap e).id == some e

/-- `stable_id_shared_by_other`. -/
def stableIdSharedByOther (e : EntryRef) : Bool :=
  match (v.heap e).stableId with
  | none => false
  | some stable => v.entries.rows.any fun row => row.2 != e && (v.heap row.2).stableId == some stable

/-- What the store holds for an entry's driver. -/
def stored (stableId : Option ConnectionId) : Option SecretBundle := stableId.bind v.secrets

/-- Write to the store, or delete from it. -/
def store (stableId : Option ConnectionId) (bundle : Option SecretBundle) : Vault ι :=
  { v with secrets := match stableId with
    | none => v.secrets
    | some stable => Function.update v.secrets stable bundle }

end Vault

namespace Face

variable (f : Face)

def modify (e : EntryRef) (g : Shown → Shown) : Face := { f with shown := Function.update f.shown e (g (f.shown e)) }

/-- The state changes with a bundle that authenticates. -/
def authenticated (e : EntryRef) (state : ConnectionAuthState) : Face :=
  f.modify e fun shown => { shown with connection := { shown.connection with authState := state }, attempts := 0 }

/-- `park_awaiting`. -/
def parkAwaiting (e : EntryRef) (reason : AuthReason) : Face :=
  f.modify e fun shown => { shown with connection := { shown.connection with authState := .AwaitingAuth reason } }

/-- `park`. -/
def park (C : Config) (e : EntryRef) (reason : AuthReason) (error : ErrorCode) : Face :=
  f.modify e fun shown =>
    let attempts := shown.attempts + 1
    let state := if C.maxAuthAttempts ≤ attempts then .AuthFailed error attempts else .AwaitingAuth reason
    { shown with connection := { shown.connection with authState := state }, attempts }

def emit (change : ConnectionChange) : Face := { f with events := change :: f.events }

/-- `emit_updated`. -/
def emitUpdated (e : EntryRef) : Face :=
  if (f.shown e).announced then f.emit (.Updated (f.shown e).connection) else f

/-- `announce_connection`, of the entry under the id. -/
def announce (e : Option EntryRef) : Face :=
  match e with
  | none => f
  | some e =>
    if (f.shown e).announced then f
    else (f.modify e fun shown => { shown with announced := true }).emit (.Added (f.shown e).connection)

/-- `set_addresses`, of the entry under the id. -/
def setAddresses (e : Option EntryRef) (addresses : List Url) : Face :=
  match e with
  | none => f
  | some e =>
    (f.modify e fun shown => { shown
      with connection := { shown.connection with currentAddresses := addresses } }).emitUpdated e

/-- The upserts and removals of `update_attributes`. -/
def patchMetadata (metadata : List (String × String)) : List (String × Option String) → List (String × String)
  | [] => metadata
  | (key, value) :: rest =>
    let others := metadata.filter fun row => row.1 != key
    match value with
    | some value => patchMetadata ((key, value) :: others) rest
    | none => patchMetadata others rest

/-- `update_attributes`, of the entry under the id. -/
def updateAttributes (e : Option EntryRef) (displayName : Option String) (metadata : List (String × Option String)) :
    Face :=
  match e with
  | none => f
  | some e =>
    (f.modify e fun shown => { shown with connection := { shown.connection with
      displayName := displayName.getD shown.connection.displayName
      userMetadata := patchMetadata shown.connection.userMetadata metadata } }).emitUpdated e

/-- `record_bringup_outcome`. -/
def recordBringupOutcome (id : ConnectionId) (outcome : Option ErrorCode) : Face :=
  let generation := match f.bringupGens.get id with
    | some (generation, _) => generation
    | none => 0
  { f with bringupGens := f.bringupGens.insert id (generation + 1, outcome) }

/-- `bump_refresh_gen`. -/
def bumpRefreshGen (id : ConnectionId) : Face :=
  { f with refreshGens := f.refreshGens.insert id ((f.refreshGens.get id).getD 0 + 1) }

/-- What the commit section of `remove_inner` retires, and what it tells. -/
def retire (id : ConnectionId) (e : EntryRef) : Face :=
  { f with
    cooldowns := f.cooldowns.erase id
    bringupGens := f.bringupGens.erase id
    refreshGens := f.refreshGens.erase id
    events := if (f.shown e).announced then .Removed id :: f.events else f.events }

end Face

/-- `list_connections`. -/
def ConnectionSet.listConnections {ι : Type} (s : ConnectionSet ι) : List Connection :=
  (s.vault.entries.rows.filter fun row => (s.face.shown row.2).announced).map fun row => (s.face.shown row.2).connection

end OvStorage.Connections
