import OvStorage.Address.Percent
import OvStorage.Lib.Pledge
import OvStorage.Lib.Table

/-!
# The OAuth credential provider

`OAuthCredentialProvider` of `ovstorage/src/auth/oauth_provider.rs`, over the parts of
`AuthRefreshLock` and `SecretStore` (`auth/mod.rs`, `auth/sqlite_store.rs`) that it uses.

## The model

`StateRoot` is what the processes share: the rows of `credential_records`, the secrets, and the file
locks. A call is a `Routine` over the atomic operations of the two stores, which `exec` performs; every
one of them may fail, and then it has done nothing. A process that dies is one whose next operation
fails: past a failure a call does nothing but let go of its guard.

The token endpoint, the clock and the hosts that register credentials answer as they like. A time is
the number of milliseconds that a row records of it.
-/

namespace OvStorage.OAuth

open Address Interleave

/-! ### The state root -/

/-- What of a `(backend, principal)` the rows, the secrets and the locks are kept for. -/
abbrev Slot := String × String

/-- `ErrorCode`, as far as the provider tells the codes apart. -/
inductive ErrorCode
  | InvalidArgument | AuthExpired | AuthRequired | Transient | StateRootUnavailable | CredentialUnavailable | Internal
deriving DecidableEq

/-- `SystemTime`, from the epoch on. -/
abbrev SystemTime := Fin (2 ^ 63)

instance neZero_systemTime : NeZero (2 ^ 63) := inferInstance

/-- `PersistedSecretToken`. -/
structure PersistedSecretToken where
  credEpoch : ℕ
  expiresAtUnixMs : Option ℤ
  secretHandle : String
  sourceName : String
deriving DecidableEq

/-- A row of `credential_records`, which holds an `i64` for the epoch. -/
structure CredentialRecord where
  credEpoch : ℤ
  expiresAtUnixMs : Option ℤ
  secretHandle : String
  sourceName : String
deriving DecidableEq

/-- `x as i64`. -/
def asI64 (x : ℕ) : ℤ := if x < 2 ^ 63 then x else x - 2 ^ 64

/-- `saturating_add(1)` of a `u64`. -/
def saturatingSucc (x : ℕ) : ℕ := min (x + 1) (2 ^ 64 - 1)

/-- The row that `store_secret_token` writes. -/
def PersistedSecretToken.record (token : PersistedSecretToken) : CredentialRecord :=
  ⟨asI64 token.credEpoch, token.expiresAtUnixMs, token.secretHandle, token.sourceName⟩

/-- What `load_secret_token` makes of a row. -/
def CredentialRecord.token (record : CredentialRecord) : PersistedSecretToken :=
  ⟨(max record.credEpoch 0).toNat, record.expiresAtUnixMs, record.secretHandle, record.sourceName⟩

/-- `auth.sqlite`, and the holders of the lock files. -/
structure StateRoot (ι : Type) where
  credentialRecords : Table Slot CredentialRecord
  secrets : Table (Slot × String) Bytes
  guards : Table Slot ι

/-- `SELECT MAX(cred_epoch)`, which is not below zero. -/
def StateRoot.maxSecretCredEpoch {ι : Type} (root : StateRoot ι) : ℕ :=
  (root.credentialRecords.rows.map fun row => (max row.2.credEpoch 0).toNat).foldr max 0

/-! ### What is minted and resolved -/

/-- `MintedToken`. -/
structure MintedToken where
  accessToken : String
  refreshToken : Option String
  expiresAt : Option SystemTime
deriving DecidableEq

/-- `ResolvedCredential`, with the fields of its bundle. -/
structure ResolvedCredential where
  token : Bytes
  refresh : Option Bytes
  expiresAt : Option SystemTime
  sourceName : String
deriving DecidableEq

/-- `ResolvedOAuthCredentialLease`. -/
structure ResolvedOAuthCredentialLease where
  keyringHandle : String
  credEpoch : ℕ
deriving DecidableEq

/-- `CredentialError::Unavailable`, by its cause, or `CredentialError::Backend`. -/
inductive CredentialError
  | NotConfigured (backend : String)
  | NoWarmToken
  | BelongsTo (sourceName : String)
  | Backend (code : ErrorCode)
deriving DecidableEq

/-- What a call gives back to the host. -/
inductive Outcome
  | resolved (slot : Slot) (result : Except CredentialError ResolvedCredential)
  | leased (slot : Slot) (result : Except CredentialError ResolvedOAuthCredentialLease)
  | accepted (slot : Slot) (result : Except ErrorCode Unit)
  | invalidated (slot : Slot) (lease : ResolvedOAuthCredentialLease) (result : Except CredentialError Bool)
deriving DecidableEq

/-! ### The operations -/

/-- What a call does in one step. -/
inductive Act
  | loadSecretToken (slot : Slot)
  | storeSecretToken (slot : Slot) (token : PersistedSecretToken)
  | maxSecretCredEpoch
  | get (slot : Slot) (field : String)
  | putMany (slot : Slot) (fields : List (String × Bytes))
  | delete (slot : Slot) (field : String)
  | lock (slot : Slot)
  | unlock (slot : Slot)
  | now
  | grant (slot : Slot) (refresh : String)
  | finish (outcome : Outcome)
deriving DecidableEq

/-- What comes back. -/
abbrev Act.Answer : Act → Type
  | loadSecretToken _ => Except ErrorCode (Option PersistedSecretToken)
  | storeSecretToken _ _ => Except ErrorCode Unit
  | maxSecretCredEpoch => Except ErrorCode ℕ
  | get _ _ => Except ErrorCode (Option Bytes)
  | putMany _ _ => Except ErrorCode Unit
  | delete _ _ => Except ErrorCode Unit
  | lock _ => Except ErrorCode Unit
  | unlock _ => Unit
  | now => SystemTime
  | grant _ _ => Except ErrorCode MintedToken
  | finish _ => Unit

namespace StateRoot

variable {ι : Type} [DecidableEq ι]

/-- `load_secret_token`. -/
def loadSecretToken (root : StateRoot ι) (slot : Slot) : Option PersistedSecretToken :=
  (root.credentialRecords.get slot).map CredentialRecord.token

/-- `put_many`: all of the fields. -/
def putMany (root : StateRoot ι) (slot : Slot) (fields : List (String × Bytes)) : StateRoot ι :=
  { root with secrets := fields.foldl (fun secrets field => secrets.insert (slot, field.1) field.2) root.secrets }

/-- What an operation answers, and what it does. -/
def exec (t : ι) : (a : Act) → a.Answer → StateRoot ι → Option (StateRoot ι)
  | .loadSecretToken slot, .ok found, root => if found = root.loadSecretToken slot then some root else none
  | .storeSecretToken slot token, .ok (), root =>
    some { root with credentialRecords := root.credentialRecords.insert slot token.record }
  | .maxSecretCredEpoch, .ok epoch, root => if epoch = root.maxSecretCredEpoch then some root else none
  | .get slot field, .ok found, root => if found = root.secrets.get (slot, field) then some root else none
  | .putMany slot fields, .ok (), root => some (root.putMany slot fields)
  | .delete slot field, .ok (), root => some { root with secrets := root.secrets.erase (slot, field) }
  | .lock slot, .ok (), root =>
    if root.guards.get slot = none then some { root with guards := root.guards.insert slot t } else none
  | .unlock slot, (), root =>
    if root.guards.get slot = some t then some { root with guards := root.guards.erase slot } else some root
  | .loadSecretToken _, .error _, root | .storeSecretToken _ _, .error _, root | .maxSecretCredEpoch, .error _, root
  | .get _ _, .error _, root | .putMany _ _, .error _, root | .delete _ _, .error _, root | .lock _, .error _, root
  | .now, _, root | .grant _ _, _, root | .finish _, (), root => some root

end StateRoot

/-! ### The provider -/

/-- One operation. -/
def act (a : Act) : Routine Act.Answer a.Answer := Routine.perform a

/-- A call that may fail. -/
abbrev Call (ε : Type) := ExceptT ε (Routine Act.Answer)

/-- An operation whose failure is the backend's. -/
def backend {α : Type} (op : Routine Act.Answer (Except ErrorCode α)) : Call CredentialError α := do
  match ← ExceptT.lift op with
  | .ok value => return value
  | .error code => throw (.Backend code)

namespace AuthRefreshLock

def loadSecretToken (slot : Slot) : Call CredentialError (Option PersistedSecretToken) :=
  backend (act (.loadSecretToken slot))

def storeSecretToken (slot : Slot) (token : PersistedSecretToken) : Call CredentialError Unit :=
  backend (act (.storeSecretToken slot token))

def maxSecretCredEpoch : Call CredentialError ℕ := backend (act .maxSecretCredEpoch)

end AuthRefreshLock

namespace SecretStore

def get (slot : Slot) (field : String) : Call CredentialError (Option Bytes) := backend (act (.get slot field))

def putMany (slot : Slot) (fields : List (String × Bytes)) : Call CredentialError Unit :=
  backend (act (.putMany slot fields))

def delete (slot : Slot) (field : String) : Call CredentialError Unit := backend (act (.delete slot field))

end SecretStore

/-- What a call comes to, also if it fails. -/
def attempt {ε ε' α : Type} (p : Call ε α) : Call ε' (Except ε α) := ExceptT.lift p.run

/-- `lock_for_async`, and the guard while a call goes on. -/
def guarded {α : Type} (slot : Slot) (p : Call CredentialError α) : Call CredentialError α := do
  backend (act (.lock slot))
  let result ← attempt p
  ExceptT.lift (act (.unlock slot))
  ofExcept result

/-- `MissingRefreshToken`. -/
inductive MissingRefreshToken
  | DeleteExisting | PreserveExisting
deriving DecidableEq

/-- The field of the refresh token beside an access token. -/
def refreshField (handle : String) : String := handle ++ "/refresh"

/-- `persisted_expires_at`. -/
def persistedExpiresAt (persisted : PersistedSecretToken) : Except CredentialError (Option SystemTime) :=
  match persisted.expiresAtUnixMs with
  | none => .ok none
  | some ms => if h : 0 ≤ ms ∧ ms.toNat < 2 ^ 63 then .ok (some ⟨ms.toNat, h.2⟩) else .error (.Backend .Internal)

/-- `is_none_or(|at| at > SystemTime::now() + Duration::from_secs(60))`. -/
def accessIsUsable (expiresAt : Option SystemTime) : Call CredentialError Bool := do
  match expiresAt with
  | none => return true
  | some time =>
    let now ← ExceptT.lift (act .now)
    return decide (now.val + 60000 < time.val)

/-- `OAuthCredentialProvider`. -/
structure OAuthCredentialProvider where
  name : String
  backendKind : String
deriving DecidableEq

namespace OAuthCredentialProvider

variable (self : OAuthCredentialProvider)

/-- `access_keyring_handle`. -/
def accessKeyringHandle : String := "oauth/" ++ self.name

/-- `lease_from_persisted`. -/
def leaseFromPersisted (persisted : PersistedSecretToken) : ResolvedOAuthCredentialLease :=
  ⟨persisted.secretHandle, persisted.credEpoch⟩

/-- `load_persisted_token`. -/
def loadPersistedToken (slot : Slot) : Call CredentialError PersistedSecretToken := do
  if slot.1 ≠ self.backendKind then throw (.NotConfigured slot.1)
  match ← AuthRefreshLock.loadSecretToken slot with
  | none => throw .NoWarmToken
  | some persisted =>
    if persisted.sourceName ≠ self.name then throw (.BelongsTo persisted.sourceName)
    return persisted

/-- The fields that `persist_token_locked` writes. -/
def fieldsOf (token : MintedToken) : List (String × Bytes) :=
  (self.accessKeyringHandle, utf8 token.accessToken) ::
    (token.refreshToken.map fun refresh => (refreshField self.accessKeyringHandle, utf8 refresh)).toList

/-- `persist_token_locked`. -/
def persistTokenLocked (token : MintedToken) (slot : Slot) (missingRefresh : MissingRefreshToken) :
    Call CredentialError Unit := do
  if token.accessToken.isEmpty then throw (.Backend .CredentialUnavailable)
  SecretStore.putMany slot (self.fieldsOf token)
  if token.refreshToken.isNone ∧ missingRefresh = .DeleteExisting then
    SecretStore.delete slot (refreshField self.accessKeyringHandle)
  let epoch ← AuthRefreshLock.maxSecretCredEpoch
  let row : PersistedSecretToken :=
    ⟨saturatingSucc epoch, token.expiresAt.map fun time => (time.val : ℤ), self.accessKeyringHandle, self.name⟩
  AuthRefreshLock.storeSecretToken slot row

/-- `persist_token`. -/
def persistToken (token : MintedToken) (slot : Slot) (missingRefresh : MissingRefreshToken) :
    Call CredentialError Unit :=
  guarded slot (self.persistTokenLocked token slot missingRefresh)

/-- `refresh_warm_continuation` under its guard. -/
def refreshLocked (slot : Slot) : Call CredentialError (Option (ResolvedCredential × String)) := do
  let persisted ← self.loadPersistedToken slot
  let accessNow ← SecretStore.get slot persisted.secretHandle
  let refreshNow ← SecretStore.get slot (refreshField persisted.secretHandle)
  let expiresAt ← ofExcept (persistedExpiresAt persisted)
  let usable ← accessIsUsable expiresAt
  match accessNow, usable with
  | some access, true => return some (⟨access, refreshNow, expiresAt, self.name⟩, persisted.secretHandle)
  | _, _ =>
    match refreshNow with
    | none => return none
    | some refresh =>
      match String.fromUTF8? ⟨refresh.toArray⟩ with
      | none => throw (.Backend .Internal)
      | some refreshStr =>
        let minted ← backend (act (.grant slot refreshStr))
        let token :=
          if minted.refreshToken.isNone ∧ persisted.secretHandle ≠ self.accessKeyringHandle then
            { minted with refreshToken := some refreshStr }
          else minted
        self.persistTokenLocked token slot .PreserveExisting
        let resolvedRefresh := (token.refreshToken.map utf8).or (some refresh)
        return some (⟨utf8 token.accessToken, resolvedRefresh, token.expiresAt, self.name⟩, self.accessKeyringHandle)

/-- `refresh_warm_continuation`. -/
def refreshWarmContinuation (slot : Slot) : Call CredentialError (Option (ResolvedCredential × String)) :=
  guarded slot (self.refreshLocked slot)

/-- `try_warm_continuation`. -/
def tryWarmContinuation (persisted : PersistedSecretToken) (slot : Slot) :
    Call CredentialError (Option (ResolvedCredential × String)) := do
  let accessNow ← SecretStore.get slot persisted.secretHandle
  let expiresAt ← ofExcept (persistedExpiresAt persisted)
  let usable ← accessIsUsable expiresAt
  match accessNow, usable with
  | some access, true =>
    let refreshNow ← SecretStore.get slot (refreshField persisted.secretHandle)
    return some (⟨access, refreshNow, expiresAt, self.name⟩, persisted.secretHandle)
  | _, _ => self.refreshWarmContinuation slot

/-- The failures of a refresh that leave a cold start. -/
def leavesColdStart : CredentialError → Bool
  | .Backend .AuthExpired | .Backend .AuthRequired => true
  | _ => false

/-- `resolve`. -/
def resolve (slot : Slot) : Call CredentialError ResolvedCredential := do
  let persisted ← self.loadPersistedToken slot
  match ← attempt (self.tryWarmContinuation persisted slot) with
  | .ok (some (resolved, _)) => return resolved
  | .ok none => throw .NoWarmToken
  | .error error => throw (if leavesColdStart error then .NoWarmToken else error)

/-- `persisted_access_is_usable`. -/
def persistedAccessIsUsable (persisted : PersistedSecretToken) : Call CredentialError Bool := do
  let expiresAt ← ofExcept (persistedExpiresAt persisted)
  accessIsUsable expiresAt

/-- `resolve_access_keyring_handle_lease`. -/
def resolveAccessKeyringHandleLease (slot : Slot) : Call CredentialError ResolvedOAuthCredentialLease := do
  let persisted ← self.loadPersistedToken slot
  let access ← SecretStore.get slot persisted.secretHandle
  let usable ← if access.isSome then persistedAccessIsUsable persisted else pure false
  if usable then return leaseFromPersisted persisted
  match ← attempt (self.refreshWarmContinuation slot) with
  | .ok (some _) =>
    let committed ← self.loadPersistedToken slot
    return leaseFromPersisted committed
  | .ok none => throw .NoWarmToken
  | .error error => throw (if leavesColdStart error then .NoWarmToken else error)

/-- `invalidate_access_token_if_lease` under its guard. -/
def invalidateLocked (slot : Slot) (lease : ResolvedOAuthCredentialLease) : Call CredentialError Bool := do
  match ← AuthRefreshLock.loadSecretToken slot with
  | none => return false
  | some persisted =>
    if persisted.sourceName ≠ self.name ∨ persisted.credEpoch ≠ lease.credEpoch ∨
        persisted.secretHandle ≠ lease.keyringHandle then
      return false
    else
      let epoch ← AuthRefreshLock.maxSecretCredEpoch
      let invalidated := { persisted with credEpoch := saturatingSucc epoch, expiresAtUnixMs := some 0 }
      AuthRefreshLock.storeSecretToken slot invalidated
      SecretStore.delete slot persisted.secretHandle
      return true

/-- `invalidate_access_token_if_lease`. -/
def invalidateAccessTokenIfLease (slot : Slot) (lease : ResolvedOAuthCredentialLease) : Call CredentialError Bool := do
  if slot.1 ≠ self.backendKind then throw (.NotConfigured slot.1)
  guarded slot (self.invalidateLocked slot lease)

/-- The token of a registration, whose texts are UTF-8. -/
def registered (accessToken : Bytes) (refreshToken : Option Bytes) (expiresAt : Option SystemTime) :
    Except ErrorCode MintedToken :=
  if accessToken.isEmpty then .error .InvalidArgument
  else
    match String.fromUTF8? ⟨accessToken.toArray⟩ with
    | none => .error .InvalidArgument
    | some access =>
      match refreshToken with
      | none => .ok ⟨access, none, expiresAt⟩
      | some bytes =>
        match String.fromUTF8? ⟨bytes.toArray⟩ with
        | none => .error .InvalidArgument
        | some refresh => .ok ⟨access, some refresh, expiresAt⟩

/-- How `accept_credential` reports what is not the backend's. -/
def acceptError : CredentialError → ErrorCode
  | .Backend code => code
  | _ => .Internal

/-- `accept_credential`. -/
def acceptCredential (slot : Slot) (accessToken : Bytes) (refreshToken : Option Bytes) (expiresAt : Option SystemTime) :
    Call ErrorCode Unit := do
  let token ← ofExcept (registered accessToken refreshToken expiresAt)
  match ← attempt (self.persistToken token slot .DeleteExisting) with
  | .ok () => return ()
  | .error error => throw (acceptError error)

end OAuthCredentialProvider

/-! ### The calls -/

/-- A call of a provider. -/
inductive Op
  | resolve (self : OAuthCredentialProvider) (slot : Slot)
  | lease (self : OAuthCredentialProvider) (slot : Slot)
  | accept (self : OAuthCredentialProvider) (slot : Slot) (accessToken : Bytes) (refreshToken : Option Bytes)
      (expiresAt : Option SystemTime)
  | invalidate (self : OAuthCredentialProvider) (slot : Slot) (lease : ResolvedOAuthCredentialLease)
deriving DecidableEq

/-- The call, up to what it gives back. -/
def Op.routine : Op → Routine Act.Answer Unit
  | .resolve self slot => do
    let result ← (self.resolve slot).run
    act (.finish (.resolved slot result))
  | .lease self slot => do
    let result ← (self.resolveAccessKeyringHandleLease slot).run
    act (.finish (.leased slot result))
  | .accept self slot accessToken refreshToken expiresAt => do
    let result ← (self.acceptCredential slot accessToken refreshToken expiresAt).run
    act (.finish (.accepted slot result))
  | .invalidate self slot rejected => do
    let result ← (self.invalidateAccessTokenIfLease slot rejected).run
    act (.finish (.invalidated slot rejected result))

/-- A step of a process. -/
abbrev Step (ι : Type) := Event ι Op Act.Answer

/-- The runs of any number of calls from a state root. -/
abbrev Runs {ι : Type} [DecidableEq ι] (root : StateRoot ι) :
    List (Step ι) → Threads ι (StateRoot ι) Act.Answer → Prop :=
  Pledge.Runs StateRoot.exec (fun op => op.routine.thread) root

end OvStorage.OAuth
