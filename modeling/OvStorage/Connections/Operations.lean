import OvStorage.Connections.Steps

/-!
# The operations of a connection set

The functions of `ConnectionSet` as programs over `OvStorage.Connections.Steps`. Each takes what
its caller goes on with; what an operation answers to its own caller is left out, and so is the
id of an entry where the source reads it again.
-/

namespace OvStorage.Connections

open Address Interleave

/-- What is left of an operation. -/
abbrev Program := Prog Answer

def ask (e : EntryRef) (question : Question) (k : question.Answer → Program) : Program := .act (.ask e question) k

def tell (e : EntryRef) (notice : Notice) (k : Program) : Program := .act (.tell e notice) fun _ => k

def change (e : EntryRef) (made : Change) (k : made.Answer → Program) : Program := .act (.change e made) k

/-! ### The secret store -/

/-- The attempts of `persist_with_debt_policy`. -/
def persistAttempts (e : EntryRef) (bundle : SecretBundle) (k : Program) : ℕ → Program
  | 0 => change e (.setDebt true) fun _ => k
  | n + 1 => change e (.persist bundle) fun written =>
      if written then change e (.setDebt false) fun _ => k else persistAttempts e bundle k n

/-- `persist_with_debt_policy`, with its `MAX_ATTEMPTS`. -/
def persistWithDebtPolicy (e : EntryRef) (bundle : SecretBundle) (k : Program) : Program := persistAttempts e bundle k 3

/-- The conditions that `purge_durable_credential` is given. -/
inductive Orphan
  | always
  | unregistered
  /-- Unregistered, by a removal that purges. -/
  | purged

/-- `still_orphaned`. -/
def stillOrphaned (e : EntryRef) (orphan : Orphan) (k : Bool → Program) : Program :=
  match orphan with
  | .always => k true
  | .unregistered => ask e .isRegistered fun registered => k !registered
  | .purged => ask e .isRegistered fun registered =>
      if registered then k false else ask e .state fun state => k state.1.purgeOnRemoval

/-- The purge lock, where the driver has a stable id. -/
def lockPurge (stableId : Option ConnectionId) (k : Program) : Program :=
  match stableId with
  | none => k
  | some stable => .act (.lock (.purge stable)) fun _ => k

def unlockPurge (stableId : Option ConnectionId) (k : Program) : Program :=
  match stableId with
  | none => k
  | some stable => .act (.unlock (.purge stable)) fun _ => k

/-- `purge_durable_credential`, of the entry `other`: a `Purge` goes on with its outcome. -/
def purgeDurableCredential (e other : EntryRef) (stableId : Option ConnectionId) (orphan : Orphan)
    (k : Bool → Program) :
    Program :=
  let done := fun purged => unlockPurge stableId (k purged)
  lockPurge stableId <| ask e (.sharedByOther other) fun shared =>
    if shared then done true
    else stillOrphaned e orphan fun orphaned => if orphaned then change e (.delete other) done else done true

/-- `purge_persisted_credentials`, of the entry under the id. -/
def purgePersistedCredentials (e : EntryRef) (k : Program) : Program :=
  ask e .entry fun
    | none => k
    | some other => ask other .state fun state =>
        purgeDurableCredential e other state.1.stableId .always fun deleted =>
          if deleted then change e (.forgetOauth other) fun _ => k else k

/-! ### Grants -/

/-- What an operation runs its grant on: an entry, its stable id, and the generations it expects. -/
structure Grant where
  e : EntryRef
  stableId : Option ConnectionId
  credGen : ℕ
  identityGen : ℕ

/-- `load_credentials`, or what the caller has where nothing is stored. -/
def reload (stableId : Option ConnectionId) (credentials : SecretBundle) (k : Except ErrorCode SecretBundle → Program) :
    Program :=
  .act (.load stableId) fun
    | .ok (some head) => k (.ok head)
    | .ok none => k (.ok credentials)
    | .error error => k (.error error)

/-- A rejection that purges what is stored. -/
def ErrorCode.rejects : ErrorCode → Bool
  | .AuthRequired | .AuthExpired | .PermissionDenied => true
  | _ => false

namespace Grant

variable (G : Grant)

/-- The commit of a grant to memory and its persist, which `obtain_and_persist` and the closure of
`locked_refresh` have alike: whether there was a persist. -/
def commitAndPersist (credentials : SecretBundle) (k : Bool → Program) : Program :=
  change G.e (.commitGrant credentials G.credGen G.identityGen) fun superseded =>
    if superseded then k false
    else ask G.e .isRegistered fun registered =>
      if registered then
        persistWithDebtPolicy G.e credentials <| purgeDurableCredential G.e G.e G.stableId .unregistered fun _ => k true
      else k false

/-- `obtain_and_persist`, once its bundle is chosen. -/
def obtain (lineage : Lineage) (base : SecretBundle) (k : Except ErrorCode Obtained → Program) : Program :=
  change G.e (.obtain base) fun
    | .error error =>
      if lineage = .Stored ∧ error.rejects then
        .act (.lock (.credentialMutation G.e)) fun _ => ask G.e .state fun state =>
          if state.1.credGen = G.credGen ∧ state.1.identityGen = G.identityGen then
            purgePersistedCredentials G.e <| .act (.unlock (.credentialMutation G.e)) fun _ => k (.error error)
          else .act (.unlock (.credentialMutation G.e)) fun _ => k (.error error)
      else k (.error error)
    | .ok (.Bearer credentials) => G.commitAndPersist credentials fun _ => k (.ok (.Bearer credentials))
    | .ok outcome => k (.ok outcome)

def obtainAndPersist (credentials : SecretBundle) (lineage : Lineage) (k : Except ErrorCode Obtained → Program) :
    Program :=
  match lineage with
  | .Fresh => G.obtain lineage credentials k
  | .Stored => ask G.e .state fun state =>
      if state.1.persistDebt then G.obtain lineage credentials k
      else reload G.stableId credentials fun
        | .ok base => G.obtain lineage base k
        | .error error => k (.error error)

/-- The body of `obtain_under_lock`. -/
def obtainLocked (C : Config) (credentials : SecretBundle) (lineage : Lineage)
    (k : Except ErrorCode Obtained → Program) :
    Program :=
  match C.locked, G.stableId with
  | true, some stable => .act (.lockRefresh stable true) fun
      | .Failed error => k (.error error)
      | .Skipped => G.obtainAndPersist credentials lineage k
      | .Locked => G.obtainAndPersist credentials lineage fun outcome => .act (.unlockRefresh stable) fun
          | some error => k (.error error)
          | none => k outcome
  | _, _ => G.obtainAndPersist credentials lineage k

/-- The bundle that a refresh is given: the one in memory while the entry is persist-debted, else
the stored head. -/
def refreshBase (credentials : SecretBundle) (k : Except ErrorCode SecretBundle → Program) : Program :=
  ask G.e .state fun state =>
    if state.1.persistDebt then k (.ok state.1.credentials) else reload G.stableId credentials k

def refreshFromHead (credentials : SecretBundle) (k : Except ErrorCode (SecretBundle × Bool) → Program) : Program :=
  G.refreshBase credentials fun
    | .error error => k (.error error)
    | .ok base => change G.e (.refresh base) fun
      | .error error => k (.error error)
      | .ok refreshed => k (.ok (refreshed, false))

/-- The closure of `locked_refresh`. -/
def refreshAndPersist (credentials : SecretBundle) (k : Except ErrorCode (SecretBundle × Bool) → Program) : Program :=
  G.refreshBase credentials fun
    | .error error => k (.error error)
    | .ok base => change G.e (.refresh base) fun
      | .error error => k (.error error)
      | .ok refreshed => G.commitAndPersist refreshed fun persisted => k (.ok (refreshed, persisted))

/-- `locked_refresh`, which answers nothing where the lock skips it. -/
def lockedRefresh (stable : ConnectionId) (zeroWindow : Bool) (credentials : SecretBundle)
    (k : Option (Except ErrorCode (SecretBundle × Bool)) → Program) : Program :=
  .act (.lockRefresh stable zeroWindow) fun
    | .Failed error => k (some (.error error))
    | .Skipped => k none
    | .Locked => G.refreshAndPersist credentials fun outcome => .act (.unlockRefresh stable) fun
        | some error => k (some (.error error))
        | none => k (some outcome)

def coalescedRefresh (C : Config) (credentials : SecretBundle) (k : Except ErrorCode (SecretBundle × Bool) → Program) :
    Program :=
  match C.locked, G.stableId with
  | true, some stable => G.lockedRefresh stable false credentials fun
      | some outcome => k outcome
      | none => G.lockedRefresh stable true credentials fun
        | some outcome => k outcome
        | none => G.refreshFromHead credentials k
  | _, _ => G.refreshFromHead credentials k

end Grant

/-! ### What becomes of a grant -/

/-- `run_on_authenticated`: whether the hook succeeded. -/
def runOnAuthenticated (e : EntryRef) (k : Bool → Program) : Program :=
  ask e .onAuthenticated fun
    | none => k true
    | some error => tell e (.parkAndEmitIfLive .BackendUnreachable error) (k false)

namespace Grant

variable (G : Grant)

def commitAuthenticated (effective : SecretBundle) (lineage : Lineage) (k : Program) : Program :=
  ask G.e .isRegistered fun registered =>
    if !registered then k
    else ask G.e .state fun state =>
      if state.1.credGen ≠ G.credGen then k
      else change G.e (.activate effective lineage G.identityGen) fun activated =>
        if !activated then k
        else change G.e (.commitAuthenticated effective G.credGen G.identityGen lineage) fun committed =>
          if committed then runOnAuthenticated G.e fun _ => k else k

/-- `apply_grant`, which goes on with the error of the backend. -/
def applyGrant (credentials : SecretBundle) (outcome : Obtained) (lineage : Lineage) (k : Option ErrorCode → Program) :
    Program :=
  match outcome with
  | .Bearer effective => ask G.e (.verify effective) fun
      | some error => k (some error)
      | none => G.commitAuthenticated effective lineage (k none)
  | .Anonymous => change G.e (.setState credentials) fun _ => k none
  | .AwaitingInteractive reason => tell G.e (.parkAwaiting reason) (k none)
  | .WouldConsume => tell G.e (.parkAwaiting .NeverAuthenticated) (k none)

def recordRefreshed (refreshed : SecretBundle) (persisted : Bool) (k : Program) : Program :=
  ask G.e .isRegistered fun registered =>
    if !registered then k
    else change G.e (.commitRefreshed refreshed G.credGen G.identityGen persisted) fun committed =>
      if !committed then k
      else
        let established :=
          runOnAuthenticated G.e fun succeeded => if succeeded then tell G.e .emitUpdatedIfLive k else k
        if persisted then established
        else persistWithDebtPolicy G.e refreshed <| ask G.e .isRegistered fun registered =>
          if registered then established
          else purgeDurableCredential G.e G.e G.stableId .unregistered fun _ => k

end Grant

/-- `obtain_under_lock`, and then `apply_grant`. -/
def obtainAndApply (C : Config) (e : EntryRef) (credentials : SecretBundle) (lineage : Lineage)
    (k : Option ErrorCode → Program) : Program :=
  ask e .state fun first => ask e .state fun second =>
    let G : Grant := ⟨e, first.1.stableId, first.1.credGen, second.1.identityGen⟩
    G.obtainLocked C credentials lineage fun
      | .error error => k (some error)
      | .ok outcome => G.applyGrant credentials outcome lineage k

/-! ### Adding and removing -/

/-- `classify_reason`. -/
def classifyReason (C : Config) (error : ErrorCode) : Bool :=
  match C.classify error with
  | .RecoverableCredential | .Revoked | .NeedsInteractive | .PermissionDenied => true
  | .NotAuth => false

/-- An error of the contract, for which an add registers nothing. -/
def ErrorCode.contract : ErrorCode → Bool
  | .Cancelled | .InvalidArgument | .Internal => true
  | _ => false

/-- `run_validation`. -/
def runValidation (C : Config) (e : EntryRef) (credentials : SecretBundle) (lineage : Lineage) (parkReason : AuthReason)
    (k : Option ErrorCode → Program) : Program :=
  obtainAndApply C e credentials lineage fun
    | none => k none
    | some error =>
      if error.contract then k (some error)
      else
        let reason := if classifyReason C error then parkReason else .BackendUnreachable
        tell e (.park reason error) <| tell e .setCooldown (k none)

/-- The single-flight lock of the connection, around `body`. -/
def singleFlight (id : ConnectionId) (body : Lock → Program) : Program :=
  .act (.bringupLockFor id) fun made => .act (.lock (.bringup made)) fun _ => body (.bringup made)

def unlock (l : Lock) (k : Program) : Program := .act (.unlock l) fun _ => k

/-- `add_connection_deferred`. -/
def addConnectionDeferred (C : Config) (connection : Connection) (stableId : Option ConnectionId)
    (initial : SecretBundle) (k : EntryRef → Program) : Program :=
  let register := fun (credentials : SecretBundle) (lineage : Lineage) =>
    (.act (.insert connection stableId credentials) fun e =>
      unlockPurge stableId <| singleFlight connection.id fun l =>
        runValidation C e credentials lineage .NeverAuthenticated fun
          | none => unlock l (k e)
          | some _ => change e .rollback fun _ => unlock l .ret : Program)
  lockPurge stableId <|
    if initial.isEmpty then .act (.load stableId) fun
      | .ok (some loaded) => register loaded .Stored
      | _ => register initial .Fresh
    else register initial .Fresh

/-- `add_connection`. -/
def addConnection (C : Config) (connection : Connection) (stableId : Option ConnectionId) (initial : SecretBundle) :
    Program :=
  addConnectionDeferred C connection stableId initial fun e => tell e .announce .ret

/-- `remove_inner`. -/
def removeInner (id : ConnectionId) (purgeSecret : Bool) : Program :=
  .act (.unregister id purgeSecret) fun
    | none => .ret
    | some e =>
      if purgeSecret then
        ask e .state fun state => purgeDurableCredential e e state.1.stableId .always fun _ => .ret
      else .ret

/-! ### Using a connection -/

/-- `entry`. -/
def withEntry (id : ConnectionId) (k : EntryRef → Program) : Program :=
  .act (.entry id) fun
    | none => .ret
    | some e => k e

/-- `update_credentials`. -/
def updateCredentials (C : Config) (id : ConnectionId) (credentials : SecretBundle) : Program :=
  withEntry id fun e => singleFlight id fun l =>
    obtainAndApply C e credentials .Fresh fun
      | none => tell e .emitUpdatedIfLive <| unlock l .ret
      | some error =>
        if error = .Cancelled then unlock l .ret
        else tell e (.park .CredentialsRotated error) <| tell e .emitUpdatedIfLive <| unlock l .ret

/-- What `bring_up` makes of its grant. -/
def bringUpTail (C : Config) (e : EntryRef) (l : Lock) : Option ErrorCode → Program
  | none => ask e .state fun state =>
      if state.2.ready then
        tell e (.recordBringupOutcome none) <| tell e .clearCooldown <| tell e .emitUpdatedIfLive <| unlock l .ret
      else
        tell e (.recordBringupOutcome (some .AuthRequired)) <| tell e .setCooldown <|
          tell e .emitUpdatedIfLive <| unlock l .ret
  | some error =>
    if error = .Cancelled then unlock l .ret
    else
      let reason := if classifyReason C error then .NeverAuthenticated else .BackendUnreachable
      tell e (.recordBringupOutcome (some error)) <| tell e (.park reason error) <| tell e .setCooldown <|
        tell e .emitUpdatedIfLive <| unlock l .ret

/-- What `bring_up` does under the single-flight lock. -/
def bringUpLocked (C : Config) (e : EntryRef) (l : Lock) (genBefore : ℕ) : Program :=
  ask e .state fun again =>
    if again.2.ready then unlock l .ret
    else ask e .bringupGen fun generation =>
      if generation ≠ genBefore then unlock l .ret
      else ask e .state fun state =>
        if state.1.persistDebt then obtainAndApply C e state.1.credentials .Stored (bringUpTail C e l)
        else .act (.load state.1.stableId) fun
          | .ok (some head) => obtainAndApply C e head .Stored (bringUpTail C e l)
          | .ok none => ask e .state fun state => obtainAndApply C e state.1.credentials .Stored (bringUpTail C e l)
          | .error _ => unlock l .ret

/-- `bring_up`. -/
def bringUp (C : Config) (id : ConnectionId) (force : Bool) : Program :=
  withEntry id fun e => ask e .state fun state =>
    if state.2.ready then .ret
    else
      let queue := ask e .bringupGen fun genBefore => singleFlight id fun l => bringUpLocked C e l genBefore
      if force then queue else ask e .inCooldown fun cooling => if cooling then .ret else queue

/-- `park_refresh_failure`. -/
def parkRefreshFailure (C : Config) (e : EntryRef) (error : ErrorCode) (k : Program) : Program :=
  let reason := match C.classify error with
    | .Revoked => .RefreshTokenRevoked
    | .RecoverableCredential | .NeedsInteractive => .RefreshTokenExpired
    | _ => .BackendUnreachable
  tell e (.park reason error) <| tell e .emitUpdatedIfLive k

/-- A failure of the refresh of `recover` that shows a dead token. -/
def AuthErrorClass.dead : AuthErrorClass → Bool
  | .RecoverableCredential | .Revoked | .NeedsInteractive => true
  | _ => false

/-- The operation of a `recover`, once more. -/
def retry (id : ConnectionId) : Program := .act (.startOp id) fun _ => .act .endOp fun _ => .ret

/-- What `recover` does under the single-flight lock, and after it. -/
def recoverLocked (C : Config) (id : ConnectionId) (e : EntryRef) (l : Lock) (genBefore refreshGenBefore : ℕ) :
    Program :=
  ask e .state fun now =>
    if now.1.credGen ≠ genBefore then unlock l (retry id)
    else ask e .refreshGen fun refreshGen =>
      if refreshGen ≠ refreshGenBefore then unlock l .ret
      else ask e .state fun first => ask e .state fun second =>
        let G : Grant := ⟨e, first.1.stableId, genBefore, second.1.identityGen⟩
        G.coalescedRefresh C first.1.credentials fun outcome => tell e .bumpRefreshGen <| match outcome with
          | .ok (refreshed, persisted) => G.recordRefreshed refreshed persisted <| unlock l (retry id)
          | .error error =>
            if (C.classify error).dead then parkRefreshFailure C e error <| unlock l .ret else unlock l .ret

/-- `recover`. -/
def recover (C : Config) (id : ConnectionId) : Program :=
  .act (.startOp id) fun _ => .act .endOp fun
    | none => .ret
    | some error => withEntry id fun e =>
        if C.classify error ≠ .RecoverableCredential then .ret
        else change e .captureGen fun genBefore => ask e .refreshGen fun refreshGenBefore =>
          singleFlight id fun l => recoverLocked C id e l genBefore refreshGenBefore

/-- What the refresh task of an entry does each time it wakes up. -/
def backgroundRefresh (C : Config) (e : EntryRef) : Program :=
  .act (.wake e) fun _ => ask e .state fun before =>
    if before.2 ≠ .Authenticated then .ret
    else singleFlight before.1.id fun l => ask e .state fun now =>
      if now.1.credGen ≠ before.1.credGen then unlock l .ret
      else ask e .state fun second =>
        let G : Grant := ⟨e, now.1.stableId, now.1.credGen, second.1.identityGen⟩
        G.coalescedRefresh C now.1.credentials fun outcome => tell e .bumpRefreshGen <| match outcome with
          | .ok (refreshed, persisted) => G.recordRefreshed refreshed persisted <| unlock l .ret
          | .error error => unlock l <|
            if C.classify error = .NotAuth then .ret else parkRefreshFailure C e error .ret

/-! ### Signing in -/

/-- What `complete_interactive_transition` does after its commit. -/
def interactiveEstablished (e : EntryRef) (k : Program) : Program :=
  runOnAuthenticated e fun succeeded =>
    if !succeeded then k
    else ask e .isRegistered fun registered => if registered then tell e .emitUpdatedIfLive k else k

/-- `complete_interactive_transition`. -/
def completeInteractiveTransition (G : Grant) (credentials : Option SecretBundle) (installed : ℕ) : Program :=
  let done := unlock (.credentialMutation G.e) .ret
  .act (.lock (.credentialMutation G.e)) fun _ => ask G.e .isRegistered fun registered =>
    if !registered then done
    else match credentials with
      | none => change G.e (.keepCreds G.credGen G.identityGen) fun committed =>
          if !committed then done else tell G.e .clearCooldown <| interactiveEstablished G.e done
      -- `commit_interactive_credentials` asks once more
      | some bundle => ask G.e .isRegistered fun registered =>
          if !registered then done
          else change G.e (.commitInteractive bundle installed) fun committed =>
            if !committed then done
            else tell G.e .clearCooldown <| persistWithDebtPolicy G.e bundle <| ask G.e .isRegistered fun registered =>
              if registered then interactiveEstablished G.e done
              else purgeDurableCredential G.e G.e G.stableId .purged fun _ => done

/-- `authenticate`, and the stream of its events up to the terminal one, if it gets there. -/
def authenticate (id : ConnectionId) : Program :=
  withEntry id fun e => ask e .state fun first => ask e .state fun second =>
    .alt .ret <| change e .signIn fun
      | .error error => tell e (.parkAndEmitIfLive .ManuallyRequested error) .ret
      | .ok (credentials, installed) =>
        completeInteractiveTransition ⟨e, first.1.stableId, first.1.credGen, second.1.identityGen⟩ credentials installed

/-! ### The rest of the interface -/

def announceConnection (id : ConnectionId) : Program := .act (.announce id) fun _ => .ret

def setAddresses (id : ConnectionId) (addresses : List Url) : Program := .act (.setAddresses id addresses) fun _ => .ret

def updateAttributes (id : ConnectionId) (displayName : Option String) (userMetadata : List (String × Option String)) :
    Program :=
  .act (.updateAttributes id displayName userMetadata) fun _ => .ret

/-- The credentials of an entry expire, which no operation does. -/
def expire (e : EntryRef) : Program := .act (.expire e) fun _ => .ret

end OvStorage.Connections
