import OvStorage.Connections.Set

/-!
# What the operations of a connection set do, one step at a time

The atomic actions of `ConnectionSet`, in three groups that belong to the operation of an entry
(what it asks, what it tells, what it changes) and those on the registry, the locks and the store.
The answer of an action comes with it; `Action.exec` refuses a step whose answer the state does
not give.
-/

namespace OvStorage.Connections

open Address Interleave

/-- What the operation of an entry asks, of the set or of the driver. -/
inductive Question
  /-- A look at the entry's state. -/
  | state
  | isRegistered
  | inCooldown
  | bringupGen
  | refreshGen
  | sharedByOther (other : EntryRef)
  /-- The entry under the id. -/
  | entry
  | verify (credentials : SecretBundle)
  | onAuthenticated
deriving DecidableEq

abbrev Question.Answer : Question → Type
  | .state => ConnEntry × ConnectionAuthState
  | .isRegistered | .inCooldown | .sharedByOther _ => Bool
  | .bringupGen | .refreshGen => ℕ
  | .entry => Option EntryRef
  -- the error, if there is one
  | .verify _ | .onAuthenticated => Option ErrorCode

/-- What the operation of an entry shows of it, and tells its waiters. -/
inductive Notice
  | park (reason : AuthReason) (error : ErrorCode)
  | parkAwaiting (reason : AuthReason)
  | parkAndEmitIfLive (reason : AuthReason) (error : ErrorCode)
  | emitUpdatedIfLive
  | recordBringupOutcome (outcome : Option ErrorCode)
  | setCooldown
  | clearCooldown
  | bumpRefreshGen
  | announce
deriving DecidableEq

abbrev Notice.Answer : Notice → Type
  -- the time
  | .setCooldown => ℕ
  | _ => Unit

/-- What the operation of an entry changes. -/
inductive Change
  /-- `driver.obtain(base, AllowConsuming)`. -/
  | obtain (base : SecretBundle)
  /-- `driver.refresh(base)`. -/
  | refresh (base : SecretBundle)
  /-- The memory commit of a grant, fenced on both generations. -/
  | commitGrant (credentials : SecretBundle) (credGen identityGen : ℕ)
  | persist (bundle : SecretBundle)
  | setDebt (debt : Bool)
  /-- `delete_credentials`, of the other entry's driver. -/
  | delete (other : EntryRef)
  /-- `fields.remove("oauth")`, of the other entry. -/
  | forgetOauth (other : EntryRef)
  /-- `activate`, and `activate_replacing` for a fresh lineage. -/
  | activate (credentials : SecretBundle) (lineage : Lineage) (identityGen : ℕ)
  | commitAuthenticated (credentials : SecretBundle) (credGen identityGen : ℕ) (lineage : Lineage)
  /-- `set_state` to `Anonymous`. -/
  | setState (credentials : SecretBundle)
  | commitRefreshed (credentials : SecretBundle) (credGen identityGen : ℕ) (persisted : Bool)
  /-- The driver's interactive flow, up to its terminal event. -/
  | signIn
  /-- `commit_interactive_credentials`, for the identity that the flow has installed. -/
  | commitInteractive (credentials : SecretBundle) (installed : ℕ)
  /-- `set_authenticated_keep_creds`. -/
  | keepCreds (credGen identityGen : ℕ)
  /-- A failed operation takes the `cred_gen` that it will wait for to move. -/
  | captureGen
  /-- An add that fails removes what is registered under its id. -/
  | rollback
deriving DecidableEq

abbrev Change.Answer : Change → Type
  | .obtain _ => Except ErrorCode Obtained
  | .refresh _ => Except ErrorCode SecretBundle
  -- superseded
  | .commitGrant _ _ _ => Bool
  -- written, deleted, committed
  | .persist _ | .delete _ | .activate _ _ _ | .commitAuthenticated _ _ _ _ | .commitRefreshed _ _ _ _ |
    .commitInteractive _ _ | .keepCreds _ _ => Bool
  -- the bundle that is handed back, if any, and the identity that was installed
  | .signIn => Except ErrorCode (Option SecretBundle × ℕ)
  | .captureGen => ℕ
  | .setDebt _ | .forgetOauth _ | .setState _ | .rollback => Unit

/-- What `with_lock` does first. -/
inductive LockAnswer
  | Locked
  /-- A peer has refreshed within the freshness window. -/
  | Skipped
  | Failed (error : ErrorCode)

/-- What a thread does at one moment. -/
inductive Action
  | ask (e : EntryRef) (question : Question)
  | tell (e : EntryRef) (notice : Notice)
  | change (e : EntryRef) (change : Change)
  | entry (id : ConnectionId)
  /-- The refresh task of an entry wakes up. -/
  | wake (e : EntryRef)
  | lock (l : Lock)
  | unlock (l : Lock)
  | bringupLockFor (id : ConnectionId)
  | lockRefresh (stable : ConnectionId) (zeroWindow : Bool)
  | unlockRefresh (stable : ConnectionId)
  /-- `load_credentials`. -/
  | load (stableId : Option ConnectionId)
  | insert (connection : Connection) (stableId : Option ConnectionId) (credentials : SecretBundle)
  /-- The commit section of `remove_inner`. -/
  | unregister (id : ConnectionId) (purgeSecret : Bool)
  | announce (id : ConnectionId)
  | setAddresses (id : ConnectionId) (addresses : List Url)
  | updateAttributes (id : ConnectionId) (displayName : Option String) (userMetadata : List (String × Option String))
  /-- An operation on the data path starts, on the credentials of the connection. -/
  | startOp (id : ConnectionId)
  | endOp
  /-- The credentials of the connection expire. -/
  | expire (e : EntryRef)
deriving DecidableEq

abbrev Answer : Action → Type
  | .ask _ question => question.Answer
  | .tell _ notice => notice.Answer
  | .change _ change => change.Answer
  | .entry _ | .unregister _ _ => Option EntryRef
  | .bringupLockFor _ => ℕ
  | .lockRefresh _ _ => LockAnswer
  -- the error of the host, if there is one
  | .unlockRefresh _ => Option ErrorCode
  | .load _ => Except ErrorCode (Option SecretBundle)
  | .insert _ _ _ => EntryRef
  | .endOp => Option ErrorCode
  | .wake _ | .lock _ | .unlock _ | .announce _ | .setAddresses _ _ | .updateAttributes _ _ _ | .startOp _ |
    .expire _ => Unit

section Exec

variable {ι : Type}

/-- The state gives the answer. -/
def Question.answers (e : EntryRef) (s : ConnectionSet ι) : (question : Question) → question.Answer → Bool
  | .state, r => decide (r = (s.vault.heap e, (s.face.shown e).connection.authState))
  | .isRegistered, r => r == s.vault.isRegistered (s.vault.heap e).id
  -- the window may have passed
  | .inCooldown, r => !r || (s.face.cooldowns.get (s.vault.heap e).id).isSome
  | .bringupGen, r => r == match s.face.bringupGens.get (s.vault.heap e).id with
    | some (generation, _) => generation
    | none => 0
  | .refreshGen, r => r == (s.face.refreshGens.get (s.vault.heap e).id).getD 0
  | .sharedByOther other, r => r == s.vault.stableIdSharedByOther other
  | .entry, r => r == s.vault.entries.get (s.vault.heap e).id
  | .verify _, _ | .onAuthenticated, _ => true

/-- What a notice does. -/
def Notice.apply (C : Config) (v : Vault ι) (e : EntryRef) (f : Face) : (notice : Notice) → notice.Answer → Face
  | .park reason error, _ => f.park C e reason error
  | .parkAwaiting reason, _ => f.parkAwaiting e reason
  | .parkAndEmitIfLive reason error, _ => if v.isLive e then (f.park C e reason error).emitUpdated e else f
  | .emitUpdatedIfLive, _ => if v.isLive e then f.emitUpdated e else f
  | .recordBringupOutcome outcome, _ => f.recordBringupOutcome (v.heap e).id outcome
  | .setCooldown, now => { f with cooldowns := f.cooldowns.insert (v.heap e).id now }
  | .clearCooldown, _ => { f with cooldowns := f.cooldowns.erase (v.heap e).id }
  | .bumpRefreshGen, _ => f.bumpRefreshGen (v.heap e).id
  | .announce, _ => f.announce (v.entries.get (v.heap e).id)

/-- A grant is given `base`, and hands out a token. -/
def Tokens.grant (tokens : Tokens) (base : SecretBundle) : Tokens :=
  ⟨base.oauth.toList ++ tokens.consumed, tokens.next + 1⟩

variable [DecidableEq ι]

namespace ConnectionSet

variable (s : ConnectionSet ι) (t : ι) (e : EntryRef)

/-- A grant was given `base`. -/
def grant (base : SecretBundle) : ConnectionSet ι :=
  { s with past := { s.past with tokens := s.past.tokens.grant base } }

/-- The thread has a bundle to persist, or has none any more. -/
def owing (bundle : Option SecretBundle) : ConnectionSet ι :=
  { s with past := { s.past with owes := Function.update s.past.owes t bundle } }

/-- The store holds the bundle for the driver of the entry. -/
def stores (bundle : Option SecretBundle) : ConnectionSet ι :=
  { s with vault := s.vault.store (s.vault.heap e).stableId bundle }

/-- A swap of the credentials in memory, with the state they leave the connection in. -/
def swap (credentials : SecretBundle) (state : ConnectionAuthState) : ConnectionSet ι :=
  { s with
    vault := s.vault.modify e fun entry => { entry with credentials, credGen := entry.credGen + 1 }
    face := s.face.authenticated e state }

end ConnectionSet

/-- What a change does, if the state gives the answer. -/
def Change.exec (t : ι) (e : EntryRef) (s : ConnectionSet ι) :
    (change : Change) → change.Answer → Option (ConnectionSet ι)
  | .obtain base, .ok (.Bearer _) => some (s.grant base)
  | .obtain _, _ => some s
  | .refresh base, .ok _ => some
    { s.grant base with past := { (s.grant base).past with driven := s.past.started t :: s.past.driven } }
  | .refresh _, .error _ => some s
  | .commitGrant credentials credGen identityGen, superseded =>
    let entry := s.vault.heap e
    if superseded = decide (entry.credGen ≠ credGen ∨ entry.identityGen ≠ identityGen) then
      if superseded then some s
      else some ({ s with vault := s.vault.modify e fun entry => { entry with credentials } }.owing t
        (some credentials))
    else none
  | .persist bundle, true => some ((s.stores e (some bundle)).owing t none)
  | .persist _, false => some s
  | .setDebt debt, _ =>
    some ({ s with vault := s.vault.modify e fun entry => { entry with persistDebt := debt } }.owing t none)
  | .delete other, true => some (s.stores other none)
  | .delete _, false => some s
  | .forgetOauth other, _ => some
    { s with vault := s.vault.modify other fun entry =>
      { entry with credentials := { entry.credentials with oauth := none } } }
  | .activate _ lineage identityGen, true =>
    if (s.vault.heap e).identityGen ≠ identityGen then none
    else if lineage = .Fresh then
      some { s with vault := s.vault.modify e fun entry => { entry with identityGen := entry.identityGen + 1 } }
    else some s
  -- superseded, or an error of the driver
  | .activate _ _ _, false => some s
  | .commitAuthenticated credentials credGen identityGen lineage, committed =>
    let entry := s.vault.heap e
    if committed = decide (entry.credGen = credGen ∧ (lineage = .Stored → entry.identityGen = identityGen)) then
      if committed then some (s.swap e credentials .Authenticated) else some s
    else none
  | .setState credentials, _ => some (s.swap e credentials .Anonymous)
  | .commitRefreshed credentials credGen identityGen persisted, committed =>
    let entry := s.vault.heap e
    if committed = decide (entry.credGen = credGen ∧ entry.identityGen = identityGen) then
      if !committed then some s
      else if persisted then some (s.swap e credentials .Authenticated)
      else some ((s.swap e credentials .Authenticated).owing t (some credentials))
    else none
  -- a flow that hands back no bundle may have installed nothing
  | .signIn, .ok (bundle, installed) =>
    if installed = (s.vault.heap e).identityGen + 1 ∨ bundle = none ∧ installed = (s.vault.heap e).identityGen then
      some { s with vault := s.vault.modify e fun entry => { entry with identityGen := installed } }
    else none
  | .signIn, .error _ => some s
  | .commitInteractive credentials installed, committed =>
    if committed = decide ((s.vault.heap e).identityGen = installed) then
      if committed then some ((s.swap e credentials .Authenticated).owing t (some credentials)) else some s
    else none
  | .keepCreds credGen identityGen, committed =>
    let entry := s.vault.heap e
    if committed = decide (entry.credGen = credGen ∧ entry.identityGen = identityGen) then
      if committed then some { s with face := s.face.authenticated e .Authenticated } else some s
    else none
  | .captureGen, generation =>
    if generation = (s.vault.heap e).credGen then
      some { s with past := { s.past
        with failed := Function.update s.past.failed t (s.past.started t :: s.past.failed t) } }
    else none
  | .rollback, _ => some { s with vault := { s.vault with entries := s.vault.entries.erase (s.vault.heap e).id } }

namespace ConnectionSet

variable (s : ConnectionSet ι) (t : ι)

/-- The lock has the holder, or none. -/
def hold (l : Lock) (holder : Option ι) : ConnectionSet ι :=
  { s with vault := { s.vault with held := Function.update s.vault.held l holder } }

/-- An add registers its entry, deferred. -/
def register (connection : Connection) (stableId : Option ConnectionId) (credentials : SecretBundle) :
    ConnectionSet ι where
  vault := { s.vault with
    entries := s.vault.entries.insert connection.id s.vault.nextEntry
    heap := Function.update s.vault.heap s.vault.nextEntry ⟨connection.id, stableId, credentials, 0, false, false, 0⟩
    nextEntry := s.vault.nextEntry + 1 }
  face := { s.face with shown := Function.update s.face.shown s.vault.nextEntry ⟨connection, 0, false⟩ }
  past := { s.past with validating := Function.update s.past.validating t credentials.oauth.isSome }

/-- The commit section of `remove_inner`, for the entry under the id. -/
def unregister (id : ConnectionId) (purgeSecret : Bool) (e : EntryRef) : ConnectionSet ι :=
  { s with
    vault := { s.vault.modify e (fun entry => { entry with purgeOnRemoval := purgeSecret }) with
      entries := s.vault.entries.erase id
      bringupLocks := s.vault.bringupLocks.erase id }
    face := s.face.retire id e }

end ConnectionSet

/-- What an action does, if the state gives the answer. -/
def Action.exec (C : Config) (t : ι) : (a : Action) → Answer a → ConnectionSet ι → Option (ConnectionSet ι)
  | .ask e question, r, s => if question.answers e s r then some s else none
  | .tell e notice, r, s => some { s with face := notice.apply C s.vault e s.face r }
  | .change e made, r, s => made.exec t e s r
  | .entry id, e, s => if e = s.vault.entries.get id then some s else none
  | .wake e, _, s => if e < s.vault.nextEntry then some s else none
  | .lock (.bringup made), _, s =>
    if s.vault.held (.bringup made) = none then
      some { s.hold (.bringup made) (some t) with
        past := { s.past with validating := Function.update s.past.validating t false } }
    else none
  | .lock l, _, s => if s.vault.held l = none then some (s.hold l (some t)) else none
  | .unlock l, _, s => if s.vault.held l = some t then some (s.hold l none) else none
  | .bringupLockFor id, made, s =>
    match s.vault.bringupLocks.get id with
    | some known => if made = known then some s else none
    | none =>
      if made = s.vault.nextLock then
        some { s with vault := { s.vault with
          bringupLocks := s.vault.bringupLocks.insert id made
          nextLock := s.vault.nextLock + 1 } }
      else none
  | .lockRefresh stable _, .Locked, s =>
    if s.vault.held (.authRefresh stable) = none then some (s.hold (.authRefresh stable) (some t)) else none
  | .lockRefresh _ zeroWindow, .Skipped, s => if zeroWindow then none else some s
  | .lockRefresh _ _, .Failed _, s => some s
  | .unlockRefresh stable, _, s =>
    if s.vault.held (.authRefresh stable) = some t then some (s.hold (.authRefresh stable) none) else none
  | .load stableId, .ok bundle, s => if bundle = s.vault.stored stableId then some s else none
  | .load _, .error _, s => some s
  | .insert connection stableId credentials, e, s =>
    if e = s.vault.nextEntry then some (s.register t connection stableId credentials) else none
  | .unregister id purgeSecret, e, s =>
    if e = s.vault.entries.get id then
      match e with
      | none => some s
      | some e => some (s.unregister id purgeSecret e)
    else none
  | .announce id, _, s => some { s with face := s.face.announce (s.vault.entries.get id) }
  | .setAddresses id addresses, _, s => some { s with face := s.face.setAddresses (s.vault.entries.get id) addresses }
  | .updateAttributes id displayName metadata, _, s =>
    some { s with face := s.face.updateAttributes (s.vault.entries.get id) displayName metadata }
  | .startOp id, _, s =>
    let generation := match s.vault.entries.get id with
      | some e => (s.vault.heap e).credGen
      | none => 0
    some { s with past := { s.past with started := Function.update s.past.started t generation } }
  | .endOp, _, s => some s
  | .expire e, _, s => some { s with past := { s.past with expired := (s.vault.heap e).credGen :: s.past.expired } }

attribute [local simp] Change.exec Action.exec
attribute [elab_as_elim] Change.exec.fun_cases_unfolding Action.exec.fun_cases_unfolding

end Exec

end OvStorage.Connections
