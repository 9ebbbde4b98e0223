import OvStorage.Address.Percent
import OvStorage.Layer.Errors
import OvStorage.Lib.Pledge
import OvStorage.Lib.Word64

/-!
# Claims on stored credentials

`PersistenceClaim` of `ovstorage-plugin/src/oauth_binding.rs`, and the calls of `oauth_secret_store.rs`
that take a claim: they read, write and delete a refresh token and the identity that it is bound to.

## The model

A `Process` is the claim registry with the claims of its connections, and the secret store of the host.
A connection claims once: what it has dropped it does not claim again. A call is a `Routine` over single
steps: an exclusivity check under the registry's lock, or one request to the secret store, which may
fail and has then done nothing.

A connection has one slot: the key that it claims, and the backend kind that its calls name. Base64 is a
parameter.
-/

namespace OvStorage.Persistence

open Address (Bytes utf8)
open Interleave Layer

/-! ### Identity bindings -/

/-- `STANDARD_NO_PAD`. -/
structure Base64 where
  encode : Bytes → String
  decode : String → Option Bytes

/-- `IdentityBinding`. -/
structure IdentityBinding where
  issuer : String
  clientId : String
  subject : String
deriving DecidableEq

/-- The version tag. -/
def bindingTag : String := "ovstorage-oauth-binding-v1"

namespace IdentityBinding

/-- `is_specific`. -/
def isSpecific (self : IdentityBinding) : Bool :=
  !self.issuer.isEmpty || !self.clientId.isEmpty || !self.subject.isEmpty

/-- `encode`. -/
def encode (base64 : Base64) (self : IdentityBinding) : Bytes :=
  utf8 ([self.issuer, self.clientId, self.subject].foldl
    (fun out value => out ++ "\n" ++ base64.encode (utf8 value)) bindingTag)

/-- A field of `decode`. -/
def decodeField (base64 : Base64) (raw : String) : Option String :=
  (base64.decode raw).bind fun bytes => String.fromUTF8? ⟨bytes.toArray⟩

/-- `decode`. -/
def decode (base64 : Base64) (bytes : Bytes) : Option IdentityBinding := do
  let text ← String.fromUTF8? ⟨bytes.toArray⟩
  match text.splitOn "\n" with
  | tag :: issuer :: clientId :: subject :: _ =>
    if tag ≠ bindingTag then none
    else return ⟨← decodeField base64 issuer, ← decodeField base64 clientId, ← decodeField base64 subject⟩
  | _ => none

end IdentityBinding

/-- `BoundRefreshToken`. -/
structure BoundRefreshToken where
  refreshToken : String
  binding : IdentityBinding
deriving DecidableEq

/-! ### The process -/

/-- `KeyClaims`. -/
structure KeyClaims where
  live : ℕ
  contentions : ℕ
deriving DecidableEq

/-- `PersistenceClaim`. -/
structure PersistenceClaim where
  key : String
  namespaced : String
  adopted : Bool
  contentionsAtAcquire : ℕ
deriving DecidableEq

/-- The claim of a connection. -/
inductive Ownership
  | unclaimed
  | held (claim : PersistenceClaim)
  | dropped
deriving DecidableEq

/-- What the fields of the secret store are kept under. -/
structure Slot where
  backendKind : String
  key : String
deriving DecidableEq

/-- The key of the registry. -/
def Slot.namespaced (slot : Slot) : String := slot.backendKind ++ "\n" ++ slot.key

/-- The registry and the claims on it, and the secrets. -/
structure Process (ι : Type) where
  claims : String → Option KeyClaims
  owned : ι → Ownership
  secrets : Slot → String → Option Bytes

/-- `acquire`, on the entry of the registry. -/
def KeyClaims.acquire (entry : KeyClaims) : KeyClaims :=
  let live := Word64.saturatingAdd entry.live 1
  ⟨live, if live > 1 then Word64.saturatingAdd entry.contentions 1 else entry.contentions⟩

/-- `drop`, on the entry of the registry. -/
def KeyClaims.drop (entry : KeyClaims) : Option KeyClaims :=
  if entry.live - 1 = 0 then none else some { entry with live := entry.live - 1 }

/-- `is_exclusive`. -/
def PersistenceClaim.isExclusive (registry : String → Option KeyClaims) (self : PersistenceClaim) : Bool :=
  match registry self.namespaced with
  | none => true
  | some entry => decide (entry.live ≤ 1 ∧ entry.contentions = self.contentionsAtAcquire)

/-- `record_adoption`. -/
def PersistenceClaim.recordAdoption (self : PersistenceClaim) : PersistenceClaim := { self with adopted := true }

/-! ### The steps -/

/-- What a call gives back. -/
inductive Outcome
  | read (result : Except Error (Option BoundRefreshToken))
  | written (result : Except Error Unit)
  | deleted (result : Except Error Unit)
deriving DecidableEq

/-- What a connection does in one step. -/
inductive Act
  | acquire
  | drop
  | isExclusive
  | recordAdoption
  | secretGet (field : String)
  | secretPut (field : String) (value : Bytes)
  | secretDelete (field : String)
  | finish (outcome : Outcome)
deriving DecidableEq

/-- What comes back. -/
abbrev Act.Answer : Act → Type
  | isExclusive => Bool
  | secretGet _ => Except Error (Option Bytes)
  | secretPut _ _ => Except Error Unit
  | secretDelete _ => Except Error Unit
  | acquire => Unit
  | drop => Unit
  | recordAdoption => Unit
  | finish _ => Unit

variable {ι : Type} [DecidableEq ι] (slot : ι → Slot) (base64 : Base64)

namespace Process

/-- A field of the secret store, as it is from now on. -/
def store (s : Process ι) (slot : Slot) (field : String) (value : Option Bytes) : Process ι :=
  { s with secrets := Function.update s.secrets slot (Function.update (s.secrets slot) field value) }

/-- What a step does that goes on from a live claim. -/
def exec (t : ι) : (a : Act) → a.Answer → Process ι → Option (Process ι)
  | .acquire, (), s =>
    match s.owned t with
    | .unclaimed =>
      let entry := (s.claims (slot t).namespaced).getD ⟨0, 0⟩
      some { s with
        claims := Function.update s.claims (slot t).namespaced (some entry.acquire)
        owned := Function.update s.owned t (.held ⟨(slot t).key, (slot t).namespaced, false, entry.contentions⟩) }
    | _ => none
  | .drop, (), s =>
    match s.owned t with
    | .held claim =>
      some { s with
        claims := Function.update s.claims claim.namespaced ((s.claims claim.namespaced).bind KeyClaims.drop)
        owned := Function.update s.owned t .dropped }
    | _ => none
  | .isExclusive, answer, s =>
    match s.owned t with
    | .held claim => if answer = claim.isExclusive s.claims then some s else none
    | _ => none
  | .recordAdoption, (), s =>
    match s.owned t with
    | .held claim => some { s with owned := Function.update s.owned t (.held claim.recordAdoption) }
    | _ => none
  | .secretGet field, .ok found, s =>
    match s.owned t with
    | .held claim => if found = s.secrets ⟨(slot t).backendKind, claim.key⟩ field then some s else none
    | _ => none
  | .secretPut field value, .ok (), s =>
    match s.owned t with
    | .held claim => some (s.store ⟨(slot t).backendKind, claim.key⟩ field (some value))
    | _ => none
  | .secretDelete field, .ok (), s =>
    match s.owned t with
    | .held claim => some (s.store ⟨(slot t).backendKind, claim.key⟩ field none)
    | _ => none
  | .secretGet _, .error _, s | .secretPut _ _, .error _, s | .secretDelete _, .error _, s | .finish _, (), s => some s

end Process

/-! ### The calls -/

/-- One step. -/
def act (a : Act) : Routine Act.Answer a.Answer := Routine.perform a

/-- A call that may fail. -/
abbrev Call := ExceptT Error (Routine Act.Answer)

def refreshTokenField : String := "refresh_token"

def identityBindingField : String := "identity_binding"

def secretGet (field : String) : Call (Option Bytes) := ExceptT.mk (act (.secretGet field))

def secretPut (field : String) (value : Bytes) : Call Unit := ExceptT.mk (act (.secretPut field value))

def secretDelete (field : String) : Call Unit := ExceptT.mk (act (.secretDelete field))

def isExclusive : Call Bool := ExceptT.lift (act .isExclusive)

/-- What a call comes to, also if it fails. -/
def attempt {α : Type} (p : Call α) : Call (Except Error α) := ExceptT.lift p.run

/-- `refusal`. -/
def refusal (message : String) : Error := ⟨.CredentialUnavailable, message⟩

/-- What `read_refresh_token` makes of the bytes that are stored. -/
def asRefreshToken (stored : Option Bytes) : Option String :=
  (stored.bind fun bytes => String.fromUTF8? ⟨bytes.toArray⟩).filter fun s => !s.isEmpty

/-- `read_refresh_token`. -/
def readRefreshToken : Call (Option String) := do
  return asRefreshToken (← secretGet refreshTokenField)

/-- `write_refresh_token`. -/
def writeRefreshToken (token : String) : Call Unit := secretPut refreshTokenField (utf8 token)

/-- A deletion for which nothing to delete is success. -/
def deleteField (field : String) : Call Unit := do
  match ← attempt (secretDelete field) with
  | .ok () => return
  | .error err => if err.code ≠ .NotFound then throw err

/-- `delete_refresh_token`. -/
def deleteRefreshToken : Call Unit := deleteField refreshTokenField

/-- `read_bound_refresh_token`. -/
def readBoundRefreshToken : Call (Option BoundRefreshToken) := do
  match ← readRefreshToken with
  | none => return none
  | some refreshToken =>
    let stored := (← secretGet identityBindingField).bind (IdentityBinding.decode base64)
    match stored with
    | some binding => return if binding.isSpecific then some ⟨refreshToken, binding⟩ else none
    | none => return none

/-- `write_bound_refresh_token`. -/
def writeBoundRefreshToken (token : String) (binding : IdentityBinding) : Call Unit := do
  if !binding.isSpecific then
    throw (refusal ("no identity could be established for this session, so the credential " ++
      "was not stored. Set `oidc_client_name` or `persistence_id` to give this " ++
      "connection a durable lineage"))
  secretPut identityBindingField (binding.encode base64)
  writeRefreshToken token

/-- `delete_bound_refresh_token`. -/
def deleteBoundRefreshToken : Call Unit := do
  let tokenResult ← attempt deleteRefreshToken
  deleteField identityBindingField
  ofExcept tokenResult

/-- `read_claimed_refresh_token`. -/
def readClaimedRefreshToken : Call (Option BoundRefreshToken) := do
  if !(← isExclusive) then return none
  let stored ← readBoundRefreshToken base64
  if !(← isExclusive) then return none
  if stored.isSome then ExceptT.lift (act .recordAdoption)
  return stored

/-- `write_claimed_refresh_token`. -/
def writeClaimedRefreshToken (token : String) (binding : IdentityBinding) : Call Unit := do
  if !(← isExclusive) then
    throw (refusal ("another live connection shares this credential persistence key, so the " ++
      "credential was not stored. Set a distinct `persistence_id` on each " ++
      "connection and reconnect"))
  writeBoundRefreshToken base64 token binding
  if !(← isExclusive) then
    deleteBoundRefreshToken
    throw (refusal ("another live connection claimed this credential persistence key while " ++
      "the credential was being stored, so it was taken back out. Set a " ++
      "distinct `persistence_id` on each connection and reconnect"))

/-- `delete_claimed_refresh_token`. -/
def deleteClaimedRefreshToken : Call Unit := do
  if !(← isExclusive) then
    throw (refusal ("another live connection shares this credential persistence key, so the " ++
      "stored credential was left alone. Set a distinct `persistence_id` on " ++
      "each connection and reconnect"))
  deleteBoundRefreshToken
  if !(← isExclusive) then
    throw (refusal ("another live connection claimed this credential persistence key while " ++
      "its entry was being removed; the removal cannot be taken back. Set a " ++
      "distinct `persistence_id` on each connection and sign in again"))

/-- What a connection calls. -/
inductive Op
  | acquire
  | drop
  | read
  | write (token : String) (binding : IdentityBinding)
  | delete
deriving DecidableEq

/-- A call, to what it gives back. -/
def Op.routine : Op → Routine Act.Answer Unit
  | acquire => act .acquire
  | drop => act .drop
  | read => do act (.finish (.read (← (readClaimedRefreshToken base64).run)))
  | write token binding => do act (.finish (.written (← (writeClaimedRefreshToken base64 token binding).run)))
  | delete => do act (.finish (.deleted (← deleteClaimedRefreshToken.run)))

/-! ### Runs -/

/-- A step of a process. -/
abbrev Step (ι : Type) := Event ι Op Act.Answer

/-- A process and what is left of its calls. -/
abbrev Calls (ι : Type) := Threads ι (Process ι) Act.Answer

/-- A process with nothing but its secrets. -/
def Process.fresh (secrets : Slot → String → Option Bytes) : Process ι := ⟨fun _ => none, fun _ => .unclaimed, secrets⟩

/-- One step of the calls. -/
def Calls.next (s : Calls ι) (l : Step ι) : Option (Calls ι) :=
  s.step (Process.exec slot) (fun op => (op.routine base64).thread) l

/-- The runs of a process from its start. -/
abbrev Runs (secrets : Slot → String → Option Bytes) : List (Step ι) → Calls ι → Prop :=
  Run (fun s => s = .idle (.fresh secrets)) fun s l s' => s.next slot base64 l = some s'

end OvStorage.Persistence
