import OvStorage.Authz.Credential
import OvStorage.Authz.Load
import OvStorage.Lib.Routine
import OvStorage.Lib.Table

/-!
# The authorization layer

`BuiltinAuthLayer` of `ovstorage-authz-layer/src/lib.rs`: how each verb resolves the principal, loads
the policy, rewrites the addresses it passes on, judges them, stamps the principal and filters what
the inner layer answers.

## The model

A verb is a `Routine` over three atomic actions: loading the live policy, calling the inner layer,
and the reload of the policy by the host. `δ` is what requests and answers carry along and the layer
never reads: options, bodies, redirect results, the details of an object. The authentication front
end is a parameter, and so is what the inner layer answers. A stream is what it has yielded so far.
Metrics are left out, as are the slots without a gate.
-/

namespace OvStorage.Authz

open Address Interleave Routine

/-! ### What is passed around -/

namespace ext

/-- `ext::PRINCIPAL_ID`. -/
def PRINCIPAL_ID : String := "org.omniverse.ovstorage/principal@1"

/-- `ext::PRINCIPAL_DISPLAY_NAME`. -/
def PRINCIPAL_DISPLAY_NAME : String := "org.omniverse.ovstorage/principal-display-name@1"

/-- `ext::AUTH_CREDENTIAL`. -/
def AUTH_CREDENTIAL : String := "org.omniverse.ovstorage/auth-credential@1"

/-- `ext::UPSTREAM_AUTH_ADDRESS`. -/
def UPSTREAM_AUTH_ADDRESS : String := "org.omniverse.ovstorage/upstream-auth-address@1"

end ext

/-- `Extensions`. -/
abbrev Extensions := Table String Bytes

/-- `ANONYMOUS_PRINCIPAL_ID`. -/
def ANONYMOUS_PRINCIPAL_ID : String := "anonymous"

/-- The principal that the layer above stamped; `lossy` is `String::from_utf8_lossy`. -/
def stampedPrincipal (lossy : Bytes → String) (cx : Extensions) : String :=
  match cx.get ext.PRINCIPAL_ID with
  | some bytes => lossy bytes
  | none => ANONYMOUS_PRINCIPAL_ID

deriving instance DecidableEq for Rule, Policy

instance {κ ν : Type} [DecidableEq κ] [DecidableEq ν] : DecidableEq (Table κ ν) := fun s t =>
  decidable_of_iff (s.rows = t.rows) ⟨fun h => by cases s; cases t; cases h; rfl, fun h => congrArg _ h⟩

/-- `Request`. -/
structure Request (I : Type) where
  extensions : Extensions
  input : I
deriving DecidableEq

/-- `StatRequest`, `ReadRequest` and the others with one address; a listing calls it `prefix`. -/
structure Addressed (δ : Type) where
  address : Url
  rest : δ
deriving DecidableEq

/-- `CopyRequest`, `RenameRequest`. -/
structure Endpoints (δ : Type) where
  source : Url
  destination : Url
  rest : δ
deriving DecidableEq

/-- `AccessOps`. -/
structure AccessOps where
  read : Bool
  write : Bool
  delete : Bool
  updateMetadata : Bool
deriving DecidableEq

/-- `CheckAccessRequest`. -/
structure CheckAccessRequest where
  address : Url
  operations : AccessOps
deriving DecidableEq

/-- The data verbs with one address in their request. -/
inductive Verb
  | stat | read | materialize | write | writeStream | writeRedirect | continueWrite | delete | updateMetadata
  | list | listStream | listVersions | getLatestVersion | createDirectory | deleteDirectory | watchDirectory
deriving DecidableEq

/-- A call of a data verb. -/
inductive DataCall (δ : Type)
  | addressed (verb : Verb) (request : Request (Addressed δ))
  | checkAccess (request : Request CheckAccessRequest)
  | copy (request : Request (Endpoints δ))
  | rename (request : Request (Endpoints δ))
  | rootInfoFor (url : Url) (cx : Extensions)
deriving DecidableEq

/-- A call of a gated slot. -/
inductive Call (δ : Type)
  | data (call : DataCall δ)
  | listAddressRoots (cx : Extensions)
  | listConnections (cx : Extensions)
  | updateConnectionCredentials (request : Request δ)
  | authenticateConnection (request : Request δ)
deriving DecidableEq

/-! ### What is answered -/

/-- `ObjectInfo`. -/
structure ObjectInfo (δ : Type) where
  address : Url
  rest : δ
deriving DecidableEq

/-- `ListPage`. -/
structure ListPage (δ : Type) where
  items : List (ObjectInfo δ)
  nextPageToken : Option Bytes
deriving DecidableEq

/-- `ChangeEvent`. -/
inductive ChangeEvent (δ : Type)
  | Object (address : Url) (rest : δ)
  | Lapsed (rest : δ)
deriving DecidableEq

/-- `AccessDecision`. -/
structure AccessDecision where
  allowed : Bool
  deniedOps : AccessOps
  reason : Option Bytes
deriving DecidableEq

/-- `RootInfo`. -/
structure RootInfo (δ : Type) where
  root : Url
  rest : δ
deriving DecidableEq

/-- `RootInfoSnapshot`. -/
structure RootInfoSnapshot (δ : Type) where
  roots : List (RootInfo δ)
  updates : Bool
deriving DecidableEq

/-- `RootInfoChange`. -/
inductive RootInfoChange (δ : Type)
  | Snapshot (roots : List (RootInfo δ))
  | Added (roots : List (RootInfo δ))
  | Removed (roots : List (RootInfo δ))
  | Updated (roots : List (RootInfo δ))
deriving DecidableEq

/-- What a stream has yielded. -/
abbrev Yielded (α : Type) := List (Except Error α)

section Answers

variable (δ : Type)

/-- What a verb with one address answers. -/
abbrev Verb.Answer : Verb → Type
  | .list => ListPage δ
  | .listStream => Yielded (ObjectInfo δ)
  | .watchDirectory => Yielded (ChangeEvent δ)
  | _ => δ

variable {δ}

abbrev DataCall.Answer : DataCall δ → Type
  | .addressed verb _ => verb.Answer δ
  | .checkAccess _ => AccessDecision
  | .rootInfoFor _ _ => RootInfo δ
  | _ => δ

abbrev Call.Answer : Call δ → Type
  | .data call => call.Answer
  | .listAddressRoots _ => RootInfoSnapshot δ × Option (Yielded (RootInfoChange δ))
  | _ => δ

/-- The atomic actions: of a verb, and of the host that reloads the policy. -/
inductive Act (δ : Type)
  | load
  | call (inner : Call δ)
  | reload
deriving DecidableEq

/-- The live policy, what the inner layer answers, and what the new policy document parses to. -/
abbrev Act.Answer : Act δ → Type
  | .load => Policy
  | .call inner => Except Error inner.Answer
  | .reload => Option Policy

end Answers

/-- A verb of the layer. -/
abbrev Gate (δ : Type) := ExceptT Error (Routine (Act.Answer (δ := δ)))

/-- `self.policy.load_full()`. -/
def loadPolicy {δ : Type} : Gate δ Policy := ExceptT.lift (perform (R := Act.Answer) (.load : Act δ))

/-- Call the inner layer. -/
def callInner {δ : Type} (call : Call δ) : Gate δ call.Answer :=
  ExceptT.mk (perform (R := Act.Answer) (.call call))

/-! ### The code -/

/-- `ResolvedPrincipal`; its attributes are read by nothing. -/
structure ResolvedPrincipal where
  id : String
  displayName : Option String
deriving DecidableEq

/-- The text of a `DecodeError`. -/
def DecodeError.text : DecodeError → String
  | .UnsupportedVersion => "unsupported wire version"
  | .Truncated => "truncated buffer"
  | .BadTag => "bad transport tag"
  | .Utf8 => "invalid utf-8 in string field"
  | .TrailingData => "trailing data after credential"

/-- `operation_name`. -/
def operationName (operation : Operation) : Bytes :=
  ((operationNames.find? fun entry => entry.2 == operation).map fun entry => utf8 entry.1).getD []

/-- `ext::upstream_auth_address`; where the bytes stop being UTF-8 is not told. -/
def ext.upstreamAuthAddress (U : UrlCrate) (extensions : Extensions) : Except Error (Option Url) :=
  match extensions.get ext.UPSTREAM_AUTH_ADDRESS with
  | none => .ok none
  | some raw =>
    if (String.fromUTF8? ⟨raw.toArray⟩).isNone then
      .error ⟨.InvalidArgument, utf8 "upstream auth address is not UTF-8"⟩
    else
      match U.parse raw with
      | .ok url => .ok (some url)
      | .error error => .error ⟨.InvalidArgument, utf8 "invalid upstream auth address: " ++ error⟩

/-- `BuiltinAuthLayer`: its authentication front end, and the libraries and host it runs on. -/
structure BuiltinAuthLayer where
  authn : Option AuthCredential → Except Error ResolvedPrincipal
  urls : UrlCrate
  cases : CaseTable
  foldsFilePaths : Bool

namespace BuiltinAuthLayer

variable (L : BuiltinAuthLayer)

/-- `Policy::is_allowed`, for a principal. -/
def isAllowed (policy : Policy) (principalId : String) (operation : Operation) (address : Option Url) : Bool :=
  (policy.evaluate L.cases L.foldsFilePaths L.urls (utf8 principalId) operation address).allow

/-- `is_root_visible`. -/
def isRootVisible (policy : Policy) (principalId : String) (address : Url) : Bool :=
  L.isAllowed policy principalId .Read (some address) || L.isAllowed policy principalId .List (some address)

/-- `canonicalize_delegated`. -/
def canonicalizeDelegated (address : Url) : Url := canonicalize L.urls address

/-- `resolve_principal`. -/
def resolvePrincipal (cx : Extensions) : Except Error ResolvedPrincipal :=
  match cx.get ext.AUTH_CREDENTIAL with
  | some bytes =>
    match AuthCredential.decode bytes with
    | .ok credential => L.authn (some credential)
    | .error error => .error ⟨.AuthRequired, utf8 "malformed auth credential: " ++ utf8 error.text⟩
  | none => L.authn none

/-- `check`. -/
def check (policy : Policy) (principal : String) (operation : Operation) (address : Option Url) : Except Error Unit :=
  let decision := policy.evaluate L.cases L.foldsFilePaths L.urls (utf8 principal) operation address
  if decision.allow then .ok ()
  else
    let address := (address.map fun url => url.asStr).getD (utf8 "<none>")
    .error ⟨.PermissionDenied, decision.reason.getD
      (utf8 "principal '" ++ utf8 principal ++ utf8 "' is not authorized for " ++ operationName operation ++
        utf8 " on " ++ address)⟩

/-- `stamp`. -/
def stamp (cx : Extensions) (principal : ResolvedPrincipal) : Extensions :=
  let cx := (cx.erase ext.AUTH_CREDENTIAL).insert ext.PRINCIPAL_ID (utf8 principal.id)
  match principal.displayName with
  | some displayName => cx.insert ext.PRINCIPAL_DISPLAY_NAME (utf8 displayName)
  | none => cx

variable {δ : Type}

/-- `authorize`: also the address, as it was rewritten. -/
def authorize (cx : Extensions) (operation : Operation) (address : Option Url) :
    Gate δ (ResolvedPrincipal × Policy × Option Url) := do
  let principal ← ofExcept (L.resolvePrincipal cx)
  let policy ← loadPolicy
  let address := address.map L.canonicalizeDelegated
  ofExcept (L.check policy principal.id operation address)
  return (principal, policy, address)

/-- What the verbs with one address share: authorize, stamp, delegate, and filter the answer. -/
def throughAuthorize (operation : Operation) (verb : Verb)
    (filter : ResolvedPrincipal → Policy → verb.Answer δ → verb.Answer δ) (request : Request (Addressed δ)) :
    Gate δ (verb.Answer δ) := do
  let (principal, policy, address) ← L.authorize request.extensions operation (some request.input.address)
  let request := { request with input := { request.input with address := address.getD request.input.address } }
  let request := { request with extensions := stamp request.extensions principal }
  let answer ← callInner (.data (.addressed verb request))
  return filter principal policy answer

def stat : Request (Addressed δ) → Gate δ δ := L.throughAuthorize .Stat .stat fun _ _ answer => answer

def read : Request (Addressed δ) → Gate δ δ := L.throughAuthorize .Read .read fun _ _ answer => answer

def materialize : Request (Addressed δ) → Gate δ δ := L.throughAuthorize .Read .materialize fun _ _ answer => answer

def write : Request (Addressed δ) → Gate δ δ := L.throughAuthorize .Write .write fun _ _ answer => answer

def writeStream : Request (Addressed δ) → Gate δ δ := L.throughAuthorize .Write .writeStream fun _ _ answer => answer

def writeRedirect : Request (Addressed δ) → Gate δ δ :=
  L.throughAuthorize .Write .writeRedirect fun _ _ answer => answer

def continueWrite : Request (Addressed δ) → Gate δ δ :=
  L.throughAuthorize .Write .continueWrite fun _ _ answer => answer

def delete : Request (Addressed δ) → Gate δ δ := L.throughAuthorize .Delete .delete fun _ _ answer => answer

def updateMetadata : Request (Addressed δ) → Gate δ δ :=
  L.throughAuthorize .UpdateMetadata .updateMetadata fun _ _ answer => answer

def listVersions : Request (Addressed δ) → Gate δ δ :=
  L.throughAuthorize .ListVersions .listVersions fun _ _ answer => answer

def getLatestVersion : Request (Addressed δ) → Gate δ δ :=
  L.throughAuthorize .ListVersions .getLatestVersion fun _ _ answer => answer

def createDirectory : Request (Addressed δ) → Gate δ δ :=
  L.throughAuthorize .CreateDirectory .createDirectory fun _ _ answer => answer

def deleteDirectory : Request (Addressed δ) → Gate δ δ :=
  L.throughAuthorize .DeleteDirectory .deleteDirectory fun _ _ answer => answer

/-- `filter_list_batch`. -/
def filterListBatch (policy : Policy) (principalId : String) (operation : Operation) (addresses : List Url) :
    List Bool :=
  addresses.map fun address => L.isAllowed policy principalId operation (some address)

/-- `page.items`, zipped with the decisions and kept where they allow. -/
def filterPage (principal : ResolvedPrincipal) (policy : Policy) (page : ListPage δ) : ListPage δ :=
  let addresses := page.items.map fun item => item.address
  let decisions := L.filterListBatch policy principal.id .Stat addresses
  { page with items := (page.items.zip decisions).filterMap fun (item, allow) => if allow then some item else none }

def list : Request (Addressed δ) → Gate δ (ListPage δ) := L.throughAuthorize .List .list L.filterPage

/-- The closure of `list_stream`. -/
def filterEntries (principal : ResolvedPrincipal) (policy : Policy) (stream : Yielded (ObjectInfo δ)) :
    Yielded (ObjectInfo δ) :=
  stream.filterMap fun
    | .ok entry => if L.isAllowed policy principal.id .Stat (some entry.address) then some (.ok entry) else none
    | .error error => some (.error error)

def listStream : Request (Addressed δ) → Gate δ (Yielded (ObjectInfo δ)) :=
  L.throughAuthorize .List .listStream L.filterEntries

/-- The closure of `watch_directory`. -/
def filterEvents (principal : ResolvedPrincipal) (policy : Policy) (stream : Yielded (ChangeEvent δ)) :
    Yielded (ChangeEvent δ) :=
  stream.filterMap fun
    | .error error => some (.error error)
    | .ok (.Lapsed rest) => some (.ok (.Lapsed rest))
    | .ok (.Object address rest) =>
      if L.isAllowed policy principal.id .Read (some address) then some (.ok (.Object address rest)) else none

def watchDirectory : Request (Addressed δ) → Gate δ (Yielded (ChangeEvent δ)) :=
  L.throughAuthorize .WatchDirectory .watchDirectory L.filterEvents

/-- `apply_authz_access_decision`. -/
def applyAuthzAccessDecision (policy : Policy) (principalId : String) (address : Url) (operations : AccessOps)
    (decision : AccessDecision) (denyReason : Bytes) : AccessDecision :=
  let denies := fun (asked : Bool) operation => asked && !L.isAllowed policy principalId operation (some address)
  let read := denies operations.read .Read
  let write := denies operations.write .Write
  let delete := denies operations.delete .Delete
  let updateMetadata := denies operations.updateMetadata .UpdateMetadata
  let denied := decision.deniedOps
  let authzDenied := read || write || delete || updateMetadata
  { allowed := decision.allowed && !authzDenied
    deniedOps := ⟨denied.read || read, denied.write || write, denied.delete || delete,
      denied.updateMetadata || updateMetadata⟩
    reason := if authzDenied then decision.reason.or (some denyReason) else decision.reason }

def checkAccess (request : Request CheckAccessRequest) : Gate δ AccessDecision := do
  let (principal, policy, address) ← L.authorize request.extensions .CheckAccess (some request.input.address)
  let request := { request with input := { request.input with address := address.getD request.input.address } }
  let address := request.input.address
  let operations := request.input.operations
  let request := { request with extensions := stamp request.extensions principal }
  let decision ← callInner (.data (.checkAccess request))
  return L.applyAuthzAccessDecision policy principal.id address operations decision (utf8 "denied by authz policy")

def copy (request : Request (Endpoints δ)) : Gate δ δ := do
  let principal ← ofExcept (L.resolvePrincipal request.extensions)
  let policy ← loadPolicy
  let request := { request with input := { request.input with source := L.canonicalizeDelegated request.input.source } }
  let request :=
    { request with input := { request.input with destination := L.canonicalizeDelegated request.input.destination } }
  ofExcept (L.check policy principal.id .Read (some request.input.source))
  ofExcept (L.check policy principal.id .Write (some request.input.destination))
  let request := { request with extensions := stamp request.extensions principal }
  callInner (.data (.copy request))

def rename (request : Request (Endpoints δ)) : Gate δ δ := do
  let principal ← ofExcept (L.resolvePrincipal request.extensions)
  let policy ← loadPolicy
  let request := { request with input := { request.input with source := L.canonicalizeDelegated request.input.source } }
  let request :=
    { request with input := { request.input with destination := L.canonicalizeDelegated request.input.destination } }
  ofExcept (L.check policy principal.id .Read (some request.input.source))
  ofExcept (L.check policy principal.id .Delete (some request.input.source))
  ofExcept (L.check policy principal.id .Write (some request.input.destination))
  let request := { request with extensions := stamp request.extensions principal }
  callInner (.data (.rename request))

def rootInfoFor (url : Url) (cx : Extensions) : Gate δ (RootInfo δ) := do
  let principal ← ofExcept (L.resolvePrincipal cx)
  let policy ← loadPolicy
  let url := L.canonicalizeDelegated url
  if !L.isRootVisible policy principal.id url then
    throw ⟨.NoRoute, utf8 "no route matches address"⟩
  let cx := stamp cx principal
  callInner (.data (.rootInfoFor url cx))

/-- The closure `visible` of `filter_root_change`. -/
def visibleRoots (principalId : String) (policy : Policy) (roots : List (RootInfo δ)) : List (RootInfo δ) :=
  roots.filter fun root => L.isRootVisible policy principalId root.root

/-- `filter_root_change`. -/
def filterRootChange (change : RootInfoChange δ) (principalId : String) (policy : Policy) : Option (RootInfoChange δ) :=
  let visible := L.visibleRoots principalId policy
  match change with
  | .Snapshot roots => some (.Snapshot (visible roots))
  | .Added roots => if (visible roots).isEmpty then none else some (.Added (visible roots))
  | .Updated roots => if (visible roots).isEmpty then none else some (.Updated (visible roots))
  | .Removed roots => if (visible roots).isEmpty then none else some (.Removed (visible roots))

/-- `filter_root_update_stream`. -/
def filterRootUpdateStream (stream : Yielded (RootInfoChange δ)) (principalId : String) (policy : Policy) :
    Yielded (RootInfoChange δ) :=
  stream.filterMap fun
    | .ok change => (L.filterRootChange change principalId policy).map .ok
    | .error error => some (.error error)

def listAddressRoots (cx : Extensions) : Gate δ (RootInfoSnapshot δ × Option (Yielded (RootInfoChange δ))) := do
  let (principal, policy, _) ← L.authorize cx .ListAddressRoots none
  let cx := stamp cx principal
  let (snapshot, updates) ← callInner (.listAddressRoots cx)
  let snapshot :=
    { snapshot with roots := snapshot.roots.filter fun root => L.isRootVisible policy principal.id root.root }
  return (snapshot, updates.map fun stream => L.filterRootUpdateStream stream principal.id policy)

def listConnections (cx : Extensions) : Gate δ δ := do
  let (principal, _, _) ← L.authorize cx .ListConnections none
  let cx := stamp cx principal
  callInner (.listConnections cx)

/-- `authorize_and_stamp_credential_slot`. -/
def authorizeAndStampCredentialSlot (cx : Extensions) : Gate δ Extensions := do
  let address ← ofExcept (ext.upstreamAuthAddress L.urls cx)
  let (principal, _, _) ← L.authorize cx .UpdateConnectionCredentials address
  return stamp cx principal

def updateConnectionCredentials (request : Request δ) : Gate δ δ := do
  let extensions ← L.authorizeAndStampCredentialSlot request.extensions
  callInner (.updateConnectionCredentials { request with extensions })

def authenticateConnection (request : Request δ) : Gate δ δ := do
  let extensions ← L.authorizeAndStampCredentialSlot request.extensions
  callInner (.authenticateConnection { request with extensions })

/-- The layer's answer to a call of one of its verbs with one address. -/
def addressed : (verb : Verb) → Request (Addressed δ) → Gate δ (verb.Answer δ)
  | .stat => L.stat
  | .read => L.read
  | .materialize => L.materialize
  | .write => L.write
  | .writeStream => L.writeStream
  | .writeRedirect => L.writeRedirect
  | .continueWrite => L.continueWrite
  | .delete => L.delete
  | .updateMetadata => L.updateMetadata
  | .list => L.list
  | .listStream => L.listStream
  | .listVersions => L.listVersions
  | .getLatestVersion => L.getLatestVersion
  | .createDirectory => L.createDirectory
  | .deleteDirectory => L.deleteDirectory
  | .watchDirectory => L.watchDirectory

/-- The layer's answer to a call of one of its slots. -/
def serve : (call : Call δ) → Gate δ call.Answer
  | .data (.addressed verb request) => L.addressed verb request
  | .data (.checkAccess request) => L.checkAccess request
  | .data (.copy request) => L.copy request
  | .data (.rename request) => L.rename request
  | .data (.rootInfoFor url cx) => L.rootInfoFor url cx
  | .listAddressRoots cx => L.listAddressRoots cx
  | .listConnections cx => L.listConnections cx
  | .updateConnectionCredentials request => L.updateConnectionCredentials request
  | .authenticateConnection request => L.authenticateConnection request

end BuiltinAuthLayer

/-! ### What a data verb asks of the policy -/

/-- The operation of a verb with one address. -/
def Verb.operation : Verb → Operation
  | .stat => .Stat
  | .read | .materialize => .Read
  | .write | .writeStream | .writeRedirect | .continueWrite => .Write
  | .delete => .Delete
  | .updateMetadata => .UpdateMetadata
  | .list | .listStream => .List
  | .listVersions | .getLatestVersion => .ListVersions
  | .createDirectory => .CreateDirectory
  | .deleteDirectory => .DeleteDirectory
  | .watchDirectory => .WatchDirectory

namespace DataCall

variable {δ : Type}

/-- What the call decomposes into: on each address, one of these operations. -/
def demands : DataCall δ → List (List Operation × Url)
  | .addressed verb request => [([verb.operation], request.input.address)]
  | .checkAccess request => [([.CheckAccess], request.input.address)]
  | .copy request => [([.Read], request.input.source), ([.Write], request.input.destination)]
  | .rename request =>
    [([.Read], request.input.source), ([.Delete], request.input.source), ([.Write], request.input.destination)]
  | .rootInfoFor url _ => [([.Read, .List], url)]

def extensions : DataCall δ → Extensions
  | .addressed _ request => request.extensions
  | .checkAccess request => request.extensions
  | .copy request => request.extensions
  | .rename request => request.extensions
  | .rootInfoFor _ cx => cx

/-- The call with its addresses and its extensions rewritten, and nothing else. -/
def rewrite (address : Url → Url) (extensions : Extensions → Extensions) : DataCall δ → DataCall δ
  | .addressed verb request =>
    .addressed verb ⟨extensions request.extensions, { request.input with address := address request.input.address }⟩
  | .checkAccess request =>
    .checkAccess ⟨extensions request.extensions, { request.input with address := address request.input.address }⟩
  | .copy request =>
    .copy ⟨extensions request.extensions,
      { request.input with source := address request.input.source, destination := address request.input.destination }⟩
  | .rename request =>
    .rename ⟨extensions request.extensions,
      { request.input with source := address request.input.source, destination := address request.input.destination }⟩
  | .rootInfoFor url cx => .rootInfoFor (address url) (extensions cx)

theorem extensions_rewrite (f : Url → Url) (g : Extensions → Extensions) (call : DataCall δ) :
    (call.rewrite f g).extensions = g call.extensions := by
  cases call <;> rfl

/-- Each address of a rewritten call is a rewritten address. -/
theorem demands_rewrite (f : Url → Url) (g : Extensions → Extensions) (call : DataCall δ) :
    (call.rewrite f g).demands = call.demands.map fun demand => (demand.1, f demand.2) := by
  cases call <;> rfl

end DataCall

def Call.extensions {δ : Type} : Call δ → Extensions
  | .data request => request.extensions
  | .listAddressRoots cx => cx
  | .listConnections cx => cx
  | .updateConnectionCredentials request => request.extensions
  | .authenticateConnection request => request.extensions

namespace BuiltinAuthLayer

variable (L : BuiltinAuthLayer) {δ : Type}

/-- The policy allows the principal all that the call decomposes into, on the addresses it carries. -/
def Admits (policy : Policy) (principalId : String) (call : DataCall δ) : Prop :=
  ∀ demand ∈ call.demands, ∃ operation ∈ demand.1, L.isAllowed policy principalId operation (some demand.2) = true

/-- The call as the layer passes it on for a principal. -/
def delegated (principal : ResolvedPrincipal) (call : DataCall δ) : DataCall δ :=
  call.rewrite L.canonicalizeDelegated fun cx => stamp cx principal

/-- The policy lets the principal establish credentials, on the address that it is asked about. -/
def AdmitsSlot (policy : Policy) (principalId : String) (cx : Extensions) : Prop :=
  ∃ address, ext.upstreamAuthAddress L.urls cx = .ok address ∧
    L.isAllowed policy principalId .UpdateConnectionCredentials (address.map L.canonicalizeDelegated) = true

/-- A thread serves one call at a time, or reloads the policy. -/
inductive Op (δ : Type)
  | request (call : Call δ)
  | reload

/-- What a call asks of the policy, and the call that the layer makes where the policy agrees. -/
def Passes (policy : Policy) (principal : ResolvedPrincipal) : Call δ → Call δ → Prop
  | .data request, inner =>
    inner = .data (L.delegated principal request) ∧ L.Admits policy principal.id (L.delegated principal request)
  | .listAddressRoots cx, inner =>
    inner = .listAddressRoots (stamp cx principal) ∧ L.isAllowed policy principal.id .ListAddressRoots none = true
  | .listConnections cx, inner =>
    inner = .listConnections (stamp cx principal) ∧ L.isAllowed policy principal.id .ListConnections none = true
  | .updateConnectionCredentials request, inner =>
    inner = .updateConnectionCredentials { request with extensions := stamp request.extensions principal } ∧
      L.AdmitsSlot policy principal.id request.extensions
  | .authenticateConnection request, inner =>
    inner = .authenticateConnection { request with extensions := stamp request.extensions principal } ∧
      L.AdmitsSlot policy principal.id request.extensions

/-- What each thread does: for a request, one policy is loaded, and then one call is made if that policy
lets the request pass. -/
def Permits : Op δ → History (Act.Answer (δ := δ)) → Act δ → Prop
  | .request _, h, .load => h = []
  | .request call, h, .call inner => ∃ policy principal, h = [⟨.load, policy⟩] ∧
      L.resolvePrincipal call.extensions = .ok principal ∧ L.Passes policy principal call inner
  | .request _, _, .reload => False
  | .reload, _, a => a = .reload

variable {L}

theorem check_eq_ok {policy : Policy} {principal : String} {operation : Operation} {address : Option Url} {x : Unit} :
    L.check policy principal operation address = .ok x ↔ L.isAllowed policy principal operation address = true := by
  cases hallow : (policy.evaluate L.cases L.foldsFilePaths L.urls (utf8 principal) operation address).allow with
  | true => simp [check, isAllowed, hallow]
  | false => simp [check, isAllowed, hallow]

section Rules

variable {ok : History (Act.Answer (δ := δ)) → Act δ → Prop} {h : History (Act.Answer (δ := δ))} {α : Type}
  {post : History (Act.Answer (δ := δ)) → Except Error α → Prop}

open Routine

variable {operation : Operation} {address : Option Url}

/-- A check, and what follows an allow. -/
theorem keeps_check {policy : Policy} {principal : String} {f : Unit → Gate δ α}
    (hrefused : ∀ error, post h (.error error))
    (hallowed : L.isAllowed policy principal operation address = true → Keeps ok post h (f ()).run) :
    Keeps ok post h (ofExcept (L.check policy principal operation address) >>= f).run := by
  rw [keeps_bindT, keeps_ofExcept]
  cases hcheck : L.check policy principal operation address with
  | error error => exact hrefused error
  | ok x => exact hallowed (check_eq_ok.mp hcheck)

variable {cx : Extensions}

/-- The principal and the policy, and what follows once they are there. -/
theorem keeps_principal {f : ResolvedPrincipal → Policy → Gate δ α} (hload : ok h .load)
    (hrefused : ∀ error, post h (.error error))
    (hf : ∀ principal policy, L.resolvePrincipal cx = .ok principal →
      Keeps ok post (h ++ [⟨.load, policy⟩]) (f principal policy).run) :
    Keeps ok post h (do
      let principal ← ofExcept (L.resolvePrincipal cx)
      let policy ← loadPolicy
      f principal policy : Gate δ α).run := by
  rw [keeps_bindT, keeps_ofExcept]
  cases hresolve : L.resolvePrincipal cx with
  | error error => exact hrefused error
  | ok principal =>
    exact keeps_bindT.mpr ⟨hload, fun policy => hf principal policy hresolve⟩

/-- What `authorize` does, and what follows an allow. -/
theorem keeps_authorize {f : ResolvedPrincipal × Policy × Option Url → Gate δ α} (hload : ok h .load)
    (hrefused : ∀ h error, post h (.error error))
    (hf : ∀ principal policy, L.resolvePrincipal cx = .ok principal →
      L.isAllowed policy principal.id operation (address.map L.canonicalizeDelegated) = true →
      Keeps ok post (h ++ [⟨.load, policy⟩]) (f (principal, policy, address.map L.canonicalizeDelegated)).run) :
    Keeps ok post h (L.authorize cx operation address >>= f).run := by
  rw [keeps_bindT]
  refine keeps_principal hload (fun error => hrefused _ error) fun principal policy hprincipal => ?_
  exact keeps_check (fun error => hrefused _ error) fun hallowed => hf principal policy hprincipal hallowed

/-- What the two credential slots share, and what follows an allow. -/
theorem keeps_credentialSlot {f : Extensions → Gate δ α} (hload : ok h .load)
    (hrefused : ∀ h error, post h (.error error))
    (hf : ∀ principal policy, L.resolvePrincipal cx = .ok principal → L.AdmitsSlot policy principal.id cx →
      Keeps ok post (h ++ [⟨.load, policy⟩]) (f (stamp cx principal)).run) :
    Keeps ok post h (L.authorizeAndStampCredentialSlot cx >>= f).run := by
  rw [keeps_bindT]
  unfold authorizeAndStampCredentialSlot
  rw [keeps_bindT, keeps_ofExcept]
  cases haddress : ext.upstreamAuthAddress L.urls cx with
  | error error => exact hrefused _ error
  | ok address =>
    refine keeps_authorize hload (fun _ _ => hrefused _ _) fun principal policy hprincipal hallowed => ?_
    exact hf principal policy hprincipal ⟨address, haddress, hallowed⟩

/-- A call of the inner layer at the end of a verb. -/
theorem keeps_callInner {call : Call δ} {f : call.Answer → Gate δ α} (hcall : ok h (.call call))
    (hf : ∀ h answer, Keeps ok post h (f answer).run) (hfailed : ∀ h error, post h (.error error)) :
    Keeps ok post h (callInner call >>= f).run := by
  rw [keeps_bindT]
  refine ⟨hcall, fun answer => ?_⟩
  cases answer with
  | ok answer => exact hf _ answer
  | error error => exact hfailed _ error

end Rules

/-! ### Each verb -/

/-- A call of the inner layer that the policy lets pass is permitted. -/
theorem permits_call {call inner : Call δ} {policy : Policy} {principal : ResolvedPrincipal}
    (hprincipal : L.resolvePrincipal call.extensions = .ok principal) (hpasses : L.Passes policy principal call inner) :
    L.Permits (.request call) [⟨.load, policy⟩] (.call inner) :=
  ⟨policy, principal, rfl, hprincipal, hpasses⟩

variable (L) in
/-- What a verb with one address makes of the inner layer's answer. -/
def answerFilter : (verb : Verb) → ResolvedPrincipal → Policy → verb.Answer δ → verb.Answer δ
  | .list => L.filterPage
  | .listStream => L.filterEntries
  | .watchDirectory => L.filterEvents
  | _ => fun _ _ answer => answer

theorem addressed_eq (verb : Verb) :
    L.addressed (δ := δ) verb = L.throughAuthorize verb.operation verb (L.answerFilter verb) := by
  cases verb <;> rfl

/-- What a verb with one address gives back is what the inner layer has answered, filtered. -/
theorem keeps_addressed_answer (verb : Verb) (request : Request (Addressed δ)) :
    Keeps (L.Permits (.request (.data (.addressed verb request))))
      (fun h value => ∀ x, value = .ok x → ∃ inner answer principal policy,
        (⟨.call (.data (.addressed verb inner)), .ok answer⟩ : Sigma (Act.Answer (δ := δ))) ∈ h ∧
          x = L.answerFilter verb principal policy answer) [] (L.addressed verb request).run := by
  rw [addressed_eq]
  refine keeps_authorize rfl (fun _ _ _ h => nomatch h) fun principal policy hprincipal hallowed => ?_
  rw [keeps_bindT]
  refine ⟨permits_call hprincipal ⟨rfl, ?_⟩, fun answer => ?_⟩
  · simpa [Admits, delegated, DataCall.rewrite, DataCall.demands] using hallowed
  · cases answer with
    | error error => exact fun _ h => nomatch h
    | ok answer =>
      rintro _ ⟨⟩
      exact ⟨_, answer, principal, policy, by simp, rfl⟩

theorem keeps_addressed (verb : Verb) (request : Request (Addressed δ)) :
    Keeps (L.Permits (.request (.data (.addressed verb request)))) (fun _ _ => True) []
      (L.addressed verb request).run :=
  (keeps_addressed_answer verb request).imp fun _ _ _ => trivial

theorem keeps_checkAccess (request : Request CheckAccessRequest) :
    Keeps (L.Permits (δ := δ) (.request (.data (.checkAccess request)))) (fun _ _ => True) []
      (L.checkAccess request).run := by
  refine keeps_authorize rfl (fun _ _ => trivial) fun principal policy hprincipal hallowed => ?_
  refine keeps_callInner (permits_call hprincipal ⟨rfl, ?_⟩) (fun _ _ => trivial) fun _ _ => trivial
  simpa [Admits, delegated, DataCall.rewrite, DataCall.demands] using hallowed

theorem keeps_copy (request : Request (Endpoints δ)) :
    Keeps (L.Permits (.request (.data (.copy request)))) (fun _ _ => True) [] (L.copy request).run := by
  refine keeps_principal rfl (fun _ => trivial) fun principal policy hprincipal => ?_
  refine keeps_check (fun _ => trivial) fun hread => ?_
  refine keeps_check (fun _ => trivial) fun hwrite => ?_
  refine ⟨permits_call hprincipal ⟨rfl, ?_⟩, fun _ => trivial⟩
  simpa [Admits, delegated, DataCall.rewrite, DataCall.demands] using ⟨hread, hwrite⟩

theorem keeps_rename (request : Request (Endpoints δ)) :
    Keeps (L.Permits (.request (.data (.rename request)))) (fun _ _ => True) [] (L.rename request).run := by
  refine keeps_principal rfl (fun _ => trivial) fun principal policy hprincipal => ?_
  refine keeps_check (fun _ => trivial) fun hread => ?_
  refine keeps_check (fun _ => trivial) fun hdelete => ?_
  refine keeps_check (fun _ => trivial) fun hwrite => ?_
  refine ⟨permits_call hprincipal ⟨rfl, ?_⟩, fun _ => trivial⟩
  simpa [Admits, delegated, DataCall.rewrite, DataCall.demands] using ⟨hread, hdelete, hwrite⟩

theorem keeps_rootInfoFor (url : Url) (cx : Extensions) :
    Keeps (L.Permits (δ := δ) (.request (.data (.rootInfoFor url cx)))) (fun _ _ => True) []
      (L.rootInfoFor url cx).run := by
  refine keeps_principal rfl (fun _ => trivial) fun principal policy hprincipal => ?_
  cases hvisible : L.isRootVisible policy principal.id (L.canonicalizeDelegated url) with
  | false =>
    simp only [hvisible]
    trivial
  | true =>
    simp only [hvisible]
    refine ⟨permits_call hprincipal ⟨rfl, ?_⟩, fun _ => trivial⟩
    simpa [Admits, delegated, DataCall.rewrite, DataCall.demands, isRootVisible] using hvisible

theorem keeps_listAddressRoots (cx : Extensions) :
    Keeps (L.Permits (δ := δ) (.request (.listAddressRoots cx))) (fun _ _ => True) []
      (L.listAddressRoots cx).run := by
  refine keeps_authorize rfl (fun _ _ => trivial) fun principal policy hprincipal hallowed => ?_
  exact keeps_callInner (permits_call hprincipal ⟨rfl, hallowed⟩) (fun _ _ => trivial) fun _ _ => trivial

theorem keeps_listConnections (cx : Extensions) :
    Keeps (L.Permits (δ := δ) (.request (.listConnections cx))) (fun _ _ => True) []
      (L.listConnections cx).run := by
  refine keeps_authorize rfl (fun _ _ => trivial) fun principal policy hprincipal hallowed => ?_
  exact ⟨permits_call hprincipal ⟨rfl, hallowed⟩, fun _ => trivial⟩

theorem keeps_updateConnectionCredentials (request : Request δ) :
    Keeps (L.Permits (.request (.updateConnectionCredentials request))) (fun _ _ => True) []
      (L.updateConnectionCredentials request).run := by
  refine keeps_credentialSlot rfl (fun _ _ => trivial) fun principal policy hprincipal hadmits => ?_
  exact ⟨permits_call hprincipal ⟨rfl, hadmits⟩, fun _ => trivial⟩

theorem keeps_authenticateConnection (request : Request δ) :
    Keeps (L.Permits (.request (.authenticateConnection request))) (fun _ _ => True) []
      (L.authenticateConnection request).run := by
  refine keeps_credentialSlot rfl (fun _ _ => trivial) fun principal policy hprincipal hadmits => ?_
  exact ⟨permits_call hprincipal ⟨rfl, hadmits⟩, fun _ => trivial⟩

theorem keeps_serve (call : Call δ) :
    Keeps (L.Permits (.request call)) (fun _ _ => True) [] (L.serve call).run := by
  cases call with
  | data request =>
    cases request with
    | addressed verb request => exact keeps_addressed verb request
    | checkAccess request => exact keeps_checkAccess request
    | copy request => exact keeps_copy request
    | rename request => exact keeps_rename request
    | rootInfoFor url cx => exact keeps_rootInfoFor url cx
  | listAddressRoots cx => exact keeps_listAddressRoots cx
  | listConnections cx => exact keeps_listConnections cx
  | updateConnectionCredentials request => exact keeps_updateConnectionCredentials request
  | authenticateConnection request => exact keeps_authenticateConnection request

/-! ### Every run -/

variable (L) in
/-- What a thread runs. -/
def prog : Op δ → Prog (Act.Answer (δ := δ))
  | .request call => (L.serve call).run.thread
  | .reload => .act .reload fun _ => .ret

/-- The actions on the live policy; the inner layer may answer anything. A document that does not parse
leaves the policy as it is. -/
def exec {ι : Type} (_ : ι) : (a : Act δ) → a.Answer → Policy → Option Policy
  | .load, loaded, policy => if loaded = policy then some policy else none
  | .call _, _, policy => some policy
  | .reload, parsed, policy => some (parsed.getD policy)

theorem follows_prog (op : Op δ) : (L.prog op).Follows (L.Permits op) [] := by
  cases op with
  | request call => exact (keeps_serve call).follows
  | reload => exact ⟨rfl, fun _ => trivial⟩

/-- Nobody is in a call, and a policy is live. -/
def Starts {ι : Type} (s : Threads ι Policy (Act.Answer (δ := δ))) : Prop := ∀ t, s.progs t = .ret

variable (L) in
/-- The runs of the layer: requests, reloads, and what the inner layer answers, in any order. -/
abbrev Runs {ι : Type} [DecidableEq ι] [DecidableEq δ] (trace : List (Event ι (Op δ) (Act.Answer (δ := δ))))
    (s : Threads ι Policy (Act.Answer (δ := δ))) : Prop :=
  Run Starts (fun s l s' => s.step exec L.prog l = some s') trace s

/-- A run from idle threads, by executing its trace. -/
theorem runs_of_any {ι : Type} [DecidableEq ι] [DecidableEq δ] (policy : Policy)
    {trace : List (Event ι (Op δ) (Act.Answer (δ := δ)))} {p : Threads ι Policy (Act.Answer (δ := δ)) → Bool}
    (h : (trace.foldlM (fun s l => Threads.step exec L.prog s l) (.idle policy)).any p = true) :
    ∃ s, L.Runs trace s ∧ p s = true :=
  Run.of_any (fun _ _ _ hstep => hstep) (fun _ => rfl) h

section Theorem

variable {ι : Type} [DecidableEq ι] [DecidableEq δ] {trace pre post : List (Event ι (Op δ) (Act.Answer (δ := δ)))}
  {s : Threads ι Policy (Act.Answer (δ := δ))} {t : ι}

/-- The policy was live at an instant behind `before` and not behind the end of `during`. -/
def LiveDuring (L : BuiltinAuthLayer) (policy : Policy) (t : ι)
    (before during : List (Event ι (Op δ) (Act.Answer (δ := δ)))) (op : Op δ) : Prop :=
  ∃ first rest state, during = first ++ rest ∧ L.Runs (before ++ .call t op :: first) state ∧ state.shared = policy

variable {before during : List (Event ι (Op δ) (Act.Answer (δ := δ)))}

/-- What the thread has loaded was live. -/
theorem live_of_load {policy : Policy} {op : Op δ} (h : L.Runs trace s) (hsince : Since t trace before op during)
    (hload : .act t .load policy ∈ during) : L.LiveDuring policy t before during op := by
  obtain ⟨first, rest, rfl⟩ := List.mem_iff_append.mp hload
  rw [hsince.split, show before ++ .call t op :: (first ++ .act t .load policy :: rest) =
    (before ++ .call t op :: first) ++ .act t .load policy :: rest by simp] at h
  obtain ⟨s₀, s₁, hrun, hstep⟩ := h.split
  refine ⟨first, _, s₀, rfl, hrun, ?_⟩
  simp only [Threads.step] at hstep
  split at hstep
  next a k hprogs =>
    split_ifs at hstep with ha
    subst ha
    obtain ⟨policy', hexec, -⟩ := Option.map_eq_some_iff.mp hstep
    simp only [exec] at hexec
    split_ifs at hexec with heq
    exact heq.symm
  next => cases hstep

/-- What a call of a data verb on the inner layer is, and what came before it. -/
structure Mediated (L : BuiltinAuthLayer) (t : ι) (pre before during : List (Event ι (Op δ) (Act.Answer (δ := δ))))
    (request call : DataCall δ) (policy : Policy) (principal : ResolvedPrincipal) : Prop where
  /-- It is made in the course of a request for the same verb. -/
  since : Since t pre before (.request (.data request)) during
  live : L.LiveDuring policy t before during (.request (.data request))
  resolved : L.resolvePrincipal request.extensions = .ok principal
  /-- But for the addresses and the extensions, the request is passed on as it came. -/
  delegated : call = L.delegated principal request
  /-- The policy judged the addresses that are passed on. -/
  admitted : L.Admits policy principal.id call
  canonical : ∀ demand ∈ call.demands, canonicalize L.urls demand.2 = demand.2
  no_credential : call.extensions.get ext.AUTH_CREDENTIAL = none
  principal_id : call.extensions.get ext.PRINCIPAL_ID = some (utf8 principal.id)

/-- The request is refused: no principal, or a policy that does not allow it. -/
def Refused (L : BuiltinAuthLayer) (t : ι) (request : DataCall δ)
    (during : List (Event ι (Op δ) (Act.Answer (δ := δ)))) : Prop :=
  ∀ principal, L.resolvePrincipal request.extensions = .ok principal →
    ∃ policy, .act t .load policy ∈ during ∧ ¬L.Admits policy principal.id (L.delegated principal request)

theorem get_stamp_credential (cx : Extensions) (principal : ResolvedPrincipal) :
    (stamp cx principal).get ext.AUTH_CREDENTIAL = none := by
  unfold stamp
  cases principal.displayName with
  | none => rw [Table.get_insert_of_ne _ _ (by decide), Table.get_erase_self]
  | some name =>
    rw [Table.get_insert_of_ne _ _ (by decide), Table.get_insert_of_ne _ _ (by decide), Table.get_erase_self]

theorem get_stamp_principal (cx : Extensions) (principal : ResolvedPrincipal) :
    (stamp cx principal).get ext.PRINCIPAL_ID = some (utf8 principal.id) := by
  unfold stamp
  cases principal.displayName with
  | none => rw [Table.get_insert_self]
  | some name => rw [Table.get_insert_of_ne _ _ (by decide), Table.get_insert_self]

/-- What a request has done before an action of it. -/
theorem permits_of_run {a : Act δ} {r : a.Answer} (h : L.Runs (pre ++ .act t a r :: post) s) :
    ∃ before op during, Since t pre before op during ∧ L.Permits op (actsOf t during) a :=
  Threads.allowed_of_run follows_prog (fun _ hs => hs) (fun _ _ _ hstep => hstep) h

/-- What a request has done before one of its actions. -/
theorem permits_of_since {op : Op δ}
    (h : L.Runs trace s) (hsince : Since t trace before op during) {first rest : History (Act.Answer (δ := δ))}
    {a : Act δ} {r : a.Answer} (hacts : actsOf t during = first ++ ⟨a, r⟩ :: rest) : L.Permits op first a :=
  Threads.allowed_of_since follows_prog (fun _ hs => hs) (fun _ _ _ hstep => hstep) h hsince hacts

omit [DecidableEq δ] in
/-- A data verb is called in the course of a request for it. -/
theorem Passes.of_data {policy : Policy} {principal : ResolvedPrincipal} {outer : Call δ} {call : DataCall δ}
    (h : L.Passes policy principal outer (.data call)) : ∃ request, outer = .data request ∧
      call = L.delegated principal request ∧ L.Admits policy principal.id (L.delegated principal request) := by
  cases outer with
  | data request => exact ⟨request, rfl, Call.data.inj h.1, h.2⟩
  | _ => cases h.1

/-- A call of the inner layer is made in the course of a request, which has loaded one policy. -/
theorem passes_of_run {inner : Call δ} {r : Except Error inner.Answer}
    (h : L.Runs (pre ++ .act t (.call inner) r :: post) s) :
    ∃ before outer during policy principal, Since t pre before (.request outer) during ∧
      actsOf t during = [⟨.load, policy⟩] ∧ L.resolvePrincipal outer.extensions = .ok principal ∧
      L.Passes policy principal outer inner := by
  obtain ⟨before, op, during, hsince, hpermits⟩ := permits_of_run h
  cases op with
  | reload => cases hpermits
  | request outer =>
    obtain ⟨policy, principal, hacts, hresolved, hpasses⟩ := hpermits
    exact ⟨before, outer, during, policy, principal, hsince, hacts, hresolved, hpasses⟩

/-- The data verbs of the inner layer are called with what one live policy allows, and not at all for a
request that is refused. -/
theorem data_calls_mediated (law : L.urls.Lawful) (h : L.Runs trace s) :
    (∀ pre t call r post, trace = pre ++ .act t (.call (.data call)) r :: post →
      ∃ before request during policy principal, L.Mediated t pre before during request call policy principal) ∧
    ∀ t before request during, Since t trace before (.request (.data request)) during → L.Refused t request during →
      ∀ call r, .act t (.call call) r ∉ during := by
  constructor
  · rintro pre t call r post rfl
    obtain ⟨before, outer, during, policy, principal, hsince, hacts, hresolved, hpasses⟩ := passes_of_run h
    obtain ⟨request, rfl, rfl, hadmits⟩ := hpasses.of_data
    have hload : .act t .load policy ∈ during := mem_actsOf.mp (hacts ▸ List.mem_singleton_self _)
    obtain ⟨s₀, -, hrun, -⟩ := h.split
    refine ⟨before, request, during, policy, principal, hsince, live_of_load hrun hsince hload, hresolved, rfl, hadmits,
      ?_, ?_, ?_⟩
    · intro demand hdemand
      rw [delegated, DataCall.demands_rewrite, List.mem_map] at hdemand
      obtain ⟨demand, -, rfl⟩ := hdemand
      exact canonicalize_idem law demand.2
    · rw [delegated, DataCall.extensions_rewrite]
      exact get_stamp_credential _ _
    · rw [delegated, DataCall.extensions_rewrite]
      exact get_stamp_principal _ _
  · intro t before request during hsince hrefused call r hmem
    obtain ⟨first, rest, hacts⟩ := List.mem_iff_append.mp (mem_actsOf.mpr hmem)
    obtain ⟨policy, principal, rfl, hresolved, -, hadmits⟩ := permits_of_since h hsince hacts
    obtain ⟨policy', hload, hdenied⟩ := hrefused principal hresolved
    have hloaded := mem_actsOf.mpr hload
    rw [hacts, List.singleton_append, List.mem_cons, List.mem_cons] at hloaded
    rcases hloaded with heq | heq | hlater
    · cases heq
      exact hdenied hadmits
    · cases heq
    · -- nothing is loaded behind the call
      obtain ⟨between, last, rfl⟩ := List.mem_iff_append.mp hlater
      have hsplit : actsOf t during =
          ([⟨.load, policy⟩] ++ ⟨.call call, r⟩ :: between) ++ ⟨.load, policy'⟩ :: last := by simp [hacts]
      have hempty : L.Permits (.request (.data request)) ([⟨.load, policy⟩] ++ ⟨.call call, r⟩ :: between) .load :=
        permits_of_since h hsince hsplit
      cases hempty

end Theorem

/-- A layer that knows nobody. -/
def anonymousLayer : BuiltinAuthLayer := ⟨fun _ => .ok ⟨"anonymous", none⟩, reference, .ascii, false⟩

/-- Everything is allowed. -/
def openPolicy : Policy := ⟨[⟨utf8 "open", .Allow, [star], none, none, none, 0⟩], none⟩

/-- Nothing is allowed. -/
def closedPolicy : Policy := ⟨[], none⟩

/-- A `stat` of `file:///data/%2E%2E%2Fpub%6Cic/#top`. -/
def statEscaped : DataCall Unit := .addressed .stat ⟨.empty, escapedPublic, ()⟩

/-- The policy is closed behind the `stat`'s back. -/
def closedMeanwhile : List (Event Bool (Op Unit) (Act.Answer (δ := Unit))) :=
  [.call false (.request (.data statEscaped)), .act false .load openPolicy, .call true .reload,
    .act true .reload (some closedPolicy)]

/-- The `stat` goes on with the policy it has loaded. -/
theorem data_calls_mediated_reload :
    ∃ before request during policy principal, anonymousLayer.Mediated false closedMeanwhile before during request
      (anonymousLayer.delegated ⟨"anonymous", none⟩ statEscaped) policy principal := by
  obtain ⟨s, hrun, -⟩ : ∃ s, anonymousLayer.Runs (closedMeanwhile ++
      [.act false (.call (.data (anonymousLayer.delegated ⟨"anonymous", none⟩ statEscaped))) (.ok ())]) s ∧
        (s.shared == closedPolicy) = true :=
    runs_of_any openPolicy (by decide +kernel)
  exact (data_calls_mediated reference_lawful hrun).1 closedMeanwhile false _ _ [] rfl

end BuiltinAuthLayer

end OvStorage.Authz
