import OvStorage.Authz.Gate

/-!
# Attribution of writes

`AttributionWrapper` of `ovstorage-authz/src/attribution.rs`, over any inner layer, and
`reassert_attribution` with the reserved namespace of `ovstorage-layer/src/attribution.rs`.

## The model

A layer is a record of its verbs in some monad, and the wrapper makes a layer of a layer. `α` is what
addresses are, and `δ` what requests and answers carry along and the wrapper never reads. `lossy` is
`String::from_utf8_lossy`, and any function will do.

Below it stands a backend that stores metadata maps as they come. Its verbs are atomic; a request
that fails leaves everything as it was, and a listing names whatever it likes.
-/

namespace OvStorage.Authz.Attribution

open Address Function Table

abbrev UserMetadata := Table String String

/-- `ATTRIBUTION_KEY_MODIFIED_BY`. -/
def ATTRIBUTION_KEY_MODIFIED_BY : String := "ovstorage_modified_by"

/-- `RESERVED_METADATA_PREFIX`. -/
def RESERVED_METADATA_PREFIX : String := "ovstorage_"

/-- `MESSAGE_METADATA_KEY`. -/
def MESSAGE_METADATA_KEY : String := "x_ov_message"

/-- `ext::ATTRIBUTED_MODIFIED_BY`. -/
def ATTRIBUTED_MODIFIED_BY : String := "org.omniverse.ovstorage/attributed_modified_by@1"

/-- `is_reserved_metadata_key`. -/
def isReservedMetadataKey (key : String) : Bool :=
  RESERVED_METADATA_PREFIX.toList.isPrefixOf (key.toList.map Char.toLower)

/-- `strip_reserved_metadata`. -/
def stripReservedMetadata (map : UserMetadata) : UserMetadata := map.retain fun key _ => !isReservedMetadataKey key

/-- `reassert_attribution`. -/
def reassertAttribution (attested : Option String) (metadata : Option UserMetadata) : Option UserMetadata :=
  match attested with
  | none => metadata
  | some principal => some ((stripReservedMetadata (metadata.getD .empty)).insert ATTRIBUTION_KEY_MODIFIED_BY principal)

/-! ### What is passed around -/

/-- `WriteOptions`. -/
structure WriteOptions (δ : Type) where
  userMetadata : Option UserMetadata
  message : Option String
  rest : δ

/-- `WriteRequest`. -/
structure WriteRequest (α δ : Type) where
  address : α
  options : WriteOptions δ
  rest : δ

/-- `UpdateMetadataOptions`. -/
structure UpdateMetadataOptions (δ : Type) where
  userMetadataSet : UserMetadata
  userMetadataRemove : List String
  message : Option String
  rest : δ

/-- `UpdateMetadataRequest`. -/
structure UpdateMetadataRequest (α δ : Type) where
  address : α
  options : UpdateMetadataOptions δ

/-- `CopyRequest`. -/
structure CopyRequest (α δ : Type) where
  source : α
  destination : α
  rest : δ

/-- `StatRequest`, `ReadRequest`, `ListRequest` and the others with one address. -/
structure AddressRequest (α δ : Type) where
  address : α
  rest : δ

/-- `ObjectInfo`. -/
structure ObjectInfo (α δ : Type) where
  address : α
  userMetadata : Option UserMetadata
  modifiedBy : Option String
  rest : δ

/-- `BackendItemInfo`. -/
structure BackendItemInfo (δ : Type) where
  userMetadata : Option UserMetadata
  modifiedBy : Option String
  rest : δ

/-- `ReadResult`. -/
inductive ReadResult (α δ : Type)
  | Bytes (bytes : δ) (info : ObjectInfo α δ)
  | Stream (stream : δ) (info : ObjectInfo α δ)
  | LocalDelegate (file : δ) (info : ObjectInfo α δ)
  | Redirect (redirect : δ)

/-- `WriteStep`. -/
inductive WriteStep (α δ : Type)
  | Done (info : ObjectInfo α δ)
  | Redirects (batch : δ)

/-- `ErrorCode`. -/
inductive ErrorCode
  | NotFound
  | NotConfigured
  | Unsupported
  | other (code : ℕ)
deriving DecidableEq

/-- `Layer`, as far as the wrapper implements it, and `delete`. -/
structure Layer (M : Type → Type) (α δ : Type) where
  stat : Request (AddressRequest α δ) → M (ObjectInfo α δ)
  read : Request (AddressRequest α δ) → M (ReadResult α δ)
  materialize : Request (AddressRequest α δ) → M (δ × ObjectInfo α δ)
  write : Request (WriteRequest α δ) → M (ObjectInfo α δ)
  writeStream : Request (WriteRequest α δ) → M (ObjectInfo α δ)
  writeRedirect : Request (WriteRequest α δ) → M δ
  continueWrite : Request δ → M (WriteStep α δ)
  copy : Request (CopyRequest α δ) → M (WriteStep α δ)
  delete : Request (AddressRequest α δ) → M Unit
  updateMetadata : Request (UpdateMetadataRequest α δ) → M (BackendItemInfo δ)
  createDirectory : Request (AddressRequest α δ) → M (BackendItemInfo δ)
  list : Request (AddressRequest α δ) → M (List (ObjectInfo α δ))
  listStream : Request (AddressRequest α δ) → M (List (Except ErrorCode (ObjectInfo α δ)))
  listVersions : Request (AddressRequest α δ) → M (List (ObjectInfo α δ))
  getLatestVersion : Request (AddressRequest α δ) → M (ObjectInfo α δ)

/-! ### The overlay -/

/-- `AttributionStrategy`. -/
inductive AttributionStrategy
  | UserMetadata
  | Passthrough
  | ExternalDb
deriving DecidableEq

/-- `AttributionLayer`. -/
structure AttributionLayer where
  strategy : AttributionStrategy
  implemented : strategy ≠ .ExternalDb

/-- `AttributionLayer::new`. -/
def AttributionLayer.new (strategy : AttributionStrategy) : Except ErrorCode AttributionLayer :=
  if h : strategy = .ExternalDb then .error .NotConfigured else .ok ⟨strategy, h⟩

namespace AttributionLayer

variable {α δ : Type} (overlay : AttributionLayer)

/-- `stamp_write`. -/
def stampWrite (principal : String) (opts : WriteOptions δ) : WriteOptions δ :=
  if overlay.strategy ≠ .UserMetadata then opts
  else
    let map := stripReservedMetadata (opts.userMetadata.getD .empty)
    { opts with userMetadata := some (map.insert ATTRIBUTION_KEY_MODIFIED_BY principal) }

/-- `stamp_continue_write`. -/
def stampContinueWrite (principal : String) (extensions : Extensions) : Extensions :=
  if overlay.strategy ≠ .UserMetadata then extensions else extensions.insert ATTRIBUTED_MODIFIED_BY (utf8 principal)

/-- `assert_reported_attribution`. -/
def assertReportedAttribution (principal : String) (info : ObjectInfo α δ) : ObjectInfo α δ :=
  if overlay.strategy ≠ .UserMetadata then info
  else { info with userMetadata := reassertAttribution (some principal) info.userMetadata }

/-- `stamp_update_metadata`. -/
def stampUpdateMetadata (principal : String) (opts : UpdateMetadataOptions δ) : UpdateMetadataOptions δ :=
  if overlay.strategy ≠ .UserMetadata then opts
  else
    { opts with
      userMetadataSet := (stripReservedMetadata opts.userMetadataSet).insert ATTRIBUTION_KEY_MODIFIED_BY principal
      userMetadataRemove := opts.userMetadataRemove.filter fun key => !isReservedMetadataKey key }

/-- `unwrap_fields`. -/
def unwrapFields (userMetadata : Option UserMetadata) (modifiedBy : Option String) :
    Option UserMetadata × Option String :=
  if overlay.strategy ≠ .UserMetadata then (userMetadata, modifiedBy)
  else
    match userMetadata with
    | none => (none, modifiedBy)
    | some map =>
      let modifiedBy := match map.get ATTRIBUTION_KEY_MODIFIED_BY with
        | some value => some value
        | none => modifiedBy
      let map := (map.erase ATTRIBUTION_KEY_MODIFIED_BY).retain fun key _ => !isReservedMetadataKey key
      (if map.rows.isEmpty then none else some map, modifiedBy)

/-- `unwrap_read`. -/
def unwrapRead (info : ObjectInfo α δ) : ObjectInfo α δ :=
  let (userMetadata, modifiedBy) := overlay.unwrapFields info.userMetadata info.modifiedBy
  { info with userMetadata, modifiedBy }

/-- `unwrap_item`. -/
def unwrapItem (item : BackendItemInfo δ) : BackendItemInfo δ :=
  let (userMetadata, modifiedBy) := overlay.unwrapFields item.userMetadata item.modifiedBy
  { item with userMetadata, modifiedBy }

/-! ### The wrapper -/

variable (lossy : Bytes → String) {M : Type → Type} [Monad M] (inner : Layer M α δ)

/-- The principal of a write goes into its options. -/
def stampedWrite (request : Request (WriteRequest α δ)) : Request (WriteRequest α δ) :=
  let principal := stampedPrincipal lossy request.extensions
  { request with input := { request.input with options := overlay.stampWrite principal request.input.options } }

/-- `AttributionWrapper`. -/
def wrap : Layer M α δ where
  stat request := do return overlay.unwrapRead (← inner.stat request)
  read request := do
    match ← inner.read request with
    | .Bytes bytes info => return .Bytes bytes (overlay.unwrapRead info)
    | .Stream stream info => return .Stream stream (overlay.unwrapRead info)
    | .LocalDelegate file info => return .LocalDelegate file (overlay.unwrapRead info)
    | .Redirect redirect => return .Redirect redirect
  materialize request := do
    let (file, info) ← inner.materialize request
    return (file, overlay.unwrapRead info)
  write request := do return overlay.unwrapRead (← inner.write (overlay.stampedWrite lossy request))
  writeStream request := do return overlay.unwrapRead (← inner.writeStream (overlay.stampedWrite lossy request))
  writeRedirect request := inner.writeRedirect (overlay.stampedWrite lossy request)
  continueWrite request := do
    let principal := stampedPrincipal lossy request.extensions
    match ← inner.continueWrite
      { request with extensions := overlay.stampContinueWrite principal request.extensions } with
    | .Done info => return .Done (overlay.unwrapRead (overlay.assertReportedAttribution principal info))
    | .Redirects batch => return .Redirects batch
  copy request := do
    match ← inner.copy request with
    | .Done info => return .Done (overlay.unwrapRead info)
    | .Redirects batch => return .Redirects batch
  delete := inner.delete
  updateMetadata request := do
    let principal := stampedPrincipal lossy request.extensions
    let options := overlay.stampUpdateMetadata principal request.input.options
    return overlay.unwrapItem (← inner.updateMetadata { request with input := { request.input with options } })
  createDirectory request := do return overlay.unwrapItem (← inner.createDirectory request)
  list request := do return (← inner.list request).map overlay.unwrapRead
  listStream request := do return (← inner.listStream request).map fun entry => entry.map overlay.unwrapRead
  listVersions request := do return (← inner.listVersions request).map overlay.unwrapRead
  getLatestVersion request := do return overlay.unwrapRead (← inner.getLatestVersion request)

end AttributionLayer

/-! ### A backend that stores metadata as it comes -/

abbrev Store (α : Type) := Table α UserMetadata

/-- A verb of the backend is one step on its objects. -/
abbrev Atomic (α : Type) := ExceptT ErrorCode (StateM (Store α))

inductive Shape
  | Bytes
  | Stream
  | LocalDelegate
  | Redirect

/-- What the backend is free to do with a request. -/
structure Fate (α δ : Type) where
  error : Option ErrorCode
  rest : δ
  /-- The identity that the backend itself knows. -/
  native : Option String
  /-- The metadata of objects is reported. -/
  full : Bool
  listed : List (Except ErrorCode α)
  shape : Shape
  redirects : Bool

/-- The caller's own map with the annotation, unless it has one. -/
def annotated (message : Option String) (own map : UserMetadata) : UserMetadata :=
  match message with
  | none => map
  | some text =>
    if text.isEmpty || (own.get MESSAGE_METADATA_KEY).isSome then map else map.insert MESSAGE_METADATA_KEY text

/-- The patch of `update_metadata`. -/
def patched {δ : Type} (opts : UpdateMetadataOptions δ) (map : UserMetadata) : UserMetadata :=
  annotated opts.message opts.userMetadataSet
    (opts.userMetadataSet.rows.foldl (fun map row => map.insert row.1 row.2)
      (opts.userMetadataRemove.foldl Table.erase map))

namespace Fate

variable {α δ : Type} [DecidableEq α] (fate : Fate α δ)

/-- The request may fail before anything is done. -/
def mayFail : Atomic α Unit :=
  match fate.error with
  | some error => throw error
  | none => pure ()

/-- What is reported of an address: an object, or a directory without metadata. -/
def info (address : α) : Option UserMetadata → ObjectInfo α δ
  | some map => if fate.full then ⟨address, some map, fate.native, fate.rest⟩ else ⟨address, none, none, fate.rest⟩
  | none => ⟨address, none, fate.native, fate.rest⟩

/-- The object at an address. -/
def object (address : α) : Atomic α UserMetadata := do
  match (← get).get address with
  | some map => return map
  | none => throw .NotFound

/-- Put an object, and report it. -/
def put (address : α) (map : UserMetadata) : Atomic α (ObjectInfo α δ) := do
  modify fun store => store.insert address map
  return fate.info address (some map)

def commit (request : Request (WriteRequest α δ)) : Atomic α (ObjectInfo α δ) := do
  fate.mayFail
  let own := request.input.options.userMetadata.getD .empty
  fate.put request.input.address (annotated request.input.options.message own own)

def report (request : Request (AddressRequest α δ)) : Atomic α (ObjectInfo α δ) := do
  fate.mayFail
  let map ← object request.input.address
  return fate.info request.input.address (some map)

/-- The backend. -/
def backend : Layer (Atomic α) α δ where
  stat := fate.report
  read request := do
    let info ← fate.report request
    match fate.shape with
    | .Bytes => return .Bytes fate.rest info
    | .Stream => return .Stream fate.rest info
    | .LocalDelegate => return .LocalDelegate fate.rest info
    | .Redirect => return .Redirect fate.rest
  materialize _ := throw .Unsupported
  write := fate.commit
  writeStream := fate.commit
  writeRedirect _ := throw .Unsupported
  continueWrite _ := throw .Unsupported
  copy request := do
    fate.mayFail
    let map ← object request.input.source
    if fate.redirects then return .Redirects fate.rest
    else return .Done (← fate.put request.input.destination map)
  delete request := do
    fate.mayFail
    modify fun store => store.erase request.input.address
  updateMetadata request := do
    fate.mayFail
    let map ← object request.input.address
    let info ← fate.put request.input.address (patched request.input.options map)
    return ⟨info.userMetadata, info.modifiedBy, info.rest⟩
  createDirectory _ := throw .Unsupported
  list _ := do
    fate.mayFail
    let store ← get
    return fate.listed.filterMap fun entry => entry.toOption.map fun address => fate.info address (store.get address)
  listStream _ := do
    fate.mayFail
    let store ← get
    return fate.listed.map fun entry => entry.map fun address => fate.info address (store.get address)
  listVersions _ := throw .Unsupported
  getLatestVersion _ := throw .Unsupported

end Fate

/-! ### Runs -/

/-- A request to the wrapper. -/
inductive Call (α δ : Type)
  | write (request : Request (WriteRequest α δ))
  | writeStream (request : Request (WriteRequest α δ))
  | updateMetadata (request : Request (UpdateMetadataRequest α δ))
  | copy (request : Request (CopyRequest α δ))
  | delete (request : Request (AddressRequest α δ))
  | stat (request : Request (AddressRequest α δ))
  | read (request : Request (AddressRequest α δ))
  | list (request : Request (AddressRequest α δ))
  | listStream (request : Request (AddressRequest α δ))

section Runs

variable {α δ : Type}

/-- The infos that an answer carries. -/
def ReadResult.infos : ReadResult α δ → List (ObjectInfo α δ)
  | .Bytes _ info | .Stream _ info | .LocalDelegate _ info => [info]
  | .Redirect _ => []

def WriteStep.infos : WriteStep α δ → List (ObjectInfo α δ)
  | .Done info => [info]
  | .Redirects _ => []

/-- What a layer surfaces for a request. -/
def Layer.surfaced {M : Type → Type} [Monad M] (layer : Layer M α δ) : Call α δ → M (List (ObjectInfo α δ))
  | .write request => do return [← layer.write request]
  | .writeStream request => do return [← layer.writeStream request]
  | .updateMetadata request => do
    let item ← layer.updateMetadata request
    return [⟨request.input.address, item.userMetadata, item.modifiedBy, item.rest⟩]
  | .copy request => do return (← layer.copy request).infos
  | .delete request => do
    layer.delete request
    return []
  | .stat request => do return [← layer.stat request]
  | .read request => do return (← layer.read request).infos
  | .list request => layer.list request
  | .listStream request => do return (← layer.listStream request).filterMap Except.toOption

/-- A request, what the backend does with it, and whether it succeeds. -/
structure Event (α δ : Type) where
  call : Call α δ
  fate : Fate α δ
  succeeded : Bool

variable [DecidableEq α] (overlay : AttributionLayer) (lossy : Bytes → String)

/-- What is surfaced, and what is stored then. -/
def Event.result (e : Event α δ) (store : Store α) : Except ErrorCode (List (ObjectInfo α δ)) × Store α :=
  ((overlay.wrap lossy e.fate.backend).surfaced e.call).run.run store

/-- One request. -/
def Event.step (e : Event α δ) (store store' : Store α) : Prop :=
  (e.result overlay lossy store).2 = store' ∧ (e.result overlay lossy store).1.isOk = e.succeeded

/-- Any requests, over a backend that starts empty. -/
abbrev Runs : List (Event α δ) → Store α → Prop :=
  Run (· = Table.empty) fun store e store' => e.step overlay lossy store store'

/-- Who wrote what last, after a request. -/
def recorded (writers : α → Option String) (e : Event α δ) : α → Option String :=
  if e.succeeded then
    match e.call with
    | .write request | .writeStream request =>
      update writers request.input.address (some (stampedPrincipal lossy request.extensions))
    | .updateMetadata request => update writers request.input.address (some (stampedPrincipal lossy request.extensions))
    | .copy request =>
      if e.fate.redirects then writers else update writers request.input.destination (writers request.input.source)
    | .delete request => update writers request.input.address none
    | _ => writers
  else writers

def lastWriter (trace : List (Event α δ)) : α → Option String := trace.foldl (recorded lossy) fun _ => none

end Runs

/-! ### What a request does -/

section Effects

variable {α δ β : Type} [DecidableEq α] {overlay : AttributionLayer} {lossy : Bytes → String} {store store' : Store α}
  {fate : Fate α δ}

omit [DecidableEq α] in
theorem run_mayFail_bind (f : Unit → Atomic α β) : (fate.mayFail >>= f).run.run store =
    match fate.error with
    | some error => (.error error, store)
    | none => (f ()).run.run store := by
  unfold Fate.mayFail
  cases fate.error <;> rfl

theorem run_object_bind (address : α) (f : UserMetadata → Atomic α β) : (Fate.object address >>= f).run.run store =
    match store.get address with
    | some map => (f map).run.run store
    | none => (.error .NotFound, store) := by
  have hget : (Fate.object address >>= f).run.run store = ((match store.get address with
    | some map => pure map
    | none => throw .NotFound : Atomic α UserMetadata) >>= f).run.run store := rfl
  rw [hget]
  cases store.get address <;> rfl

/-- What a request that succeeds does to the objects. -/
def Event.Effect (overlay : AttributionLayer) (lossy : Bytes → String) (e : Event α δ) (store store' : Store α) :
    Prop :=
  match e.call with
  | .write request | .writeStream request =>
    let options := (overlay.stampedWrite lossy request).input.options
    let own := options.userMetadata.getD .empty
    store' = store.insert request.input.address (annotated options.message own own)
  | .updateMetadata request => ∃ map, store.get request.input.address = some map ∧
    store' = store.insert request.input.address
      (patched (overlay.stampUpdateMetadata (stampedPrincipal lossy request.extensions) request.input.options) map)
  | .copy request =>
    if e.fate.redirects then store' = store
    else ∃ map, store.get request.input.source = some map ∧ store' = store.insert request.input.destination map
  | .delete request => store' = store.erase request.input.address
  | _ => store' = store

/-- What is surfaced tells the objects as they are then. -/
def Event.Tells (overlay : AttributionLayer) (e : Event α δ) (infos : List (ObjectInfo α δ)) (store' : Store α) :
    Prop :=
  ∀ info ∈ infos, ∃ address, info = overlay.unwrapRead (e.fate.info address (store'.get address))

/-- A request that fails does nothing. -/
def Event.Does (overlay : AttributionLayer) (lossy : Bytes → String) (e : Event α δ) (store : Store α) :
    Except ErrorCode (List (ObjectInfo α δ)) × Store α → Prop
  | (.error _, store') => store' = store
  | (.ok infos, store') => e.Effect overlay lossy store store' ∧ e.Tells overlay infos store'

variable {e : Event α δ}

theorem tells_nil : e.Tells overlay [] store' := nofun

variable {info : ObjectInfo α δ}

theorem tells_singleton (address : α) (map : UserMetadata) (hmap : store'.get address = some map)
    (hinfo : info = overlay.unwrapRead (e.fate.info address (some map))) : e.Tells overlay [info] store' := by
  intro info' hinfo'
  obtain rfl := List.mem_singleton.mp hinfo'
  exact ⟨address, by rw [hmap, hinfo]⟩

theorem does_write (request : Request (WriteRequest α δ)) (b : Bool) :
    (⟨.write request, fate, b⟩ : Event α δ).Does overlay lossy store
      ((⟨.write request, fate, b⟩ : Event α δ).result overlay lossy store) := by
  simp only [Event.result, Layer.surfaced, AttributionLayer.wrap, Fate.backend, Fate.commit, bind_assoc,
    pure_bind, run_mayFail_bind]
  cases fate.error with
  | some error => rfl
  | none => exact ⟨rfl, tells_singleton request.input.address _ (get_insert_self ..) rfl⟩

theorem does_updateMetadata (request : Request (UpdateMetadataRequest α δ)) (b : Bool) :
    (⟨.updateMetadata request, fate, b⟩ : Event α δ).Does overlay lossy store
      ((⟨.updateMetadata request, fate, b⟩ : Event α δ).result overlay lossy store) := by
  simp only [Event.result, Layer.surfaced, AttributionLayer.wrap, Fate.backend, bind_assoc, pure_bind, run_mayFail_bind,
    run_object_bind]
  cases fate.error with
  | some error => rfl
  | none =>
    cases hmap : store.get request.input.address with
    | none => rfl
    | some map =>
      refine ⟨⟨map, hmap, rfl⟩, tells_singleton request.input.address _ (get_insert_self ..) ?_⟩
      unfold Fate.info
      split_ifs <;> rfl

theorem does_copy (request : Request (CopyRequest α δ)) (b : Bool) :
    (⟨.copy request, fate, b⟩ : Event α δ).Does overlay lossy store
      ((⟨.copy request, fate, b⟩ : Event α δ).result overlay lossy store) := by
  simp only [Event.result, Layer.surfaced, AttributionLayer.wrap, Fate.backend, bind_assoc, pure_bind, run_mayFail_bind,
    run_object_bind]
  cases fate.error with
  | some error => rfl
  | none =>
    cases hmap : store.get request.input.source with
    | none => rfl
    | some map =>
      dsimp only
      by_cases hredirects : fate.redirects = true
      · simp only [if_pos hredirects, pure_bind]
        exact ⟨(if_pos hredirects).mpr rfl, tells_nil⟩
      · simp only [if_neg hredirects]
        exact ⟨(if_neg hredirects).mpr ⟨map, hmap, rfl⟩,
          tells_singleton request.input.destination _ (get_insert_self ..) rfl⟩

/-- The verbs that report one object. -/
theorem does_report (request : Request (AddressRequest α δ)) (b : Bool) :
    (⟨.stat request, fate, b⟩ : Event α δ).Does overlay lossy store
      ((⟨.stat request, fate, b⟩ : Event α δ).result overlay lossy store) ∧
    (⟨.read request, fate, b⟩ : Event α δ).Does overlay lossy store
      ((⟨.read request, fate, b⟩ : Event α δ).result overlay lossy store) := by
  simp only [Event.result, Layer.surfaced, AttributionLayer.wrap, Fate.backend, Fate.report, bind_assoc,
    pure_bind, run_mayFail_bind,
    run_object_bind]
  cases fate.error with
  | some error => exact ⟨rfl, rfl⟩
  | none =>
    cases hmap : store.get request.input.address with
    | none => exact ⟨rfl, rfl⟩
    | some map =>
      refine ⟨⟨rfl, tells_singleton request.input.address map hmap rfl⟩, ?_⟩
      cases fate.shape with
      | Redirect => exact ⟨rfl, tells_nil⟩
      | _ => exact ⟨rfl, tells_singleton request.input.address map hmap rfl⟩

/-- The listings. -/
theorem does_list (request : Request (AddressRequest α δ)) (b : Bool) :
    (⟨.list request, fate, b⟩ : Event α δ).Does overlay lossy store
      ((⟨.list request, fate, b⟩ : Event α δ).result overlay lossy store) ∧
    (⟨.listStream request, fate, b⟩ : Event α δ).Does overlay lossy store
      ((⟨.listStream request, fate, b⟩ : Event α δ).result overlay lossy store) := by
  simp only [Event.result, Layer.surfaced, AttributionLayer.wrap, Fate.backend, bind_assoc, pure_bind, run_mayFail_bind]
  cases fate.error with
  | some error => exact ⟨rfl, rfl⟩
  | none =>
    refine ⟨⟨rfl, fun info hinfo => ?_⟩, rfl, fun info hinfo => ?_⟩
    · obtain ⟨told, htold, rfl⟩ := List.mem_map.mp hinfo
      obtain ⟨entry, -, hentry⟩ := List.mem_filterMap.mp htold
      obtain ⟨address, -, rfl⟩ := Option.map_eq_some_iff.mp hentry
      exact ⟨address, rfl⟩
    · obtain ⟨told, htold, hinfo⟩ := List.mem_filterMap.mp hinfo
      obtain ⟨entry', hentry', rfl⟩ := List.mem_map.mp htold
      obtain ⟨entry, -, rfl⟩ := List.mem_map.mp hentry'
      cases entry with
      | error error => cases hinfo
      | ok address => exact ⟨address, (Option.some.inj hinfo).symm⟩

theorem does_delete (request : Request (AddressRequest α δ)) (b : Bool) :
    (⟨.delete request, fate, b⟩ : Event α δ).Does overlay lossy store
      ((⟨.delete request, fate, b⟩ : Event α δ).result overlay lossy store) := by
  simp only [Event.result, Layer.surfaced, AttributionLayer.wrap, Fate.backend, bind_assoc, run_mayFail_bind]
  cases fate.error with
  | some error => rfl
  | none => exact ⟨rfl, tells_nil⟩

/-- What a request does. -/
theorem does_result (e : Event α δ) : e.Does overlay lossy store (e.result overlay lossy store) := by
  obtain ⟨call, fate, b⟩ := e
  cases call with
  | write request => exact does_write request b
  | writeStream request => exact does_write request b
  | updateMetadata request => exact does_updateMetadata request b
  | copy request => exact does_copy request b
  | delete request => exact does_delete request b
  | stat request => exact (does_report request b).1
  | read request => exact (does_report request b).2
  | list request => exact (does_list request b).1
  | listStream request => exact (does_list request b).2

/-! ### Who wrote what -/

/-- The map names its writer under the one reserved key that it has. -/
def Attributed (map : UserMetadata) (writer : String) : Prop :=
  map.get ATTRIBUTION_KEY_MODIFIED_BY = some writer ∧
    ∀ key, isReservedMetadataKey key = true → key ≠ ATTRIBUTION_KEY_MODIFIED_BY → map.get key = none

/-- The info shows nothing but the map without its reserved keys and its writer, and all of that where the backend
reports it. -/
structure Shows (full : Bool) (info : ObjectInfo α δ) (map : UserMetadata) : Prop where
  userMetadata : ∀ shown, info.userMetadata = some shown → shown = stripReservedMetadata map
  modifiedBy : ∀ writer, info.modifiedBy = some writer → map.get ATTRIBUTION_KEY_MODIFIED_BY = some writer
  all : full = true → info.userMetadata.getD .empty = stripReservedMetadata map ∧
    info.modifiedBy = map.get ATTRIBUTION_KEY_MODIFIED_BY

theorem reserved_modifiedBy : isReservedMetadataKey ATTRIBUTION_KEY_MODIFIED_BY = true := by decide +kernel

theorem not_reserved_message : isReservedMetadataKey MESSAGE_METADATA_KEY = false := by decide +kernel

variable {map : UserMetadata}

theorem get_stripReserved {key : String} (h : isReservedMetadataKey key = true) :
    (stripReservedMetadata map).get key = none := by
  rw [stripReservedMetadata, get_retain]
  cases map.get key <;> simp [Option.filter, h]

/-- The key of the writer is one of the reserved ones. -/
theorem strip_erased (map : UserMetadata) :
    ((map.erase ATTRIBUTION_KEY_MODIFIED_BY).retain fun key _ => !isReservedMetadataKey key) =
      stripReservedMetadata map := by
  unfold stripReservedMetadata Table.erase Table.retain
  congr 1
  rw [List.filter_filter]
  refine List.filter_congr fun row _ => ?_
  by_cases heq : row.1 = ATTRIBUTION_KEY_MODIFIED_BY
  · simp [heq, reserved_modifiedBy]
  · simp [heq]

/-- A stamp leaves one reserved key. -/
theorem attributed_stamped (map : UserMetadata) (writer : String) :
    Attributed ((stripReservedMetadata map).insert ATTRIBUTION_KEY_MODIFIED_BY writer) writer :=
  ⟨get_insert_self .., fun key hkey hne => by rw [get_insert_of_ne _ _ hne, get_stripReserved hkey]⟩

variable {writer : String}

/-- An annotation is none of it. -/
theorem Attributed.annotated {own : UserMetadata} (h : Attributed map writer) (message : Option String) :
    Attributed (annotated message own map) writer := by
  unfold Attribution.annotated
  split
  · exact h
  · split_ifs
    · exact h
    · have hne : ∀ key, isReservedMetadataKey key = true → key ≠ MESSAGE_METADATA_KEY := by
        rintro key hkey rfl
        rw [not_reserved_message] at hkey
        cases hkey
      refine ⟨?_, fun key hkey hother => ?_⟩
      · rw [get_insert_of_ne _ _ (hne _ reserved_modifiedBy)]
        exact h.1
      · rw [get_insert_of_ne _ _ (hne _ hkey)]
        exact h.2 key hkey hother

/-- A stamped patch names its principal. -/
theorem Attributed.patched (h : Attributed map writer) (hstrategy : overlay.strategy = .UserMetadata)
    (principal : String) (opts : UpdateMetadataOptions δ) :
    Attributed (patched (overlay.stampUpdateMetadata principal opts) map) principal := by
  refine Attributed.annotated ?_ _
  simp only [AttributionLayer.stampUpdateMetadata, hstrategy, ne_eq, not_true_eq_false, if_false]
  have hstamped := attributed_stamped opts.userMetadataSet principal
  refine ⟨?_, fun key hkey hne => ?_⟩
  · rw [get_foldl_insert, hstamped.1]
    rfl
  · rw [get_foldl_insert, hstamped.2 key hkey hne, Option.none_or, get_foldl_erase]
    split_ifs
    · rfl
    · exact h.2 key hkey hne

omit [DecidableEq α] in
/-- An info of a stored object, unwrapped. -/
theorem shows_unwrapRead (hstrategy : overlay.strategy = .UserMetadata) (h : Attributed map writer)
    (address : α) : Shows fate.full (overlay.unwrapRead (fate.info address (some map))) map := by
  unfold Fate.info
  split_ifs with hfull <;> simp only
    [AttributionLayer.unwrapRead, AttributionLayer.unwrapFields, hstrategy, ne_eq, not_true_eq_false, if_false, h.1,
    strip_erased]
  · refine ⟨fun shown hshown => ?_, fun writer' hwriter => hwriter ▸ h.1, fun _ => ⟨?_, h.1.symm⟩⟩
    · dsimp only at hshown
      split_ifs at hshown
      exact (Option.some.inj hshown).symm
    · dsimp only
      split_ifs with hempty
      · exact (eq_empty_of_rows (List.isEmpty_iff.mp hempty)).symm
      · rfl
  · exact ⟨nofun, nofun, fun h => absurd h hfull⟩

omit [DecidableEq α] in
theorem address_info (address : α) (map : Option UserMetadata) :
    (overlay.unwrapRead (fate.info address map)).address = address := by
  unfold Fate.info
  cases map with
  | none => rfl
  | some map => dsimp only; split_ifs <;> rfl

/-! ### Redirect writes -/

/-- What the wrapper makes of a step of a redirect write. -/
def AttributionLayer.finished (overlay : AttributionLayer) (principal : String) : WriteStep α δ → WriteStep α δ
  | .Done info => .Done (overlay.unwrapRead (overlay.assertReportedAttribution principal info))
  | .Redirects batch => .Redirects batch

omit [DecidableEq α] in
theorem continueWrite_eq {M : Type → Type} [Monad M] (lossy : Bytes → String) (inner : Layer M α δ)
    (request : Request δ) :
    (overlay.wrap lossy inner).continueWrite request = (do
      let stamped := stampedPrincipal lossy request.extensions
      return overlay.finished stamped (← inner.continueWrite
        { request with extensions := overlay.stampContinueWrite stamped request.extensions })) := by
  unfold AttributionLayer.wrap
  dsimp only
  congr 1
  funext step
  cases step <;> rfl

omit [DecidableEq α] in
/-- The principal stands over whatever the inner layer says. -/
theorem finished_reports (hstrategy : overlay.strategy = .UserMetadata) {principal : String} {step : WriteStep α δ}
    (h : overlay.finished principal step = .Done info) : info.modifiedBy = some principal := by
  cases step with
  | Redirects batch => cases h
  | Done told =>
    cases h
    simp [AttributionLayer.unwrapRead, AttributionLayer.unwrapFields, AttributionLayer.assertReportedAttribution,
      hstrategy, reassertAttribution]

/-! ### Runs over the backend -/

/-- The objects are attributed to who wrote them. -/
def Honest (store : Store α) (writers : α → Option String) : Prop :=
  ∀ address, match store.get address with
    | some map => ∃ writer, writers address = some writer ∧ Attributed map writer
    | none => writers address = none

variable {writers : α → Option String}

theorem Honest.stored (h : Honest store writers) {address : α}
    (hmap : store.get address = some map) : ∃ writer, writers address = some writer ∧ Attributed map writer := by
  have hstored := h address
  rw [hmap] at hstored
  exact hstored

theorem Honest.insert (h : Honest store writers) (address : α)
    (hmap : Attributed map writer) : Honest (store.insert address map) (update writers address (some writer)) := by
  intro address'
  by_cases heq : address' = address
  · rw [heq, get_insert_self, update_self]
    exact ⟨writer, rfl, hmap⟩
  · rw [get_insert_of_ne _ _ heq, update_of_ne heq]
    exact h address'

theorem Honest.erase (h : Honest store writers) (address : α) :
    Honest (store.erase address) (update writers address none) := by
  intro address'
  by_cases heq : address' = address
  · rw [heq, get_erase_self, update_self]
  · rw [get_erase_of_ne _ heq, update_of_ne heq]
    exact h address'

/-- A request that succeeds is recorded. -/
theorem Honest.effect (h : Honest store writers) (hstrategy : overlay.strategy = .UserMetadata)
    (hsucceeded : e.succeeded = true) (heffect : e.Effect overlay lossy store store') :
    Honest store' (recorded lossy writers e) := by
  obtain ⟨call, fate, b⟩ := e
  obtain rfl : b = true := hsucceeded
  have hwritten : ∀ request : Request (WriteRequest α δ),
      Attributed (((overlay.stampedWrite lossy request).input.options.userMetadata).getD .empty)
        (stampedPrincipal lossy request.extensions) := by
    intro request
    simp only [AttributionLayer.stampedWrite, AttributionLayer.stampWrite, hstrategy, ne_eq, not_true_eq_false,
      if_false, Option.getD_some]
    exact attributed_stamped _ _
  cases call with
  | write request =>
    obtain rfl := heffect
    exact h.insert request.input.address ((hwritten request).annotated _)
  | writeStream request =>
    obtain rfl := heffect
    exact h.insert request.input.address ((hwritten request).annotated _)
  | updateMetadata request =>
    obtain ⟨map, hmap, rfl⟩ := heffect
    obtain ⟨writer, -, hattributed⟩ := h.stored hmap
    exact h.insert request.input.address (hattributed.patched hstrategy _ _)
  | copy request =>
    simp only [Event.Effect] at heffect
    simp only [recorded, if_true]
    split_ifs at heffect ⊢
    · rw [heffect]
      exact h
    · obtain ⟨map, hmap, rfl⟩ := heffect
      obtain ⟨writer, hwriter, hattributed⟩ := h.stored hmap
      rw [hwriter]
      exact h.insert request.input.destination hattributed
  | delete request =>
    obtain rfl := heffect
    exact h.erase request.input.address
  | stat request =>
    obtain rfl := heffect
    exact h
  | read request =>
    obtain rfl := heffect
    exact h
  | list request =>
    obtain rfl := heffect
    exact h
  | listStream request =>
    obtain rfl := heffect
    exact h

/-- A request keeps the objects honest. -/
theorem Honest.step (h : Honest store writers) (hstrategy : overlay.strategy = .UserMetadata)
    (hstep : e.step overlay lossy store store') : Honest store' (recorded lossy writers e) := by
  obtain ⟨hstore, hok⟩ := hstep
  have hdoes : e.Does overlay lossy store (e.result overlay lossy store) := does_result e
  rcases hresult : e.result overlay lossy store with ⟨_ | _, store₁⟩
  · rw [hresult] at hstore hok hdoes
    obtain rfl : store₁ = store' := hstore
    obtain rfl : store₁ = store := hdoes
    have hfailed : e.succeeded = false := hok.symm
    simpa [recorded, hfailed] using h
  · rw [hresult] at hstore hok hdoes
    obtain rfl : store₁ = store' := hstore
    exact h.effect hstrategy hok.symm hdoes.1

theorem honest_of_runs (hstrategy : overlay.strategy = .UserMetadata) {trace : List (Event α δ)}
    (h : Runs overlay lossy trace store) :
    Honest store (lastWriter lossy trace) := by
  refine h.invariant (I := fun trace store => Honest store (lastWriter lossy trace)) (fun store hstore => ?_)
    fun trace store e store' _ hinv hstep => ?_
  · rw [hstore]
    exact fun _ => rfl
  · rw [lastWriter, List.foldl_concat]
    exact hinv.step hstrategy hstep

end Effects

/-- Each object holds its last writer under the one reserved key that it has; whatever a request surfaces of it is its
map without that key and that writer; and a finished redirect write reports the principal of the request. -/
theorem attribution_unforgeable {α δ : Type} [DecidableEq α] (overlay : AttributionLayer) (lossy : Bytes → String)
    (hstrategy : overlay.strategy = .UserMetadata) {trace : List (Event α δ)} {store : Store α}
    (h : Runs overlay lossy trace store) :
    (∀ address, match store.get address with
      | some map => ∃ writer, lastWriter lossy trace address = some writer ∧ Attributed map writer
      | none => lastWriter lossy trace address = none) ∧
    (∀ (e : Event α δ) infos store', e.result overlay lossy store = (.ok infos, store') →
      ∀ info ∈ infos, ∀ map, store'.get info.address = some map → Shows e.fate.full info map) ∧
    ∀ (M : Type → Type) [Monad M] (inner : Layer M α δ) (request : Request δ), ∃ (stamped : Request δ)
    (f : WriteStep α δ → WriteStep α δ),
      (overlay.wrap lossy inner).continueWrite request = (do return f (← inner.continueWrite stamped)) ∧
        ∀ step info, f step = .Done info → info.modifiedBy = some (stampedPrincipal lossy request.extensions) := by
  have hhonest := honest_of_runs hstrategy h
  refine ⟨hhonest, fun e infos store' hresult info hinfo map hmap => ?_, fun M _ inner request => ?_⟩
  · have hdoes : e.Does overlay lossy store (e.result overlay lossy store) := does_result e
    rw [hresult] at hdoes
    have hafter : Honest store' (recorded lossy (lastWriter lossy trace) { e with succeeded := true }) :=
      hhonest.effect hstrategy rfl hdoes.1
    obtain ⟨address, rfl⟩ := hdoes.2 info hinfo
    rw [address_info] at hmap
    obtain ⟨writer, -, hattributed⟩ := hafter.stored hmap
    rw [hmap]
    exact shows_unwrapRead hstrategy hattributed address
  · exact ⟨_, overlay.finished (stampedPrincipal lossy request.extensions), continueWrite_eq lossy inner request,
      fun step info hstep => finished_reports hstrategy hstep⟩

/-- A write that claims somebody else wrote it. -/
def forgedWrite : Event Unit Unit where
  call :=
    .write ⟨.empty, (), ⟨some (Table.empty.insert "OVSTORAGE_Modified_By" "mallory" |>.insert
      ATTRIBUTION_KEY_MODIFIED_BY "mallory"), none, ()⟩, ()⟩
  fate := ⟨none, (), none, true, [], .Bytes, false⟩
  succeeded := true

theorem attribution_unforgeable_once :
    ∃ store : Store Unit, Runs ⟨.UserMetadata, nofun⟩ (fun _ => "") [forgedWrite] store ∧
    ∀ map, store.get () = some map → ∃ writer, lastWriter (fun _ => "") [forgedWrite] () = some writer ∧
    Attributed map writer := by
  have hrun : Runs ⟨.UserMetadata, nofun⟩ (fun _ => "") ([] ++ [forgedWrite])
      (forgedWrite.result ⟨.UserMetadata, nofun⟩ (fun _ => "") .empty).2 := Run.step (.start rfl) ⟨rfl, rfl⟩
  refine ⟨_, hrun, fun map hmap => ?_⟩
  have hstored := (attribution_unforgeable ⟨.UserMetadata, nofun⟩ (fun _ => "") rfl hrun).1 ()
  rw [hmap] at hstored
  exact hstored

end OvStorage.Authz.Attribution
