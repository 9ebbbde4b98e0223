import OvStorage.Address.Canonical
import OvStorage.Layer.Errors
import OvStorage.Lib.Validate
import Mathlib.Logic.Function.Basic

/-!
# Copies and renames that the layer below declines

`CopyRenameFallbackWrapper`: `copy` and `rename` are asked of the inner layer, and emulated where it
declines them, by a read and a write and, for a rename, a delete of the source.

## The model

The inner layer is any functions from requests and its own state. The extensions and the cancel
token of a request are those of every call made for it, and are the inner layer's own here. A
`Store` is an inner layer that keeps objects by node and whose operations happen wholly or not at
all.
-/

namespace OvStorage.Fallback

open Function

open Address (Url Bytes nodeKey)
open Layer

/-- `IfDestExists`. -/
inductive IfDestExists where
  | Overwrite
  | Fail
  | MatchEtag (etag : String)

/-- `CopyOptions`, and `RenameOptions` with the same fields. -/
structure CopyOptions where
  ifSource : Option String
  ifDest : IfDestExists
  message : Option String

/-- `CopyRequest`, and `RenameRequest` with the same fields. -/
structure CopyRequest where
  source : Url
  destination : Url
  options : CopyOptions

/-- `ReadRequest`, without a range. -/
structure ReadRequest where
  address : Url
  ifMatch : Option String
  maxBytes : Option ℕ

/-- The chunks of a body, the last of which may be an error. -/
abbrev Chunks : Type := List (Except Error Bytes)

/-- What the chunks make up, if none of them is an error. -/
def whole : Chunks → Option Bytes
  | [] => some []
  | .ok chunk :: chunks => (whole chunks).map (chunk ++ ·)
  | .error _ :: _ => none

/-- A file that the inner layer delegates to, as its reads turn out. -/
structure LocalFile where
  metadata : Except Error ℕ
  content : Except Error Bytes
  stream : Except Error Chunks

/-- `ReadResult`, with the size that it states. -/
inductive ReadResult where
  | Bytes (bytes : Address.Bytes) (size : Option ℕ)
  | Stream (chunks : Chunks) (size : Option ℕ)
  | LocalDelegate (file : LocalFile) (size : Option ℕ)
  | Redirect

/-- `WriteRequest`. -/
structure WriteRequest where
  address : Url
  body : Chunks
  ifDest : IfDestExists
  message : Option String
  sizeHint : Option ℕ

/-- `WriteResult`, with the address of its info. -/
structure WriteResult where
  address : Url

/-- `WriteStep`. -/
inductive WriteStep where
  | Done (result : WriteResult)
  | Redirects

/-- `DeleteRequest`. -/
structure DeleteRequest where
  address : Url
  ifMatch : Option String

/-- `Capabilities`, as far as the wrapper asks for them. -/
structure Capabilities where
  supportsCopy : Bool
  supportsRename : Bool
  supportsDelete : Bool
  supportsWriteStream : Bool

/-- The inner layer: what it answers, and the state that it is in afterwards. -/
structure Inner (σ : Type) where
  rootInfoFor : Url → σ → Except Error Capabilities × σ
  copy : CopyRequest → σ → Except Error WriteStep × σ
  rename : CopyRequest → σ → Except Error Unit × σ
  read : ReadRequest → σ → Except Error ReadResult × σ
  write : WriteRequest → σ → Except Error WriteResult × σ
  writeStream : WriteRequest → σ → Except Error WriteResult × σ
  delete : DeleteRequest → σ → Except Error Unit × σ

/-! ### The source -/

/-- `same_object_error`. -/
def sameObjectError (op : String) : Error :=
  ⟨.InvalidArgument, op ++ " source and destination resolve to the same object"⟩

/-- `as_pre_write_precondition`. -/
def asPreWritePrecondition (error : Error) (hadIfSource : Bool) : Error :=
  if !hadIfSource || error.code ≠ .ObjectModified then error else ⟨.PreconditionFailed, error.message⟩

/-- `names_same_object`. -/
def namesSameObject (source destination : Url) : Bool := decide (source = destination)

/-- `buffered_transfer_cap_error`. -/
def bufferedTransferCapError (cap : ℕ) : Option ℕ → Error
  | some size => ⟨.ResourceExhausted, "transfer source is " ++ toString size ++ " bytes, over the " ++ toString cap ++
      "-byte buffered-transfer cap for this write-only destination"⟩
  | none =>
    ⟨.ResourceExhausted, "transfer exceeded the " ++ toString cap ++
      "-byte buffered-transfer cap for this write-only destination"⟩

/-- `ensure_within_cap`. -/
def ensureWithinCap (resident : ℕ) : Option ℕ → Except Error Unit
  | some cap => if cap < resident then .error (bufferedTransferCapError cap none) else .ok ()
  | none => .ok ()

/-- `refuse_known_size_over_cap`. -/
def refuseKnownSizeOverCap : Option ℕ → Option ℕ → Except Error Unit
  | some size, some cap => if cap < size then .error (bufferedTransferCapError cap (some size)) else .ok ()
  | _, _ => .ok ()

/-- `unfollowed_redirect_error`. -/
def unfollowedRedirectError : Error := ⟨.Unsupported, "transfer source returned a redirect that was not followed"⟩

/-- The loop of `read_to_bytes`. -/
def drain (hadIfSource : Bool) (maxBytes : Option ℕ) : Chunks → Bool → Bytes → Except Error Bytes
  | [], _, out => .ok out
  | .error error :: _, movedBytes, _ => .error (asPreWritePrecondition error (hadIfSource && !movedBytes))
  | .ok chunk :: chunks, movedBytes, out => do
    ensureWithinCap (out.length + chunk.length) maxBytes
    drain hadIfSource maxBytes chunks (movedBytes || !chunk.isEmpty) (out ++ chunk)

/-- The size of the file, looked up where it is not stated and there is a cap. -/
def LocalFile.knownSize (file : LocalFile) : Option ℕ → Option ℕ → Except Error (Option ℕ)
  | some size, _ => .ok (some size)
  | none, some _ => file.metadata.map some
  | none, none => .ok none

/-- `read_to_bytes`, after the inner read. -/
def ReadResult.toBytes (hadIfSource : Bool) (maxBytes : Option ℕ) : ReadResult → Except Error Address.Bytes
  | .Bytes bytes _ => do
    ensureWithinCap bytes.length maxBytes
    return bytes
  | .Stream chunks size => do
    refuseKnownSizeOverCap size maxBytes
    drain hadIfSource maxBytes chunks false []
  | .LocalDelegate file size => do
    let size ← file.knownSize size maxBytes
    refuseKnownSizeOverCap size maxBytes
    file.content
  | .Redirect => .error unfollowedRedirectError

/-- `body_stream_from_read_stream`; the drain may be broken off, and says so with an error. -/
def bridge (brokenOff : Option (ℕ × Error)) (chunks : Chunks) : Chunks :=
  match brokenOff with
  | none => chunks
  | some (n, error) => chunks.take n ++ [.error error]

/-- `read_to_body`, after the inner read. -/
def ReadResult.toBody (brokenOff : Option (ℕ × Error)) : ReadResult → Except Error (Chunks × Option ℕ)
  | .Bytes bytes size => .ok ([.ok bytes], size)
  | .Stream chunks size => .ok (bridge brokenOff chunks, size)
  | .LocalDelegate file size => do
    let stream ← file.stream
    return (stream, size)
  | .Redirect => .error unfollowedRedirectError

/-- The text of ASCII bytes, as a rendered address is. -/
def asciiText (bytes : Bytes) : String := String.ofList (bytes.map fun b => Char.ofNat b.toNat)

/-- The error of a `rename` that wrote the destination and keeps the source. -/
def notDeletedError (destination source : Url) (error : Error) : Error :=
  ⟨.CommitAmbiguous, "rename fallback wrote the destination " ++ asciiText (Address.redactedUrl destination) ++
    " but could not delete the source " ++ asciiText (Address.redactedUrl source) ++ ": " ++ error.display⟩

/-- `CopyRenameFallbackWrapper`, with what befalls the bridge of a transfer. -/
structure Wrapper (σ : Type) where
  inner : Inner σ
  maxBufferedBytes : Option ℕ
  brokenOff : Option (ℕ × Error)

namespace Wrapper

variable {σ : Type} (w : Wrapper σ)

/-- `inner.root_info_for`, with what an error stands for. -/
def probe (address : Url) (capability : Capabilities → Bool) (s : σ) : Bool × σ :=
  let (info, s) := w.inner.rootInfoFor address s
  (match info with
    | .ok capabilities => capability capabilities
    | .error _ => true, s)

/-- `transfer_fallback`. -/
def transferFallback (source destination : Url) (ifSource : Option String) (ifDest : IfDestExists)
    (message : Option String) (s : σ) :
    Except Error WriteResult × σ :=
  let (streamCapable, s) := w.probe destination (·.supportsWriteStream) s
  let maxBytes := if streamCapable then none else w.maxBufferedBytes
  match w.inner.read ⟨source, ifSource, maxBytes⟩ s with
  | (.error error, s) => (.error (asPreWritePrecondition error ifSource.isSome), s)
  | (.ok result, s) =>
    if streamCapable then
      match result.toBody w.brokenOff with
      | .error error => (.error error, s)
      | .ok (body, sizeHint) => w.inner.writeStream ⟨destination, body, ifDest, message, sizeHint⟩ s
    else
      match result.toBytes ifSource.isSome w.maxBufferedBytes with
      | .error error => (.error error, s)
      | .ok bytes => w.inner.write ⟨destination, [.ok bytes], ifDest, message, none⟩ s

/-- `copy`, when it emulates. -/
def emulateCopy (request : CopyRequest) (s : σ) : Except Error WriteStep × σ :=
  if namesSameObject request.source request.destination then (.error (sameObjectError "copy"), s)
  else
    match w.transferFallback request.source request.destination request.options.ifSource request.options.ifDest
      request.options.message s with
    | (.error error, s) => (.error error, s)
    | (.ok _, s) => (.ok (.Done ⟨request.destination⟩), s)

/-- `copy`. -/
def copy (request : CopyRequest) (s : σ) : Except Error WriteStep × σ :=
  match w.probe request.source (·.supportsCopy) s with
  | (false, s) => w.emulateCopy request s
  | (true, s) =>
    match w.inner.copy request s with
    | (.ok step, s) => (.ok step, s)
    | (.error error, s) => if error.code = .Unsupported then w.emulateCopy request s else (.error error, s)

/-- The delete with which an emulated `rename` ends. -/
def deleteSource (request : CopyRequest) (s : σ) : Except Error Unit × σ :=
  match w.inner.delete ⟨request.source, request.options.ifSource⟩ s with
  | (.ok _, s) => (.ok (), s)
  | (.error error, s) =>
    if error.code = .NotFound then (.ok (), s)
    else (.error (notDeletedError request.destination request.source error), s)

/-- `rename`, when it emulates. -/
def emulateRename (request : CopyRequest) (s : σ) : Except Error Unit × σ :=
  if namesSameObject request.source request.destination then (.error (sameObjectError "rename"), s)
  else
    match w.probe request.source (·.supportsDelete) s with
    | (false, s) => (.error ⟨.Unsupported, "rename fallback requires delete on the source root"⟩, s)
    | (true, s) =>
      match w.copy request s with
      | (.error error, s) => (.error error, s)
      | (.ok .Redirects, s) => (.error ⟨.Unsupported, "rename fallback cannot complete through a redirected copy"⟩, s)
      | (.ok (.Done _), s) => w.deleteSource request s

/-- `rename`. -/
def rename (request : CopyRequest) (s : σ) : Except Error Unit × σ :=
  match w.probe request.source (·.supportsRename) s with
  | (false, s) => w.emulateRename request s
  | (true, s) =>
    match w.inner.rename request s with
    | (.ok _, s) => (.ok (), s)
    | (.error error, s) => if error.code = .Unsupported then w.emulateRename request s else (.error error, s)

end Wrapper

/-! ### Stores -/

/-- What an address resolves to. -/
abbrev Node : Type := Bytes × Option Bytes × Option UInt16 × Bytes × Option Bytes

/-- The node that an address names. -/
def node (address : Url) : Node := nodeKey address.toParts

/-- What is read is the object, whole or up to an error. -/
def ReadResult.Shows (object : Address.Bytes) : ReadResult → Prop
  | .Bytes bytes _ => bytes = object
  | .Stream chunks _ => ∀ bytes, whole chunks = some bytes → bytes = object
  | .LocalDelegate file _ =>
    (∀ bytes, file.content = .ok bytes → bytes = object) ∧
      ∀ chunks bytes, file.stream = .ok chunks → whole chunks = some bytes → bytes = object
  | .Redirect => True

/-- What an operation leaves, when it answers and when it fails. -/
def Leaves {σ α : Type} (objects : σ → Node → Option Bytes) (s : σ) (answer : Except Error α × σ)
    (effect : α → (Node → Option Bytes) → Prop) :
    Prop :=
  match answer.1 with
  | .ok a => effect a (objects answer.2)
  | .error _ => objects answer.2 = objects s

/-- An inner layer that keeps objects by node, and whose operations happen wholly or not at all. -/
structure Store (σ : Type) extends Inner σ where
  objects : σ → Node → Option Bytes
  rootInfoFor_leaves : ∀ address s, objects (rootInfoFor address s).2 = objects s
  copy_leaves : ∀ request s, Leaves objects s (copy request s) fun step after =>
    match step with
    | .Done _ => ∃ bytes, objects s (node request.source) = some bytes ∧
        after = update (objects s) (node request.destination) (some bytes)
    | .Redirects => after = objects s
  rename_leaves : ∀ request s, Leaves objects s (rename request s) fun _ after =>
    ∃ bytes, objects s (node request.source) = some bytes ∧
      after = update (update (objects s) (node request.source) none) (node request.destination) (some bytes)
  read_leaves : ∀ request s, Leaves objects s (read request s) fun result after =>
    after = objects s ∧ ∃ bytes, objects s (node request.address) = some bytes ∧ result.Shows bytes
  write_leaves : ∀ request s, Leaves objects s (write request s) fun _ after =>
    ∃ bytes, whole request.body = some bytes ∧ after = update (objects s) (node request.address) (some bytes)
  writeStream_leaves : ∀ request s, Leaves objects s (writeStream request s) fun _ after =>
    ∃ bytes, whole request.body = some bytes ∧ after = update (objects s) (node request.address) (some bytes)
  delete_leaves : ∀ request s, Leaves objects s (delete request s) fun _ after =>
    after = update (objects s) (node request.address) none

/-- The wrapper over a store. -/
def Store.wrapper {σ : Type} (store : Store σ) (maxBufferedBytes : Option ℕ) (brokenOff : Option (ℕ × Error)) :
    Wrapper σ := ⟨store.toInner, maxBufferedBytes, brokenOff⟩

/-! ### What a transfer moves -/

section Bodies

variable {hadIfSource moved : Bool} {maxBytes : Option ℕ} {chunks : Chunks} {out bytes object : Bytes}
  {result : ReadResult}

theorem whole_of_drain (h : drain hadIfSource maxBytes chunks moved out = .ok bytes) :
    ∃ rest, whole chunks = some rest ∧ bytes = out ++ rest := by
  induction chunks generalizing moved out with
  | nil => exact ⟨[], rfl, by rw [List.append_nil]; exact (Except.ok.inj h).symm⟩
  | cons chunk chunks ih =>
    cases chunk with
    | error error => cases h
    | ok chunk =>
      obtain ⟨_, -, h⟩ := Validate.bind_eq_ok.mp h
      obtain ⟨rest, hrest, rfl⟩ := ih h
      exact ⟨chunk ++ rest, by rw [whole, hrest]; rfl, by rw [List.append_assoc]⟩

variable {brokenOff : Option (ℕ × Error)}

theorem whole_bridge (h : whole (bridge brokenOff chunks) = some bytes) : whole chunks = some bytes := by
  cases brokenOff with
  | none => exact h
  | some broken =>
    have hnone : ∀ chunks : Chunks, whole (chunks ++ [.error broken.2]) = none := by
      intro chunks
      induction chunks with
      | nil => rfl
      | cons chunk chunks ih =>
        cases chunk with
        | error _ => rfl
        | ok _ => rw [List.cons_append, whole, ih]; rfl
    rw [bridge, hnone] at h
    cases h

theorem bytes_of_toBytes (hshows : result.Shows object) (h : result.toBytes hadIfSource maxBytes = .ok bytes) :
    bytes = object := by
  cases result with
  | Bytes content size =>
    obtain ⟨_, -, h⟩ := Validate.bind_eq_ok.mp h
    exact (Except.ok.inj h).symm.trans hshows
  | Stream chunks size =>
    obtain ⟨_, -, h⟩ := Validate.bind_eq_ok.mp h
    obtain ⟨rest, hrest, heq⟩ := whole_of_drain h
    rw [List.nil_append] at heq
    exact heq.trans (hshows rest hrest)
  | LocalDelegate file size =>
    obtain ⟨_, -, h⟩ := Validate.bind_eq_ok.mp h
    obtain ⟨_, -, h⟩ := Validate.bind_eq_ok.mp h
    exact hshows.1 bytes h
  | Redirect => cases h

theorem bytes_of_toBody {body : Chunks} {size : Option ℕ} (hshows : result.Shows object)
    (h : result.toBody brokenOff = .ok (body, size)) (hwhole : whole body = some bytes) : bytes = object := by
  cases result with
  | Bytes content size =>
    cases h
    have hcontent : content ++ [] = bytes := Option.some.inj hwhole
    rw [← hcontent, List.append_nil]
    exact hshows
  | Stream chunks size =>
    cases h
    exact hshows bytes (whole_bridge hwhole)
  | LocalDelegate file size =>
    obtain ⟨stream, hstream, h⟩ := Validate.bind_eq_ok.mp h
    obtain ⟨rfl, -⟩ := Prod.mk.inj (Except.ok.inj h)
    exact hshows.2 stream bytes hstream hwhole
  | Redirect => cases h

end Bodies

/-! ### The steps of a rename -/

section Steps

variable {σ α : Type} {w : Wrapper σ} {request : CopyRequest} {s s₁ s₂ t : σ}

/-- The inner layer is not asked, or it declines; either way it is left in the state `t`. -/
def Declines (probed : Bool × σ) (ask : σ → Except Error α × σ) (t : σ) : Prop :=
  probed = (false, t) ∨ ∃ s error, probed = (true, s) ∧ ask s = (.error error, t) ∧ error.code = .Unsupported

/-- The inner layer copies the object, or lets it be read and written. -/
inductive Moves (w : Wrapper σ) (request : CopyRequest) : σ → σ → Prop
  | copied {s s₁ t result} : w.probe request.source (·.supportsCopy) s = (true, s₁) →
      w.inner.copy request s₁ = (.ok (.Done result), t) → Moves w request s t
  | streamed {s s₁ s₂ s₃ t result body sizeHint written} :
      Declines (w.probe request.source (·.supportsCopy) s) (w.inner.copy request) s₁ →
      w.probe request.destination (·.supportsWriteStream) s₁ = (true, s₂) →
      w.inner.read ⟨request.source, request.options.ifSource, none⟩ s₂ = (.ok result, s₃) →
      result.toBody w.brokenOff = .ok (body, sizeHint) →
      w.inner.writeStream ⟨request.destination, body, request.options.ifDest, request.options.message, sizeHint⟩ s₃ =
        (.ok written, t) →
      Moves w request s t
  | buffered {s s₁ s₂ s₃ t result bytes written} :
      Declines (w.probe request.source (·.supportsCopy) s) (w.inner.copy request) s₁ →
      w.probe request.destination (·.supportsWriteStream) s₁ = (false, s₂) →
      w.inner.read ⟨request.source, request.options.ifSource, w.maxBufferedBytes⟩ s₂ = (.ok result, s₃) →
      result.toBytes request.options.ifSource.isSome w.maxBufferedBytes = .ok bytes →
      w.inner.write ⟨request.destination, [.ok bytes], request.options.ifDest, request.options.message, none⟩ s₃ =
        (.ok written, t) →
      Moves w request s t

/-- The two addresses are spellings of one node, and the inner layer declines the rename but moves the object in place
and deletes it. -/
def DeletesInPlace (w : Wrapper σ) (request : CopyRequest) (s : σ) : Prop :=
  request.source ≠ request.destination ∧ node request.source = node request.destination ∧
    ∃ s₁ s₂ s₃ t, Declines (w.probe request.source (·.supportsRename) s) (w.inner.rename request) s₁ ∧
      w.probe request.source (·.supportsDelete) s₁ = (true, s₂) ∧ Moves w request s₂ s₃ ∧
      w.inner.delete ⟨request.source, request.options.ifSource⟩ s₃ = (.ok (), t)

theorem namesSameObject_eq_false (hne : request.source ≠ request.destination) :
    namesSameObject request.source request.destination = false := decide_eq_false hne

/-- Where the inner layer declines, `copy` emulates. -/
theorem copy_of_declines (h : Declines (w.probe request.source (·.supportsCopy) s) (w.inner.copy request) t) :
    w.copy request s = w.emulateCopy request t := by
  rcases h with hprobe | ⟨s₁, error, hprobe, hcopy, hcode⟩
  · simp only [Wrapper.copy, hprobe]
  · simp only [Wrapper.copy, hprobe, hcopy, hcode, if_true]

theorem rename_of_declines (h : Declines (w.probe request.source (·.supportsRename) s) (w.inner.rename request) t) :
    w.rename request s = w.emulateRename request t := by
  rcases h with hprobe | ⟨s₁, error, hprobe, hrename, hcode⟩
  · simp only [Wrapper.rename, hprobe]
  · simp only [Wrapper.rename, hprobe, hrename, hcode, if_true]

/-- What is moved is answered as done. -/
theorem copy_of_moves (hne : request.source ≠ request.destination) (h : Moves w request s t) :
    ∃ result, w.copy request s = (.ok (.Done result), t) := by
  have hsame := namesSameObject_eq_false hne
  cases h with
  | @copied _ _ result hprobe hcopy => exact ⟨result, by simp only [Wrapper.copy, hprobe, hcopy]⟩
  | streamed hdeclines hprobe hread hbody hwrite =>
    refine ⟨⟨request.destination⟩, ?_⟩
    rw [copy_of_declines hdeclines]
    simp [Wrapper.emulateCopy, Wrapper.transferFallback, hsame, hprobe, hread, hbody, hwrite]
  | buffered hdeclines hprobe hread hbytes hwrite =>
    refine ⟨⟨request.destination⟩, ?_⟩
    rw [copy_of_declines hdeclines]
    simp [Wrapper.emulateCopy, Wrapper.transferFallback, hsame, hprobe, hread, hbytes, hwrite]

end Steps

/-! ### Over a store -/

section OverStore

variable {σ α : Type} {store : Store σ} {w : Wrapper σ} {request : CopyRequest} {s s₁ t : σ}
  {r : Except Error WriteStep}

variable {effect : α → (Node → Option Bytes) → Prop} {objects : σ → Node → Option Bytes} {answer : Except Error α × σ}

theorem leaves_ok {a : α} (h : Leaves objects s answer effect) (heq : answer = (.ok a, t)) : effect a (objects t) := by
  subst heq
  exact h

theorem leaves_error {error : Error} (h : Leaves objects s answer effect) (heq : answer = (.error error, t)) :
    objects t = objects s := by
  subst heq
  exact h

theorem objects_probe (hw : w.inner = store.toInner) {address : Url} {capability : Capabilities → Bool} {b : Bool}
    (h : w.probe address capability s = (b, t)) : store.objects t = store.objects s := by
  have ht : (w.inner.rootInfoFor address s).2 = t := congrArg Prod.snd h
  rw [← ht, hw]
  exact store.rootInfoFor_leaves address s

theorem objects_declines_copy (hw : w.inner = store.toInner)
    (h : Declines (w.probe request.source (·.supportsCopy) s) (w.inner.copy request) t) :
    store.objects t = store.objects s := by
  rcases h with hprobe | ⟨s₁, error, hprobe, herror, -⟩
  · exact objects_probe hw hprobe
  · rw [hw] at herror
    exact (leaves_error (store.copy_leaves request s₁) herror).trans (objects_probe hw hprobe)

theorem objects_declines_rename (hw : w.inner = store.toInner)
    (h : Declines (w.probe request.source (·.supportsRename) s) (w.inner.rename request) t) :
    store.objects t = store.objects s := by
  rcases h with hprobe | ⟨s₁, error, hprobe, herror, -⟩
  · exact objects_probe hw hprobe
  · rw [hw] at herror
    exact (leaves_error (store.rename_leaves request s₁) herror).trans (objects_probe hw hprobe)

/-- The destination of a move has the object of the source. -/
theorem objects_moves (hw : w.inner = store.toInner) (h : Moves w request s t) :
    ∃ bytes, store.objects s (node request.source) = some bytes ∧
      store.objects t = update (store.objects s) (node request.destination) (some bytes) := by
  cases h with
  | copied hprobe hcopy =>
    rw [hw] at hcopy
    rw [← objects_probe hw hprobe]
    exact leaves_ok (store.copy_leaves request _) hcopy
  | streamed hdeclines hprobe hread hbody hwrite =>
    rw [hw] at hread hwrite
    obtain ⟨hsame, bytes, hbytes, hshows⟩ := leaves_ok (store.read_leaves _ _) hread
    obtain ⟨written, hwhole, hafter⟩ := leaves_ok (store.writeStream_leaves _ _) hwrite
    obtain rfl := bytes_of_toBody hshows hbody hwhole
    rw [hsame] at hafter
    rw [← objects_declines_copy hw hdeclines, ← objects_probe hw hprobe]
    exact ⟨written, hbytes, hafter⟩
  | buffered hdeclines hprobe hread hcontent hwrite =>
    rw [hw] at hread hwrite
    obtain ⟨hsame, object, hbytes, hshows⟩ := leaves_ok (store.read_leaves _ _) hread
    obtain ⟨written, hwhole, hafter⟩ := leaves_ok (store.write_leaves _ _) hwrite
    have hwritten := (List.append_nil _).symm.trans (Option.some.inj hwhole)
    rw [← bytes_of_toBytes hshows hcontent] at hbytes
    rw [hsame, ← hwritten] at hafter
    rw [← objects_declines_copy hw hdeclines, ← objects_probe hw hprobe]
    exact ⟨_, hbytes, hafter⟩

/-- The object has been moved, or nothing has happened. -/
def Copies (store : Store σ) (w : Wrapper σ) (request : CopyRequest) (s : σ) (answer : Except Error WriteStep × σ) :
    Prop :=
  Moves w request s answer.2 ∧ (∃ result, answer.1 = .ok (.Done result)) ∨
    store.objects answer.2 = store.objects s ∧ ∀ result, answer.1 ≠ .ok (.Done result)

theorem copies_of_error (h : store.objects t = store.objects s) (error : Error) :
    Copies store w request s (.error error, t) :=
  .inr ⟨h, fun _ heq => by cases heq⟩

theorem copies_of_redirects (h : store.objects t = store.objects s) : Copies store w request s (.ok .Redirects, t) :=
  .inr ⟨h, fun _ heq => by cases heq⟩

theorem copies_emulate (hw : w.inner = store.toInner)
    (h : Declines (w.probe request.source (·.supportsCopy) s) (w.inner.copy request) s₁) :
    Copies store w request s (w.emulateCopy request s₁) := by
  have hsame := objects_declines_copy hw h
  unfold Wrapper.emulateCopy
  split
  · exact copies_of_error hsame _
  unfold Wrapper.transferFallback
  rcases hprobe : w.probe request.destination (·.supportsWriteStream) s₁ with ⟨streamCapable, s₂⟩
  have hsame₂ := (objects_probe hw hprobe).trans hsame
  dsimp only
  rcases hread : w.inner.read ⟨request.source, request.options.ifSource,
      if streamCapable then none else w.maxBufferedBytes⟩ s₂
    with ⟨error | result, s₃⟩
  · rw [hw] at hread
    exact copies_of_error ((leaves_error (store.read_leaves _ _) hread).trans hsame₂) _
  have hsame₃ : store.objects s₃ = store.objects s := by
    rw [hw] at hread
    exact (leaves_ok (store.read_leaves _ _) hread).1.trans hsame₂
  dsimp only
  cases streamCapable with
  | true =>
    simp only [if_true]
    rcases hbody : result.toBody w.brokenOff with error | ⟨body, sizeHint⟩
    · exact copies_of_error hsame₃ _
    dsimp only
    rcases hwrite : w.inner.writeStream
        ⟨request.destination, body, request.options.ifDest, request.options.message, sizeHint⟩ s₃
      with ⟨error | written, t⟩
    · rw [hw] at hwrite
      exact copies_of_error ((leaves_error (store.writeStream_leaves _ _) hwrite).trans hsame₃) _
    · exact .inl ⟨.streamed h hprobe hread hbody hwrite, _, rfl⟩
  | false =>
    simp only [Bool.false_eq_true, if_false]
    rcases hbytes : result.toBytes request.options.ifSource.isSome w.maxBufferedBytes with error | bytes
    · exact copies_of_error hsame₃ _
    dsimp only
    rcases hwrite : w.inner.write
        ⟨request.destination, [.ok bytes], request.options.ifDest, request.options.message, none⟩ s₃
      with ⟨error | written, t⟩
    · rw [hw] at hwrite
      exact copies_of_error ((leaves_error (store.write_leaves _ _) hwrite).trans hsame₃) _
    · exact .inl ⟨.buffered h hprobe hread hbytes hwrite, _, rfl⟩

theorem copies_copy (hw : w.inner = store.toInner) : Copies store w request s (w.copy request s) := by
  rcases hprobe : w.probe request.source (·.supportsCopy) s with ⟨_ | _, s₁⟩
  · have hdeclines : Declines (w.probe request.source (·.supportsCopy) s) (w.inner.copy request) s₁ := .inl hprobe
    rw [copy_of_declines hdeclines]
    exact copies_emulate hw hdeclines
  · have hsame := objects_probe hw hprobe
    rcases hcopy : w.inner.copy request s₁ with ⟨error | step, s₂⟩
    · by_cases hcode : error.code = .Unsupported
      · have hdeclines : Declines (w.probe request.source (·.supportsCopy) s) (w.inner.copy request) s₂ :=
          .inr ⟨s₁, error, hprobe, hcopy, hcode⟩
        rw [copy_of_declines hdeclines]
        exact copies_emulate hw hdeclines
      · have hresult : w.copy request s = (.error error, s₂) := by simp only [Wrapper.copy, hprobe, hcopy, if_neg hcode]
        rw [hw] at hcopy
        rw [hresult]
        exact copies_of_error ((leaves_error (store.copy_leaves request s₁) hcopy).trans hsame) _
    · have hresult : w.copy request s = (.ok step, s₂) := by simp only [Wrapper.copy, hprobe, hcopy]
      rw [hresult]
      cases step with
      | Done result => exact .inl ⟨.copied hprobe hcopy, result, rfl⟩
      | Redirects =>
        rw [hw] at hcopy
        exact copies_of_redirects ((leaves_ok (store.copy_leaves request s₁) hcopy).trans hsame)

end OverStore

/-! ### Whether a rename keeps the object -/

/-- What a rename from `s` with the answer is to keep: the object is at one of the addresses, at the destination after a
success, and at the source after an error that does not say otherwise. -/
def KeepsObject {σ : Type} (store : Store σ) (request : CopyRequest) (s : σ) (answer : Except Error Unit × σ) : Prop :=
  ∀ bytes, store.objects s (node request.source) = some bytes →
    (store.objects answer.2 (node request.source) = some bytes ∨
      store.objects answer.2 (node request.destination) = some bytes) ∧
      (answer.1 = .ok () → store.objects answer.2 (node request.destination) = some bytes) ∧
      ∀ error, answer.1 = .error error → error.code ≠ .CommitAmbiguous →
        store.objects answer.2 (node request.source) = some bytes

section Keeps

variable {σ : Type} {store : Store σ} {w : Wrapper σ} {request : CopyRequest} {s s₁ s₂ t : σ}
  {answer : Except Error Unit × σ}

/-- An error that changes nothing keeps the object. -/
theorem keeps_of_error {error : Error} (h : store.objects t = store.objects s) :
    KeepsObject store request s (.error error, t) := by
  intro bytes hbytes
  have hsource : store.objects t (node request.source) = some bytes := by rw [h, hbytes]
  exact ⟨.inl hsource, nofun, fun _ _ _ => hsource⟩

/-- A success with the object at the destination keeps it. -/
theorem keeps_of_ok
    (h : ∀ bytes, store.objects s (node request.source) = some bytes →
      store.objects t (node request.destination) = some bytes) :
    KeepsObject store request s (.ok (), t) :=
  fun bytes hbytes => ⟨.inr (h bytes hbytes), fun _ => h bytes hbytes, nofun⟩

/-- A delete of the source, after the move, keeps the object unless the source and the destination are one node. -/
theorem keeps_deleteSource (hw : w.inner = store.toInner) (hobjects : store.objects s₁ = store.objects s)
    (hmoves : Moves w request s₁ s₂)
    (hnot : node request.source = node request.destination →
      ∀ t, w.inner.delete ⟨request.source, request.options.ifSource⟩ s₂ ≠ (.ok (), t)) :
    KeepsObject store request s (w.deleteSource request s₂) := by
  obtain ⟨moved, hmoved, hafter⟩ := objects_moves hw hmoves
  have hdest : ∀ bytes, store.objects s (node request.source) = some bytes →
      store.objects s₂ (node request.destination) = some bytes := by
    intro bytes hbytes
    rw [hobjects, hbytes] at hmoved
    rw [hafter, update_self, hmoved]
  unfold Wrapper.deleteSource
  rcases hdelete : w.inner.delete ⟨request.source, request.options.ifSource⟩ s₂ with ⟨error | _, t⟩
  · rw [hw] at hdelete
    have hsame := leaves_error (store.delete_leaves _ _) hdelete
    dsimp only
    split
    · exact keeps_of_ok fun bytes hbytes => by rw [hsame, hdest bytes hbytes]
    · refine fun bytes hbytes => ⟨.inr (by rw [hsame, hdest bytes hbytes]), nofun, fun error heq hcode => ?_⟩
      cases heq
      exact absurd rfl hcode
  · have hne : node request.destination ≠ node request.source := fun heq => hnot heq.symm t hdelete
    rw [hw] at hdelete
    have hgone := leaves_ok (store.delete_leaves _ _) hdelete
    exact keeps_of_ok fun bytes hbytes => by rw [hgone, update_of_ne hne, hdest bytes hbytes]

theorem keeps_emulateRename (hw : w.inner = store.toInner) (hnot : ¬ DeletesInPlace w request s)
    (h : Declines (w.probe request.source (·.supportsRename) s) (w.inner.rename request) s₁) :
    KeepsObject store request s (w.emulateRename request s₁) := by
  have hsame := objects_declines_rename hw h
  unfold Wrapper.emulateRename
  by_cases heq : request.source = request.destination
  · rw [namesSameObject, decide_eq_true heq]
    exact keeps_of_error hsame
  rw [namesSameObject_eq_false heq]
  simp only [Bool.false_eq_true, if_false]
  rcases hprobe : w.probe request.source (·.supportsDelete) s₁ with ⟨_ | _, s₂⟩
  · exact keeps_of_error ((objects_probe hw hprobe).trans hsame)
  have hsame₂ := (objects_probe hw hprobe).trans hsame
  have hcopies : Copies store w request s₂ (w.copy request s₂) := copies_copy hw
  dsimp only
  rcases hcopy : w.copy request s₂ with ⟨error | step, s₃⟩ <;> rw [hcopy] at hcopies
  · rcases hcopies with ⟨-, _, hdone⟩ | ⟨hsame₃, -⟩
    · cases hdone
    · exact keeps_of_error (hsame₃.trans hsame₂)
  · rcases hcopies with ⟨hmoves, _, hdone⟩ | ⟨hsame₃, hnone⟩
    · cases hdone
      exact keeps_deleteSource hw hsame₂ hmoves fun hnode t hdelete =>
        hnot ⟨heq, hnode, s₁, s₂, s₃, t, h, hprobe, hmoves, hdelete⟩
    · cases step with
      | Done result => exact absurd rfl (hnone result)
      | Redirects => exact keeps_of_error (hsame₃.trans hsame₂)

theorem keeps_rename (hw : w.inner = store.toInner) (hnot : ¬ DeletesInPlace w request s) :
    KeepsObject store request s (w.rename request s) := by
  rcases hprobe : w.probe request.source (·.supportsRename) s with ⟨_ | _, s₁⟩
  · have hdeclines : Declines (w.probe request.source (·.supportsRename) s) (w.inner.rename request) s₁ := .inl hprobe
    rw [rename_of_declines hdeclines]
    exact keeps_emulateRename hw hnot hdeclines
  have hsame := objects_probe hw hprobe
  rcases hrename : w.inner.rename request s₁ with ⟨error | _, s₂⟩
  · by_cases hcode : error.code = .Unsupported
    · have hdeclines : Declines (w.probe request.source (·.supportsRename) s) (w.inner.rename request) s₂ :=
        .inr ⟨s₁, error, hprobe, hrename, hcode⟩
      rw [rename_of_declines hdeclines]
      exact keeps_emulateRename hw hnot hdeclines
    · have hresult : w.rename request s =
        (.error error, s₂) := by simp only [Wrapper.rename, hprobe, hrename, if_neg hcode]
      rw [hw] at hrename
      rw [hresult]
      exact keeps_of_error ((leaves_error (store.rename_leaves request s₁) hrename).trans hsame)
  · have hresult : w.rename request s = (.ok (), s₂) := by simp only [Wrapper.rename, hprobe, hrename]
    rw [hw] at hrename
    obtain ⟨moved, hmoved, hafter⟩ := leaves_ok (store.rename_leaves request s₁) hrename
    rw [hresult]
    refine keeps_of_ok fun bytes hbytes => ?_
    rw [hsame, hbytes] at hmoved
    rw [hafter, update_self, hmoved]

/-- Deleted in place, the object is gone. -/
theorem not_keeps_of_deletesInPlace (hw : w.inner = store.toInner) (h : DeletesInPlace w request s) :
    ¬ KeepsObject store request s (w.rename request s) := by
  obtain ⟨hne, hnode, s₁, s₂, s₃, t, hdeclines, hprobe, hmoves, hdelete⟩ := h
  obtain ⟨result, hcopy⟩ := copy_of_moves hne hmoves
  have hresult : w.rename request s = (.ok (), t) := by
    rw [rename_of_declines hdeclines]
    simp [Wrapper.emulateRename, Wrapper.deleteSource, namesSameObject_eq_false hne, hprobe, hcopy, hdelete]
  obtain ⟨bytes, hbytes, -⟩ := objects_moves hw hmoves
  rw [objects_probe hw hprobe, objects_declines_rename hw hdeclines] at hbytes
  rw [hw] at hdelete
  have hgone := leaves_ok (store.delete_leaves _ _) hdelete
  intro hkeeps
  have hdest := (hkeeps bytes hbytes).2.1 (by rw [hresult])
  rw [hresult, ← hnode, hgone, update_self] at hdest
  cases hdest

end Keeps

/-- A rename over a store keeps the object, unless its addresses are two spellings of one node and the inner layer,
which declines the rename, moves the object in place and deletes it. -/
theorem rename_keeps_object {σ : Type} (store : Store σ) (maxBufferedBytes : Option ℕ) (brokenOff : Option (ℕ × Error))
    (request : CopyRequest) (s : σ) :
    KeepsObject store request s ((store.wrapper maxBufferedBytes brokenOff).rename request s) ↔
      ¬ DeletesInPlace (store.wrapper maxBufferedBytes brokenOff) request s :=
  ⟨fun hkeeps hdeletes => not_keeps_of_deletesInPlace rfl hdeletes hkeeps, keeps_rename rfl⟩

/-- A store that renames and copies nothing itself. -/
def plainStore : Store (Node → Option Bytes) where
  rootInfoFor _ s := (.ok ⟨false, false, true, false⟩, s)
  copy _ s := (.error ⟨.Unsupported, "copy"⟩, s)
  rename _ s := (.error ⟨.Unsupported, "rename"⟩, s)
  read request s :=
    match s (node request.address) with
    | some bytes => (.ok (.Bytes bytes none), s)
    | none => (.error ⟨.NotFound, "read"⟩, s)
  write request s :=
    match whole request.body with
    | some bytes => (.ok ⟨request.address⟩, update s (node request.address) (some bytes))
    | none => (.error ⟨.Internal, "write"⟩, s)
  writeStream _ s := (.error ⟨.Unsupported, "write_stream"⟩, s)
  delete request s :=
    match s (node request.address) with
    | some _ => (.ok (), update s (node request.address) none)
    | none => (.error ⟨.NotFound, "delete"⟩, s)
  objects := id
  rootInfoFor_leaves _ _ := rfl
  copy_leaves _ _ := rfl
  rename_leaves _ _ := rfl
  read_leaves request s := by
    cases hbytes : s (node request.address) with
    | some bytes => exact ⟨rfl, bytes, hbytes, rfl⟩
    | none => rfl
  write_leaves request s := by
    cases whole request.body with
    | some bytes => exact ⟨bytes, rfl, rfl⟩
    | none => rfl
  writeStream_leaves _ _ := rfl
  delete_leaves request s := by
    cases s (node request.address) with
    | some bytes => rfl
    | none => rfl

/-- `mem://h` with a path. -/
def memAddress (path : Bytes)
    (h : (⟨Address.utf8 "mem", true, [], none, some (Address.utf8 "h"), none, path, none,
      none⟩ : Address.Parts).WellFormed) :
    Url := ⟨_, h⟩

/-- A rename of `mem://h/a` to `mem://h/a/`. -/
def renameToSlash : CopyRequest :=
  ⟨memAddress (Address.utf8 "/a") (by decide), memAddress (Address.utf8 "/a/") (by decide), ⟨none, .Overwrite, none⟩⟩

/-- The rename succeeds, and the object is at neither address. -/
theorem rename_deletes_respelled : ¬ KeepsObject plainStore renameToSlash (fun _ => some [1])
    ((plainStore.wrapper none none).rename renameToSlash fun _ => some [1]) := by
  intro h
  have hgone : ((plainStore.wrapper none none).rename renameToSlash fun _ => some [1]).2
      (node renameToSlash.source) = none := by
    decide +kernel
  have hgone' : ((plainStore.wrapper none none).rename renameToSlash fun _ => some [1]).2
      (node renameToSlash.destination) = none := by
    decide +kernel
  rcases (h [1] rfl).1 with hsource | hdestination
  · exact absurd (hgone.symm.trans hsource) nofun
  · exact absurd (hgone'.symm.trans hdestination) nofun

end OvStorage.Fallback
