import OvStorage.Lib.Transition
import OvStorage.Lib.Word64

/-!
# The stream tee

`tee_into_cache` of `ovstorage-plugin-cache/src/byte_cache.rs`: a read's stream passes to its caller while its chunks
are staged by a `StreamingPut` (`ovstorage-cache/src/byte.rs`). A clean end commits what was staged, where it is the
whole object and the address has not been mutated. A mutation tells the tees in flight by the address's generation,
which a `TeeRegistration` keeps in the map for as long as it lives.

The tees and the mutations of a cache interleave. A step of a tee is what happens between two awaits of its stream:
the answer of the inner stream with what the tee makes of it, the end of the commit, which runs off the runtime worker,
and the end of the write of the availability record. The stream may be dropped at each of these. A write that tees its
body shares the map, and is there with its registration alone. The read guard, the
snapshot of the availability row and the registrar of watches are left out, and so is the range of the counters of the
map.
-/

namespace OvStorage.ByteCache

open Function

/-! ### Generations -/

structure GenerationEntry where
  refcount : ℕ
  generation : ℕ
  deriving DecidableEq

abbrev GenerationMap := String → Option GenerationEntry

namespace GenerationMap

/-- `TeeRegistration::register`: the map, and the generation at the start. -/
def register (map : GenerationMap) (address : String) : GenerationMap × ℕ :=
  let entry := (map address).getD ⟨0, 0⟩
  (update map address (some { entry with refcount := entry.refcount + 1 }), entry.generation)

/-- `TeeRegistration::current`. -/
def current (map : GenerationMap) (address : String) : ℕ :=
  ((map address).map GenerationEntry.generation).getD 0

/-- The drop of a `TeeRegistration`. -/
def release (map : GenerationMap) (address : String) : GenerationMap :=
  match map address with
  | some entry =>
    let refcount := entry.refcount - 1
    update map address (if refcount = 0 then none else some { entry with refcount })
  | none => map

def GenerationEntry.bump (entry : GenerationEntry) : GenerationEntry :=
  { entry with generation := entry.generation + 1 }

/-- `bump_generation_key`. -/
def bumpKey (map : GenerationMap) (address : String) : GenerationMap :=
  update map address ((map address).map GenerationEntry.bump)

/-- `bump_generations_under_prefix`. -/
def bumpUnderPrefix (map : GenerationMap) (dir : String) : GenerationMap := fun address =>
  if dir.toList <+: address.toList then (map address).map GenerationEntry.bump else map address

end GenerationMap

/-! ### The staged fill -/

/-- The share of a fill in the staging budget of its cache. -/
structure StreamingReservation where
  maxBytes : ℕ
  bytesCharged : ℕ
  deriving DecidableEq

/-- `charge`, with the bytes that all the fills of the cache hold before it. -/
def StreamingReservation.charge (reservation : StreamingReservation) (reservedBytes delta : ℕ) :
    Option StreamingReservation :=
  if reservation.maxBytes < Word64.saturatingAdd reservedBytes delta then none
  else some { reservation with bytesCharged := Word64.saturatingAdd reservation.bytesCharged delta }

structure StreamingPut where
  resolvedTarget : String
  /-- What the staging file holds, until the fill is finalized. -/
  file : Option (List UInt8)
  size : ℕ
  maxBytes : Option ℕ
  reservation : StreamingReservation
  deriving DecidableEq

namespace StreamingPut

/-- `write_chunk`, with the bytes that are reserved before it and whether the staging file takes the chunk. -/
def writeChunk (put : StreamingPut) (reservedBytes : ℕ) (written : Bool) (chunk : List UInt8) : Option StreamingPut :=
  match put.file with
  | none => none
  | some staged =>
    let delta := chunk.length
    let projected := Word64.saturatingAdd put.size delta
    if put.maxBytes.any (· < projected) then none
    else
      match put.reservation.charge reservedBytes delta with
      | none => none
      | some reservation =>
        if written then some { put with file := some (staged ++ chunk), size := projected, reservation } else none

def stagedLen (put : StreamingPut) : ℕ := put.size

end StreamingPut

/-! ### The tees of a cache -/

/-- What a call of `tee_into_cache` is made with, its `put` as `begin_streaming_put` gives it. -/
structure TeeRequest where
  resolvedTarget : String
  maxBytes : Option ℕ
  /-- The staging budget of the cache. -/
  stagingBytes : ℕ
  address : String
  expectedSize : Option ℕ

def TeeRequest.beginStreamingPut (request : TeeRequest) : StreamingPut :=
  ⟨request.resolvedTarget, some [], 0, request.maxBytes, ⟨request.stagingBytes, 0⟩⟩

structure TeeState where
  put : StreamingPut
  address : String
  expectedSize : Option ℕ
  startGeneration : ℕ

/-- Whether the fill is the whole declared object. -/
def TeeState.sizeOk (tee : TeeState) : Bool := tee.expectedSize.all (tee.put.stagedLen = ·)

/-- Where a tee is: `State` of the source, with the awaits of the end of a teeing stream. -/
inductive TeeStage
  | absent
  | teeing (tee : TeeState)
  /-- The inner stream has ended, and the commit of the fill runs. -/
  | committing (tee : TeeState)
  /-- The fill is committed, and the availability record is being written. -/
  | recording (tee : TeeState)
  | passthrough
  | done
  /-- The stream has ended or is dropped. The commit of a fill may still run. -/
  | over (put : Option StreamingPut)
  /-- A write that tees its body registers in the same map. -/
  | writing (address : String) (startGeneration : ℕ)

/-- An item of a stream, or its end. -/
abbrev Next (ε : Type*) := Option (Except ε (List UInt8))

inductive TeeStep (ι ε : Type*)
  /-- `tee_into_cache`. -/
  | tee (t : ι) (request : TeeRequest)
  /-- The caller asks for the next item, and the inner stream answers. -/
  | next (t : ι) (reservedBytes : ℕ) (written : Bool) (answer : Next ε)
  /-- The caller asks for the next item of a stream that is done. -/
  | finish (t : ι)
  /-- The commit ends. -/
  | commit (t : ι) (committed : Bool)
  /-- The availability record is written or refused. -/
  | record (t : ι)
  /-- The caller drops the stream. -/
  | drop (t : ι)
  /-- A write starts to tee its body. -/
  | write (t : ι) (address : String)
  /-- The write ends, in whatever way. -/
  | written (t : ι)
  | bumpKey (address : String)
  | bumpUnderPrefix (dir : String)

/-- The tee that makes the step. -/
def TeeStep.who {ι ε : Type*} : TeeStep ι ε → Option ι
  | .tee t _ => some t
  | .next t _ _ _ => some t
  | .finish t => some t
  | .commit t _ => some t
  | .record t => some t
  | .drop t => some t
  | .write t _ => some t
  | .written t => some t
  | .bumpKey _ => none
  | .bumpUnderPrefix _ => none

structure Tees (ι ε : Type*) where
  generations : GenerationMap
  /-- The content rows. -/
  entries : String → Option (List UInt8)
  stage : ι → TeeStage
  /-- What the callers have been given. -/
  given : ι → List (Next ε)

namespace Tees

variable {ι ε : Type*} [DecidableEq ι]

def init : Tees ι ε := ⟨fun _ => none, fun _ => none, fun _ => .absent, fun _ => []⟩

def setStage (w : Tees ι ε) (t : ι) (stage : TeeStage) : Tees ι ε := { w with stage := update w.stage t stage }

def give (w : Tees ι ε) (t : ι) (answer : Next ε) : Tees ι ε :=
  { w with given := update w.given t (w.given t ++ [answer]) }

section Fields

variable (w : Tees ι ε) (t : ι) (stage : TeeStage) (answer : Next ε)

@[simp] theorem stage_setStage : (w.setStage t stage).stage t = stage := update_self _ _ _

@[simp] theorem given_setStage : (w.setStage t stage).given = w.given := rfl

@[simp] theorem stage_give : (w.give t answer).stage = w.stage := rfl

@[simp] theorem given_give : (w.give t answer).given t = w.given t ++ [answer] := update_self _ _ _

end Fields

/-- The drop of the registration of a tee. -/
def unregister (w : Tees ι ε) (tee : TeeState) : Tees ι ε := { w with generations := w.generations.release tee.address }

/-- `commit`, which consumes the fill. -/
def publish (w : Tees ι ε) (put : StreamingPut) : Tees ι ε :=
  { w with entries := update w.entries put.resolvedTarget put.file }

/-- The start of a tee: the registration with the generation at the start. -/
def start (w : Tees ι ε) (t : ι) (request : TeeRequest) : Tees ι ε :=
  let (generations, startGeneration) := w.generations.register request.address
  { w with generations }.setStage t
    (.teeing ⟨request.beginStreamingPut, request.address, request.expectedSize, startGeneration⟩)

/-- What a teeing stream makes of an answer of the inner stream. -/
def teeNext (w : Tees ι ε) (t : ι) (tee : TeeState) (reservedBytes : ℕ) (written : Bool) (answer : Next ε) : Tees ι ε :=
  match answer with
  | some (.ok chunk) =>
    match tee.put.writeChunk reservedBytes written chunk with
    | some put => (w.setStage t (.teeing { tee with put })).give t answer
    -- The fill is abandoned, and the state with the registration dropped.
    | none => ((w.unregister tee).setStage t .passthrough).give t answer
  | some (.error _) => ((w.unregister tee).setStage t .done).give t answer
  | none =>
    if tee.sizeOk ∧ w.generations.current tee.address = tee.startGeneration then w.setStage t (.committing tee)
    else ((w.unregister tee).setStage t (.over none)).give t none

def step (w : Tees ι ε) : TeeStep ι ε → Option (Tees ι ε)
  | .tee t request =>
    match w.stage t with
    | .absent => some (w.start t request)
    | _ => none
  | .next t reservedBytes written answer =>
    match w.stage t with
    | .teeing tee => some (w.teeNext t tee reservedBytes written answer)
    | .passthrough => some ((w.setStage t (if answer.isNone then .over none else .passthrough)).give t answer)
    | _ => none
  | .finish t =>
    match w.stage t with
    | .done => some ((w.setStage t (.over none)).give t none)
    | _ => none
  | .commit t committed =>
    match w.stage t with
    | .committing tee =>
      if committed then some ((w.publish tee.put).setStage t (.recording tee))
      else some (((w.unregister tee).setStage t (.over none)).give t none)
    | .over (some put) =>
      some ((if committed then w.publish put else w).setStage t (.over none))
    | _ => none
  | .record t =>
    match w.stage t with
    | .recording tee => some (((w.unregister tee).setStage t (.over none)).give t none)
    | _ => none
  | .drop t =>
    match w.stage t with
    | .teeing tee => some ((w.unregister tee).setStage t (.over none))
    -- The commit runs on without the stream.
    | .committing tee => some ((w.unregister tee).setStage t (.over (some tee.put)))
    | .recording tee => some ((w.unregister tee).setStage t (.over none))
    | .passthrough => some (w.setStage t (.over none))
    | .done => some (w.setStage t (.over none))
    | _ => none
  | .write t address =>
    match w.stage t with
    | .absent =>
      let (generations, startGeneration) := w.generations.register address
      some ({ w with generations }.setStage t (.writing address startGeneration))
    | _ => none
  | .written t =>
    match w.stage t with
    | .writing address _ => some ({ w with generations := w.generations.release address }.setStage t (.over none))
    | _ => none
  | .bumpKey address => some { w with generations := w.generations.bumpKey address }
  | .bumpUnderPrefix dir => some { w with generations := w.generations.bumpUnderPrefix dir }

/-! ### The steps, one by one -/

/-- What each step does, in each case that it has. -/
inductive Takes (w : Tees ι ε) : TeeStep ι ε → Tees ι ε → Prop
  | tee {t request} (stage : w.stage t = .absent) : Takes w (.tee t request) (w.start t request)
  | stage {t tee reservedBytes written chunk put} (stage : w.stage t = .teeing tee)
      (write : tee.put.writeChunk reservedBytes written chunk = some put) :
      Takes w (.next t reservedBytes written (some (.ok chunk)))
        ((w.setStage t (.teeing { tee with put })).give t (some (.ok chunk)))
  | abandon {t tee reservedBytes written chunk} (stage : w.stage t = .teeing tee)
      (write : tee.put.writeChunk reservedBytes written chunk = none) :
      Takes w (.next t reservedBytes written (some (.ok chunk)))
        (((w.unregister tee).setStage t .passthrough).give t (some (.ok chunk)))
  | fail {t tee reservedBytes written error} (stage : w.stage t = .teeing tee) :
      Takes w (.next t reservedBytes written (some (.error error)))
        (((w.unregister tee).setStage t .done).give t (some (.error error)))
  | accept {t tee reservedBytes written} (stage : w.stage t = .teeing tee) (size : tee.sizeOk)
      (unmutated : w.generations.current tee.address = tee.startGeneration) :
      Takes w (.next t reservedBytes written none) (w.setStage t (.committing tee))
  | discard {t tee reservedBytes written} (stage : w.stage t = .teeing tee)
      (stale : ¬(tee.sizeOk ∧ w.generations.current tee.address = tee.startGeneration)) :
      Takes w (.next t reservedBytes written none) (((w.unregister tee).setStage t (.over none)).give t none)
  | forward {t reservedBytes written item} (stage : w.stage t = .passthrough) :
      Takes w (.next t reservedBytes written (some item)) ((w.setStage t .passthrough).give t (some item))
  | forwardEnd {t reservedBytes written} (stage : w.stage t = .passthrough) :
      Takes w (.next t reservedBytes written none) ((w.setStage t (.over none)).give t none)
  | finish {t} (stage : w.stage t = .done) : Takes w (.finish t) ((w.setStage t (.over none)).give t none)
  | commit {t tee} (stage : w.stage t = .committing tee) :
      Takes w (.commit t true) ((w.publish tee.put).setStage t (.recording tee))
  | commitFails {t tee} (stage : w.stage t = .committing tee) :
      Takes w (.commit t false) (((w.unregister tee).setStage t (.over none)).give t none)
  | commitAlone {t put committed} (stage : w.stage t = .over (some put)) :
      Takes w (.commit t committed) ((if committed then w.publish put else w).setStage t (.over none))
  | record {t tee} (stage : w.stage t = .recording tee) :
      Takes w (.record t) (((w.unregister tee).setStage t (.over none)).give t none)
  | dropTeeing {t tee} (stage : w.stage t = .teeing tee) : Takes w (.drop t)
    ((w.unregister tee).setStage t (.over none))
  | dropCommitting {t tee} (stage : w.stage t = .committing tee) :
      Takes w (.drop t) ((w.unregister tee).setStage t (.over (some tee.put)))
  | dropRecording {t tee} (stage : w.stage t = .recording tee) : Takes w (.drop t)
    ((w.unregister tee).setStage t (.over none))
  | dropIdle {t} (stage : w.stage t = .passthrough ∨ w.stage t = .done) : Takes w (.drop t) (w.setStage t (.over none))
  | write {t address} (stage : w.stage t = .absent) :
      Takes w (.write t address) ({ w with generations := (w.generations.register address).1 }.setStage t
        (.writing address (w.generations.register address).2))
  | written {t address startGeneration} (stage : w.stage t = .writing address startGeneration) :
      Takes w (.written t) ({ w with generations := w.generations.release address }.setStage t (.over none))
  | bumpKey {address} : Takes w (.bumpKey address) { w with generations := w.generations.bumpKey address }
  | bumpUnderPrefix {dir} : Takes w (.bumpUnderPrefix dir) { w with generations := w.generations.bumpUnderPrefix dir }

variable {w w' : Tees ι ε} {l : TeeStep ι ε}

variable {answer : Next ε}

theorem takes_teeNext {t : ι} {tee : TeeState} {reservedBytes : ℕ} {written : Bool} (h : w.stage t = .teeing tee) :
    Takes w (.next t reservedBytes written answer) (w.teeNext t tee reservedBytes written answer) := by
  unfold teeNext
  split
  · split
    · next put hput => exact .stage h hput
    · next hput => exact .abandon h hput
  · exact .fail h
  · split_ifs with hready
    · exact .accept h hready.1 hready.2
    · exact .discard h hready

theorem takes_step (h : w.step l = some w') : Takes w l w' := by
  cases l with
  | tee t request =>
    simp only [step] at h
    split at h
    · next hstage => exact Option.some.inj h ▸ .tee hstage
    · cases h
  | next t reservedBytes written answer =>
    simp only [step] at h
    split at h
    · next tee hstage => exact Option.some.inj h ▸ takes_teeNext hstage
    · next hstage =>
      cases answer with
      | some item => exact Option.some.inj h ▸ .forward hstage
      | none => exact Option.some.inj h ▸ .forwardEnd hstage
    · cases h
  | finish t =>
    simp only [step] at h
    split at h
    · next hstage => exact Option.some.inj h ▸ .finish hstage
    · cases h
  | commit t committed =>
    simp only [step] at h
    split at h
    · next tee hstage =>
      cases committed with
      | true => exact Option.some.inj h ▸ .commit hstage
      | false => exact Option.some.inj h ▸ .commitFails hstage
    · next put hstage => exact Option.some.inj h ▸ .commitAlone hstage
    · cases h
  | record t =>
    simp only [step] at h
    split at h
    · next tee hstage => exact Option.some.inj h ▸ .record hstage
    · cases h
  | drop t =>
    simp only [step] at h
    split at h
    · next tee hstage => exact Option.some.inj h ▸ .dropTeeing hstage
    · next tee hstage => exact Option.some.inj h ▸ .dropCommitting hstage
    · next tee hstage => exact Option.some.inj h ▸ .dropRecording hstage
    · next hstage => exact Option.some.inj h ▸ .dropIdle (.inl hstage)
    · next hstage => exact Option.some.inj h ▸ .dropIdle (.inr hstage)
    · cases h
  | write t address =>
    simp only [step] at h
    split at h
    · next hstage => exact Option.some.inj h ▸ .write hstage
    · cases h
  | written t =>
    simp only [step] at h
    split at h
    · next address start hstage => exact Option.some.inj h ▸ .written hstage
    · cases h
  | bumpKey address => exact Option.some.inj h ▸ .bumpKey
  | bumpUnderPrefix dir => exact Option.some.inj h ▸ .bumpUnderPrefix

/-! ### Whose step it is -/

/-- Nothing of the tee but its registration in the map changes. -/
def Frame (t : ι) (w w' : Tees ι ε) : Prop := w'.stage t = w.stage t ∧ w'.given t = w.given t

/-- A step of the tee leaves the others, and the tee is there after it. -/
structure Moves (t : ι) (w w' : Tees ι ε) : Prop where
  others : ∀ u, u ≠ t → Frame u w w'
  present : w'.stage t ≠ .absent

variable {t : ι}

variable {stage : TeeStage}

theorem moves_setStage {v : Tees ι ε} (hstage : v.stage = w.stage) (hgiven : v.given = w.given)
    (h : stage ≠ .absent) : Moves t w (v.setStage t stage) := by
  refine ⟨fun u hu => ⟨?_, congrFun hgiven u⟩, by simpa using h⟩
  exact (update_of_ne hu _ _).trans (congrFun hstage u)

theorem moves_give {v : Tees ι ε} (hstage : v.stage = w.stage) (hgiven : v.given = w.given)
    (h : stage ≠ .absent) : Moves t w ((v.setStage t stage).give t answer) := by
  have hmoves : Moves t w (v.setStage t stage) := moves_setStage hstage hgiven h
  exact ⟨fun u hu => ⟨(hmoves.others u hu).1, (update_of_ne hu _ _).trans (hmoves.others u hu).2⟩, hmoves.present⟩

/-- A step is that of a tee, or a mutation. -/
theorem moves_step (h : w.step l = some w') :
    (∃ t, l.who = some t ∧ Moves t w w') ∨ l.who = none ∧ ∀ t, Frame t w w' := by
  cases takes_step h with
  | bumpKey => exact .inr ⟨rfl, fun _ => ⟨rfl, rfl⟩⟩
  | bumpUnderPrefix => exact .inr ⟨rfl, fun _ => ⟨rfl, rfl⟩⟩
  | tee | accept | commit | dropTeeing | dropCommitting | dropRecording | dropIdle | write | written =>
    exact .inl ⟨_, rfl, moves_setStage rfl rfl (by nofun)⟩
  | commitAlone => exact .inl ⟨_, rfl, moves_setStage (by split <;> rfl) (by split <;> rfl) (by nofun)⟩
  | _ => exact .inl ⟨_, rfl, moves_give rfl rfl (by nofun)⟩

/-- The runs of the tees and mutations of a cache. -/
abbrev Runs : List (TeeStep ι ε) → Tees ι ε → Prop := Run (fun w => w = init) fun w l w' => w.step l = some w'

/-- A run to a world that passes a test, by executing its steps. -/
theorem runs_of_any {trace : List (TeeStep ι ε)} {p : Tees ι ε → Bool} (h : (trace.foldlM step init).any p = true) :
    ∃ w, Runs trace w ∧ p w = true :=
  @Run.of_any _ _ (fun w => w = init) _ step (fun _ _ _ h => h) init rfl _ _ h

end Tees

end OvStorage.ByteCache
