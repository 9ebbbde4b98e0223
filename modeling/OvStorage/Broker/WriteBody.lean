import OvStorage.Address.Percent
import OvStorage.Layer.Errors
import OvStorage.Lib.Word64

/-!
# The body of a write

How the broker reads the frames of one gRPC write and decides between replayable bytes and a stream: before it calls
the Stack where it authenticates itself (`select_write_body`), beneath the plugin where a plugin does
(`lazy_write_body`, then `normalize_post_auth_body`).

A stream of a body is the list of what its pulls give: a task sends the chunks over a queue in the order in which it
reads them, so the list does not depend on how far the task is ahead of the pulls. What a transport status is
converted to is a parameter.

## What is proved

* `write_body_selection`: what is delivered depends on the uploaded bytes alone, and not on their chunks.
-/

namespace OvStorage.Broker

open Address (Bytes)
open Layer

/-- `WRITE_BODY_BYTE_CAP`. -/
def writeBodyByteCap : ℕ := 64 * 1024 * 1024

/-- `WRITE_STREAM_THRESHOLD`. -/
def writeStreamThreshold : ℕ := 1024 * 1024

/-- `Body`: the items of a stream are what its pulls give. -/
inductive Body where
  | bytes (bytes : Bytes)
  | localFile (path : String)
  | stream (items : List (Except Error Bytes))

/-! ### The accumulator -/

/-- `ChunkDisposition`. -/
inductive ChunkDisposition where
  | discard
  | buffer
  | overflow
  | capExceeded
deriving DecidableEq

/-- `classify_write_chunk`. -/
def classifyWriteChunk (chunkLen bufferedLen threshold cap : ℕ) : ChunkDisposition :=
  if chunkLen = 0 then .discard
  else
    let projected := Word64.saturatingAdd bufferedLen chunkLen
    if projected > cap then .capExceeded else if projected > threshold then .overflow else .buffer

/-- `AccumulateWriteChunk`. -/
inductive AccumulateWriteChunk where
  | continue
  | stream (prefix_ : List Bytes)
  | capExceeded

/-- `WriteBodyAccumulator`. -/
structure WriteBodyAccumulator where
  chunks : List Bytes
  len : ℕ
  threshold : ℕ
  cap : ℕ

/-- `WriteBodyAccumulator::new`. -/
def WriteBodyAccumulator.new (threshold cap : ℕ) : WriteBodyAccumulator := ⟨[], 0, threshold, cap⟩

/-- `WriteBodyAccumulator::push`. -/
def WriteBodyAccumulator.push (acc : WriteBodyAccumulator) (chunk : Bytes) :
    AccumulateWriteChunk × WriteBodyAccumulator :=
  match classifyWriteChunk chunk.length acc.len acc.threshold acc.cap with
  | .discard => (.continue, acc)
  | .buffer => (.continue, { acc with len := acc.len + chunk.length, chunks := acc.chunks ++ [chunk] })
  | .overflow => (.stream (acc.chunks ++ [chunk]), { acc with len := acc.len + chunk.length, chunks := [] })
  | .capExceeded => (.capExceeded, acc)

/-- `WriteBodyAccumulator::finish`. -/
def WriteBodyAccumulator.finish (acc : WriteBodyAccumulator) : Bytes := acc.chunks.flatten

/-! ### The frames -/

/-- A frame behind the Open frame: the step of a `WriteRequest`. -/
inductive Frame where
  | missing
  | openFrame
  | chunk (bytes : Bytes)
  | redirectResults

/-- How the stream of frames ends. -/
inductive Ending (Status : Type) where
  | finished
  | failed (status : Status)

/-- The cap is crossed. -/
def capError : Error := ⟨.ResourceExhausted, s!"write body exceeded broker buffer cap of {writeBodyByteCap} bytes"⟩

section Frames

variable {Status : Type}

/-- `WriteFrameReader`, with the frames that its stream is to give. -/
structure WriteFrameReader (Status : Type) where
  frames : List Frame
  ending : Ending Status
  total : ℕ

variable (cancelled : Status → Bool) (statusToError : Status → Error)

/-- What the end of the stream is to the reader. -/
def Ending.error : Ending Status → Option Error
  | .finished => none
  | .failed status => some (if cancelled status then ⟨.Cancelled, "client cancelled write"⟩ else statusToError status)

/-- `next_chunk`: the loop goes on behind an empty chunk. -/
def nextChunk (ending : Ending Status) (total : ℕ) : List Frame → Except Error (Option Bytes) × WriteFrameReader Status
  | [] =>
    match ending.error cancelled statusToError with
    | none => (.ok none, ⟨[], ending, total⟩)
    | some error => (.error error, ⟨[], ending, total⟩)
  | .missing :: frames => (.error ⟨.InvalidArgument, "broker write request is missing a step"⟩, ⟨frames, ending, total⟩)
  | .openFrame :: frames =>
    (.error ⟨.InvalidArgument, "write Open frame must appear exactly once"⟩, ⟨frames, ending, total⟩)
  | .redirectResults :: frames =>
    (.error ⟨.InvalidArgument, "redirect results must be sent with ContinueWrite"⟩, ⟨frames, ending, total⟩)
  | .chunk chunk :: frames =>
    if chunk = [] then nextChunk ending total frames
    else if Word64.saturatingAdd total chunk.length > writeBodyByteCap then (.error capError, ⟨frames, ending, total⟩)
    else (.ok (some chunk), ⟨frames, ending, total + chunk.length⟩)

/-- `WriteFrameReader::next_chunk`. -/
def WriteFrameReader.nextChunk (reader : WriteFrameReader Status) :
    Except Error (Option Bytes) × WriteFrameReader Status :=
  Broker.nextChunk cancelled statusToError reader.ending reader.total reader.frames

/-- A chunk takes a frame at least. -/
theorem WriteFrameReader.nextChunk_lt {reader reader' : WriteFrameReader Status} {chunk : Bytes}
    (h : reader.nextChunk cancelled statusToError = (.ok (some chunk), reader')) :
    reader'.frames.length < reader.frames.length := by
  obtain ⟨frames, ending, total⟩ := reader
  unfold WriteFrameReader.nextChunk at h
  induction frames with
  | nil =>
    simp only [Broker.nextChunk] at h
    split at h <;> cases h
  | cons frame frames ih =>
    cases frame with
    | chunk c =>
      simp only [Broker.nextChunk] at h
      split_ifs at h
      · exact Nat.lt_succ_of_lt (ih h)
      · cases h
      · obtain rfl := (Prod.mk.inj h).2
        exact Nat.lt_succ_self _
    | missing => cases h
    | openFrame => cases h
    | redirectResults => cases h

/-- What the task of `spawn_write_body_stream` sends behind the initial chunks. -/
def WriteFrameReader.items (reader : WriteFrameReader Status) : List (Except Error Bytes) :=
  match _h : reader.nextChunk cancelled statusToError with
  | (.ok (some chunk), reader') => .ok chunk :: reader'.items
  | (.ok none, _) => []
  | (.error error, _) => [.error error]
termination_by reader.frames.length
decreasing_by exact reader.nextChunk_lt cancelled statusToError _h

/-- `spawn_write_body_stream`. -/
def spawnWriteBodyStream (reader : WriteFrameReader Status) (initialChunks : List Bytes) : List (Except Error Bytes) :=
  initialChunks.map .ok ++ reader.items cancelled statusToError

/-- `lazy_write_body`. -/
def lazyWriteBody (frames : List Frame) (ending : Ending Status) : List (Except Error Bytes) :=
  spawnWriteBodyStream cancelled statusToError ⟨frames, ending, 0⟩ []

/-- The loop of `select_write_body`. -/
def selectLoop (reader : WriteFrameReader Status) (acc : WriteBodyAccumulator) : Except Error Body :=
  match _h : reader.nextChunk cancelled statusToError with
  | (.error error, _) => .error error
  | (.ok none, _) => .ok (.bytes acc.finish)
  | (.ok (some chunk), reader') =>
    match acc.push chunk with
    | (.continue, acc') => selectLoop reader' acc'
    | (.stream prefix_, _) => .ok (.stream (spawnWriteBodyStream cancelled statusToError reader' prefix_))
    | (.capExceeded, _) => .error capError
termination_by reader.frames.length
decreasing_by exact reader.nextChunk_lt cancelled statusToError _h

/-- `select_write_body`. -/
def selectWriteBody (frames : List Frame) (ending : Ending Status) : Except Error Body :=
  selectLoop cancelled statusToError ⟨frames, ending, 0⟩ (.new writeStreamThreshold writeBodyByteCap)

end Frames

/-- The loop of `normalize_post_auth_body`; `none` is the arm that is said to be unreachable. -/
def normalizeLoop (acc : WriteBodyAccumulator) : List (Except Error Bytes) → Option (Except Error Body)
  | [] => some (.ok (.bytes acc.finish))
  | .error error :: _ => some (.error error)
  | .ok chunk :: items =>
    match acc.push chunk with
    | (.continue, acc') => normalizeLoop acc' items
    | (.stream prefix_, _) => some (.ok (.stream (prefix_.map .ok ++ items)))
    | (.capExceeded, _) => none

/-- `normalize_post_auth_body`, with `usize::MAX` as the cap. -/
def normalizePostAuthBody : Body → Option (Except Error Body)
  | .stream items => normalizeLoop (.new writeStreamThreshold Word64.max) items
  | body => some (.ok body)

/-! ### What is delivered -/

/-- What the pulls of a stream give, to its end or to an error. -/
def pulled : List (Except Error Bytes) → Bytes × Option Error
  | [] => ([], none)
  | .error error :: _ => ([], some error)
  | .ok chunk :: items => (chunk ++ (pulled items).1, (pulled items).2)

/-- What a backend is given of an upload, and the error that it ends in. -/
def delivered : Except Error Body → Option (Bytes × Option Error)
  | .error error => some ([], some error)
  | .ok (.bytes bytes) => some (bytes, none)
  | .ok (.stream items) => some (pulled items)
  | .ok (.localFile _) => none

theorem pulled_append (chunks : List Bytes) (items : List (Except Error Bytes)) :
    pulled (chunks.map .ok ++ items) = (chunks.flatten ++ (pulled items).1, (pulled items).2) := by
  induction chunks with
  | nil => rfl
  | cons chunk chunks ih =>
    rw [List.map_cons, List.cons_append, pulled, ih]
    simp

section Selection

variable {Status : Type} {cancelled : Status → Bool} {statusToError : Status → Error} {frames : List Frame}
  {ending : Ending Status}
  {reader : WriteFrameReader Status} {acc : WriteBodyAccumulator} {total : ℕ}

theorem WriteFrameReader.items_eq : reader.items cancelled statusToError =
    match reader.nextChunk cancelled statusToError with
    | (.ok (some chunk), reader') => .ok chunk :: reader'.items cancelled statusToError
    | (.ok none, _) => []
    | (.error error, _) => [.error error] := by
  rw [WriteFrameReader.items]
  split <;> simp only [*]

theorem selectLoop_eq : selectLoop cancelled statusToError reader acc =
    match reader.nextChunk cancelled statusToError with
    | (.error error, _) => .error error
    | (.ok none, _) => .ok (.bytes acc.finish)
    | (.ok (some chunk), reader') =>
      match acc.push chunk with
      | (.continue, acc') => selectLoop cancelled statusToError reader' acc'
      | (.stream prefix_, _) => .ok (.stream (spawnWriteBodyStream cancelled statusToError reader' prefix_))
      | (.capExceeded, _) => .error capError := by
  rw [selectLoop]
  split <;> simp only [*]

/-! ### What was uploaded -/

/-- The uploaded bytes, up to what is no chunk, and the error that the upload ends in. -/
def upload (cancelled : Status → Bool) (statusToError : Status → Error) (ending : Ending Status) :
    List Frame → Bytes × Option Error
  | [] => ([], ending.error cancelled statusToError)
  | .missing :: _ => ([], some ⟨.InvalidArgument, "broker write request is missing a step"⟩)
  | .openFrame :: _ => ([], some ⟨.InvalidArgument, "write Open frame must appear exactly once"⟩)
  | .redirectResults :: _ => ([], some ⟨.InvalidArgument, "redirect results must be sent with ContinueWrite"⟩)
  | .chunk chunk :: frames =>
    (chunk ++ (upload cancelled statusToError ending frames).1, (upload cancelled statusToError ending frames).2)

/-- The sum that is compared with a limit below the greatest word does not depend on the saturation. -/
theorem saturatingAdd_gt_iff {a b limit : ℕ} (h : limit < Word64.max) :
    Word64.saturatingAdd a b > limit ↔ a + b > limit := by
  unfold Word64.saturatingAdd
  omega

/-- What the frame reader hands out: the upload, or what of it is below the cap. -/
theorem run_items (frames : List Frame) (htotal : total ≤ writeBodyByteCap) :
    let items := WriteFrameReader.items cancelled statusToError ⟨frames, ending, total⟩
    let up := upload cancelled statusToError ending frames
    (pulled items).1 <+: up.1 ∧ total + (pulled items).1.length ≤ writeBodyByteCap ∧
      if total + up.1.length > writeBodyByteCap then (pulled items).2 = some capError else pulled items = up := by
  induction frames generalizing total with
  | nil =>
    rw [WriteFrameReader.items_eq]
    simp only [WriteFrameReader.nextChunk, nextChunk, upload]
    cases ending.error cancelled statusToError with
    | none => simp [pulled, htotal]
    | some error => simp [pulled, htotal]
  | cons frame frames ih =>
    cases frame with
    | missing =>
      rw [WriteFrameReader.items_eq]
      simp [WriteFrameReader.nextChunk, nextChunk, upload, pulled, htotal]
    | openFrame =>
      rw [WriteFrameReader.items_eq]
      simp [WriteFrameReader.nextChunk, nextChunk, upload, pulled, htotal]
    | redirectResults =>
      rw [WriteFrameReader.items_eq]
      simp [WriteFrameReader.nextChunk, nextChunk, upload, pulled, htotal]
    | chunk c =>
      have hlimit : writeBodyByteCap < Word64.max := by decide +kernel
      by_cases hempty : c = []
      · have hitems : WriteFrameReader.items cancelled statusToError ⟨.chunk c :: frames, ending, total⟩ =
            WriteFrameReader.items cancelled statusToError ⟨frames, ending, total⟩ := by
          rw [WriteFrameReader.items_eq, @WriteFrameReader.items_eq _ _ _ ⟨frames, ending, total⟩]
          simp only [WriteFrameReader.nextChunk, nextChunk, if_pos hempty]
        rw [hitems, upload, hempty, List.nil_append]
        exact ih htotal
      · by_cases hover : Word64.saturatingAdd total c.length > writeBodyByteCap
        · have hitems : WriteFrameReader.items cancelled statusToError ⟨.chunk c :: frames, ending, total⟩ =
              [.error capError] := by
            rw [WriteFrameReader.items_eq]
            simp only [WriteFrameReader.nextChunk, nextChunk, if_neg hempty, if_pos hover]
          rw [saturatingAdd_gt_iff hlimit] at hover
          simp only [hitems, upload, pulled, List.length_append, List.nil_prefix, List.length_nil, true_and]
          rw [if_pos (by omega)]
          exact ⟨htotal, trivial⟩
        · have hitems : WriteFrameReader.items cancelled statusToError ⟨.chunk c :: frames, ending, total⟩ =
              .ok c :: WriteFrameReader.items cancelled statusToError ⟨frames, ending, total + c.length⟩ := by
            rw [WriteFrameReader.items_eq]
            simp only [WriteFrameReader.nextChunk, nextChunk, if_neg hempty, if_neg hover]
          rw [saturatingAdd_gt_iff hlimit] at hover
          obtain ⟨hfront, hwithin, hend⟩ := @ih (total + c.length) (by omega)
          simp only [hitems, upload, pulled, List.length_append]
          refine ⟨(List.prefix_append_right_inj c).mpr hfront, by omega, ?_⟩
          rw [← Nat.add_assoc]
          split
          · rename_i hcap
            rwa [if_pos hcap] at hend
          · rename_i hcap
            rw [if_neg hcap] at hend
            rw [hend]

/-! ### Where the body is selected -/

/-- The accumulator beneath the authentication. -/
def WriteBodyAccumulator.uncapped (acc : WriteBodyAccumulator) : WriteBodyAccumulator := { acc with cap := Word64.max }

/-- A chunk that the reader has let through does not cross the cap of the accumulator, neither the one nor the other. -/
theorem push_uncapped {chunk : Bytes} (hcap : acc.cap = writeBodyByteCap)
    (h : acc.len + chunk.length ≤ writeBodyByteCap) :
    acc.uncapped.push chunk = ((acc.push chunk).1, (acc.push chunk).2.uncapped) ∧ (acc.push chunk).1 ≠ .capExceeded ∧
      (acc.push chunk).2.cap = writeBodyByteCap ∧
      ((acc.push chunk).1 = .continue → (acc.push chunk).2.len = acc.len + chunk.length) := by
  have hlimit : writeBodyByteCap < Word64.max := by decide +kernel
  have hsum : Word64.saturatingAdd acc.len chunk.length = acc.len + chunk.length :=
    Word64.saturatingAdd_of_lt (by rw [Word64.size_eq]; omega)
  have huncapped : ¬ acc.len + chunk.length > Word64.max := by omega
  have hcapped : ¬ acc.len + chunk.length > writeBodyByteCap := by omega
  unfold WriteBodyAccumulator.push classifyWriteChunk
  simp only [WriteBodyAccumulator.uncapped, hsum, hcap, if_neg huncapped, if_neg hcapped]
  by_cases hempty : chunk.length = 0
  · simp [hempty, hcap]
  · by_cases hover : acc.len + chunk.length > acc.threshold
    · simp [hempty, hover]
    · simp [hempty, hover]

/-- A chunk that the reader lets through is counted, and within the cap. -/
theorem WriteFrameReader.nextChunk_total {reader' : WriteFrameReader Status} {chunk : Bytes}
    (h : reader.nextChunk cancelled statusToError = (.ok (some chunk), reader')) :
    reader'.total = reader.total + chunk.length ∧ reader.total + chunk.length ≤ writeBodyByteCap := by
  have hlimit : writeBodyByteCap < Word64.max := by decide +kernel
  obtain ⟨frames, ending, total⟩ := reader
  unfold WriteFrameReader.nextChunk at h
  induction frames with
  | nil =>
    simp only [Broker.nextChunk] at h
    split at h <;> cases h
  | cons frame frames ih =>
    cases frame with
    | chunk c =>
      simp only [Broker.nextChunk] at h
      split_ifs at h with hempty hover
      · exact ih h
      · cases h
      · rw [saturatingAdd_gt_iff hlimit, Nat.not_lt] at hover
        obtain ⟨hchunk, rfl⟩ := Prod.mk.inj h
        cases hchunk
        exact ⟨rfl, hover⟩
    | missing => cases h
    | openFrame => cases h
    | redirectResults => cases h

/-- What is selected from the frames is what is selected from the stream of them. -/
theorem selectLoop_eq_normalize (hcap : acc.cap = writeBodyByteCap) (hlen : acc.len = reader.total) :
    normalizeLoop acc.uncapped (reader.items cancelled statusToError) =
      some (selectLoop cancelled statusToError reader acc) := by
  induction hn : reader.frames.length using Nat.strong_induction_on generalizing reader acc with
  | _ n ih =>
    rw [WriteFrameReader.items_eq, selectLoop_eq]
    rcases hnext : reader.nextChunk cancelled statusToError with ⟨error | _ | chunk, reader'⟩
    · rfl
    · rfl
    · obtain ⟨htotal, hwithin⟩ := WriteFrameReader.nextChunk_total hnext
      obtain ⟨hpush, hno, hcap', hlen'⟩ := push_uncapped hcap (by omega : acc.len + chunk.length ≤ writeBodyByteCap)
      have hlt := reader.nextChunk_lt cancelled statusToError hnext
      simp only [normalizeLoop, hpush]
      rcases hresult : acc.push chunk with ⟨_ | prefix_ | _, acc'⟩
      · rw [hresult] at hcap' hlen'
        have hlen' : acc'.len = reader'.total := by
          rw [hlen' rfl, hlen, htotal]
        exact ih _ (hn ▸ hlt) hcap' hlen' rfl
      · rfl
      · rw [hresult] at hno
        exact absurd rfl hno

/-! ### What is selected -/

/-- What the accumulator holds is counted, and within the threshold; its cap is none. -/
structure Buffered (acc : WriteBodyAccumulator) : Prop where
  len : acc.len = acc.finish.length
  within : acc.len ≤ acc.threshold
  threshold : acc.threshold < Word64.max
  cap : acc.cap = Word64.max

/-- What comes of a chunk where there is no cap. -/
theorem Buffered.push (h : Buffered acc) (chunk : Bytes) :
    (∃ acc', acc.push chunk = (.continue, acc') ∧ Buffered acc' ∧ acc'.threshold = acc.threshold ∧
      acc'.finish = acc.finish ++ chunk) ∨
      ∃ acc', acc.push chunk = (.stream (acc.chunks ++ [chunk]), acc') ∧ acc.len + chunk.length > acc.threshold := by
  have hmax : ¬ Word64.saturatingAdd acc.len chunk.length > Word64.max := Nat.not_lt.mpr Word64.saturatingAdd_le_max
  have hiff := saturatingAdd_gt_iff (a := acc.len) (b := chunk.length) h.threshold
  unfold WriteBodyAccumulator.push classifyWriteChunk
  by_cases hempty : chunk.length = 0
  · refine .inl ⟨acc, by simp [hempty], h, rfl, ?_⟩
    rw [List.length_eq_zero_iff.mp hempty, List.append_nil]
  · by_cases hover : Word64.saturatingAdd acc.len chunk.length > acc.threshold
    · refine .inr ⟨{ acc with len := acc.len + chunk.length, chunks := [] }, ?_, hiff.mp hover⟩
      simp [hempty, h.cap, hmax, hover]
    · have hfinish : ({ acc with len := acc.len + chunk.length, chunks := acc.chunks ++
            [chunk] } : WriteBodyAccumulator).finish =
          acc.finish ++ chunk := by simp [WriteBodyAccumulator.finish]
      refine .inl ⟨{ acc with len := acc.len + chunk.length, chunks := acc.chunks ++ [chunk] }, ?_,
        ⟨?_, ?_, h.threshold, h.cap⟩, rfl,
        hfinish⟩
      · simp [hempty, h.cap, hmax, hover]
      · rw [hfinish, List.length_append, h.len]
      · exact Nat.not_lt.mp (mt hiff.mpr hover)

/-- The selection by the items alone: bytes where they end within the threshold, the error where they fail within it,
and otherwise a stream of all of them. -/
theorem normalizeLoop_spec (h : Buffered acc) (items : List (Except Error Bytes)) :
    ∃ body, normalizeLoop acc items = some body ∧
      (if acc.len + (pulled items).1.length ≤ acc.threshold then
        match (pulled items).2 with
        | none => body = .ok (.bytes (acc.finish ++ (pulled items).1))
        | some error => body = .error error
      else ∃ items', body = .ok (.stream items') ∧
      pulled items' = (acc.finish ++ (pulled items).1, (pulled items).2)) := by
  induction items generalizing acc with
  | nil =>
    refine ⟨_, rfl, ?_⟩
    have hwithin := h.within
    simp [pulled, hwithin]
  | cons item items ih =>
    cases item with
    | error error =>
      refine ⟨_, rfl, ?_⟩
      have hwithin := h.within
      simp [pulled, hwithin]
    | ok chunk =>
      rcases h.push chunk with ⟨acc', hpush, hacc', hthreshold, hfinish⟩ | ⟨acc', hpush, hover⟩
      · obtain ⟨body, hbody, hspec⟩ := ih hacc'
        refine ⟨body, by simp only [normalizeLoop, hpush, hbody], ?_⟩
        rw [hthreshold, hacc'.len, hfinish] at hspec
        simpa only [pulled, h.len, List.length_append, List.append_assoc, Nat.add_assoc] using hspec
      · refine ⟨.ok (.stream ((acc.chunks ++ [chunk]).map .ok ++ items)), by simp only [normalizeLoop, hpush], ?_⟩
        have hlong : ¬ acc.len + (pulled (.ok chunk :: items)).1.length ≤ acc.threshold := by
          simp only [pulled, List.length_append]
          omega
        rw [if_neg hlong]
        refine ⟨_, rfl, ?_⟩
        rw [pulled_append]
        simp [pulled, WriteBodyAccumulator.finish]

/-- The empty accumulator. -/
theorem buffered_new : Buffered (.new writeStreamThreshold Word64.max) :=
  ⟨rfl, Nat.zero_le _, by decide +kernel, rfl⟩

/-- The loop beneath the authentication is right that there is no cap to cross. -/
theorem normalizePostAuthBody_ne_none (body : Body) : normalizePostAuthBody body ≠ none := by
  cases body with
  | bytes bytes => exact Option.some_ne_none _
  | localFile path => exact Option.some_ne_none _
  | stream items =>
    obtain ⟨body, hbody, -⟩ := normalizeLoop_spec buffered_new items
    rw [normalizePostAuthBody, hbody]
    exact Option.some_ne_none body

/-- It does not matter on which side of the authentication the body is selected. -/
theorem select_eq_normalize (cancelled : Status → Bool) (statusToError : Status → Error) (frames : List Frame)
    (ending : Ending Status) :
    normalizePostAuthBody (.stream (lazyWriteBody cancelled statusToError frames ending)) =
      some (selectWriteBody cancelled statusToError frames ending) := by
  have hsame := @selectLoop_eq_normalize Status cancelled statusToError ⟨frames, ending, 0⟩
    (.new writeStreamThreshold writeBodyByteCap) rfl rfl
  exact hsame

end Selection

/-- Selecting the body of a write from its frames. Both orders of selection and authentication come to one result; the
arm that is said to be unreachable is. Of an upload within the cap what is delivered does not depend on its chunks: all
of it, or nothing where it fails within the threshold, and the error that it fails with. Past the cap a part of it and
`ResourceExhausted`. The body is replayable just where the upload ends well within the threshold. -/
theorem write_body_selection {Status : Type} (cancelled : Status → Bool) (statusToError : Status → Error)
    (frames : List Frame) (ending : Ending Status) :
    let up := upload cancelled statusToError ending frames
    let body := selectWriteBody cancelled statusToError frames ending
    normalizePostAuthBody (.stream (lazyWriteBody cancelled statusToError frames ending)) = some body ∧
      (∀ body, normalizePostAuthBody body ≠ none) ∧
      (∃ bytes error, delivered body = some (bytes, error) ∧ bytes <+: up.1 ∧ bytes.length ≤ writeBodyByteCap ∧
        if up.1.length > writeBodyByteCap then error = some capError
        else (bytes, error) = if up.1.length ≤ writeStreamThreshold ∧ up.2 ≠ none then ([], up.2) else up) ∧
      ((∃ bytes, body = .ok (.bytes bytes)) ↔ up.2 = none ∧ up.1.length ≤ writeStreamThreshold) := by
  intro up body
  have hsame := select_eq_normalize cancelled statusToError frames ending
  refine ⟨hsame, normalizePostAuthBody_ne_none, ?_⟩
  obtain ⟨hfront, hwithin, hend⟩ := @run_items Status cancelled statusToError ending 0 frames
    (Nat.zero_le writeBodyByteCap)
  rw [Nat.zero_add] at hwithin hend
  obtain ⟨body', hbody', hspec⟩ := normalizeLoop_spec buffered_new (lazyWriteBody cancelled statusToError frames ending)
  obtain rfl : body' = body := Option.some.inj (hbody'.symm.trans hsame)
  have hlazy : lazyWriteBody cancelled statusToError frames ending = WriteFrameReader.items cancelled statusToError
    ⟨frames, ending, 0⟩ := rfl
  have hlimits : writeStreamThreshold < writeBodyByteCap := by decide +kernel
  rw [hlazy] at hspec
  generalize hrun : pulled (WriteFrameReader.items cancelled statusToError ⟨frames, ending, 0⟩) = run
    at hfront hwithin hend hspec
  obtain ⟨bytes, error⟩ := run
  simp only [WriteBodyAccumulator.new, WriteBodyAccumulator.finish, List.flatten_nil, List.nil_append,
    Nat.zero_add] at hspec hend
  have hlength : bytes.length ≤ up.1.length := hfront.length_le
  by_cases hcap : up.1.length > writeBodyByteCap
  · rw [if_pos hcap] at hend
    subst hend
    have hno : ¬ (up.2 = none ∧ up.1.length ≤ writeStreamThreshold) := fun h => absurd h.2 (by omega)
    split at hspec
    · rw [hspec]
      refine ⟨⟨[], some capError, rfl, List.nil_prefix, Nat.zero_le _, by rw [if_pos hcap]⟩, iff_of_false ?_ hno⟩
      rintro ⟨_, ⟨⟩⟩
    · obtain ⟨items', hbody, hitems⟩ := hspec
      rw [hbody]
      refine ⟨⟨bytes, some capError, congrArg some hitems, hfront, hwithin, by rw [if_pos hcap]⟩, iff_of_false ?_ hno⟩
      rintro ⟨_, ⟨⟩⟩
  · rw [if_neg hcap] at hend
    have hup : up = (bytes, error) := hend.symm
    rw [hup] at hcap ⊢
    simp only [if_neg hcap]
    split at hspec
    · rename_i hshort
      cases error with
      | none =>
        rw [hspec]
        exact ⟨⟨bytes, none, rfl, List.prefix_rfl, hwithin, by simp⟩, iff_of_true ⟨bytes, rfl⟩ ⟨rfl, hshort⟩⟩
      | some error =>
        rw [hspec]
        refine ⟨⟨[], some error, rfl, List.nil_prefix, Nat.zero_le _, by simp [hshort]⟩, iff_of_false ?_ (by simp)⟩
        rintro ⟨_, ⟨⟩⟩
    · rename_i hlong
      obtain ⟨items', hbody, hitems⟩ := hspec
      rw [hbody]
      refine ⟨⟨bytes, error, congrArg some hitems, List.prefix_rfl, hwithin, by simp [hlong]⟩,
        iff_of_false ?_ fun h => hlong h.2⟩
      rintro ⟨_, ⟨⟩⟩

end OvStorage.Broker
