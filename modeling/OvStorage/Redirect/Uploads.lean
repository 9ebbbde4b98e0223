import OvStorage.Redirect.Ranges

/-!
# Following write redirects

The three executors of a batch of write redirects: over a body in memory, over a file, and over a stream that
is read once, whose parts share what a chunk carries over from one part to the next.

An executor is a `Course`: the request bodies that it has sent, and how it ends. What comes of a request is up to the
origin, and so is how many chunks of a streamed body the client pulls before there is an answer; it pulls none after
that. Whether a redirect may be followed (`ensure_write_redirect_valid`) is up to the world as well.
-/

namespace OvStorage.Redirect

open OvStorage.Layer Slice

/-- `RedirectBodySource`. -/
inductive RedirectBodySource where
  | empty
  | userBytes (offset len : UInt64)
  | inline (bytes : Bytes)

/-- `WriteRedirect`, as far as its body goes. -/
structure WriteRedirect where
  bodySource : RedirectBodySource

/-! ### The body as a stream -/

/-- `BodyStream`: chunks, and the error that it may end in. -/
structure BodyStream where
  chunks : List Bytes
  error : Option Error

/-- `next_chunk`. -/
def BodyStream.nextChunk (stream : BodyStream) : Option (Except Error Bytes) × BodyStream :=
  match stream.chunks, stream.error with
  | chunk :: chunks, error => (some (.ok chunk), ⟨chunks, error⟩)
  | [], some e => (some (.error e), ⟨[], none⟩)
  | [], none => (none, stream)

/-- `CarrySource`. -/
structure CarrySource where
  stream : BodyStream
  carry : Bytes
  consumed : ℕ
  error : Option Error

/-- The stream of `carry_part_stream`. -/
structure PartStream where
  len : ℕ
  produced : ℕ
  source : CarrySource

/-- `carry_part_stream`. -/
def carryPartStream (source : CarrySource) (len : ℕ) : PartStream := ⟨len, 0, source⟩

/-- Hand out a chunk that leaves `carry` in the source. -/
def PartStream.yield (p : PartStream) (chunk carry : Bytes) (stream : BodyStream) :
    Except Fault (Option (Except Error Bytes) × PartStream) := do
  let produced ← plus p.produced chunk.length
  let consumed ← plus p.source.consumed chunk.length
  return (some (.ok chunk), ⟨p.len, produced, { p.source with stream, carry, consumed }⟩)

/-- Hand out an error, which the source keeps. -/
def PartStream.break (p : PartStream) (e : Error) (stream : BodyStream) : Option (Except Error Bytes) × PartStream :=
  (some (.error e), { p with source := { p.source with stream, error := some e } })

/-- `next_chunk` of `carry_part_stream`. -/
def PartStream.nextChunk (p : PartStream) : Except Fault (Option (Except Error Bytes) × PartStream) :=
  if p.len ≤ p.produced then .ok (none, p)
  else do
    let remaining ← minus p.len p.produced
    if p.source.carry ≠ [] then
      p.yield (p.source.carry.take remaining) (p.source.carry.drop remaining) p.source.stream
    else
      match p.source.stream.nextChunk with
      | (none, stream) =>
        return p.break ⟨.InvalidArgument,
          s!"stream ended after {p.produced} bytes; redirect part requested {p.len}"⟩ stream
      | (some (.error e), stream) => return p.break e stream
      | (some (.ok chunk), stream) => p.yield (chunk.take remaining) (chunk.drop remaining) stream

/-- How pulling chunks ends. -/
inductive PullEnd where
  /-- No more are pulled. -/
  | stopped
  | whole
  | failed (e : Error)

/-- What was pulled of a part, and how it is left. -/
structure Pulled where
  chunks : List Bytes
  ending : PullEnd
  part : PartStream

/-- Pull a number of chunks. -/
def PartStream.pull : ℕ → PartStream → Except Fault Pulled
  | 0, p => .ok ⟨[], .stopped, p⟩
  | pulls + 1, p => do
    match ← p.nextChunk with
    | (none, p) => return ⟨[], .whole, p⟩
    | (some (.error e), p) => return ⟨[], .failed e, p⟩
    | (some (.ok chunk), p) =>
      let rest ← p.pull pulls
      return { rest with chunks := chunk :: rest.chunks }

/-- As many pulls as a part can take: its carry, the chunks of the stream, and its end. -/
def PartStream.turns (p : PartStream) : ℕ := p.source.stream.chunks.length + 2

/-- `drain_carry_source_to`. -/
def drainCarrySourceTo (source : CarrySource) (target : ℕ) : Except Fault CarrySource :=
  let drain := carryPartStream source (target - source.consumed)
  if drain.len = 0 then .ok source
  else do
    let pulled ← drain.pull drain.turns
    match pulled.ending with
    | .failed e => .error (.error e)
    | _ => .ok pulled.part.source

/-- The loop of `ensure_carry_source_eof`. -/
def probeEof (surplusMessage : String) (error : Option Error) : List Bytes → Except Fault Unit
  | [] => error.elim (.ok ()) fun e => .error (.error e)
  | chunk :: chunks => if chunk = [] then probeEof surplusMessage error chunks else fail .InvalidArgument surplusMessage

/-- `ensure_carry_source_eof`. -/
def ensureCarrySourceEof (source : CarrySource) (surplusMessage : String) : Except Fault Unit :=
  if source.carry ≠ [] then fail .InvalidArgument surplusMessage
  else probeEof surplusMessage source.stream.error source.stream.chunks

/-! ### Courses -/

/-- A request body that was sent, whether it was sent as a whole, and the stream that it was offered as, if it is one.
-/
structure Sent where
  bodySource : RedirectBodySource
  bytes : Bytes
  whole : Bool
  handed : Option PartStream

/-- What an executor has sent, and how it ends. -/
structure Course (α : Type) where
  sent : List Sent
  result : Except Fault α

namespace Course

variable {α β : Type}

/-- Nothing is sent. -/
def of (result : Except Fault α) : Course α := ⟨[], result⟩

/-- Send a request body. -/
def send (sent : Sent) : Course Unit := ⟨[sent], .ok ()⟩

instance : Monad Course where
  pure a := of (.ok a)
  bind c f :=
    match c.result with
    | .error fault => ⟨c.sent, .error fault⟩
    | .ok a => ⟨c.sent ++ (f a).sent, (f a).result⟩

end Course

/-- What comes of a request with a streamed body: the pulls before there is an answer, and the result or the error. -/
structure Answer (ρ : Type) where
  pulls : ℕ
  outcome : Except Error ρ

/-- What is up to the world, by the position of a redirect in its batch: a result is what `capture_redirect_result`
keeps of it, and an answer to a body that can be sent again is the one after the retries. -/
structure Origin (ρ : Type) where
  valid : ℕ → Except Error Unit
  answer : ℕ → Answer ρ

variable {ρ : Type}

/-- An error of the world. -/
def raise {α : Type} (x : Except Error α) : Course α := .of (x.mapError .error)

/-- `execute_redirect_request`. -/
def executeRedirectRequest (origin : Origin ρ) (index : ℕ) (bodySource : RedirectBodySource) (bytes : Bytes) :
    Course ρ := do
  Course.send ⟨bodySource, bytes, true, none⟩
  raise (origin.answer index).outcome

/-- Whether the whole of a part was pulled. -/
def PullEnd.isWhole : PullEnd → Bool
  | .whole => true
  | _ => false

/-- A request with a part of the stream for its body (`execute_streaming_request`, and the error that the source
prefers). -/
def executeStreamingRequest (origin : Origin ρ) (index : ℕ) (bodySource : RedirectBodySource) (part : PartStream) :
    Course (ρ × CarrySource) := do
  let pulled ← Course.of (part.pull (origin.answer index).pulls)
  Course.send ⟨bodySource, pulled.chunks.flatten, pulled.ending.isWhole, some part⟩
  match (origin.answer index).outcome with
  | .ok result => return (result, pulled.part.source)
  | .error e => raise (.error (pulled.part.source.error.getD e))

/-! ### The executors -/

/-- The variables of the loop over a batch. -/
structure Multipart where
  source : CarrySource
  cursor : ℕ
  sawUserBytes : Bool

/-- One redirect of a batch of several. -/
def followPart (origin : Origin ρ) (index : ℕ) (m : Multipart) (redirect : WriteRedirect) : Course (ρ × Multipart) := do
  raise (origin.valid index)
  match redirect.bodySource with
  | .empty => return (← executeRedirectRequest origin index .empty [], m)
  | .inline bytes => return (← executeRedirectRequest origin index (.inline bytes) bytes, m)
  | .userBytes offset len =>
    if offset.toNat ≠ m.cursor then
      Course.of (fail .InvalidArgument (s!"multipart stream redirects must be in offset order (cursor={m.cursor}, " ++
        s!"redirect.offset={offset.toNat}); streams cannot be rewound"))
    else
      let (result, source) ← executeStreamingRequest origin index (.userBytes offset len)
        (carryPartStream m.source len.toNat)
      let cursor ← Course.of (plus m.cursor len.toNat)
      let source ← Course.of (drainCarrySourceTo source cursor)
      return (result, ⟨source, cursor, true⟩)

/-- The loop over a batch, from a position on. -/
def followParts (origin : Origin ρ) : ℕ → Multipart → List WriteRedirect → Course (List ρ × Multipart)
  | _, m, [] => return ([], m)
  | index, m, redirect :: redirects => do
    let (result, m) ← followPart origin index m redirect
    let (results, m) ← followParts origin (index + 1) m redirects
    return (result :: results, m)

/-- A source before anything is pulled. -/
def CarrySource.new (stream : BodyStream) : CarrySource := ⟨stream, [], 0, none⟩

/-- The batch of one redirect. -/
def followSingle (origin : Origin ρ) (stream : BodyStream) (redirect : WriteRedirect) : Course (List ρ) := do
  raise (origin.valid 0)
  match redirect.bodySource with
  | .empty => return [← executeRedirectRequest origin 0 .empty []]
  | .inline bytes => return [← executeRedirectRequest origin 0 (.inline bytes) bytes]
  | .userBytes offset len =>
    if offset ≠ 0 then Course.of (fail .InvalidArgument "single-redirect stream UserBytes must start at offset 0")
    else
      let part := carryPartStream (.new stream) len.toNat
      let (result, source) ← executeStreamingRequest origin 0 (.userBytes offset len) part
      let source ← Course.of (drainCarrySourceTo source len.toNat)
      Course.of (ensureCarrySourceEof source "write body is longer than the single redirect length")
      return [result]

/-- `follow_streaming_write_redirects`. -/
def followStreamingWriteRedirects (origin : Origin ρ) (stream : BodyStream) (batch : List WriteRedirect) :
    Course (List ρ) :=
  match batch with
  | [] => return []
  | [redirect] => followSingle origin stream redirect
  | redirects => do
    let (results, m) ← followParts origin 0 ⟨.new stream, 0, false⟩ redirects
    if m.sawUserBytes then
      Course.of (ensureCarrySourceEof m.source "write body is longer than the summed multipart redirect part lengths")
    return results

/-- `redirect_body_bytes`. -/
def redirectBodyBytes (body : Bytes) : RedirectBodySource → Except Fault Bytes
  | .empty => .ok []
  | .inline bytes => .ok bytes
  | .userBytes offset len =>
    match Word64.checkedAdd offset.toNat len.toNat with
    | none => fail .InvalidArgument "redirect body range overflows"
    | some last =>
      if last ≤ body.length then .ok (slice body offset.toNat last)
      else fail .InvalidArgument "redirect body range exceeds the write body"

/-- `follow_buffered_write_redirects`, from a position of the batch on. -/
def followBufferedWriteRedirects (origin : Origin ρ) (body : Bytes) : ℕ → List WriteRedirect → Course (List ρ)
  | _, [] => return []
  | index, redirect :: redirects => do
    raise (origin.valid index)
    let bytes ← Course.of (redirectBodyBytes body redirect.bodySource)
    let result ← executeRedirectRequest origin index redirect.bodySource bytes
    return result :: (← followBufferedWriteRedirects origin body (index + 1) redirects)

/-- `bounded_file_stream` from a position on. What a read gives is up to the system: an error, or as many bytes at most,
and one at least where there is one; so a stream has as many turns as there are bytes at most. -/
def boundedFileStream (file : Bytes) (reads : ℕ → Except Error ℕ) : ℕ → ℕ → ℕ → Except Fault BodyStream
  | 0, _, _ => .ok ⟨[], none⟩
  | turns + 1, position, remaining =>
    if remaining = 0 then .ok ⟨[], none⟩
    else
      match reads turns with
      | .error e => .ok ⟨[], some e⟩
      | .ok amount =>
        let buf := slice file position (position + min (min remaining (64 * 1024)) (max amount 1))
        if buf = [] then .ok ⟨[], some ⟨.InvalidArgument, "redirect body range exceeds the write body"⟩⟩
        else do
          let left ← minus remaining buf.length
          let rest ← boundedFileStream file reads turns (position + buf.length) left
          return { rest with chunks := buf :: rest.chunks }

/-- `follow_seekable_write_redirects`, from a position of the batch on. -/
def followSeekableWriteRedirects (origin : Origin ρ) (file : Bytes) (reads : ℕ → ℕ → Except Error ℕ) :
    ℕ → List WriteRedirect → Course (List ρ)
  | _, [] => return []
  | index, redirect :: redirects => do
    raise (origin.valid index)
    match redirect.bodySource with
    | .empty =>
      let result ← executeRedirectRequest origin index .empty []
      return result :: (← followSeekableWriteRedirects origin file reads (index + 1) redirects)
    | .inline bytes =>
      let result ← executeRedirectRequest origin index (.inline bytes) bytes
      return result :: (← followSeekableWriteRedirects origin file reads (index + 1) redirects)
    | .userBytes offset len =>
      match Word64.checkedAdd offset.toNat len.toNat with
      | none => Course.of (fail .InvalidArgument "redirect body range overflows")
      | some last =>
        if file.length < last then Course.of (fail .InvalidArgument "redirect body range exceeds the write body")
        else
          let stream ← Course.of (boundedFileStream file (reads index) len.toNat offset.toNat len.toNat)
          let pulled := stream.chunks.take (origin.answer index).pulls
          let whole := decide (stream.chunks.length < (origin.answer index).pulls) && stream.error.isNone
          Course.send ⟨.userBytes offset len, pulled.flatten, whole, none⟩
          let result ← raise (origin.answer index).outcome
          return result :: (← followSeekableWriteRedirects origin file reads (index + 1) redirects)

end OvStorage.Redirect
