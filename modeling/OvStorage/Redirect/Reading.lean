import OvStorage.Layer.Retry
import OvStorage.Redirect.Ranges

/-!
# Following a read redirect

`follow_read_redirect_streaming` with the resumption of a body that fails halfway. The engine is a program
over the redirect in force, the budget for minting after a `403`, and the calls it has made so far; what
the world answers to a call may depend on all calls before it. A redirect minted because the origin
rejected one is told apart from one minted on expiry.

The stream of a read is computed to its end, though a caller, or the filter around it, may stop pulling
before. The world decides what is outside the engine: the clock, the backend that mints redirects, the
origin, whether a URL lies within its scope, and checksums with their headers.
-/

namespace OvStorage.Redirect

open OvStorage.Layer Stateful

/-! ### Redirects -/

/-- `ResponseParsing`, as far as a stream is read by it. -/
structure ResponseParsing where
  etagHeader : Option Text
  contentChecksumHeader : Option Text
  contentChecksumAlgorithm : Option Text
deriving DecidableEq

/-- `RedirectScope`. -/
structure RedirectScope where
  physicalUrlPrefix : Text
  read : Bool
  expiresAt : ℕ
deriving DecidableEq

/-- `HttpRequest`. -/
structure HttpRequest where
  method : Text
  url : Text
  headers : List (Text × Text)
deriving DecidableEq

/-- `ReadRedirect`. -/
structure ReadRedirect where
  request : HttpRequest
  responseParsing : ResponseParsing
  expiresAt : ℕ
  scope : RedirectScope
deriving DecidableEq

/-- Why a redirect is minted. -/
inductive Cause where
  | expired
  /-- The origin answered with a `403`. -/
  | rejected
deriving DecidableEq

/-- What the engine asks of the world. -/
inductive Call where
  | clock
  | scope (redirect : ReadRedirect)
  | mint (cause : Cause)
  | send (request : HttpRequest)
  | openFile (redirect : ReadRedirect)
deriving DecidableEq

/-- The scheme of a URL. -/
inductive Scheme where
  | http
  | file
  | other (scheme : String)

/-- What the world answers, after the calls so far. -/
structure World where
  now : List Call → ℕ
  /-- The part of `ensure_redirect_scope` that looks at the two URLs. -/
  withinScope : List Call → ReadRedirect → Except Error Unit
  /-- `RedirectMint`. -/
  mint : Option (List Call → Except Error ReadRedirect)
  /-- The response, or the text of `reqwest_transient_error`. -/
  send : List Call → HttpRequest → Except String Response
  scheme : Text → Except Error Scheme
  openFile : List Call → ReadRedirect → Except Error Body
  /-- The algorithm and the value of `StreamingVerifier::for_response`. -/
  expectedChecksum : ResponseParsing → List (Text × Text) → Option (Text × Bytes)
  digest : Text → Bytes → Bytes

/-- The redirect in force, whether a `403` has been answered by minting, and the calls made. -/
structure Session where
  current : ReadRedirect
  mintedOnce : Bool
  calls : List Call

abbrev Engine := StateM Session

/-- How many redirects were minted because of a `403`. -/
def rejections (calls : List Call) : ℕ := calls.count (.mint .rejected)

/-- Make a call; what was called before decides the answer. -/
def ask {α : Type} (call : Call) (answer : List Call → α) : Engine α := do
  let s ← get
  set { s with calls := s.calls ++ [call] }
  return answer s.calls

variable (W : World)

/-- `ensure_redirect_fresh`. -/
def ensureRedirectFresh (expiresAt : ℕ) : Engine (Except Error Unit) := do
  let now ← ask .clock W.now
  if expiresAt ≤ now then return .error ⟨.RedirectExpired, "redirect expired before it could be followed"⟩
  return .ok ()

/-- `ensure_redirect_scope`. -/
def ensureRedirectScope (redirect : ReadRedirect) : Engine (Except Error Unit) := do
  match ← ensureRedirectFresh W redirect.scope.expiresAt with
  | .error e => return .error e
  | .ok () =>
    if redirect.scope.read = false then return .error ⟨.PermissionDenied, "redirect scope does not permit read"⟩
    else if redirect.scope.physicalUrlPrefix = [] then
      return .error ⟨.InvalidArgument, "redirect scope physical_url_prefix is empty"⟩
    else ask (.scope redirect) fun calls => W.withinScope calls redirect

/-- `Method::from_bytes` takes it. -/
def isMethod (method : Text) : Bool :=
  method != [] && method.all fun c => c.isAlphanum || "!#$%&'*+-.^_`|~".toList.contains c

/-- `ensure_read_redirect_valid`. -/
def ensureReadRedirectValid (redirect : ReadRedirect) : Engine (Except Error Unit) := do
  match ← ensureRedirectFresh W redirect.expiresAt with
  | .error e => return .error e
  | .ok () =>
    if isMethod redirect.request.method = false then
      return .error ⟨.InvalidArgument, "redirect HTTP method is invalid: invalid HTTP method"⟩
    else if redirect.request.method ≠ "GET".toList ∧ redirect.request.method ≠ "HEAD".toList then
      return .error ⟨.PermissionDenied, "read redirect method '" ++ String.ofList redirect.request.method ++
        "' is not permitted"⟩
    else ensureRedirectScope W redirect

/-- Ask the backend for a redirect, and put it in force. -/
def mintRedirect (cause : Cause) (mint : List Call → Except Error ReadRedirect) : Engine (Except Error Unit) := do
  match ← ask (.mint cause) mint with
  | .error e => return .error e
  | .ok fresh =>
    modify fun s => { s with current := fresh }
    return .ok ()

/-- `fresh_redirect`. -/
def freshRedirect : Engine (Except Error Unit) := do
  let now ← ask .clock W.now
  let s ← get
  if now < s.current.expiresAt ∧ now < s.current.scope.expiresAt then ensureReadRedirectValid W s.current
  else
    match W.mint with
    | none => return .error ⟨.RedirectExpired, "redirect expired before it could be followed"⟩
    | some mint =>
      match ← mintRedirect .expired mint with
      | .error e => return .error e
      | .ok () => ensureReadRedirectValid W (← get).current

/-! ### Requests -/

/-- `format_range_header`. -/
def formatRangeHeader (range : ByteRange) : Text :=
  match range.endInclusive with
  | some last => s!"bytes={range.start}-{last}".toList
  | none => s!"bytes={range.start}-".toList

/-- `quote_etag`. -/
def quoteEtag (value : Text) : Text :=
  if "\"".toList.isPrefixOf value || "W/".toList.isPrefixOf value then value else "\"".toList ++ value ++ "\"".toList

/-- The request of `send_streaming_request`. -/
def streamingRequest (request : HttpRequest) (range : Option ByteRange) (ifMatch : Option Text) : HttpRequest :=
  let kept := request.headers.filter fun (name, _) =>
    !(eqIgnoreAsciiCase name "host".toList || (range.isSome && eqIgnoreAsciiCase name "range".toList) ||
      (ifMatch.isSome && eqIgnoreAsciiCase name "if-match".toList))
  let ranged := range.toList.map fun range => ("Range".toList, formatRangeHeader range)
  let guarded := ifMatch.toList.map fun validator => ("If-Match".toList, quoteEtag validator)
  { request with headers := kept ++ ranged ++ guarded }

/-- `send_streaming_request`. -/
def sendStreamingRequest (range : Option ByteRange) (ifMatch : Option Text) : Engine (Except String Response) := do
  let request := streamingRequest (← get).current.request range ifMatch
  ask (.send request) fun calls => W.send calls request

/-- `http_status_is_retryable`. -/
def httpStatusIsRetryable (status : ℕ) : Bool := [408, 429, 500, 502, 503, 504].contains status

/-- `http_method_is_idempotent`. -/
def httpMethodIsIdempotent (method : Text) : Bool :=
  ["GET".toList, "HEAD".toList, "PUT".toList, "DELETE".toList, "OPTIONS".toList].contains (method.map Char.toUpper)

/-- `map_redirect_read_status`. -/
def mapRedirectReadStatus (status : ℕ) (ifMatchWasSet : Bool) : Error where
  code :=
    match status with
    | 401 => .AuthRequired
    | 403 => .PermissionDenied
    | 404 | 410 => .NotFound
    | 408 | 504 => .DeadlineExceeded
    | 412 => if ifMatchWasSet then .ObjectModified else .PreconditionFailed
    | 416 => .InvalidArgument
    | 429 | 503 => .ResourceExhausted
    | _ => .Transient
  message := s!"redirect read returned HTTP {status}"

/-- A redirect minted after a `403`, which is the only one of a read. -/
def remint (mint : List Call → Except Error ReadRedirect) (message : String) : Engine (RetryStep Fault Response) := do
  match ← mintRedirect .rejected mint with
  | .error e => return .failed (.error e)
  | .ok () =>
    modify fun s => { s with mintedOnce := true }
    return .retryAfter (.error ⟨.Transient, message⟩)

/-- One attempt for the headers of the first response. -/
def headerAttempt (range : Option ByteRange) : Engine (RetryStep Fault Response) := do
  match ← freshRedirect W with
  | .error e => return .failed (.error e)
  | .ok () =>
    match ← sendStreamingRequest W range none with
    | .error message => return .retryAfter (.error ⟨.Transient, message⟩)
    | .ok response =>
      if response.status = 403 ∧ (← get).mintedOnce = false then
        match W.mint with
        | none => return .done response
        | some mint => remint mint "redirect rejected (HTTP 403); re-minted a fresh redirect"
      else if httpStatusIsRetryable response.status then
        return .retryAfter (.error ⟨.Transient, s!"redirect returned HTTP {response.status} (retryable)"⟩)
      else return .done response

/-! ### The verifier -/

/-- `StreamingVerifier`. -/
inductive StreamingVerifier where
  | inactive
  | active (algorithm : Text) (seen expected : Bytes)
deriving DecidableEq

/-- Whether the bytes of a response are provably the whole object. -/
def wholeObject (response : Response) (range : Option ByteRange) : Bool :=
  if response.status = 206 then
    ((headerValue response.capturedHeaders (some "content-range".toList)).bind parseContentRange).any fun parsed =>
      parsed.start == 0 && parsed.total.any fun total => Word64.checkedAdd parsed.last 1 == some total
  else range.all fun range => range.endInclusive.isNone

/-- `StreamingVerifier::for_streaming_response`. -/
def StreamingVerifier.forStreamingResponse (parsing : ResponseParsing) (response : Response)
    (range : Option ByteRange) :
    StreamingVerifier :=
  if wholeObject response range then
    match W.expectedChecksum parsing response.capturedHeaders with
    | some (algorithm, expected) => .active algorithm [] expected
    | none => .inactive
  else .inactive

/-- `update`. -/
def StreamingVerifier.update (chunk : Bytes) : StreamingVerifier → StreamingVerifier
  | .inactive => .inactive
  | .active algorithm seen expected => .active algorithm (seen ++ chunk) expected

/-- `finalize`, with the end that the stream has by it. -/
def StreamingVerifier.finalize : StreamingVerifier → Ending
  | .inactive => .closed
  | .active algorithm seen expected =>
    if W.digest algorithm seen = expected then .closed
    else .fault (.error ⟨.ContentChecksumMismatch,
      "streamed body " ++ String.ofList algorithm ++ " did not match the upstream content-checksum header"⟩)

/-! ### The body of one response -/

/-- The variables of the loop of `resumable_body_stream`. -/
structure Cursor where
  responseCursor : ℕ
  responseEndExclusive : Option ℕ
  deliveredHwm : ℕ
  skipUntil : ℕ
  verifier : StreamingVerifier

/-- The part of a chunk that was not delivered before, and where it begins. -/
def skipDelivered (s : Cursor) (chunk : Bytes) : Except Fault (ℕ × Bytes) :=
  if s.responseCursor < s.skipUntil then do
    let toSkip := min (← minus s.skipUntil s.responseCursor) chunk.length
    return (← plus s.responseCursor toSkip, chunk.drop toSkip)
  else .ok (s.responseCursor, chunk)

/-- The part of a chunk before the requested end, and whether the end is reached. -/
def clipToEnd (bound : Option ℕ) (cursor : ℕ) (chunk : Bytes) : Except Fault (Bytes × Bool) :=
  match bound with
  | none => .ok (chunk, false)
  | some bound =>
    if bound ≤ cursor then .ok ([], true)
    else do
      if bound < (← plus cursor chunk.length) then return (chunk.take (← minus bound cursor), true)
      return (chunk, false)

/-- The variables after a chunk from a position, or its rest, is yielded. -/
def Cursor.deliver (s : Cursor) (cursor : ℕ) (chunk : Bytes) : Except Fault Cursor :=
  if chunk = [] then .ok { s with responseCursor := cursor }
  else do
    let verifier := s.verifier.update chunk
    let cursor ← plus cursor chunk.length
    return { s with responseCursor := cursor, deliveredHwm := max s.deliveredHwm cursor, verifier }

/-- The arm of the loop for a chunk: the variables after it, what is yielded, and whether the end is reached. -/
def onChunk (bound : Option ℕ) (s : Cursor) (chunk : Bytes) : Except Fault (Cursor × Bytes × Bool) := do
  if s.responseEndExclusive.any fun expected => expected < Word64.saturatingAdd s.responseCursor chunk.length then
    fail .Internal "redirected 206 body exceeded its declared Content-Range"
  let (cursor, fresh) ← skipDelivered s chunk
  if s.responseCursor < s.skipUntil ∧ fresh = [] then return ({ s with responseCursor := cursor }, [], false)
  let (clipped, reachedEnd) ← clipToEnd bound cursor fresh
  return (← s.deliver cursor clipped, clipped, reachedEnd)

/-- What the loop does when a body ends without an error. -/
def Cursor.onEnd (s : Cursor) : Ending :=
  if s.responseEndExclusive.any (s.responseCursor ≠ ·) then
    .fault (.error ⟨.Transient, "redirected 206 body ended before its declared Content-Range"⟩)
  else s.verifier.finalize W

/-- How the loop leaves the body of a response. -/
inductive Exit where
  | ended (ending : Ending)
  | failed (s : Cursor) (message : String)

/-- The loop over the body of one response: what it yields, and how it leaves the body. -/
def readBody (bound : Option ℕ) (ending : BodyEnd) : Cursor → List Bytes → List Bytes × Exit
  | s, [] =>
    match ending with
    | .closed => ([], .ended (s.onEnd W))
    | .failed message => ([], .failed s message)
    | .pending => ([], .ended .pending)
  | s, chunk :: chunks =>
    match onChunk bound s chunk with
    | .error fault => ([], .ended (.fault fault))
    | .ok (s, out, reachedEnd) =>
      let yielded := if out = [] then [] else [out]
      if reachedEnd then (yielded, .ended (s.verifier.finalize W))
      else
        let rest := readBody bound ending s chunks
        (yielded ++ rest.1, rest.2)

/-! ### Resuming -/

/-- `ResumeContext`; the redirect and its budget are in the session. -/
structure ResumeContext where
  retryCfg : RetryConfig
  parsing : ResponseParsing
  validator : Option Text
  httpEntityTag : Option Text
  requestedEnd : Option ℕ
  idempotent : Bool

/-- `trim_matches('"')`. -/
def trimQuotes (text : Text) : Text := ((text.dropWhile (· == '"')).reverse.dropWhile (· == '"')).reverse

/-- The validator of a response, under the configured header. -/
def Response.validator (response : Response) (parsing : ResponseParsing) : Option Text :=
  parsing.etagHeader.bind response.header

/-- The checks of `resume_response` on a response with a success status. -/
def acceptResumed (ctx : ResumeContext) (start : ℕ) (validator : Text) (response : Response) :
    RetryStep Fault Response :=
  if (response.validator ctx.parsing).all fun resumed => trimQuotes resumed ≠ trimQuotes validator then
    .failed (.error ⟨.ObjectModified,
      "resumed redirect did not repeat the original object validator; refusing to resume across versions"⟩)
  else if response.status = 206 then
    match validateSingleRange206 response start ctx.requestedEnd "resume" with
    | .error fault => .failed fault
    | .ok _ => .done response
  else .done response

/-- What `resume_response` makes of a response that is neither a `412` nor a `403` to mint for. -/
def settleResumed (ctx : ResumeContext) (start : ℕ) (validator : Text) (response : Response) :
    RetryStep Fault Response :=
  if httpStatusIsRetryable response.status then
    .retryAfter (.error ⟨.Transient, s!"resume returned HTTP {response.status} (retryable)"⟩)
  else if response.isSuccess = false then .failed (.error (mapRedirectReadStatus response.status true))
  else acceptResumed ctx start validator response

/-- One attempt of `resume_response`. -/
def resumeAttempt (ctx : ResumeContext) (start : ℕ) (validator : Text) : Engine (RetryStep Fault Response) := do
  match ← freshRedirect W with
  | .error e => return .failed (.error e)
  | .ok () =>
    match ← sendStreamingRequest W (some ⟨start, ctx.requestedEnd⟩) ctx.httpEntityTag with
    | .error message => return .retryAfter (.error ⟨.Transient, message⟩)
    | .ok response =>
      if response.status = 412 then
        return .failed (.error ⟨.ObjectModified,
          "object changed during a redirected read; refusing to resume across versions"⟩)
      else
        let s ← get
        match if response.status = 403 ∧ s.mintedOnce = false then W.mint else none with
        | some mint => remint mint "resume rejected (HTTP 403); re-minted a fresh redirect"
        | none => return settleResumed ctx start validator response

/-- `resume_response`. -/
def resumeResponse (ctx : ResumeContext) (start : ℕ) (validator : Text) : Engine (Except Fault Response) :=
  withHttpRetryAsync ctx.retryCfg (resumeAttempt W ctx start validator)

/-- The variables for the body of a resumed response. -/
def Cursor.resumed (s : Cursor) (response : Response) : Cursor :=
  if response.status = 206 then
    { s with
      skipUntil := max s.skipUntil s.deliveredHwm
      responseCursor := s.deliveredHwm
      responseEndExclusive := response.contentRange.map fun parsed => endExclusive parsed.last }
  else { s with skipUntil := max s.skipUntil s.deliveredHwm, responseCursor := 0, responseEndExclusive := none }

/-- The loop of `resumable_body_stream`, with the resumes that are left. -/
def resumeLoop (ctx : ResumeContext) : ℕ → Cursor → Body → Engine Delivery
  | resumesLeft, s, body =>
    match readBody W (ctx.requestedEnd.map endExclusive) body.ending s body.chunks with
    | (chunks, .ended ending) => return ⟨chunks, ending⟩
    | (chunks, .failed s message) =>
      match ctx.idempotent, resumesLeft with
      | false, _ => return ⟨chunks, .fault (.error ⟨.Transient, message⟩)⟩
      | true, 0 => return ⟨chunks, .fault (.error ⟨.Transient, message⟩)⟩
      | true, resumesLeft + 1 =>
        match ctx.validator with
        | none =>
          return ⟨chunks, .fault (.error ⟨.Transient,
            "redirected read failed mid-stream and cannot be resumed safely (no response validator): " ++ message⟩)⟩
        | some validator => do
          match ← resumeResponse W ctx s.deliveredHwm validator with
          | .error fault => return ⟨chunks, .fault fault⟩
          | .ok response =>
            let rest ← resumeLoop ctx resumesLeft (s.resumed response) response.body
            return { rest with chunks := chunks ++ rest.chunks }

/-- `resumable_body_stream`. -/
def resumableBodyStream (first : Response) (initialOffset : ℕ) (initialResponseEnd : Option ℕ)
    (verifier : StreamingVerifier) (ctx : ResumeContext) : Engine Delivery :=
  resumeLoop W ctx (max ctx.retryCfg.maxAttempts 1)
    ⟨initialOffset, initialResponseEnd.map endExclusive, initialOffset, initialOffset, verifier⟩ first.body

/-! ### The whole read -/

/-- `StreamedReadRedirect`: the stream, and the response whose headers give `info` and `content_length`, if
it is one. -/
structure StreamedReadRedirect where
  stream : Delivery
  first : Option Response
  effectiveRedirect : ReadRedirect

/-- The first response. -/
def headerPhase (range : Option ByteRange) (retryCfg : RetryConfig) : Engine (Except Fault Response) := do
  if httpMethodIsIdempotent (← get).current.request.method then withHttpRetryAsync retryCfg (headerAttempt W range)
  else
    match ← sendStreamingRequest W range none with
    | .error message => return .error (.error ⟨.Transient, message⟩)
    | .ok response => return .ok response

/-- The checks on the first response; the range that a `206` states. -/
def acceptFirst (ifMatchWasSet : Bool) (range : Option ByteRange) (response : Response) :
    Except Fault (Option ParsedContentRange) := do
  if response.isSuccess = false then .error (.error (mapRedirectReadStatus response.status ifMatchWasSet))
  else if response.status = 206 then
    let parsed ← validateSingleRange206 response ((range.map ByteRange.start).getD 0)
      (range.bind ByteRange.endInclusive) "initial"
    return some parsed
  else return none

/-- The context for resuming the body of the first response. -/
def resumeContext (redirect : ReadRedirect) (range : Option ByteRange) (retryCfg : RetryConfig) (idempotent : Bool)
    (response : Response) : ResumeContext where
  retryCfg
  parsing := redirect.responseParsing
  validator := (headerValue response.capturedHeaders redirect.responseParsing.etagHeader).filter (· ≠ [])
  httpEntityTag := (headerValue response.capturedHeaders (some "etag".toList)).filter (· ≠ [])
  requestedEnd := range.bind ByteRange.endInclusive
  idempotent

/-- Where the origin did not honour the range the stream is cut down to it. -/
def sliceClientSide (range : Option ByteRange) (response : Response) (stream : Delivery) : Delivery :=
  match range with
  | some range => if response.status ≠ 206 then rangeFilterStream stream range else stream
  | none => stream

/-- What `follow_read_redirect_streaming` makes of the body of the first response. -/
def streamFirst (range : Option ByteRange) (retryCfg : RetryConfig) (idempotent : Bool) (response : Response)
    (initialContentRange : Option ParsedContentRange) : Engine StreamedReadRedirect := do
  let effective := (← get).current
  let verifier := StreamingVerifier.forStreamingResponse W effective.responseParsing response range
  let initialOffset := if response.status = 206 then (range.map ByteRange.start).getD 0 else 0
  let stream ← resumableBodyStream W response initialOffset (initialContentRange.map ParsedContentRange.last) verifier
    (resumeContext effective range retryCfg idempotent response)
  return ⟨sliceClientSide range response stream, some response, effective⟩

/-- `ReaderStream` of a file. -/
def fileStream (body : Body) : Delivery where
  chunks := body.chunks
  ending :=
    match body.ending with
    | .closed => .closed
    | .failed message => .fault (.error ⟨.Internal, message⟩)
    | .pending => .pending

/-- `follow_file_read_redirect_streaming`. -/
def followFileReadRedirectStreaming (range : Option ByteRange) : Engine (Except Fault StreamedReadRedirect) := do
  let current := (← get).current
  if eqIgnoreAsciiCase current.request.method "GET".toList = false then
    return fail .Unsupported ("file redirect method '" ++ String.ofList current.request.method ++ "' is not supported")
  else
    match ← ask (.openFile current) fun calls => W.openFile calls current with
    | .error e => return .error (.error e)
    | .ok body =>
      match range with
      | some range => return .ok ⟨rangeFilterStream (fileStream body) range, none, current⟩
      | none => return .ok ⟨fileStream body, none, current⟩

/-- The `http` arm of `follow_read_redirect_streaming`. -/
def followHttpReadRedirectStreaming (ifMatchWasSet : Bool) (range : Option ByteRange) (retryCfg : RetryConfig) :
    Engine (Except Fault StreamedReadRedirect) := do
  let idempotent := httpMethodIsIdempotent (← get).current.request.method
  match ← headerPhase W range retryCfg with
  | .error fault => return .error fault
  | .ok response =>
    match acceptFirst ifMatchWasSet range response with
    | .error fault => return .error fault
    | .ok initialContentRange => return .ok (← streamFirst W range retryCfg idempotent response initialContentRange)

/-- `follow_read_redirect_streaming`, with the redirect in the session. -/
def followReadRedirectStreaming (ifMatchWasSet : Bool) (range : Option ByteRange) (retryCfg : RetryConfig) :
    Engine (Except Fault StreamedReadRedirect) := do
  match range.elim (.ok ()) validateRange with
  | .error fault => return .error fault
  | .ok () =>
    match ← freshRedirect W with
    | .error e => return .error (.error e)
    | .ok () =>
      match W.scheme (← get).current.request.url with
      | .error e => return .error (.error e)
      | .ok .http => followHttpReadRedirectStreaming W ifMatchWasSet range retryCfg
      | .ok .file => followFileReadRedirectStreaming W range
      | .ok (.other scheme) => return fail .Unsupported s!"streaming redirect scheme '{scheme}' is not supported"

end OvStorage.Redirect
