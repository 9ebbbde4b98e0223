import OvStorage.Redirect.Versions

/-!
# A read that ends cleanly

Whether the stream of a redirected read, where it ends without an error, has delivered all of the range that
was asked for. What decides it is the last response: a `206` with an unknown total, given to a request without an
upper bound, is taken as long as it goes.

## What is proved

* `reads_complete_iff`: the reads from an origin that tells the truth are complete if and only if none of
  its responses is such a `206` that ends before the object does (`EndsShort`).
-/

namespace OvStorage.Redirect

open OvStorage.Layer Slice Stateful

/-- The origin tells the truth about where its bodies end as well: a `206` states a range of the object and its total,
or no total, and a body that ends without an error is all of what it should be. The size of an object is a word. -/
structure Exact (gives : Response → Prop) (configures : Text → Prop) (content : Response → Bytes) : Prop
    extends Truthful gives configures content where
  size : ∀ r, gives r → (content r).length < Word64.size
  whole : ∀ r, gives r → r.isSuccess → r.status ≠ 206 → r.body.ending = .closed →
    r.body.chunks.flatten.length = (content r).length
  span : ∀ r, gives r → r.status = 206 → ∀ parsed, r.contentRange = some parsed →
    parsed.last < (content r).length ∧ (∀ total ∈ parsed.total, total = (content r).length) ∧
      (r.body.ending = .closed → parsed.start + r.body.chunks.flatten.length = parsed.last + 1)

/-- A `206` with an unknown total that ends before the object does, and whose body ends without an error. -/
def EndsShort (content : Response → Bytes) (r : Response) : Prop :=
  r.status = 206 ∧ r.body.ending = .closed ∧ r.isMultipart = false ∧ ∃ parsed, r.contentRange = some parsed ∧
    parsed.total = none ∧ parsed.last + 1 < (content r).length ∧
      ∀ n ∈ r.contentLength, n = parsed.last - parsed.start + 1

/-- Every read by this redirect whose stream ends without an error has delivered all of its range, of the version of its
first response. -/
def Complete (W : World) (redirect : ReadRedirect) (content : Response → Bytes) : Prop :=
  ∀ (ifMatchWasSet : Bool) (range : Option ByteRange) (retryCfg : RetryConfig),
    Ends (followReadRedirectStreaming W ifMatchWasSet range retryCfg) ⟨redirect, false, []⟩ fun result _ =>
      ∀ streamed first, result = .ok streamed → streamed.first = some first → streamed.stream.ending = .closed →
        streamed.stream.bytes = requested range (content first)

/-- The world answers with the responses of an origin only, and its redirects name headers of its. -/
def Within (W : World) (redirect : ReadRedirect) (gives : Response → Prop) (configures : Text → Prop) : Prop :=
  (∀ r, W.Gives r → gives r) ∧ ∀ name, W.Configures redirect name → configures name

variable {W : World} {redirect : ReadRedirect} {content : Response → Bytes} {c : Bytes} {gives : Response → Prop}
  {configures : Text → Prop} {requestedEnd : Option ℕ} {mark : ℕ} {range : Option ByteRange}
    {first : Response} {d : Delivery}

theorem Truthful.within (h : Truthful gives configures content) (hwithin : Within W redirect gives configures) :
    Truthful W.Gives (W.Configures redirect) content where
  full r hr := h.full r (hwithin.1 r hr)
  part r hr := h.part r (hwithin.1 r hr)
  same name hname r r' value value' hr hr' :=
    h.same name (hwithin.2 name hname) r r' value value' (hwithin.1 r hr) (hwithin.1 r' hr')

theorem Exact.within (h : Exact gives configures content) (hwithin : Within W redirect gives configures) :
    Exact W.Gives (W.Configures redirect) content where
  toTruthful := h.toTruthful.within hwithin
  size r hr := h.size r (hwithin.1 r hr)
  whole r hr := h.whole r (hwithin.1 r hr)
  span r hr := h.span r (hwithin.1 r hr)

/-! ### No response ends short -/

/-- The mark is at the end of the object, or at the end of the range. -/
def AtEnd (c : Bytes) (requestedEnd : Option ℕ) (mark : ℕ) : Prop :=
  c.length ≤ mark ∨ ∃ last ∈ requestedEnd, last + 1 ≤ mark

theorem AtEnd.mono {mark' : ℕ} (h : AtEnd c requestedEnd mark) (hle : mark ≤ mark') : AtEnd c requestedEnd mark' := by
  rcases h with h | ⟨last, hmem, h⟩
  · exact .inl (Nat.le_trans h hle)
  · exact .inr ⟨last, hmem, Nat.le_trans h hle⟩

variable {parsed : ParsedContentRange}

/-- A `206` that is taken, and is not short, goes to the end. -/
theorem atEnd_of_valid {r : Response} {start : ℕ} {phase : String}
    (hvalid : validateSingleRange206 r start requestedEnd phase = .ok parsed)
    (hspan : parsed.last < (content r).length ∧ ∀ total ∈ parsed.total, total = (content r).length)
    (hlong : parsed.total = none → requestedEnd = none → (content r).length ≤ parsed.last + 1) :
    AtEnd (content r) requestedEnd (parsed.last + 1) := by
  obtain ⟨-, -, hexpected, -⟩ := validateSingleRange206_eq_ok hvalid
  obtain ⟨hlast, htotal⟩ := hspan
  unfold expectedEnd at hexpected
  split at hexpected
  next last total ht =>
    obtain ⟨n, hminus, hexpected⟩ := Validate.bind_eq_ok.mp hexpected
    obtain ⟨-, rfl⟩ := minus_eq_ok.mp hminus
    have hlen := htotal total ht
    have hmin : min last (total - 1) = parsed.last := Except.ok.inj hexpected
    rcases Nat.le_total last (total - 1) with hle | hle
    · exact .inr ⟨last, rfl, by omega⟩
    · exact .inl (by omega)
  next last ht =>
    have hlast : last = parsed.last := Except.ok.inj hexpected
    exact .inr ⟨last, rfl, by omega⟩
  next total ht =>
    obtain ⟨-, hlen⟩ := minus_eq_ok.mp hexpected
    have := htotal total ht
    exact .inl (by omega)
  next ht => exact .inl (hlong ht rfl)

/-- A body of the version that is read to its end goes to the end. -/
theorem ReadToEnd.atEnd (hexact : Exact W.Gives (W.Configures redirect) content)
    (hlong : ∀ r, W.Gives r → ¬EndsShort content r) (h : ReadToEnd W content c requestedEnd mark) :
    AtEnd c requestedEnd mark := by
  obtain ⟨r, k, hserves, hclosed, hmark, hlast⟩ := h
  obtain rfl := hserves.version
  by_cases hpart : r.status = 206
  · obtain ⟨parsed, ⟨phase, hvalid⟩, hcursor, -⟩ := hserves.part hpart
    obtain ⟨hparsed, -, -, hmultipart, hlength⟩ := validateSingleRange206_eq_ok hvalid
    obtain ⟨hle, htotal, hbody⟩ := hexact.span r hserves.gives hpart parsed hparsed
    have hend := atEnd_of_valid hvalid ⟨hle, htotal⟩ fun hnone _ => Nat.not_lt.mp fun hlt =>
      hlong r hserves.gives ⟨hpart, hclosed, hmultipart, parsed, hparsed, hnone, hlt, hlength⟩
    have hbody := hbody hclosed
    rw [hcursor, hbody] at hmark
    exact hend.mono hmark
  · rw [(hserves.full hpart).1, Nat.zero_add, hexact.whole r hserves.gives hserves.success hpart hclosed] at hmark
    exact .inl hmark

theorem atEnd_of_bound (hsize : c.length < Word64.size) (h : ∃ b ∈ requestedEnd.map endExclusive, b ≤ mark) :
    AtEnd c requestedEnd mark := by
  obtain ⟨b, hb, hle⟩ := h
  obtain ⟨last, hlast, rfl⟩ := Option.map_eq_some_iff.mp hb
  unfold endExclusive Word64.saturatingAdd at hle
  rcases Nat.le_total (last + 1) Word64.max with h | h
  · exact .inr ⟨last, hlast, by omega⟩
  · rw [Word64.size_eq] at hsize
    exact .inl (by omega)

variable {last : Option ℕ}

theorem length_requested {start : ℕ} :
    (requested (some ⟨start, last⟩) c).length = (last.elim c.length fun last => min (last + 1) c.length) - start := by
  cases last with
  | none => simp [requested]
  | some last => simp [requested, length_slice]

theorem length_requested_le (start : ℕ) (h : AtEnd c last mark) :
    (requested (some ⟨start, last⟩) c).length ≤ min mark c.length - start := by
  rw [length_requested]
  cases last with
  | none =>
    have hmark : c.length ≤ mark := h.elim id fun hex => by obtain ⟨_, ⟨⟩, _⟩ := hex
    simp only [Option.elim]
    omega
  | some last =>
    simp only [Option.elim]
    rcases h with h | ⟨last, hmem, h⟩
    · omega
    · cases hmem
      omega

/-- The bound of a range that is a word cuts no object whose size is one. -/
theorem length_requested_le_bound (start : ℕ) (last : Option ℕ) (hsize : c.length < Word64.size) :
    (requested (some ⟨start, last⟩) c).length ≤ min ((last.map endExclusive).getD Word64.max) c.length - start := by
  rw [Word64.size_eq] at hsize
  rw [length_requested]
  cases last with
  | none =>
    simp only [Option.elim, Option.map_none, Option.getD_none]
    omega
  | some last =>
    simp only [Option.elim, Option.map_some, Option.getD_some, endExclusive, Word64.saturatingAdd]
    omega

/-- A filter that ends without an error has yielded the range, or all of it that was there. -/
theorem rangeFilterStream_length {inner : Delivery} {range : ByteRange} (hsize : c.length < Word64.size)
    (hinner : inner.bytes = c.take mark) (hend : inner.ending = .closed → AtEnd c range.endInclusive mark)
    (hclosed : (rangeFilterStream inner range).ending = .closed) :
    (requested (some range) c).length ≤ (rangeFilterStream inner range).bytes.length := by
  obtain ⟨start, last⟩ := range
  rw [rangeFilterStream] at hclosed ⊢
  obtain ⟨read, hread, hbytes, hfilter⟩ := filterChunks_spec start ((last.map endExclusive).getD Word64.max) 0
    inner.ending inner.chunks
  have hlen : read.flatten.length ≤ c.length := by
    obtain ⟨rest, hrest⟩ := hread
    rw [Delivery.bytes, ← hrest, List.flatten_append] at hinner
    have := congrArg List.length hinner
    rw [List.length_append, List.length_take] at this
    omega
  have hbound := length_requested_le_bound start last hsize
  rw [hbytes, length_slice]
  rcases hfilter hclosed with hread | ⟨rfl, hinnerClosed, -⟩
  · omega
  · have hatEnd := length_requested_le start (show AtEnd c last mark from hend hinnerClosed)
    have hall : inner.chunks.flatten.length = min mark c.length := by
      rw [← List.length_take, ← hinner, Delivery.bytes]
    omega

/-- A stream that follows its first response and ends without an error has delivered all of the range, if the bodies
that are read to their ends go to the end. -/
theorem Follows.complete (h : Follows W content range first d) (hsize : (content first).length < Word64.size)
    (hend : ∀ mark, ReadToEnd W content (content first) (range.bind ByteRange.endInclusive) mark →
      AtEnd (content first) (range.bind ByteRange.endInclusive) mark)
    (hclosed : d.ending = .closed) : d.bytes = requested range (content first) := by
  refine h.isPrefix.eq_of_length_le ?_
  obtain ⟨inner, k, rfl, hk, mark, hleft, hinner⟩ := h
  have hbytes : inner.bytes = slice (content first) (initialOffset range first) mark := hk ▸ hleft.bytes
  have hatEnd : inner.ending = .closed → AtEnd (content first) (range.bind ByteRange.endInclusive) mark := fun h =>
    (hinner h).elim (atEnd_of_bound hsize) (hend mark)
  cases range with
  | none =>
    rw [sliceClientSide] at hclosed ⊢
    have hmark : (content first).length ≤ mark := (hatEnd hclosed).elim id fun h => by rcases h with ⟨_, ⟨⟩, _⟩
    rw [hbytes, initialOffset, Option.map_none, Option.getD_none, ite_self, length_slice, requested]
    omega
  | some range =>
    rw [sliceClientSide] at hclosed ⊢
    by_cases hpart : first.status = 206
    · rw [if_neg (not_not.mpr hpart)] at hclosed ⊢
      rw [hbytes, initialOffset, if_pos hpart, length_slice]
      exact length_requested_le _ (hatEnd hclosed)
    · rw [if_pos hpart] at hclosed ⊢
      rw [initialOffset, if_neg hpart, slice_zero] at hbytes
      exact rangeFilterStream_length hsize hbytes hatEnd hclosed

/-! ### A response that ends short -/

variable {s : Session} {r : Response} {k : Cursor} {chunk : Bytes} {chunks : List Bytes}

/-- A chunk of a body that is not replayed and has no upper bound is taken as it is. -/
theorem onChunk_ahead (hskip : k.skipUntil ≤ k.responseCursor)
    (hend : ∀ last ∈ k.responseEndExclusive, Word64.saturatingAdd k.responseCursor chunk.length ≤ last) :
    onChunk none k chunk = k.deliver k.responseCursor chunk >>= fun k' => .ok (k', chunk, false) := by
  have hover : ¬(k.responseEndExclusive.any fun expected =>
      expected < Word64.saturatingAdd k.responseCursor chunk.length) := by
    cases hlast : k.responseEndExclusive with
    | none => simp
    | some last => simpa using hend last hlast
  have hskipped : skipDelivered k chunk = .ok (k.responseCursor, chunk) := if_neg (Nat.not_lt.mpr hskip)
  unfold onChunk
  rw [if_neg hover]
  dsimp only
  rw [hskipped]
  change (if k.responseCursor < k.skipUntil ∧ chunk = [] then _ else _) = _
  rw [if_neg fun h => Nat.not_lt.mpr hskip h.1]
  rfl

/-- It is yielded as it is, where it ends at a word. -/
theorem onChunk_live (hskip : k.skipUntil ≤ k.responseCursor) (hfits : k.responseCursor + chunk.length < Word64.size)
    (hend : ∀ last ∈ k.responseEndExclusive, k.responseCursor + chunk.length ≤ last) :
    ∃ k', onChunk none k chunk = .ok (k', chunk, false) ∧ k'.responseCursor = k.responseCursor + chunk.length ∧
      k'.responseEndExclusive = k.responseEndExclusive ∧ k'.skipUntil = k.skipUntil ∧
      (k.verifier = .inactive → k'.verifier = .inactive) := by
  have hchunk := onChunk_ahead hskip fun last h => Word64.saturatingAdd_of_lt hfits ▸ hend last h
  by_cases hnil : chunk = []
  · refine ⟨{ k with responseCursor := k.responseCursor }, ?_, by simp [hnil], rfl, rfl, id⟩
    rw [hchunk, Cursor.deliver, if_pos hnil]
    rfl
  · refine ⟨{ k with
      responseCursor := k.responseCursor + chunk.length
      deliveredHwm := max k.deliveredHwm (k.responseCursor + chunk.length)
      verifier := k.verifier.update chunk }, ?_, rfl, rfl, rfl, fun h => by rw [h]; rfl⟩
    rw [hchunk, Cursor.deliver, if_neg hnil, plus, Word64.plainAdd_of_lt hfits]
    rfl

/-- A body that is read from its start to its end, as a `206` without an upper bound is. -/
theorem readBody_live (hverifier : k.verifier = .inactive) (hskip : k.skipUntil ≤ k.responseCursor)
    (hfits : k.responseCursor + chunks.flatten.length < Word64.size)
    (hend : k.responseEndExclusive = some (k.responseCursor + chunks.flatten.length)) :
    (readBody W none .closed k chunks).1.flatten = chunks.flatten ∧
      (readBody W none .closed k chunks).2 = .ended .closed := by
  induction chunks generalizing k with
  | nil =>
    refine ⟨rfl, ?_⟩
    change Exit.ended (k.onEnd W) = _
    rw [Cursor.onEnd, hend, hverifier]
    simp [StreamingVerifier.finalize]
  | cons chunk chunks ih =>
    rw [List.flatten_cons, List.length_append] at hfits hend
    have hchunkFits : k.responseCursor + chunk.length < Word64.size := by omega
    obtain ⟨k', hchunk, hcursor, hlast, hskip', hverifier'⟩ := onChunk_live hskip hchunkFits fun last h => by
      rw [hend] at h
      cases h
      omega
    obtain ⟨hbytes, hexit⟩ :=
      ih (hverifier' hverifier) (by omega) (by omega) (by rw [hlast, hend, hcursor, Nat.add_assoc])
    rw [readBody, hchunk]
    refine ⟨?_, hexit⟩
    change ((if chunk = [] then [] else [chunk]) ++ (readBody W none .closed k' chunks).1).flatten =
      (chunk :: chunks).flatten
    rw [List.flatten_append, hbytes, List.flatten_cons]
    split_ifs with hnil
    · rw [hnil, List.flatten_nil]
    · rw [List.flatten_singleton]

theorem isMethod_get : isMethod ['G', 'E', 'T'] = true := by decide +kernel

theorem httpMethodIsIdempotent_get : httpMethodIsIdempotent "GET".toList = true := by decide +kernel

variable {etagHeader : Option Text}

theorem freshRedirect_scripted {responses : List Response} (hs : s.current = plainRedirect etagHeader) :
    Ends (freshRedirect (scripted responses)) s fun result t =>
      result = .ok () ∧ t.current = s.current ∧ t.mintedOnce = s.mintedOnce ∧ sends t.calls = sends s.calls := by
  obtain ⟨current, mintedOnce, calls⟩ := s
  obtain rfl := hs
  simp [freshRedirect, ensureReadRedirectValid, ensureRedirectFresh, ensureRedirectScope, scripted, plainRedirect,
    isMethod_get, sends]

/-- The response of a script that has one, to the first request. -/
theorem headerPhase_scripted (hs : s.current = plainRedirect etagHeader) (hsends : sends s.calls = 0)
    (hsuccess : r.isSuccess) (range : Option ByteRange) (retryCfg : RetryConfig) :
    Ends (headerPhase (scripted [r]) range retryCfg) s fun result _ => result = .ok r := by
  obtain ⟨hlow, hhigh⟩ : 200 ≤ r.status ∧ r.status < 300 := by simpa [Response.isSuccess] using hsuccess
  have hidempotent : httpMethodIsIdempotent s.current.request.method = true := by
    rw [hs]
    exact httpMethodIsIdempotent_get
  rw [headerPhase, ends_bind, ends_get, if_pos hidempotent]
  refine ends_retryLoop_done ?_
  rw [headerAttempt, ends_bind]
  refine (freshRedirect_scripted hs).imp ?_
  rintro result t ⟨rfl, -, -, hcalls⟩
  have hsend : ∀ request, (scripted [r]).send t.calls request = .ok r := by
    intro request
    change ([r][sends t.calls]?).elim (.error "error sending request") .ok = Except.ok r
    rw [hcalls, hsends]
    rfl
  have hstatus : r.status ≠ 403 := by omega
  have hretry : httpStatusIsRetryable r.status = false := by
    simp [httpStatusIsRetryable]
    omega
  simp [sendStreamingRequest, hsend, hstatus, hretry]

/-- A `206` that ends where it has to is taken. -/
theorem validateSingleRange206_of_expected (hmultipart : r.isMultipart = false)
    (hparsed : r.contentRange = some parsed) (hexpected : expectedEnd requestedEnd parsed = .ok parsed.last)
    (hfits : parsed.last - parsed.start + 1 < Word64.size)
    (hlength : ∀ n ∈ r.contentLength, n = parsed.last - parsed.start + 1) (phase : String) :
    validateSingleRange206 r parsed.start requestedEnd phase = .ok parsed := by
  have hle : parsed.start ≤ parsed.last := by
    obtain ⟨value, -, hvalue⟩ := Option.bind_eq_some_iff.mp hparsed
    exact (parseContentRange_eq_some hvalue).1
  have hspan : plus (parsed.last - parsed.start) 1 = .ok (parsed.last - parsed.start + 1) := Word64.plainAdd_of_lt hfits
  have hcontent : ¬(r.contentLength.any fun n => decide (n ≠ parsed.last - parsed.start + 1)) := by
    cases hlen : r.contentLength with
    | none => simp
    | some n => simpa using hlength n hlen
  unfold validateSingleRange206
  rw [if_neg (by simp [hmultipart]), hparsed]
  have hminus : minus parsed.last parsed.start = .ok (parsed.last - parsed.start) := Word64.plainSub_of_le hle
  simp only [ne_eq, not_true_eq_false, if_false, hexpected, hminus, hspan, Validate.ok_bind]
  rw [if_neg hcontent]
  rfl

theorem headerValue_of_header {name value : Text} (h : r.header name = some value) :
    headerValue r.capturedHeaders (some name) = some value := by
  unfold Response.header at h
  unfold headerValue Response.capturedHeaders
  rw [Option.bind_some]
  generalize r.headers = headers at h ⊢
  induction headers with
  | nil => cases h
  | cons header headers ih =>
    obtain ⟨n, v⟩ := header
    rw [List.find?_cons] at h
    cases hname : eqIgnoreAsciiCase n name with
    | true =>
      simp only [hname, Option.bind_some] at h
      simp [h, hname]
    | false =>
      simp only [hname] at h
      cases v with
      | none => simpa using ih h
      | some v => simpa [hname] using ih h

/-- A range with an unknown total is not provably the whole object. -/
theorem forStreamingResponse_of_unknown (hpart : r.status = 206) (hparsed : r.contentRange = some parsed)
    (htotal : parsed.total = none) (parsing : ResponseParsing) (range : Option ByteRange) :
    StreamingVerifier.forStreamingResponse W parsing r range = .inactive := by
  obtain ⟨value, hvalue, hparse⟩ := Option.bind_eq_some_iff.mp hparsed
  rw [StreamingVerifier.forStreamingResponse, wholeObject, if_pos hpart, headerValue_of_header hvalue,
    Option.bind_some, hparse]
  simp [htotal]

/-- A body that is read to its end needs no resuming. -/
theorem ends_resumeLoop_ended {ctx : ResumeContext} {resumesLeft : ℕ} {body : Body} {out : List Bytes} {ending : Ending}
    {post : Delivery → Session → Prop}
    (hread : readBody W (ctx.requestedEnd.map endExclusive) body.ending k body.chunks = (out, .ended ending))
    (hpost : post ⟨out, ending⟩ s) : Ends (resumeLoop W ctx resumesLeft k body) s post := by
  unfold resumeLoop
  rw [hread]
  exact hpost

/-- How a read ends whose first request is answered with a script's response. -/
theorem ends_scripted {ifMatchWasSet : Bool} {post : Except Fault StreamedReadRedirect → Session → Prop}
    (hsuccess : r.isSuccess) (hrange : range.elim (.ok ()) validateRange = .ok ())
    (hpost : ∀ t : Session, match acceptFirst ifMatchWasSet range r with
      | .error fault => post (.error fault) t
      | .ok parsed =>
        ∀ idempotent, Ends (streamFirst (scripted [r]) range ⟨1⟩ idempotent r parsed) t fun streamed t =>
          post (.ok streamed) t) :
    Ends (followReadRedirectStreaming (scripted [r]) ifMatchWasSet range ⟨1⟩) ⟨plainRedirect none, false, []⟩ post := by
  unfold followReadRedirectStreaming
  rw [hrange]
  simp only [ends_bind]
  refine (freshRedirect_scripted rfl).imp ?_
  rintro result t ⟨rfl, hcurrent, -, hsends⟩
  simp only [ends_bind, ends_get]
  change Ends (followHttpReadRedirectStreaming _ _ _ _) t _
  rw [followHttpReadRedirectStreaming, ends_bind, ends_get, ends_bind]
  refine (headerPhase_scripted hcurrent hsends hsuccess _ _).imp ?_
  rintro result t' rfl
  dsimp only
  specialize hpost t'
  cases haccept : acceptFirst ifMatchWasSet range r with
  | error fault =>
    rw [haccept] at hpost
    exact hpost
  | ok parsed =>
    rw [haccept] at hpost
    exact hpost _

/-- A short `206` is delivered as if it were all of the object from its start on. -/
theorem read_of_endsShort (hpart : r.status = 206) (hclosed : r.body.ending = .closed)
    (hparsed : r.contentRange = some parsed) (htotal : parsed.total = none) (hfits : parsed.last + 1 < Word64.size)
    (hvalid : validateSingleRange206 r parsed.start none "initial" = .ok parsed)
    (hbody : parsed.start + r.body.chunks.flatten.length = parsed.last + 1) :
    Ends (followReadRedirectStreaming (scripted [r]) false (some ⟨parsed.start, none⟩) ⟨1⟩)
      ⟨plainRedirect none, false, []⟩
      fun result _ => ∃ streamed, result = .ok streamed ∧ streamed.first = some r ∧ streamed.stream.ending = .closed ∧
        streamed.stream.bytes = r.body.chunks.flatten := by
  have hsuccess : r.isSuccess := by simp [Response.isSuccess, hpart]
  have haccept : acceptFirst false (some ⟨parsed.start, none⟩) r = .ok (some parsed) := by
    simp [acceptFirst, hsuccess, hpart, hvalid, Validate.ok_bind, pure, Except.pure]
  refine ends_scripted hsuccess rfl fun t => ?_
  rw [haccept]
  intro idempotent
  simp only [streamFirst, ends_bind, ends_get]
  rw [forStreamingResponse_of_unknown hpart hparsed htotal, if_pos hpart, resumableBodyStream]
  have hend : endExclusive parsed.last = parsed.start + r.body.chunks.flatten.length := by
    rw [hbody]
    exact Word64.saturatingAdd_of_lt hfits
  have hread : (readBody (scripted [r]) none .closed ⟨parsed.start, some (endExclusive parsed.last), parsed.start,
        parsed.start, .inactive⟩
      r.body.chunks).1.flatten = r.body.chunks.flatten ∧ (readBody (scripted [r]) none .closed
      ⟨parsed.start, some (endExclusive parsed.last), parsed.start, parsed.start, .inactive⟩
        r.body.chunks).2 = .ended .closed :=
    readBody_live rfl (Nat.le_refl _) (hbody ▸ hfits) (congrArg some hend)
  rw [← hclosed] at hread
  refine ends_resumeLoop_ended (Prod.ext rfl hread.2) ⟨_, rfl, rfl, ?_⟩
  rw [sliceClientSide, if_neg (not_not.mpr hpart)]
  exact ⟨rfl, hread.1⟩

/-- The reads from an origin that tells the truth deliver all of their ranges where they end without an error, if and
only if no response of the origin is a `206` with an unknown total that ends before the object does. -/
theorem reads_complete_iff (hexact : Exact gives configures content) :
    (∀ W redirect, Within W redirect gives configures → Complete W redirect content) ↔
      ∀ r, gives r → ¬EndsShort content r := by
  constructor
  · intro hcomplete r hgives hshort
    obtain ⟨hpart, hclosed, hmultipart, parsed, hparsed, htotal, hlast, hlength⟩ := hshort
    have hfits := Nat.lt_trans hlast (hexact.size r hgives)
    have hbody := (hexact.span r hgives hpart parsed hparsed).2.2 hclosed
    have hwithin : Within (scripted [r]) (plainRedirect none) gives configures := by
      refine ⟨fun r' hr' => ?_, fun name hname => ?_⟩
      · obtain rfl := List.mem_singleton.mp (mem_of_scripted hr')
        exact hgives
      · rcases hname with hname | ⟨mint, -, -, hmint, -⟩
        · cases hname
        · cases hmint
    have hexpected : expectedEnd none parsed = .ok parsed.last := by
      unfold expectedEnd
      rw [htotal]
      rfl
    have hvalid := validateSingleRange206_of_expected hmultipart hparsed hexpected (by omega) hlength "initial"
    obtain ⟨streamed, hresult, hfirst, hend, hbytes⟩ :=
      read_of_endsShort hpart hclosed hparsed htotal hfits hvalid hbody
    have hall := hcomplete _ _ hwithin false (some ⟨parsed.start, none⟩) ⟨1⟩ streamed r hresult hfirst hend
    have hlen := congrArg List.length (hbytes.symm.trans hall)
    rw [length_requested] at hlen
    simp only [Option.elim] at hlen
    omega
  · intro hlong W redirect hwithin ifMatchWasSet range retryCfg
    have hexact := hexact.within hwithin
    refine (followReadRedirectStreaming_spec hexact.toTruthful).imp
      fun result t hfollowed streamed first hresult hfirst hclosed => ?_
    obtain ⟨hgives, hfollows⟩ := hfollowed.2 streamed first hresult hfirst
    exact hfollows.complete (hexact.size first hgives)
      (fun mark hmark => hmark.atEnd hexact fun r hr => hlong r (hwithin.1 r hr))
      hclosed

theorem exact_brokenOff : Exact (· ∈ brokenOff) (· = "etag".toList) fun _ => [1, 2, 3, 4, 5, 6] where
  full := by decide +kernel
  part := by
    have hall : ∀ r ∈ brokenOff, r.status = 206 →
        ∀ parsed ∈ r.contentRange, At [1, 2, 3, 4, 5, 6] parsed.start r.body.chunks.flatten := by
      decide +kernel
    exact hall
  same := fun _ _ _ _ _ _ _ _ _ _ _ => rfl
  size := by decide +kernel
  whole := by decide +kernel
  span := by
    have hall : ∀ r ∈ brokenOff, r.status = 206 → ∀ parsed ∈ r.contentRange, parsed.last < 6 ∧
          (∀ total ∈ parsed.total, total = 6) ∧
        (r.body.ending = .closed → parsed.start + r.body.chunks.flatten.length = parsed.last + 1) := by
      decide +kernel
    exact hall

/-- An origin that states its total. -/
theorem reads_complete_iff_brokenOff :
    (∀ W redirect, Within W redirect (· ∈ brokenOff) (· = "etag".toList) →
      Complete W redirect fun _ => [1, 2, 3, 4, 5, 6]) ↔
      ∀ r, r ∈ brokenOff → ¬EndsShort (fun _ => [1, 2, 3, 4, 5, 6]) r :=
  reads_complete_iff exact_brokenOff

/-- The first four bytes of an object of six, with an unknown total. -/
def cutShort : Response :=
  ⟨206, [("content-range".toList, some "bytes 0-3/*".toList)], some 4, ⟨[[1, 2], [3, 4]], .closed⟩⟩

/-- A read of the whole object that is answered with a part of it ends as if it were complete. -/
theorem read_cutShort :
    Exact (· ∈ [cutShort]) (fun _ => False) (fun _ => [1, 2, 3, 4, 5, 6]) ∧
      Within (scripted [cutShort]) (plainRedirect none) (· ∈ [cutShort]) (fun _ => False) ∧
      ¬Complete (scripted [cutShort]) (plainRedirect none) fun _ => [1, 2, 3, 4, 5, 6] := by
  have hrange : cutShort.contentRange = some ⟨0, 3, none⟩ := by decide +kernel
  have hvalid : validateSingleRange206 cutShort 0 none "initial" = .ok ⟨0, 3, none⟩ := by decide +kernel
  refine ⟨⟨⟨?_, ?_, nofun⟩, ?_, ?_, ?_⟩, ⟨fun r hr => mem_of_scripted hr, ?_⟩, fun hcomplete => ?_⟩
  · decide +kernel
  · have hall : ∀ r ∈ [cutShort], r.status = 206 → ∀ parsed ∈ r.contentRange,
        At [1, 2, 3, 4, 5, 6] parsed.start r.body.chunks.flatten := by decide +kernel
    exact hall
  · decide +kernel
  · decide +kernel
  · have hall : ∀ r ∈ [cutShort], r.status = 206 → ∀ parsed ∈ r.contentRange, parsed.last < 6 ∧
          (∀ total ∈ parsed.total, total = 6) ∧
        (r.body.ending = .closed → parsed.start + r.body.chunks.flatten.length = parsed.last + 1) := by
      decide +kernel
    exact hall
  · rintro name (hname | ⟨mint, -, -, hmint, -⟩)
    · cases hname
    · cases hmint
  · obtain ⟨streamed, hresult, hfirst, hend, hbytes⟩ := read_of_endsShort rfl rfl hrange rfl (by decide) hvalid rfl
    have hall := hcomplete false (some ⟨0, none⟩) ⟨1⟩ streamed cutShort hresult hfirst hend
    rw [hbytes] at hall
    exact absurd hall (by decide)

end OvStorage.Redirect
