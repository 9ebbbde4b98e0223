import OvStorage.Redirect.Delivery

/-!
# A resumed read is of one version

Where the origin tells the truth, a read that is resumed any number of times delivers a prefix of the
range that was asked for, of the version that the first response is of.
-/

namespace OvStorage.Redirect

open OvStorage.Layer Slice Stateful

/-- The origin answers a request with this response. -/
def World.Gives (W : World) (response : Response) : Prop := ∃ calls request, W.send calls request = .ok response

/-- The response has a header with this value. -/
def Response.States (response : Response) (name value : Text) : Prop :=
  ∃ header ∈ response.headers, eqIgnoreAsciiCase header.1 name ∧ header.2 = some value

/-- A redirect of this read names the header of the validator. -/
def World.Configures (W : World) (redirect : ReadRedirect) (name : Text) : Prop :=
  redirect.responseParsing.etagHeader = some name ∨
    ∃ mint calls fresh, W.mint = some mint ∧ mint calls = .ok fresh ∧ fresh.responseParsing.etagHeader = some name

/-- The origin tells the truth: a response with a full body carries the bytes of its version from the beginning, a `206`
carries them from the start that it states, and equal validators name equal versions. -/
structure Truthful (gives : Response → Prop) (configures : Text → Prop) (content : Response → Bytes) : Prop where
  full : ∀ r, gives r → r.isSuccess → r.status ≠ 206 → At (content r) 0 r.body.chunks.flatten
  part : ∀ r, gives r → r.status = 206 → ∀ parsed, r.contentRange = some parsed →
    At (content r) parsed.start r.body.chunks.flatten
  same : ∀ name, configures name → ∀ r r' value value', gives r → gives r' → r.States name value →
    r'.States name value' →
    trimQuotes value = trimQuotes value' → content r = content r'

variable {W : World} {redirect : ReadRedirect} {content : Response → Bytes} {c : Bytes} {s t : Session}

/-! ### The session -/

/-- The budget for minting is kept, and the redirect in force is one of this read. -/
structure InOrder (W : World) (redirect : ReadRedirect) (s : Session) : Prop where
  budget : rejections s.calls ≤ if s.mintedOnce then 1 else 0
  named : ∀ name, s.current.responseParsing.etagHeader = some name → W.Configures redirect name

theorem InOrder.le_one (h : InOrder W redirect s) : rejections s.calls ≤ 1 := by
  have hbudget := h.budget
  split_ifs at hbudget <;> omega

theorem rejections_append {calls : List Call} {call : Call} :
    rejections (calls ++ [call]) = rejections calls + if call = .mint .rejected then 1 else 0 := by
  simp [rejections, List.count_append, List.count_singleton]

@[simp] theorem ends_ask {α : Type} {call : Call} {answer : List Call → α} {post : α → Session → Prop} :
    Ends (ask call answer) s post ↔ post (answer s.calls) { s with calls := s.calls ++ [call] } := Iff.rfl

theorem InOrder.asked (h : InOrder W redirect s) (call : Call) (hcall : call ≠ .mint .rejected) :
    InOrder W redirect { s with calls := s.calls ++ [call] } where
  budget := by
    rw [rejections_append, if_neg hcall]
    exact h.budget
  named := h.named

theorem ensureRedirectFresh_inOrder (h : InOrder W redirect s) (expiresAt : ℕ) :
    Ends (ensureRedirectFresh W expiresAt) s fun _ t => InOrder W redirect t := by
  rw [ensureRedirectFresh, ends_bind, ends_ask]
  split_ifs <;> exact h.asked _ nofun

theorem ensureRedirectScope_inOrder (h : InOrder W redirect s) (r : ReadRedirect) :
    Ends (ensureRedirectScope W r) s fun _ t => InOrder W redirect t := by
  rw [ensureRedirectScope, ends_bind]
  refine (ensureRedirectFresh_inOrder h _).imp fun result t ht => ?_
  cases result with
  | error e => exact ht
  | ok =>
    dsimp only
    split_ifs
    · exact ht
    · exact ht
    · exact ht.asked _ nofun

theorem ensureReadRedirectValid_inOrder (h : InOrder W redirect s) (r : ReadRedirect) :
    Ends (ensureReadRedirectValid W r) s fun _ t => InOrder W redirect t := by
  rw [ensureReadRedirectValid, ends_bind]
  refine (ensureRedirectFresh_inOrder h _).imp fun result t ht => ?_
  cases result with
  | error e => exact ht
  | ok =>
    dsimp only
    split_ifs
    · exact ht
    · exact ht
    · exact ensureRedirectScope_inOrder ht r

variable {mint : List Call → Except Error ReadRedirect}

theorem ends_mintRedirect {cause : Cause} {post : Except Error Unit → Session → Prop}
    (herror : ∀ e, mint s.calls = .error e → post (.error e) { s with calls := s.calls ++ [.mint cause] })
    (hok : ∀ fresh, mint s.calls = .ok fresh →
      post (.ok ()) { s with current := fresh, calls := s.calls ++ [.mint cause] }) :
    Ends (mintRedirect cause mint) s post := by
  rw [mintRedirect, ends_bind, ends_ask]
  cases hmint : mint s.calls with
  | error e => exact herror e hmint
  | ok fresh => exact hok fresh hmint

theorem freshRedirect_inOrder (h : InOrder W redirect s) :
    Ends (freshRedirect W) s fun _ t => InOrder W redirect t := by
  rw [freshRedirect, ends_bind, ends_ask, ends_bind, ends_get]
  have hclock := h.asked .clock nofun
  split_ifs
  · exact ensureReadRedirectValid_inOrder hclock _
  cases hmint : W.mint with
  | none => exact hclock
  | some mint =>
    have hasked := hclock.asked (.mint .expired) nofun
    rw [ends_bind]
    refine ends_mintRedirect (fun e he => hasked) fun fresh hfresh => ?_
    have hminted : InOrder W redirect ⟨fresh, s.mintedOnce, s.calls ++ [.clock] ++ [.mint .expired]⟩ :=
      ⟨hasked.budget, fun name hname => .inr ⟨mint, _, fresh, hmint, hfresh, hname⟩⟩
    exact ensureReadRedirectValid_inOrder hminted _

/-- A redirect is minted because of a `403`, or the read is at its end. -/
theorem remint_spec (h : InOrder W redirect s) (hminted : s.mintedOnce = false)
    (hmint : W.mint = some mint) (message : String) :
    Ends (remint mint message) s fun step t =>
      match step with
      | .done _ => False
      | .failed _ => rejections t.calls ≤ 1
      | .retryAfter _ => InOrder W redirect t := by
  have hbudget : rejections (s.calls ++ [.mint .rejected]) ≤ 1 := by
    have hbudget := h.budget
    rw [hminted, if_neg Bool.false_ne_true] at hbudget
    rw [rejections_append, if_pos rfl]
    omega
  rw [remint, ends_bind]
  refine ends_mintRedirect (fun e he => hbudget) fun fresh hfresh => ?_
  exact ⟨hbudget, fun name hname => .inr ⟨mint, _, fresh, hmint, hfresh, hname⟩⟩

/-- One attempt for the first response. -/
theorem headerAttempt_spec (h : InOrder W redirect s) (range : Option ByteRange) :
    Ends (headerAttempt W range) s (RetryStep.Leaves (InOrder W redirect) (fun r t => W.Gives r ∧ InOrder W redirect t)
      fun _ t => rejections t.calls ≤ 1) := by
  rw [headerAttempt, ends_bind]
  refine (freshRedirect_inOrder h).imp fun result t ht => ?_
  cases result with
  | error e => exact ht.le_one
  | ok =>
    rw [sendStreamingRequest]
    have hsent := ht.asked (.send (streamingRequest t.current.request range none)) nofun
    simp only [ends_bind, ends_get, ends_ask]
    cases hsend : W.send t.calls (streamingRequest t.current.request range none) with
    | error message => exact ⟨hsent, hsent.le_one⟩
    | ok response =>
      simp only [ends_bind, ends_get]
      split_ifs with hrejected hretry
      · cases hmint : W.mint with
        | none => exact ⟨⟨_, _, hsend⟩, hsent⟩
        | some mint =>
          refine (remint_spec hsent hrejected.2 hmint _).imp fun step t ht => ?_
          cases step with
          | done => exact ht.elim
          | failed e => exact ht
          | retryAfter e => exact ⟨ht, ht.le_one⟩
      · exact ⟨hsent, hsent.le_one⟩
      · exact ⟨⟨_, _, hsend⟩, hsent⟩

/-- The first response is one that the origin gives. -/
theorem headerPhase_spec (h : InOrder W redirect s) (range : Option ByteRange) (retryCfg : RetryConfig) :
    Ends (headerPhase W range retryCfg) s
      (Returns (fun r t => W.Gives r ∧ InOrder W redirect t) fun _ t => rejections t.calls ≤ 1) := by
  simp only [headerPhase, ends_bind, ends_get]
  split_ifs
  · exact ends_withHttpRetryAsync (fun s hs => headerAttempt_spec hs range) h
  · rw [sendStreamingRequest]
    have hsent := h.asked (.send (streamingRequest s.current.request range none)) (by rintro ⟨⟩)
    simp only [ends_bind, ends_get, ends_ask]
    cases hsend : W.send s.calls (streamingRequest s.current.request range none) with
    | error message => exact hsent.le_one
    | ok response => exact ⟨⟨_, _, hsend⟩, hsent⟩

/-- A response that is taken to resume a read. -/
def Resumed (W : World) (ctx : ResumeContext) (start : ℕ) (validator : Text) (response : Response) : Prop :=
  W.Gives response ∧ response.isSuccess ∧ acceptResumed ctx start validator response = .done response

variable {validator value name : Text} {start : ℕ}

theorem settleResumed_eq_done {ctx : ResumeContext} {response r : Response}
    (h : settleResumed ctx start validator response = .done r) :
    r = response ∧ response.isSuccess ∧ acceptResumed ctx start validator response = .done response := by
  unfold settleResumed at h
  split_ifs at h with hretry hsuccess
  have hr : r = response := by
    unfold acceptResumed at h
    split_ifs at h
    · split at h <;> cases h
      rfl
    · cases h
      rfl
  subst hr
  exact ⟨rfl, by simpa using hsuccess, h⟩

/-- One attempt to resume. -/
theorem resumeAttempt_spec (h : InOrder W redirect s) (ctx : ResumeContext) (start : ℕ) (validator : Text) :
    Ends (resumeAttempt W ctx start validator) s (RetryStep.Leaves (InOrder W redirect)
      (fun r t => Resumed W ctx start validator r ∧ InOrder W redirect t) fun _ t => rejections t.calls ≤ 1) := by
  rw [resumeAttempt, ends_bind]
  refine (freshRedirect_inOrder h).imp fun result t ht => ?_
  cases result with
  | error e => exact ht.le_one
  | ok =>
    rw [sendStreamingRequest]
    generalize hrequest : streamingRequest t.current.request (some ⟨start, ctx.requestedEnd⟩)
      ctx.httpEntityTag = request
    have hsent := ht.asked (.send request) nofun
    simp only [ends_bind, ends_get, ends_ask, hrequest]
    cases hsend : W.send t.calls request with
    | error message => exact ⟨hsent, hsent.le_one⟩
    | ok response =>
      dsimp only
      split_ifs with hchanged
      · exact hsent.le_one
      rw [ends_bind, ends_get]
      split
      next mint hmint =>
        have hrejected : t.mintedOnce = false ∧ W.mint = some mint := by
          split_ifs at hmint with hrejected
          exact ⟨hrejected.2, hmint⟩
        refine (remint_spec hsent hrejected.1 hrejected.2 _).imp fun step t ht => ?_
        cases step with
        | done => exact ht.elim
        | failed e => exact ht
        | retryAfter e => exact ⟨ht, ht.le_one⟩
      next =>
        rw [ends_pure]
        cases hsettle : settleResumed ctx start validator response with
        | done r =>
          obtain ⟨rfl, hsuccess, haccept⟩ := settleResumed_eq_done hsettle
          exact ⟨⟨⟨_, _, hsend⟩, hsuccess, haccept⟩, hsent⟩
        | failed e => exact hsent.le_one
        | retryAfter e => exact ⟨hsent, hsent.le_one⟩

/-- What `resume_response` gives. -/
theorem resumeResponse_spec (h : InOrder W redirect s) (ctx : ResumeContext) (start : ℕ) (validator : Text) :
    Ends (resumeResponse W ctx start validator) s
      (Returns (fun r t => Resumed W ctx start validator r ∧ InOrder W redirect t) fun _ t => rejections t.calls ≤ 1) :=
  ends_withHttpRetryAsync (fun _ hs => resumeAttempt_spec hs ctx start validator) h

/-! ### Bodies of one version -/

theorem states_of_header {r : Response} (h : r.header name = some value) : r.States name value := by
  obtain ⟨header, hfind, hvalue⟩ := Option.bind_eq_some_iff.mp h
  exact ⟨header, List.mem_of_find?_eq_some hfind, by simpa using List.find?_some hfind, hvalue⟩

theorem states_of_headerValue {r : Response} (h : headerValue r.capturedHeaders (some name) = some value) :
    r.States name value := by
  simp only [headerValue, Option.bind_some, Option.map_eq_some_iff] at h
  obtain ⟨⟨n, v⟩, hfind, rfl⟩ := h
  obtain ⟨⟨n', v'⟩, hmem, hheader⟩ := List.mem_filterMap.mp (List.mem_of_find?_eq_some hfind)
  obtain ⟨w, hw, hpair⟩ := Option.map_eq_some_iff.mp hheader
  cases hpair
  exact ⟨_, hmem, by simpa using List.find?_some hfind, hw⟩

variable {ctx : ResumeContext} {r : Response} {k : Cursor} {init : ℕ} {requestedEnd : Option ℕ}

/-- What a `206` that is taken states. -/
theorem validateSingleRange206_eq_ok {phase : String} {parsed : ParsedContentRange}
    (h : validateSingleRange206 r start requestedEnd phase = .ok parsed) :
    r.contentRange = some parsed ∧ parsed.start = start ∧ expectedEnd requestedEnd parsed = .ok parsed.last ∧
      r.isMultipart = false ∧ ∀ n ∈ r.contentLength, n = parsed.last - parsed.start + 1 := by
  unfold validateSingleRange206 at h
  split_ifs at h with hmultipart
  · cases h
  dsimp only at h
  split at h
  · cases h
  next parsed' hparsed =>
    split_ifs at h with hstart
    · cases h
    obtain ⟨expected, hexpected, h⟩ := Validate.bind_eq_ok.mp h
    split_ifs at h with hlast
    · cases h
    obtain ⟨span, hspan, h⟩ := Validate.bind_eq_ok.mp h
    obtain ⟨declared, hdeclared, h⟩ := Validate.bind_eq_ok.mp h
    obtain ⟨-, rfl⟩ := minus_eq_ok.mp hspan
    obtain ⟨-, rfl⟩ := plus_eq_ok.mp hdeclared
    split_ifs at h with hlength
    · cases h
    cases h
    refine ⟨hparsed, not_not.mp hstart, by rw [hexpected, not_not.mp hlast], by simpa using hmultipart, fun n hn => ?_⟩
    simpa [Option.mem_def.mp hn] using hlength

/-- The loop is at the body of a response of this version. -/
structure Serves (W : World) (content : Response → Bytes) (c : Bytes) (requestedEnd : Option ℕ) (r : Response)
    (s : Cursor) :
    Prop where
  gives : W.Gives r
  success : r.isSuccess
  version : content r = c
  full : r.status ≠ 206 → s.responseCursor = 0 ∧ s.responseEndExclusive = none
  part : r.status = 206 → ∃ parsed, (∃ phase, validateSingleRange206 r parsed.start requestedEnd phase = .ok parsed) ∧
    s.responseCursor = parsed.start ∧ s.responseEndExclusive = some (endExclusive parsed.last)


theorem Serves.at (h : Serves W content c requestedEnd r k)
    (htruth : Truthful W.Gives (W.Configures redirect) content) :
    At c k.responseCursor r.body.chunks.flatten := by
  by_cases hpart : r.status = 206
  · obtain ⟨parsed, ⟨phase, hvalid⟩, hcursor, -⟩ := h.part hpart
    rw [hcursor, ← h.version]
    exact htruth.part r h.gives hpart parsed (validateSingleRange206_eq_ok hvalid).1
  · rw [(h.full hpart).1, ← h.version]
    exact htruth.full r h.gives h.success hpart

/-- The validator of a context names the version. -/
def Guards (W : World) (redirect : ReadRedirect) (content : Response → Bytes) (c : Bytes) (ctx : ResumeContext) :
    Prop :=
  ∀ validator ∈ ctx.validator, ∃ name, ctx.parsing.etagHeader = some name ∧ W.Configures redirect name ∧
    ∃ first, W.Gives first ∧ first.States name validator ∧ content first = c

@[simp] theorem resumed_deliveredHwm : (k.resumed r).deliveredHwm = k.deliveredHwm := by
  unfold Cursor.resumed
  split_ifs <;> rfl

theorem Placed.resumed (h : Placed init (requestedEnd.map endExclusive) k) (r : Response) :
    Placed init (requestedEnd.map endExclusive) (k.resumed r) := by
  obtain ⟨hstart, -, hskip, -, hbounded⟩ := h
  unfold Cursor.resumed
  split_ifs
  · exact ⟨hstart, Nat.le_refl _, Nat.max_le.mpr ⟨hskip, Nat.le_refl _⟩, fun _ => Nat.max_eq_right hskip, hbounded⟩
  · exact ⟨hstart, Nat.zero_le _, Nat.max_le.mpr ⟨hskip, Nat.le_refl _⟩, fun _ => Nat.max_eq_right hskip, hbounded⟩

/-- A response that resumes a read is of the version that the validator names. -/
theorem Resumed.serves (htruth : Truthful W.Gives (W.Configures redirect) content)
    (hguards : Guards W redirect content c ctx) (hvalidator : ctx.validator = some validator)
    (h : Resumed W ctx k.deliveredHwm validator r) :
    Serves W content c ctx.requestedEnd r (k.resumed r) := by
  obtain ⟨hgives, hsuccess, haccept⟩ := h
  unfold acceptResumed at haccept
  split_ifs at haccept with hother hpart
  all_goals
    have hversion : content r = c := by
      obtain ⟨name, hname, hconf, first, hfirst, hstates, rfl⟩ := hguards validator hvalidator
      rw [Response.validator, hname, Option.bind_some] at hother
      cases hheader : r.header name with
      | none => simp [hheader] at hother
      | some resumed =>
        have htrim : trimQuotes resumed = trimQuotes validator := by simpa [hheader] using hother
        exact htruth.same name hconf r first resumed validator hgives hfirst (states_of_header hheader) hstates htrim
  · split at haccept
    · cases haccept
    next parsed hvalid =>
      obtain ⟨hparsed, hstart, -⟩ := validateSingleRange206_eq_ok hvalid
      refine ⟨hgives, hsuccess, hversion, fun hfull => (hfull hpart).elim,
        fun _ => ⟨parsed, ⟨_, hstart ▸ hvalid⟩, ?_, ?_⟩⟩
      · rw [Cursor.resumed, if_pos hpart, hstart]
      · rw [Cursor.resumed, if_pos hpart, hparsed]
        rfl
  · exact ⟨hgives, hsuccess, hversion, fun _ => by simp [Cursor.resumed, hpart], fun h => (hpart h).elim⟩

/-- The body of a response of the version is read to its end, and the mark is behind it. -/
def ReadToEnd (W : World) (content : Response → Bytes) (c : Bytes) (requestedEnd : Option ℕ) (mark : ℕ) : Prop :=
  ∃ r k, Serves W content c requestedEnd r k ∧ r.body.ending = .closed ∧
    k.responseCursor + r.body.chunks.flatten.length ≤ mark ∧
    ∀ last ∈ k.responseEndExclusive, k.responseCursor + r.body.chunks.flatten.length = last

/-- What a stream of the version delivers from the mark of a cursor on. -/
def Delivers (W : World) (content : Response → Bytes) (c : Bytes) (init : ℕ) (requestedEnd : Option ℕ) (k : Cursor)
    (d : Delivery) :
    Prop :=
  ∃ mark, Left c init (requestedEnd.map endExclusive) k d.chunks mark ∧
    (d.ending = .closed → (∃ b ∈ requestedEnd.map endExclusive, b ≤ mark) ∨ ReadToEnd W content c requestedEnd mark)

/-- The whole loop, with any number of resumes. -/
theorem resumeLoop_spec (htruth : Truthful W.Gives (W.Configures redirect) content)
    (hguards : Guards W redirect content c ctx) (resumesLeft : ℕ) (horder : InOrder W redirect s)
    (hserves : Serves W content c ctx.requestedEnd r k) (hplaced : Placed init (ctx.requestedEnd.map endExclusive) k) :
    Ends (resumeLoop W ctx resumesLeft k r.body) s fun d t =>
      rejections t.calls ≤ 1 ∧ Delivers W content c init ctx.requestedEnd k d := by
  induction resumesLeft using Nat.strongRecOn generalizing k r s with
  | ind resumesLeft ih =>
    obtain ⟨mark, hleft, hexit⟩ := readBody_spec W r.body.ending hplaced (hserves.at htruth)
    unfold resumeLoop
    rcases hread : readBody W (ctx.requestedEnd.map endExclusive) r.body.ending k r.body.chunks with ⟨chunks, exit⟩
    rw [hread] at hleft hexit
    have hfault : ∀ fault, Delivers W content c init ctx.requestedEnd k ⟨chunks, .fault fault⟩ :=
      fun fault => ⟨mark, hleft, nofun⟩
    cases exit with
    | ended ending =>
      exact ⟨horder.le_one, mark, hleft, fun hclosed => (hexit hclosed).imp_right fun ⟨hend, hmark, hlast⟩ =>
        ⟨r, k, hserves, hend, hmark, hlast⟩⟩
    | failed k' message =>
      obtain ⟨hplaced', rfl⟩ := hexit
      dsimp only
      split
      · exact ⟨horder.le_one, hfault _⟩
      · exact ⟨horder.le_one, hfault _⟩
      next left hidempotent =>
        split
        · exact ⟨horder.le_one, hfault _⟩
        next validator hvalidator =>
          rw [ends_bind]
          refine (resumeResponse_spec horder ctx k'.deliveredHwm validator).imp fun result t hresult => ?_
          cases result with
          | error fault => exact ⟨hresult, hfault fault⟩
          | ok response =>
            obtain ⟨hresumed, horder'⟩ := hresult
            have hserves' := hresumed.serves htruth hguards hvalidator
            rw [ends_bind]
            refine (ih left (Nat.lt_succ_self _) horder' hserves' (hplaced'.resumed response)).imp fun d t hd => ?_
            obtain ⟨hcalls, mark, hrest, hclosed⟩ := hd
            refine ⟨hcalls, mark, ⟨?_, hrest.bounded, ?_⟩, hclosed⟩
            · exact Nat.le_trans hleft.le (resumed_deliveredHwm ▸ hrest.le)
            · have hbytes : chunks.flatten = slice c k.deliveredHwm k'.deliveredHwm := hleft.bytes
              change (chunks ++ d.chunks).flatten = slice c k.deliveredHwm mark
              rw [List.flatten_append, hbytes, hrest.bytes, resumed_deliveredHwm]
              exact slice_append_slice hleft.le (resumed_deliveredHwm ▸ hrest.le)

/-! ### The whole read -/

variable {range : Option ByteRange} {first : Response} {ifMatchWasSet : Bool} {retryCfg : RetryConfig}

/-- Where the first response begins. -/
def initialOffset (range : Option ByteRange) (first : Response) : ℕ :=
  if first.status = 206 then (range.map ByteRange.start).getD 0 else 0

/-- What a stream that follows the first response is: a read of its version, cut down to the range where the response is
not. -/
def Follows (W : World) (content : Response → Bytes) (range : Option ByteRange) (first : Response) (d : Delivery) :
    Prop :=
  ∃ inner k, d = sliceClientSide range first inner ∧ k.deliveredHwm = initialOffset range first ∧
    Delivers W content (content first) (initialOffset range first) (range.bind ByteRange.endInclusive) k inner

variable {parsed : Option ParsedContentRange}

theorem acceptFirst_eq_ok (h : acceptFirst ifMatchWasSet range first = .ok parsed) :
    first.isSuccess ∧ (first.status ≠ 206 → parsed = none) ∧ (first.status = 206 → ∃ p, parsed = some p ∧
      p.start = (range.map ByteRange.start).getD 0 ∧
      validateSingleRange206 first p.start (range.bind ByteRange.endInclusive) "initial" = .ok p) := by
  unfold acceptFirst at h
  split_ifs at h with hsuccess hpart
  · obtain ⟨p, hp, h⟩ := Validate.bind_eq_ok.mp h
    cases h
    obtain ⟨-, hstart, -⟩ := validateSingleRange206_eq_ok hp
    exact ⟨by simpa using hsuccess, fun hfull => (hfull hpart).elim, fun _ => ⟨p, rfl, hstart, hstart ▸ hp⟩⟩
  · cases h
    exact ⟨by simpa using hsuccess, fun _ => rfl, fun h => (hpart h).elim⟩

/-- The validator that a read is resumed by is one of the first response. -/
theorem guards_resumeContext (horder : InOrder W redirect s) (hfirst : W.Gives first) (idempotent : Bool) :
    Guards W redirect content (content first) (resumeContext s.current range retryCfg idempotent first) := by
  intro validator hvalidator
  obtain ⟨hvalue, -⟩ := Option.filter_eq_some_iff.mp hvalidator
  cases hname : s.current.responseParsing.etagHeader with
  | none => simp [hname, headerValue] at hvalue
  | some name =>
    rw [hname] at hvalue
    exact ⟨name, hname, horder.named name hname, first, hfirst, states_of_headerValue hvalue, rfl⟩

theorem streamFirst_spec (retryCfg : RetryConfig) (htruth : Truthful W.Gives (W.Configures redirect) content)
    (horder : InOrder W redirect s) (hfirst : W.Gives first)
    (haccept : acceptFirst ifMatchWasSet range first = .ok parsed) (idempotent : Bool) :
    Ends (streamFirst W range retryCfg idempotent first parsed) s fun streamed t =>
      rejections t.calls ≤ 1 ∧ streamed.first = some first ∧ Follows W content range first streamed.stream := by
  obtain ⟨hsuccess, hfull, hpart⟩ := acceptFirst_eq_ok haccept
  rw [streamFirst, ends_bind, ends_get]
  dsimp only
  rw [ends_bind, resumableBodyStream]
  generalize hk : Cursor.mk _ _ _ _ _ = k
  have hmark : k.deliveredHwm = initialOffset range first := by
    rw [← hk]
    rfl
  have hserves : Serves W content (content first) (range.bind ByteRange.endInclusive) first k := by
    refine ⟨hfirst, hsuccess, rfl, fun h => ?_, fun h => ?_⟩
    · rw [← hk, hfull h, if_neg h]
      exact ⟨rfl, rfl⟩
    · obtain ⟨p, rfl, hstart, hvalid⟩ := hpart h
      refine ⟨p, ⟨_, hvalid⟩, ?_, ?_⟩
      · rw [← hk, if_pos h, hstart]
      · rw [← hk]
        rfl
  have hplaced : Placed (initialOffset range first) ((range.bind ByteRange.endInclusive).map endExclusive) k := by
    rw [← hk]
    exact ⟨Nat.le_refl _, Nat.le_refl _, Nat.le_refl _, fun _ => rfl, fun _ _ => Nat.le_max_left _ _⟩
  refine (resumeLoop_spec htruth (guards_resumeContext horder hfirst idempotent) _ horder hserves
    hplaced).imp fun d t hd => ?_
  exact ⟨hd.1, rfl, d, k, rfl, hmark, hd.2⟩

/-- How a read leaves the session, and what its stream is where a response begins it. -/
def Followed (W : World) (content : Response → Bytes) (range : Option ByteRange)
    (result : Except Fault StreamedReadRedirect) (t : Session) : Prop :=
  rejections t.calls ≤ 1 ∧ ∀ streamed first, result = .ok streamed → streamed.first = some first →
    W.Gives first ∧ Follows W content range first streamed.stream

theorem followed_error (h : rejections s.calls ≤ 1) (fault : Fault) : Followed W content range (.error fault) s :=
  ⟨h, fun _ _ heq => by cases heq⟩

theorem followed_file (h : rejections s.calls ≤ 1) (d : Delivery) (effective : ReadRedirect) :
    Followed W content range (.ok ⟨d, none, effective⟩) s :=
  ⟨h, fun _ _ heq hfirst => by cases heq; cases hfirst⟩

theorem followHttpReadRedirectStreaming_spec (htruth : Truthful W.Gives (W.Configures redirect) content)
    (horder : InOrder W redirect s) :
    Ends (followHttpReadRedirectStreaming W ifMatchWasSet range retryCfg) s (Followed W content range) := by
  rw [followHttpReadRedirectStreaming, ends_bind, ends_get, ends_bind]
  refine (headerPhase_spec horder range retryCfg).imp fun result t hresult => ?_
  cases result with
  | error fault => exact followed_error hresult _
  | ok first =>
    obtain ⟨hfirst, ht⟩ := hresult
    dsimp only
    cases haccept : acceptFirst ifMatchWasSet range first with
    | error fault => exact followed_error ht.le_one _
    | ok parsed =>
      dsimp only
      rw [ends_bind]
      have hstream := streamFirst_spec retryCfg htruth ht hfirst haccept
        (httpMethodIsIdempotent s.current.request.method)
      refine hstream.imp fun streamed t hpost => ⟨hpost.1, fun streamed' first' heq hfirst' => ?_⟩
      cases heq
      cases hpost.2.1.symm.trans hfirst'
      exact ⟨hfirst, hpost.2.2⟩

theorem followFileReadRedirectStreaming_spec (horder : InOrder W redirect s) :
    Ends (followFileReadRedirectStreaming W range) s (Followed W content range) := by
  rw [followFileReadRedirectStreaming, ends_bind, ends_get]
  dsimp only
  split_ifs
  · exact followed_error horder.le_one _
  rw [ends_bind, ends_ask]
  have hasked := (horder.asked (.openFile s.current) nofun).le_one
  cases W.openFile s.calls s.current with
  | error e => exact followed_error hasked _
  | ok body =>
    cases range with
    | none => exact followed_file hasked _ _
    | some range => exact followed_file hasked _ _

/-- The stream of a read follows its first response. -/
theorem followReadRedirectStreaming_spec (htruth : Truthful W.Gives (W.Configures redirect) content) :
    Ends (followReadRedirectStreaming W ifMatchWasSet range retryCfg) ⟨redirect, false, []⟩
      (Followed W content range) := by
  have horder : InOrder W redirect ⟨redirect, false, []⟩ := ⟨Nat.le_refl _, fun name hname => .inl hname⟩
  unfold followReadRedirectStreaming
  split
  · exact followed_error horder.le_one _
  rw [ends_bind]
  refine (freshRedirect_inOrder horder).imp fun result t ht => ?_
  cases result with
  | error e => exact followed_error ht.le_one _
  | ok =>
    dsimp only
    rw [ends_bind, ends_get]
    split
    · exact followed_error ht.le_one _
    · exact followHttpReadRedirectStreaming_spec htruth ht
    · exact followFileReadRedirectStreaming_spec ht
    · exact followed_error ht.le_one _

theorem endExclusive_le (last : ℕ) : endExclusive last ≤ last + 1 := Word64.saturatingAdd_le

theorem slice_isPrefix_requested {mark : ℕ} {last : Option ℕ}
    (hbounded : ∀ b ∈ last.map endExclusive, mark ≤ max start b) :
    slice c start mark <+: requested (some ⟨start, last⟩) c := by
  cases last with
  | none => exact slice_isPrefix_drop
  | some last =>
    have hmark := hbounded _ rfl
    have hle := endExclusive_le last
    change slice c start mark <+: slice c start (last + 1)
    rcases Nat.lt_or_ge start mark with hstart | hempty
    · exact slice_isPrefix (by omega)
    · rw [slice_of_le hempty]
      exact List.nil_prefix

/-- What a filter yields of the beginning of an object is a prefix of its range. -/
theorem rangeFilterStream_isPrefix {inner : Delivery} (h : inner.bytes <+: c) (range : ByteRange) :
    (rangeFilterStream inner range).bytes <+: requested (some range) c := by
  obtain ⟨read, hread, hbytes, -⟩ := filterChunks_spec range.start
    ((range.endInclusive.map endExclusive).getD Word64.max) 0 inner.ending inner.chunks
  have hprefix : read.flatten <+: c := by
    obtain ⟨rest, hrest⟩ := hread
    rw [Delivery.bytes, ← hrest, List.flatten_append] at h
    exact (List.prefix_append _ _).trans h
  rw [rangeFilterStream, hbytes, List.prefix_iff_eq_take.mp hprefix, slice_take]
  refine slice_isPrefix_requested fun b hb => ?_
  rw [Option.mem_def.mp hb, Option.getD_some]
  omega

/-- What follows the first response is a prefix of the range of its version. -/
theorem Follows.isPrefix {d : Delivery} (h : Follows W content range first d) :
    d.bytes <+: requested range (content first) := by
  obtain ⟨inner, k, rfl, hk, mark, hleft, -⟩ := h
  have hbytes : inner.bytes = slice (content first) (initialOffset range first) mark := hk ▸ hleft.bytes
  cases range with
  | none =>
    rw [sliceClientSide, hbytes, initialOffset, Option.map_none, Option.getD_none, ite_self]
    exact slice_isPrefix_drop
  | some range =>
    rw [sliceClientSide]
    by_cases hpart : first.status = 206
    · rw [if_neg (not_not.mpr hpart), hbytes]
      have hbounded := hleft.bounded
      rw [initialOffset, if_pos hpart] at hbounded ⊢
      exact slice_isPrefix_requested hbounded
    · rw [if_pos hpart]
      rw [initialOffset, if_neg hpart] at hbytes
      exact rangeFilterStream_isPrefix (hbytes ▸ slice_isPrefix_drop) range

/-- What a redirected read has delivered, at any moment and however often it was resumed, is a prefix of the range that
was asked for of one version of the object, the one of the first response; and one redirect at most is minted because
of a `403`. -/
theorem read_is_prefix (htruth : Truthful W.Gives (W.Configures redirect) content) (ifMatchWasSet : Bool)
    (range : Option ByteRange) (retryCfg : RetryConfig) :
    Ends (followReadRedirectStreaming W ifMatchWasSet range retryCfg) ⟨redirect, false, []⟩ fun result t =>
      rejections t.calls ≤ 1 ∧ ∀ streamed first, result = .ok streamed → streamed.first = some first →
        ∀ seen, seen <+: streamed.stream.chunks → seen.flatten <+: requested range (content first) := by
  refine (followReadRedirectStreaming_spec htruth).imp fun result t ⟨hcalls, hstream⟩ => ⟨hcalls, ?_⟩
  rintro streamed first hresult hfirst seen ⟨rest, hrest⟩
  have hprefix := (hstream streamed first hresult hfirst).2.isPrefix
  rw [Delivery.bytes, ← hrest, List.flatten_append] at hprefix
  exact (List.prefix_append _ _).trans hprefix

/-! ### Runs against a script -/

/-- How many requests were sent. -/
def sends (calls : List Call) : ℕ := calls.countP fun call => match call with | .send _ => true | _ => false

/-- A world whose origin gives these responses one after the other, and whose redirects are valid for good. -/
def scripted (responses : List Response) : World where
  now _ := 0
  withinScope _ _ := .ok ()
  mint := none
  send calls _ := (responses[sends calls]?).elim (.error "error sending request") .ok
  scheme _ := .ok .http
  openFile _ _ := .error ⟨.NotFound, ""⟩
  expectedChecksum _ _ := none
  digest _ _ := []

/-- A redirect that names a header for the validator, or none. -/
def plainRedirect (etagHeader : Option Text) : ReadRedirect where
  request := ⟨"GET".toList, "https://origin/object".toList, []⟩
  responseParsing := ⟨etagHeader, none, none⟩
  expiresAt := 1
  scope := ⟨"https://origin/".toList, true, 1⟩

theorem mem_of_scripted {responses : List Response} (h : (scripted responses).Gives r) : r ∈ responses := by
  obtain ⟨calls, request, hsend⟩ := h
  change (responses[sends calls]?).elim (.error "error sending request") .ok = Except.ok r at hsend
  cases hget : responses[sends calls]? with
  | none =>
    rw [hget] at hsend
    cases hsend
  | some r' =>
    rw [hget] at hsend
    cases hsend
    exact List.mem_of_getElem? hget

/-- A full body that breaks off, a replay that breaks off as well, and a `206` for what is left. -/
def brokenOff : List Response :=
  [⟨200, [("etag".toList, some "\"v1\"".toList)], none, ⟨[[1, 2], [3]], .failed "reset"⟩⟩,
   ⟨200, [("etag".toList, some "v1".toList)], none, ⟨[[1], [2, 3, 4]], .failed "reset"⟩⟩,
   ⟨206, [("etag".toList, some "v1".toList), ("content-range".toList, some "bytes 4-4/6".toList)], some 1,
    ⟨[[5]], .closed⟩⟩]

theorem truthful_brokenOff :
    Truthful (scripted brokenOff).Gives ((scripted brokenOff).Configures (plainRedirect (some "etag".toList)))
    fun _ => [1, 2, 3, 4, 5, 6] where
  full r hgives := by
    have hall : ∀ r ∈ brokenOff, r.isSuccess → r.status ≠ 206 → At [1, 2, 3, 4, 5, 6] 0 r.body.chunks.flatten := by
      decide +kernel
    exact hall r (mem_of_scripted hgives)
  part r hgives := by
    have hall : ∀ r ∈ brokenOff, r.status = 206 →
        ∀ parsed ∈ r.contentRange, At [1, 2, 3, 4, 5, 6] parsed.start r.body.chunks.flatten := by
      decide +kernel
    exact hall r (mem_of_scripted hgives)
  same := fun _ _ _ _ _ _ _ _ _ _ _ => rfl

/-- The range is delivered once, and no redirect is minted. -/
theorem read_is_prefix_brokenOff :
    Ends (followReadRedirectStreaming (scripted brokenOff) false (some ⟨1, some 4⟩) ⟨3⟩)
      ⟨plainRedirect (some "etag".toList), false, []⟩
      fun result t => rejections t.calls ≤ 1 ∧ ∀ streamed first, result = .ok streamed → streamed.first = some first →
        ∀ seen, seen <+: streamed.stream.chunks → seen.flatten <+: [2, 3, 4, 5] :=
  read_is_prefix truthful_brokenOff false (some ⟨1, some 4⟩) ⟨3⟩

end OvStorage.Redirect
