import OvStorage.Lib.Stateful
import OvStorage.Redirect.Parts

/-!
# The redirect follower

A write through `RedirectFollowerWrapper`: the inner layer mints batches of redirects, the follower executes them with
the body and passes each one back with the results, or gives notice that it is abandoned. The journal keeps the batches
that were handed out, the executions, and the calls of `continue_write`.

## What is proved

* `batches_settled`: which of the batches of a write are passed back, and with which results.
-/

namespace OvStorage.Redirect

open OvStorage.Layer Stateful Course List

variable {ρ : Type}

/-- `WriteRedirectBatch`. -/
structure WriteRedirectBatch where
  continuation : Bytes
  redirects : List WriteRedirect

/-- `ContinueWriteRequest`, with the results of a `RedirectResultBatch`. -/
structure ContinueWriteRequest (ρ : Type) where
  address : Text
  redirects : WriteRedirectBatch
  results : List ρ

/-- `WriteResult`: the address of its info. -/
structure WriteResult where
  address : Text

/-- `WriteStep`. -/
inductive WriteStep where
  | done (result : WriteResult)
  | redirects (batch : WriteRedirectBatch)

/-- `Body`. -/
inductive RequestBody where
  | bytes (bytes : Bytes)
  | localFile (path : Text)
  | stream (stream : BodyStream)

/-- `WriteRequest`, with the size hint of its options. -/
structure WriteRequest where
  address : Text
  body : RequestBody
  sizeHint : Option ℕ

/-- The inner layer, the file system and the origins, which may be different ones from round to round. -/
structure Surroundings (ρ : Type) where
  /-- The `redirect_size_threshold` of the root of an address. -/
  rootInfoFor : Text → Except Error (Option ℕ)
  writeRedirect : WriteRequest → Except Error WriteRedirectBatch
  /-- The answer to a call, after the calls before. -/
  continueWrite : List (ContinueWriteRequest ρ) → ContinueWriteRequest ρ → Except Error WriteStep
  /-- The body-typed slot. -/
  write : WriteRequest → Except Error WriteResult
  metadataLen : Text → Option ℕ
  /-- `SpooledReplayBody::write`. -/
  spool : Bytes → Except Error Text
  file : ℕ → Text → Except Error Bytes
  reads : ℕ → ℕ → ℕ → Except Error ℕ
  origin : ℕ → Origin ρ

/-- What has gone on between the follower and the inner layer. -/
structure Journal (ρ : Type) where
  handed : List WriteRedirectBatch
  executed : List (Except Fault (List ρ))
  passedBack : List (ContinueWriteRequest ρ)

abbrev Follower (ρ : Type) := StateM (Journal ρ)

variable (W : Surroundings ρ)

/-- `inner.write_redirect`. -/
def mintBatch (request : WriteRequest) : Follower ρ (Except Error WriteRedirectBatch) := do
  match W.writeRedirect request with
  | .error e => return .error e
  | .ok batch =>
    modify fun j => { j with handed := j.handed ++ [batch] }
    return .ok batch

/-- `inner.continue_write`. -/
def continueWrite (request : ContinueWriteRequest ρ) : Follower ρ (Except Error WriteStep) := do
  let j ← get
  set { j with passedBack := j.passedBack ++ [request] }
  match W.continueWrite j.passedBack request with
  | .ok (.redirects batch) =>
    modify fun j => { j with handed := j.handed ++ [batch] }
    return .ok (.redirects batch)
  | answer => return answer

/-- `crate::redirect::WriteBody`. -/
inductive WriteBody where
  | buffered (bytes : Bytes)
  | seekableFile (path : Text)
  | stream (stream : BodyStream)

/-- `follow_write_redirects`, in a round. -/
def followWriteRedirects (round : ℕ) (body : WriteBody) (batch : WriteRedirectBatch) : Except Fault (List ρ) :=
  match body with
  | .buffered bytes => (followBufferedWriteRedirects (W.origin round) bytes 0 batch.redirects).result
  | .seekableFile path =>
    match W.file round path with
    | .error e => .error (.error e)
    | .ok file => (followSeekableWriteRedirects (W.origin round) file (W.reads round) 0 batch.redirects).result
  | .stream stream => (followStreamingWriteRedirects (W.origin round) stream batch.redirects).result

/-- Execute a batch. -/
def execute (round : ℕ) (body : WriteBody) (batch : WriteRedirectBatch) : Follower ρ (Except Fault (List ρ)) := do
  let results := followWriteRedirects W round body batch
  modify fun j => { j with executed := j.executed ++ [results] }
  return results

/-- The replay source of `drive_write_redirects`. -/
structure ReplaySource where
  buffered : Option Bytes
  localPath : Option Text
  consumedBody : Option BodyStream

/-- The body for a round, and the source that is left. -/
def ReplaySource.take (source : ReplaySource) : Option (WriteBody × ReplaySource) :=
  match source.buffered, source.localPath, source.consumedBody with
  | some bytes, _, _ => some (.buffered bytes, source)
  | none, some path, _ => some (.seekableFile path, source)
  | none, none, some stream => some (.stream stream, { source with consumedBody := none })
  | none, none, none => none

/-- Whether an abandoned batch is to be given notice of. -/
def noticeDue (fault : Fault) (batch : WriteRedirectBatch) : Bool :=
  match fault with
  | .error e => e.code.retryable && !batch.redirects.isEmpty
  | .overflow => false

/-- The loop of `drive_write_redirects` over a number of rounds, from a round on; `none` where it goes on. -/
def driveRounds (address : Text) :
    ℕ → ℕ → ReplaySource → WriteRedirectBatch → Follower ρ (Option (Except Fault WriteResult))
  | 0, _, _, _ => return none
  | rounds + 1, round, source, batch => do
    match source.take with
    | none =>
      return some (fail .Unsupported
        "nested write redirects against a streaming body (the stream was consumed in the first redirect round)")
    | some (body, source) =>
      match ← execute W round body batch with
      | .error fault =>
        if noticeDue fault batch then
          let _ ← continueWrite W ⟨address, batch, []⟩
        return some (.error fault)
      | .ok results =>
        match ← continueWrite W ⟨address, batch, results⟩ with
        | .error e => return some (.error (.error e))
        | .ok (.done result) => return some (.ok { result with address })
        | .ok (.redirects next) => driveRounds address rounds (round + 1) source next

/-- `drive_write_redirects`. -/
def driveWriteRedirects (spoolThreshold rounds : ℕ) (address : Text) (body : RequestBody) (batch : WriteRedirectBatch) :
    Follower ρ (Option (Except Fault WriteResult)) := do
  match body with
  | .bytes bytes =>
    if spoolThreshold < bytes.length then
      match W.spool bytes with
      | .error e => return some (.error (.error e))
      | .ok path => driveRounds W address rounds 0 ⟨none, some path, none⟩ batch
    else driveRounds W address rounds 0 ⟨some bytes, none, none⟩ batch
  | .localFile path => driveRounds W address rounds 0 ⟨none, some path, none⟩ batch
  | .stream stream => driveRounds W address rounds 0 ⟨none, none, some stream⟩ batch

/-- The size hint of a write, from its body where it has none. -/
def sizeHint (request : WriteRequest) : Option ℕ :=
  request.sizeHint.or <|
    match request.body with
    | .bytes bytes => some bytes.length
    | .localFile path => W.metadataLen path
    | .stream _ => none

/-- Whether a write of this size goes straight to the body-typed slot. -/
def skipRedirect (address : Text) (sizeHint : Option ℕ) : Bool :=
  match sizeHint with
  | some 0 => true
  | some n => ((W.rootInfoFor address).toOption.join).any fun threshold => n < threshold
  | none => false

/-- The body-typed slot, and the address of the result. -/
def fallback (request : WriteRequest) : Option (Except Fault WriteResult) :=
  match W.write request with
  | .error e => some (.error (.error e))
  | .ok result => some (.ok { result with address := request.address })

/-- `write`, with `try_write_redirect`. -/
def followWrite (spoolThreshold rounds : ℕ) (request : WriteRequest) : Follower ρ (Option (Except Fault WriteResult)) :=
  do
  let request := { request with sizeHint := sizeHint W request }
  if skipRedirect W request.address request.sizeHint then return fallback W request
  else
    match ← mintBatch W { request with body := .bytes [] } with
    | .ok batch => driveWriteRedirects W spoolThreshold rounds request.address request.body batch
    | .error e =>
      if e.code = .Unsupported then return fallback W request
      else return some (.error (.error e))

/-! ### One result for each redirect -/

variable {W} {address : Text} {j : Journal ρ} {batch next : WriteRedirectBatch} {redirects : List WriteRedirect}
  {index round : ℕ}
  {origin : Origin ρ} {results : List ρ} {x : Except Fault (List ρ)} {calls : List (ContinueWriteRequest ρ)}

theorem executeRedirectRequest_any {bodySource : RedirectBodySource} {bytes : Bytes} :
    (executeRedirectRequest origin index bodySource bytes).Keeps (fun _ => True) fun _ _ => True :=
      ⟨fun _ _ => trivial, fun _ _ => trivial⟩

theorem followBufferedWriteRedirects_length {body : Bytes} :
    (followBufferedWriteRedirects origin body index redirects).Keeps (fun _ => True) fun _ results =>
      results.length = redirects.length := by
  induction redirects generalizing index with
  | nil => exact keeps_pure rfl
  | cons redirect redirects ih =>
    refine Keeps.bind (Q := fun _ _ => True) (keeps_raise fun _ _ => trivial) fun _ _ _ => ?_
    refine Keeps.bind (Q := fun _ _ => True) (keeps_of fun _ _ => trivial) fun _ bytes _ => ?_
    refine Keeps.bind executeRedirectRequest_any fun _ result _ => ?_
    refine Keeps.bind ih fun _ results hlen => keeps_pure ?_
    rw [length_cons, length_cons, hlen]

theorem followSeekableWriteRedirects_length {file : Bytes} {reads : ℕ → ℕ → Except Error ℕ} :
    (followSeekableWriteRedirects origin file reads index redirects).Keeps (fun _ => True) fun _ results =>
      results.length = redirects.length := by
  induction redirects generalizing index with
  | nil => exact keeps_pure rfl
  | cons redirect redirects ih =>
    have hrest : ∀ result, (followSeekableWriteRedirects origin file reads (index + 1) redirects >>= fun results =>
        (pure (result :: results) : Course (List ρ))).Keeps (fun _ => True) fun _ results =>
          results.length = (redirect :: redirects).length :=
      fun result => Keeps.bind ih fun _ results hlen => keeps_pure (by rw [length_cons, length_cons, hlen])
    obtain ⟨bodySource⟩ := redirect
    refine Keeps.bind (Q := fun _ _ => True) (keeps_raise fun _ _ => trivial) fun _ _ _ => ?_
    cases bodySource with
    | empty => exact Keeps.bind executeRedirectRequest_any fun _ result _ => hrest result
    | inline bytes => exact Keeps.bind executeRedirectRequest_any fun _ result _ => hrest result
    | userBytes offset wide =>
      dsimp only
      split
      · exact keeps_fail
      split_ifs
      · exact keeps_fail
      refine Keeps.bind (Q := fun _ _ => True) (keeps_of fun _ _ => trivial) fun _ stream _ => ?_
      refine Keeps.bind (Q := fun _ _ => True) (keeps_send trivial trivial) fun _ _ _ => ?_
      exact Keeps.bind (Q := fun _ _ => True) (keeps_raise fun _ _ => trivial) fun _ result _ => hrest result

theorem Carried.length {body : Bytes} {sent : List Sent} (h : Carried origin body index redirects sent results) :
    results.length = redirects.length := by
  induction h with
  | nil => rfl
  | cons first rest ih => rw [length_cons, length_cons, ih]

/-- An execution that succeeds has one result for each redirect. -/
theorem followWriteRedirects_length {body : WriteBody} (h : followWriteRedirects W round body batch = .ok results) :
    results.length = batch.redirects.length := by
  unfold followWriteRedirects at h
  split at h
  · exact followBufferedWriteRedirects_length.2 _ h
  · split at h
    · cases h
    · exact followSeekableWriteRedirects_length.2 _ h
  · exact ((followStreamingWriteRedirects_keeps _ _ _).2 _ h).1.length

/-! ### The journal -/

/-- The calls that settle a batch, by what came of its execution. -/
def settlement (address : Text) (batch : WriteRedirectBatch) : Except Fault (List ρ) → List (ContinueWriteRequest ρ)
  | .ok results => [⟨address, batch, results⟩]
  | .error fault => if noticeDue fault batch then [⟨address, batch, []⟩] else []

/-- The calls settle the batches, one after the other, as far as they were executed. -/
structure Settled (address : Text) (j : Journal ρ) : Prop where
  /-- A call passes back the batch in its place. -/
  passedBack : ∀ (k : ℕ) (request : ContinueWriteRequest ρ), j.passedBack[k]? = some request →
    request.address = address ∧ j.handed[k]? = some request.redirects
  handed : ∀ (k : ℕ) (batch : WriteRedirectBatch) (x : Except Fault (List ρ)), j.handed[k]? = some batch →
    j.executed[k]? = some x → j.passedBack[k]? = (settlement address batch x)[0]?
  complete : ∀ (k : ℕ) (batch : WriteRedirectBatch) (results : List ρ), j.handed[k]? = some batch →
    j.executed[k]? = some (.ok results) → results.length = batch.redirects.length

/-- A batch was handed out that is not executed yet, the ones before are settled. -/
structure Underway (address : Text) (batch : WriteRedirectBatch) (j : Journal ρ) : Prop where
  settled : Settled address j
  executed : j.handed.length = j.executed.length + 1
  passedBack : j.passedBack.length = j.executed.length
  last : j.handed[j.executed.length]? = some batch

/-- The batch is executed and settled, and another one may be handed out. -/
theorem Underway.settle (h : Underway address batch j)
    (hlength : ∀ results, x = .ok results → results.length = batch.redirects.length) (extra : List WriteRedirectBatch) :
    Settled address ⟨j.handed ++ extra, j.executed ++ [x], j.passedBack ++ settlement address batch x⟩ := by
  obtain ⟨⟨hback, hhanded, hcomplete⟩, hexecuted, hpassed, hlast⟩ := h
  have hone : (settlement address batch x).length ≤ 1 := by
    unfold settlement
    split
    · exact Nat.le_refl _
    · split_ifs
      · exact Nat.le_refl _
      · exact Nat.zero_le _
  have hof : ∀ request ∈ settlement address batch x, request.address = address ∧ request.redirects = batch := by
    unfold settlement
    intro request hmem
    split at hmem
    · obtain rfl := mem_singleton.mp hmem
      exact ⟨rfl, rfl⟩
    · split_ifs at hmem
      · obtain rfl := mem_singleton.mp hmem
        exact ⟨rfl, rfl⟩
      · cases hmem
  refine ⟨fun k request hrequest => ?_, fun k b y hb hy => ?_, fun k b results hb hresults => ?_⟩
  · -- a call from before, or the one for this batch
    rw [List.getElem?_append] at hrequest ⊢
    split_ifs at hrequest with hk
    · obtain ⟨haddress, hin⟩ := hback k request hrequest
      rw [if_pos (by omega)]
      exact ⟨haddress, hin⟩
    · obtain ⟨haddress, hredirects⟩ := hof request (mem_of_getElem? hrequest)
      have hlt := (List.getElem?_eq_some_iff.mp hrequest).1
      have hlen : k = j.executed.length := by omega
      rw [if_pos (by omega), hlen, hlast, hredirects]
      exact ⟨haddress, rfl⟩
  · rw [List.getElem?_append] at hb hy ⊢
    split_ifs at hy with hk
    · rw [if_pos (by omega)] at hb ⊢
      exact hhanded k b y hb hy
    · have hlen : k - j.executed.length = 0 := by
        have := (List.getElem?_eq_some_iff.mp hy).1
        rw [length_singleton] at this
        omega
      rw [hlen] at hy
      obtain rfl : x = y := Option.some.inj hy
      have hk : k = j.executed.length := by omega
      rw [if_pos (by omega), hk, hlast] at hb
      obtain rfl : batch = b := Option.some.inj hb
      rw [if_neg (by omega), hpassed, hlen]
  · rw [List.getElem?_append] at hb hresults
    split_ifs at hresults with hk
    · rw [if_pos (by omega)] at hb
      exact hcomplete k b results hb hresults
    · have hlen : k - j.executed.length = 0 := by
        have := (List.getElem?_eq_some_iff.mp hresults).1
        rw [length_singleton] at this
        omega
      rw [hlen] at hresults
      obtain rfl : x = .ok results := Option.some.inj hresults
      have hk : k = j.executed.length := by omega
      rw [if_pos (by omega), hk, hlast] at hb
      obtain rfl : batch = b := Option.some.inj hb
      exact hlength results rfl

theorem ends_continueWrite {request : ContinueWriteRequest ρ} {post : Except Error WriteStep → Journal ρ → Prop}
    (hredirects : ∀ next, post (.ok (.redirects next)) ⟨j.handed ++ [next], j.executed, j.passedBack ++ [request]⟩)
    (hother : ∀ answer, (∀ next, answer ≠ .ok (.redirects next)) →
      post answer ⟨j.handed, j.executed, j.passedBack ++ [request]⟩) :
    Ends (continueWrite W request) j post := by
  rw [continueWrite, ends_bind, ends_get, ends_bind, ends_set]
  split
  next next _ => exact hredirects next
  next hnot => exact hother _ hnot

/-- How a write leaves the journal. -/
structure Accounted (address : Text) (j : Journal ρ) : Prop extends Settled address j where
  /-- All batches are executed but the last one. -/
  length : j.handed.length ≤ j.executed.length + 1

theorem Underway.accounted (h : Underway address batch j) : Accounted address j := ⟨h.settled, Nat.le_of_eq h.executed⟩

/-- What one round and the rounds after it do. -/
theorem driveRounds_spec (rounds round : ℕ) (source : ReplaySource) (h : Underway address batch j) :
    Ends (driveRounds W address rounds round source batch) j fun _ t => Accounted address t := by
  induction rounds generalizing round source batch j with
  | zero => exact h.accounted
  | succ rounds ih =>
    rw [driveRounds]
    split
    · exact h.accounted
    next body source' _ =>
      rw [ends_bind, execute]
      simp only [ends_bind, ends_modify, ends_pure]
      generalize hx : followWriteRedirects W round body batch = x
      have hlength : ∀ results, x = .ok results → results.length = batch.redirects.length := fun results hok =>
        followWriteRedirects_length (hx.trans hok)
      have hsettle : ∀ extra : List WriteRedirectBatch, extra.length ≤ 1 →
          Accounted address ⟨j.handed ++ extra, j.executed ++ [x], j.passedBack ++ settlement address batch x⟩ := by
        intro extra hextra
        refine ⟨h.settle hlength extra, ?_⟩
        have := h.executed
        simp only [length_append, length_singleton]
        omega
      cases x with
      | error fault =>
        have hquiet := hsettle [] (Nat.zero_le _)
        rw [append_nil] at hquiet
        dsimp only
        split_ifs with hdue
        · rw [settlement, if_pos hdue] at hquiet hsettle
          rw [ends_bind]
          exact ends_continueWrite (fun next => hsettle [next] (Nat.le_refl _)) fun _ _ => hquiet
        · rw [settlement, if_neg hdue, append_nil] at hquiet
          exact hquiet
      | ok results =>
        rw [ends_bind]
        refine ends_continueWrite (fun next => ih _ _ ?_) fun answer hnot => ?_
        · have hexecuted : j.executed.length + 1 = j.handed.length := h.executed.symm
          refine ⟨(hsettle [next] (Nat.le_refl _)).toSettled, ?_, ?_, ?_⟩
          · rw [length_append, length_append, h.executed, length_singleton, length_singleton]
          · rw [length_append, length_append, h.passedBack, length_singleton, length_singleton]
          · rw [length_append, length_singleton, hexecuted]
            exact List.getElem?_concat_length
        · have hquiet := hsettle [] (Nat.zero_le _)
          rw [append_nil] at hquiet
          cases answer with
          | error e => exact hquiet
          | ok step =>
            cases step with
            | done result => exact hquiet
            | redirects next => exact (hnot next rfl).elim

theorem driveWriteRedirects_spec (spoolThreshold rounds : ℕ) (body : RequestBody) (h : Underway address batch j) :
    Ends (driveWriteRedirects W spoolThreshold rounds address body batch) j fun _ t => Accounted address t := by
  unfold driveWriteRedirects
  cases body with
  | bytes bytes =>
    dsimp only
    split_ifs
    · split
      · exact h.accounted
      · exact driveRounds_spec _ _ _ h
    · exact driveRounds_spec _ _ _ h
  | localFile path => exact driveRounds_spec _ _ _ h
  | stream stream => exact driveRounds_spec _ _ _ h

theorem settled_empty : Settled address (⟨[], [], []⟩ : Journal ρ) where
  passedBack _ _ h := nomatch h
  handed _ _ _ h := nomatch h
  complete _ _ _ h := nomatch h

theorem underway_first : Underway address batch (⟨[batch], [], []⟩ : Journal ρ) where
  settled :=
    { passedBack := fun _ _ h => nomatch h
      handed := fun _ _ _ _ h => nomatch h
      complete := fun _ _ _ _ h => nomatch h }
  executed := rfl
  passedBack := rfl
  last := rfl

theorem followWrite_spec (spoolThreshold rounds : ℕ) (request : WriteRequest) :
    Ends (followWrite W spoolThreshold rounds request) ⟨[], [], []⟩ fun _ t => Accounted request.address t := by
  have hempty : Accounted request.address (⟨[], [], []⟩ : Journal ρ) := ⟨settled_empty, Nat.zero_le _⟩
  unfold followWrite
  dsimp only
  split_ifs
  · exact hempty
  rw [ends_bind, mintBatch]
  split
  next e _ =>
    rw [ends_pure]
    dsimp only
    split_ifs
    · exact hempty
    · exact hempty
  next batch _ => exact driveWriteRedirects_spec _ _ _ underway_first

/-- A batch is passed back once at most, in its turn; with a result for each redirect where its execution succeeded, and
without results where it failed with an error that may be retried. -/
theorem batches_settled (W : Surroundings ρ) (spoolThreshold rounds : ℕ) (request : WriteRequest) :
    Ends (followWrite W spoolThreshold rounds request) ⟨[], [], []⟩ fun _ j =>
      j.handed.length ≤ j.executed.length + 1 ∧
      (∀ (k : ℕ) (call : ContinueWriteRequest ρ), j.passedBack[k]? = some call →
        call.address = request.address ∧ j.handed[k]? = some call.redirects) ∧
      ∀ (k : ℕ) (batch : WriteRedirectBatch), j.handed[k]? = some batch →
        (∀ results : List ρ, j.executed[k]? = some (.ok results) →
          j.passedBack[k]? = some ⟨request.address, batch, results⟩ ∧ results.length = batch.redirects.length) ∧
        ∀ e : Error, j.executed[k]? = some (.error (.error e)) →
          (e.code.retryable → batch.redirects ≠ [] → j.passedBack[k]? = some ⟨request.address, batch, []⟩) ∧
            (e.code.retryable = false → j.passedBack[k]? = none) := by
  refine (followWrite_spec spoolThreshold rounds request).imp fun _ j haccounted => ?_
  obtain ⟨⟨hback, hhanded, hcomplete⟩, hlength⟩ := haccounted
  refine ⟨hlength, hback, fun k batch hbatch =>
    ⟨fun results hresults => ?_, fun e he => ⟨fun hretry hne => ?_, fun hretry => ?_⟩⟩⟩
  · exact ⟨hhanded k batch _ hbatch hresults, hcomplete k batch results hbatch hresults⟩
  · have hdue : noticeDue (.error e) batch := by simp [noticeDue, hretry, hne]
    rw [hhanded k batch _ hbatch he, settlement, if_pos hdue]
    rfl
  · have hdue : ¬noticeDue (.error e) batch := by simp [noticeDue, hretry]
    rw [hhanded k batch _ hbatch he, settlement, if_neg hdue]
    rfl

/-- An inner layer that mints one batch for a body of one byte, and origins that accept everything unread. -/
def oneBatch : Surroundings Unit where
  rootInfoFor _ := .ok none
  writeRedirect _ := .ok ⟨[], [⟨.userBytes 0 1⟩]⟩
  continueWrite _ request := .ok (.done ⟨request.address⟩)
  write _ := .error ⟨.Unsupported, ""⟩
  metadataLen _ := none
  spool _ := .error ⟨.Internal, ""⟩
  file _ _ := .error ⟨.NotFound, ""⟩
  reads _ _ _ := .ok 1
  origin _ := accepting

/-- A body of two bytes is refused, and the batch is not passed back. -/
theorem overlong_unsettled :
    Ends (followWrite oneBatch 0 1 ⟨[], .stream ⟨[[1, 2]], none⟩, none⟩) ⟨[], [], []⟩ fun result j =>
      result = some (fail .InvalidArgument "write body is longer than the single redirect length") ∧
        j.handed = [⟨[], [⟨.userBytes 0 1⟩]⟩] ∧ j.passedBack = [] :=
  ⟨rfl, rfl, rfl⟩

end OvStorage.Redirect
