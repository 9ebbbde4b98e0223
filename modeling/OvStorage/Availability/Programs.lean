import OvStorage.Availability.Index

/-!
# The operations on an availability row

The functions of the byte cache that touch the availability row of an address, as programs
over `OvStorage.Availability.Index`, and the operations that the wrapper makes of them.

## The model

Each program takes what the caller goes on with, and the frame of the caller: what dropping
the caller's future runs. An `await` may be cancelled before the action or fall to it; a `task`
is handed to the blocking pool, where it runs also when its caller has been dropped. Whether
a content row lands, how large a body is and which shape a result has are choices (`alt`).
-/

namespace OvStorage.Availability

open Interleave

variable {ε : Type}

/-- What is left of an operation on the address. -/
abbrev Call (ε : Type) := Prog (Answer ε)

/-- What dropping a future runs, before the rest. -/
abbrev Frame (ε : Type) := Call ε → Call ε

/-- An action that the future itself awaits. -/
def await (a : Action ε) (c : Frame ε) (k : Answer ε a → Call ε) : Call ε := .alt (.act a k) (c .ret)

/-- An action on the blocking pool: a caller that is dropped leaves it behind. -/
def task (a : Action ε) (c : Frame ε) (k : Answer ε a → Call ε) : Call ε :=
  .alt (.act a fun r => .alt (k r) (c .ret)) (c (.act a fun _ => .ret))

/-- `AVAIL_CAS_ATTEMPTS`. -/
def availCasAttempts : ℕ := 8

section Row

/-- The attempts of `snapshot_avail`. -/
def snapshotLoop (c : Frame ε) (k : Option (AvailRow ε) → Call ε) : ℕ → Call ε
  | 0 => k none
  | n + 1 => await .readAvail c fun
    | none => k none
    | some (some row) => k (some row)
    | some none => task (.compareAndPut none none) c fun
      | some seed => k (some seed)
      | none => snapshotLoop c k n

def snapshotAvail (c : Frame ε) (k : Option (AvailRow ε) → Call ε) : Call ε := snapshotLoop c k availCasAttempts

def discardUnusedSeed (snapshot : Option (AvailRow ε)) (c : Frame ε) (k : Call ε) : Call ε :=
  match snapshot with
  | none => k
  | some row => if row.etag.isSome then k else task (.compareAndRemove row) c fun _ => k

def clearLiveFallback (c : Frame ε) (k : Call ε) : Call ε :=
  await .readAvail c fun
    | some (some row) =>
      if row.etag.isSome then
        .act .bumpGeneration fun _ => task (.compareAndPut (some row) none) c fun _ => k
      else k
    | _ => k

def settleWithoutValidator (disproves : Bool) (snapshot : Option (AvailRow ε)) (c : Frame ε) (k : Call ε) : Call ε :=
  if disproves then clearLiveFallback c (discardUnusedSeed snapshot c k) else discardUnusedSeed snapshot c k

/-- The attempts of `clear_latest_impl`, and the removal after them. -/
def clearLoop (c : Frame ε) (k : Call ε) : ℕ → Call ε
  | 0 => task .removeIndex c fun _ => k
  | n + 1 => await .readAvail c fun
    | none => task .removeIndex c fun _ => k
    | some current => task (.compareAndPut current none) c fun
      | some _ => k
      | none => clearLoop c k n

def clearLatest (c : Frame ε) (k : Call ε) : Call ε := .act .bumpGeneration fun _ => clearLoop c k availCasAttempts

/-- `clear_watched_object`, and what `clear_subtree_impl` does to an address it meets. -/
def clearWatchedObject (k : Call ε) : Call ε := .act .bumpGeneration fun _ => .act .removeIndex fun _ => k

def publishMutation (snapshot : Option (AvailRow ε)) (etag : ε) (c : Frame ε) (k : Call ε) : Call ε :=
  match snapshot with
  | none => task .removeIndex c fun _ => k
  | some row => task (.compareAndPut (some row) (some etag)) c fun
    | some _ => k
    | none => task .removeIndex c fun _ => k

def finalizeCommittedTee (snapshot : Option (AvailRow ε)) (etag : ε) (startGeneration : ℕ) (c : Frame ε)
    (k : Call ε) : Call ε :=
  .act .generation fun current =>
    if current ≠ startGeneration then clearLatest c k
    else .act .bumpGeneration fun _ => publishMutation snapshot etag c k

end Row

section Guards

/-- `Drop for AvailabilityClear`, of an armed `ReadGuard`. -/
def dropReadGuard (k : Call ε) : Call ε := .act .removeIndex fun _ => k

/-- `Drop for AvailabilityClear`, of an armed `MutationGuard`. -/
def dropMutationGuard (k : Call ε) : Call ε := .act .removeIndex fun _ => .act .finish fun _ => k

/-- `Drop for TeeRegistration`. -/
def unregister (k : Call ε) : Call ε := .act .unregister fun _ => k

/-- `MutationGuard::arm`: what it saves is the row before the write-ahead clear. -/
def arm (k : Option (AvailRow ε) → Call ε) : Call ε :=
  await .readAvail dropMutationGuard fun r => task .removeIndex dropMutationGuard fun _ => k r.join

/-- `MutationGuard::disarm`, and the return of the mutation. -/
def disarm (k : Call ε) : Call ε := .act .finish fun _ => k

/-- `MutationGuard::disarm_unchanged`. -/
def disarmUnchanged (preserved : Option (AvailRow ε)) : Call ε :=
  match preserved with
  | none => .ret
  | some row => task (.restore row) id fun _ => .ret

/-- `record_latest_guarded_impl`, with the guard of the read that calls it: the blocking task
owns the guard while the swap is in flight. -/
def recordLatestGuarded [DecidableEq ε] (snapshot : Option (AvailRow ε)) (etag : ε) (c : Frame ε) (k : Call ε) :
    Call ε :=
  match snapshot with
  | none => dropReadGuard k
  | some row =>
    let dropGuard : Frame ε := fun rest => dropReadGuard (c rest)
    .alt
      (.act (.compareAndPut (some row) (some etag)) fun
        | some _ => .alt k (c .ret)
        -- The swap was refused, and the task hands the guard back.
        | none => await .readAvail dropGuard fun r =>
            if r.join.bind AvailRow.etag = some etag then k else task .removeIndex dropGuard fun _ => k)
      (.alt
        -- The caller is dropped, and the task runs behind it.
        (c (.act (.compareAndPut (some row) (some etag)) fun | some _ => .ret | none => dropReadGuard .ret))
        -- The task never runs, or panics.
        (.alt (dropReadGuard k) (dropGuard .ret)))

end Guards

section Reads

/-- `ValidatorProbe`, without what the watch registry reads. -/
structure ValidatorProbe (ε : Type) where
  validator : Option ε
  snapshotFence : Bool
  untrustedStatSettled : Bool

def ValidatorProbe.silent : ValidatorProbe ε := ⟨none, false, false⟩

def lookupEtag (k : ValidatorProbe ε → Call ε) : Call ε :=
  await .stat id fun
    | .cancelled => .ret
    | .strong etag => settleWithoutValidator false none id (k ⟨some etag, true, false⟩)
    | .unnamed => settleWithoutValidator false none id (k ⟨none, true, false⟩)
    | .untrusted => settleWithoutValidator true none id (k ⟨none, false, true⟩)
    | .outage => await .readAvail id fun r => k ⟨r.join.bind AvailRow.etag, true, false⟩
    | .refused => k .silent

/-- The stream tee of a read: what is left when the caller has the stream. -/
def teeIntoCache [DecidableEq ε] (snapshot : Option (AvailRow ε)) (etag : ε) : Call ε :=
  .act .register fun startGeneration =>
    .alt
      -- An error, a cap breach, or a caller that drops the stream.
      (unregister (dropReadGuard .ret))
      (.act .generation fun current =>
        if current = startGeneration then
          .alt (recordLatestGuarded snapshot etag unregister (unregister .ret))
            -- A short body, or a commit of the content that fails.
            (unregister (dropReadGuard .ret))
        else unregister (dropReadGuard .ret))

/-- The arms of `read` and `materialize` behind the guard. -/
def fill [DecidableEq ε] (snapshot : Option (AvailRow ε)) (etag : ε) : Call ε :=
  .alt
    -- Nothing is cached: over the cap, a failed fill, no lease, a body passed through.
    (dropReadGuard .ret)
    (.alt (recordLatestGuarded snapshot etag id .ret)
      (.alt (teeIntoCache snapshot etag)
        -- The streaming fill is refused.
        (clearLatest dropReadGuard (dropReadGuard .ret))))

/-- `read` and `materialize` from the inner layer's answer on. -/
def readInner [DecidableEq ε] (probe : ValidatorProbe ε) (snapshot : Option (AvailRow ε)) : Call ε :=
  await .backendRead id fun
    | .failed => discardUnusedSeed snapshot id .ret
    | .unproved disproves =>
      if probe.untrustedStatSettled then .ret else settleWithoutValidator disproves snapshot id .ret
    | .proved etag => fill snapshot etag

/-- `read` and `materialize` of a whole object, without a credential of the caller's own. -/
def read [DecidableEq ε] : Call ε :=
  lookupEtag fun probe =>
    let miss :=
      if probe.snapshotFence then snapshotAvail id fun snapshot => readInner probe snapshot else readInner probe none
    -- A hit on the content row ends the call, and so does an error of the lookup.
    if probe.validator.isSome then .alt .ret miss else miss

end Reads

section Mutations

/-- The inner call of a mutation. It may be dropped before the backend commits or after. -/
def innerCall (reply : Action ε) (c : Frame ε) (k : Answer ε reply → Call ε) : Call ε :=
  await .backendCommit c fun _ => await reply c k

/-- A mutation from its inner call on, when it caches no body. -/
def invalidating (c : Frame ε) (k : Call ε) : Call ε :=
  innerCall .backendReply c fun
    | none => c .ret
    | some _ => clearLatest c k

/-- `write` of a local file, `delete`, `update_metadata`, `create_directory`. -/
def mutation : Call ε := arm fun _ => invalidating dropMutationGuard (disarm .ret)

/-- The sweep of the address's own subtree, which meets its row where the address ends in `/`. -/
def clearSubtree (k : Call ε) : Call ε := .alt k (clearWatchedObject k)

/-- `copy` to this address, `delete_directory` and `rename`: there is more to clear before the
guard is disarmed, and the call may be dropped there. -/
def sweepingMutation : Call ε :=
  arm fun _ => invalidating dropMutationGuard (.alt (clearSubtree (disarm .ret)) (dropMutationGuard .ret))

/-- `rename` of an address to itself: two guards on one row. -/
def renameToItself : Call ε :=
  arm fun _ =>
    let both : Frame ε := fun rest => dropMutationGuard (dropMutationGuard rest)
    await .readAvail both fun _ => task .removeIndex both fun _ =>
      invalidating both (clearLatest both (clearSubtree (disarm (disarm .ret))))

/-- The row's part of a mutation of an enclosing directory, which holds no guard on it. -/
def ancestorMutation : Call ε :=
  let forget : Frame ε := fun rest => .act .abandon fun _ => rest
  innerCall .backendReply forget fun
    | none => forget .ret
    | some _ => .alt (clearWatchedObject (disarm .ret)) (forget .ret)

/-- What `streamed_write_through` and `buffered_write_through` do when the write has succeeded. -/
def writeThroughDone (snapshot : Option (AvailRow ε)) (startGeneration : ℕ) (proof : Option ε) : Call ε :=
  let c : Frame ε := fun rest => unregister (dropMutationGuard rest)
  let done : Call ε := disarm (unregister .ret)
  match proof with
  | none => clearLatest c done
  | some etag => .act .generation fun current =>
    if current = startGeneration then
      -- The commit of the content, off the runtime: it lands, fails, or is cut off.
      .alt (finalizeCommittedTee snapshot etag startGeneration c done) (.alt (clearLatest c done) (c .ret))
    else clearLatest c done

/-- `streamed_write_through` and `buffered_write_through`. -/
def writeThrough : Call ε :=
  arm fun _ =>
    .alt
      -- No streaming fill can be opened.
      (invalidating dropMutationGuard (disarm .ret))
      (snapshotAvail dropMutationGuard fun snapshot =>
        .act .register fun startGeneration =>
          let c : Frame ε := fun rest => unregister (dropMutationGuard rest)
          .alt
            -- The body cannot be staged.
            (unregister (invalidating dropMutationGuard (disarm .ret)))
            (innerCall .backendReply c fun
              | none => c .ret
              -- The fill is given up, or committed.
              | some proof => .alt (clearLatest c (disarm (unregister .ret)))
                  (writeThroughDone snapshot startGeneration proof)))

def continueWrite : Call ε :=
  arm fun preserved =>
    innerCall .backendStep dropMutationGuard fun
      | .failed => dropMutationGuard .ret
      | .done => clearLatest dropMutationGuard (disarm .ret)
      | .redirects => disarmUnchanged preserved

end Mutations

/-- What may run on the address, any number of times and in any interleaving. -/
inductive Operation
  | read
  | writeThrough
  | mutation
  | sweepingMutation
  | renameToItself
  | ancestorMutation
  | continueWrite
  /-- A watched change, or a sweep of a subtree that holds the address. -/
  | watchClear
  /-- Size-pressure eviction of the row. -/
  | evict
  | outOfBand
deriving DecidableEq

/-- The program of an operation. -/
def Operation.program [DecidableEq ε] : Operation → Call ε
  | .read => Availability.read
  | .writeThrough => Availability.writeThrough
  | .mutation => Availability.mutation
  | .sweepingMutation => Availability.sweepingMutation
  | .renameToItself => Availability.renameToItself
  | .ancestorMutation => Availability.ancestorMutation
  | .continueWrite => Availability.continueWrite
  | .watchClear => clearWatchedObject .ret
  | .evict => .act .removeIndex fun _ => .ret
  | .outOfBand => .act .outOfBand fun _ => .ret

/-- The address and everybody at work on it. -/
abbrev System (ι ε : Type) := Threads ι (Shared ι ε) (Answer ε)

/-- One step of a system. -/
abbrev Step (ι ε : Type) := Event ι Operation (Answer ε)

variable {ι : Type} [DecidableEq ι] [DecidableEq ε]

def System.step (s : System ι ε) (l : Step ι ε) : Option (System ι ε) := Threads.step Shared.exec Operation.program s l

/-- Nobody is in a call, and the row, if there is one, is as old as one likes. -/
structure System.Initial (s : System ι ε) : Prop where
  progs : s.progs = fun _ => .ret
  nonce : ∀ row, s.shared.row = some row → row.nonce < s.shared.nextNonce
  held : s.shared.held ≠ []
  commits : s.shared.commits = fun _ => none
  floor : s.shared.floor = 0
  stamp : s.shared.stamp = fun _ => 0
  finished : s.shared.finished = []

/-- The runs of a system. -/
abbrev Runs (trace : List (Step ι ε)) (s : System ι ε) : Prop :=
  Run System.Initial (fun s l s' => s.step l = some s') trace s

/-- The runs whose steps all meet a condition. -/
abbrev RunsWhen (C : System ι ε → Step ι ε → Prop) (trace : List (Step ι ε)) (s : System ι ε) : Prop :=
  Run System.Initial (fun s l s' => s.step l = some s' ∧ C s l) trace s

variable {s₀ : System ι ε}

/-- A run to a state that passes a test, by executing its trace. -/
theorem System.exists_run (h0 : s₀.Initial) (trace : List (Step ι ε)) (p : System ι ε → Bool)
    (h : (trace.foldlM step s₀).any p = true) : ∃ s, Runs trace s ∧ p s = true :=
  Run.of_any (fun _ _ _ => id) h0 h

theorem System.exists_runWhen (h0 : s₀.Initial) (C : System ι ε → Step ι ε → Prop)
    [∀ s l, Decidable (C s l)] (trace : List (Step ι ε)) (p : System ι ε → Bool)
    (h : (trace.foldlM (fun s l => if C s l then s.step l else none) s₀).any p = true) :
    ∃ s, RunsWhen C trace s ∧ p s = true := by
  refine Run.of_any (fun s l s' hs => ?_) h0 h
  split_ifs at hs with hC
  exact ⟨hs, hC⟩

end OvStorage.Availability
