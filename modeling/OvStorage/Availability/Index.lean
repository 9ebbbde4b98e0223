import OvStorage.Lib.Interleave

/-!
# The availability row of an address

What the reads and mutations of one address share: the availability row, the backend's state,
and the generation slot of the address.

## The model

A row is a nonce and the validator it names, a tombstone where it names none. `encode_avail`
draws the nonce when it encodes; here it is drawn by the swap that writes the row, which is
the same since nonces are never drawn twice. `compare_and_put` and the removals are atomic
and succeed; `read_avail` may fail. Content rows are left out: whether one lands is a choice
of the programs in `OvStorage.Availability.Programs`.

`held` is what the backend has held, newest last (`none` where it names no usable validator);
an index into it is a moment of the backend. `commits`, `floor`, `stamp` and `finished` are
history, which no program reads.
-/

namespace OvStorage.Availability

/-- A row of the availability index: `encode_avail`. -/
structure AvailRow (ε : Type) where
  nonce : ℕ
  /-- `parse_avail`; `none` for a tombstone. -/
  etag : Option ε
deriving DecidableEq

/-- What the operations on one address share. -/
structure Shared (ι ε : Type) where
  row : Option (AvailRow ε)
  nextNonce : ℕ
  /-- What the backend has held, newest last. -/
  held : List (Option ε)
  /-- The `GenerationEntry` of the address: its refcount and its generation. -/
  slot : Option (ℕ × ℕ)
  /-- The commit of the mutation that a thread is in. -/
  commits : ι → Option ℕ
  /-- The newest commit that a mutation has settled the row with. -/
  floor : ℕ
  /-- The floor when the row of a nonce was written. -/
  stamp : ℕ → ℕ
  /-- The commits of the mutations that have returned or dropped their guard. -/
  finished : List ℕ

/-- What a `stat` of the inner layer answers, as `lookup_etag` sorts it. -/
inductive StatAnswer (ε : Type)
  /-- `ErrorCode::Cancelled`. -/
  | cancelled
  | strong (etag : ε)
  /-- No etag, a plain `NotFound`, or `Unsupported`. -/
  | unnamed
  /-- An etag that is empty or not strong. -/
  | untrusted
  /-- An outage, or `NotFound` with the lost-backing fallback on. -/
  | outage
  | refused
deriving DecidableEq

/-- What a `read` or `materialize` of the inner layer answers. -/
inductive ReadAnswer (ε : Type)
  | failed
  /-- No usable validator; whether one is reported that disproves the row. -/
  | unproved (disproves : Bool)
  | proved (etag : ε)
deriving DecidableEq

/-- What `continue_write` of the inner layer answers. -/
inductive WriteStep
  | failed
  | done
  | redirects
deriving DecidableEq

/-- The atomic actions. -/
inductive Action (ε : Type)
  | readAvail
  | compareAndPut (expected : Option (AvailRow ε)) (etag : Option ε)
  /-- `compare_and_put` of nothing against a row: `discard_unused_seed`. -/
  | compareAndRemove (expected : AvailRow ε)
  /-- `compare_and_put` of saved bytes against no row: `disarm_unchanged`. -/
  | restore (preserved : AvailRow ε)
  | removeIndex
  | bumpGeneration
  | register
  | generation
  | unregister
  | stat
  | backendRead
  /-- The moment at which the backend may make a mutation's change. -/
  | backendCommit
  | backendReply
  | backendStep
  /-- The mutation has returned, or its guard has been dropped. -/
  | finish
  /-- A mutation of a subtree is over with no guard on this address. -/
  | abandon
  /-- The backend changes by itself. -/
  | outOfBand
deriving DecidableEq

/-- What an action answers: for a swap the row it has written, for a commit the new state of
the backend, if there is one. -/
abbrev Answer (ε : Type) : Action ε → Type
  | .readAvail => Option (Option (AvailRow ε))
  | .compareAndPut _ _ => Option (AvailRow ε)
  | .compareAndRemove _ => Bool
  | .restore _ => Bool
  | .removeIndex => Unit
  | .bumpGeneration => Unit
  | .register => ℕ
  | .generation => ℕ
  | .unregister => Unit
  | .stat => StatAnswer ε
  | .backendRead => ReadAnswer ε
  | .backendCommit => Option (Option ε)
  | .backendReply => Option (Option ε)
  | .backendStep => WriteStep
  | .finish => Unit
  | .abandon => Unit
  | .outOfBand => Option ε

namespace Shared

variable {ι ε : Type} {s s' : Shared ι ε} {t : ι}

/-- The commit that thread `t` settles the row with. -/
def commitOf (t : ι) (s : Shared ι ε) : ℕ := (s.commits t).getD 0

/-- The floor after a write of the row by `t`. -/
def floorAfter (t : ι) (s : Shared ι ε) : ℕ := max s.floor (s.commitOf t)

/-- `remove_index`. -/
def remove (t : ι) (s : Shared ι ε) : Shared ι ε := { s with row := none, floor := s.floorAfter t }

/-- The row that the next swap writes. -/
def nextRow (etag : Option ε) (s : Shared ι ε) : AvailRow ε := ⟨s.nextNonce, etag⟩

/-- A swap that lands. -/
def put (t : ι) (etag : Option ε) (s : Shared ι ε) : Shared ι ε :=
  { s with
    row := some (s.nextRow etag), nextNonce := s.nextNonce + 1, floor := s.floorAfter t,
    stamp := Function.update s.stamp s.nextNonce (s.floorAfter t) }

/-- `TeeRegistration::current`. -/
def currentGeneration (s : Shared ι ε) : ℕ := s.slot.elim 0 Prod.snd

/-- `TeeRegistration::register`. -/
def register (s : Shared ι ε) : Shared ι ε :=
  { s with slot := some ((s.slot.elim 0 Prod.fst) + 1, s.currentGeneration) }

/-- `Drop for TeeRegistration`. -/
def unregister (s : Shared ι ε) : Shared ι ε :=
  { s with slot := s.slot.bind fun entry => if entry.1 - 1 = 0 then none else some (entry.1 - 1, entry.2) }

/-- `bump_generation_key`. -/
def bumpGeneration (s : Shared ι ε) : Shared ι ε :=
  { s with slot := s.slot.map fun entry => (entry.1, entry.2 + 1) }

variable [DecidableEq ι]

/-- The backend makes the change of the mutation that `t` is in. -/
def commit (t : ι) (v : Option ε) (s : Shared ι ε) : Shared ι ε :=
  { s with held := s.held ++ [v], commits := Function.update s.commits t (some s.held.length) }

/-- The mutation that `t` is in is over. -/
def finish (t : ι) (s : Shared ι ε) : Shared ι ε :=
  { s with finished := s.finished ++ (s.commits t).toList, commits := Function.update s.commits t none }

/-- The commit of `t` is forgotten. -/
def abandon (t : ι) (s : Shared ι ε) : Shared ι ε := { s with commits := Function.update s.commits t none }

variable [DecidableEq ε]

/-- What an action does, with the answer it gives. -/
def exec (t : ι) : (a : Action ε) → Answer ε a → Shared ι ε → Option (Shared ι ε)
  | .readAvail, r, s => if ∀ row ∈ r, row = s.row then some s else none
  | .compareAndPut expected etag, r, s =>
    if s.row = expected then (if r = some (s.nextRow etag) then some (s.put t etag) else none)
    else if r = none then some s else none
  | .compareAndRemove expected, r, s =>
    if r = decide (s.row = some expected) then some (if r then s.remove t else s) else none
  | .restore preserved, r, s =>
    if r = decide (s.row = none) then some (if r then { s with row := some preserved } else s) else none
  | .removeIndex, _, s => some (s.remove t)
  | .bumpGeneration, _, s => some s.bumpGeneration
  | .register, r, s => if r = s.currentGeneration then some s.register else none
  | .generation, r, s => if r = s.currentGeneration then some s else none
  | .unregister, _, s => some s.unregister
  | .stat, _, s => some s
  -- A validator that a read proves is the one that the backend holds at that moment.
  | .backendRead, .proved v, s => if s.held.getLast? = some (some v) then some s else none
  | .backendRead, .unproved _, s => some s
  | .backendRead, .failed, s => some s
  | .backendCommit, none, s => some s
  | .backendCommit, some v, s => if s.commits t = none then some (s.commit t v) else none
  -- A mutation that succeeds has committed, and reports a validator held since.
  | .backendReply, r, s =>
    if ∀ proof ∈ r, ∃ c ∈ s.commits t, ∀ v ∈ proof, some v ∈ s.held.drop c then some s else none
  | .backendStep, .failed, s => some s
  | .backendStep, .done, s => if s.commits t ≠ none then some s else none
  -- A redirect step has changed nothing at the backend.
  | .backendStep, .redirects, s => if s.commits t = none then some s else none
  | .finish, _, s => some (s.finish t)
  | .abandon, _, s => some (s.abandon t)
  | .outOfBand, v, s => some { s with held := s.held ++ [v] }

end Shared

end OvStorage.Availability
