import Mathlib.Algebra.Group.Int.Defs
import OvStorage.Layer.Errors
import OvStorage.Lib.Routine
import OvStorage.Lib.Word64

/-!
# The credential cache

`CredentialCache` of `ovstorage/src/auth/cache.rs`.

The state is what the state lock guards: the epoch, the entries, and who holds the single-flight lock of each
key, which is one from its first use on. A call is a `Routine` over steps that are atomic in the source: a
look into the entries, a store and an invalidation under the state lock, the single-flight lock of a key, and
the start and the answer of a provider's call. A call that waits may be dropped. The clocks may read anything.
-/

namespace OvStorage.Auth

open Interleave Layer

/-- `CredentialCacheConfig`, in nanoseconds. -/
structure CredentialCacheConfig where
  refreshSkew : ℕ
  staticCredTtl : ℕ

/-- `Default`. -/
def CredentialCacheConfig.default : CredentialCacheConfig := ⟨60 * 10 ^ 9, 300 * 10 ^ 9⟩

/-- `Key`, of a backend's id and a principal's. -/
structure Key where
  backend : String
  principal : String
deriving DecidableEq

/-- `ResolvedCredential`, whose expiry counts nanoseconds from the epoch of the system's clock. -/
structure ResolvedCredential (Secret : Type) where
  bytes : Secret
  expiresAt : Option ℤ
  sourceName : String
deriving DecidableEq

/-- `CredentialError`. -/
inductive CredentialError
  | Unavailable (details : String)
  | Backend (err : Error)
deriving DecidableEq

/-- `Entry`. -/
structure Entry (Secret : Type) where
  insertedAt : ℕ
  expiresAt : Option ℤ
  value : ResolvedCredential Secret

/-- What the system's clock and the steady clock read. -/
structure Reading where
  systemTime : ℤ
  instant : ℕ
deriving DecidableEq

/-- `SystemTime::checked_sub`: seconds are words of 64 bits with a sign. -/
def checkedSub (time : ℤ) (duration : ℕ) : Option ℤ :=
  if -(2 ^ 63 * 10 ^ 9) ≤ time - duration then some (time - duration) else none

/-- `is_fresh`. -/
def CredentialCacheConfig.isFresh {Secret : Type} (config : CredentialCacheConfig) (now : Reading)
    (entry : Entry Secret) : Bool :=
  match entry.expiresAt with
  | some expires => now.systemTime < (checkedSub expires config.refreshSkew).getD 0
  | none => config.staticCredTtl ≠ 0 && now.instant - entry.insertedAt < config.staticCredTtl

/-- `State`, with who holds each single-flight lock. -/
structure State (Secret ι : Type) where
  credEpoch : ℕ
  entries : Key → Option (Entry Secret)
  locks : Key → Option ι

/-- A provider of a chain. -/
abbrev Provider := ℕ

/-- What a call does in one step. -/
inductive Act (Secret : Type)
  | readFresh (key : Key)
  | lock (key : Key)
  | unlock (key : Key)
  | startProvider (key : Key) (provider : Provider)
  | awaitProvider (key : Key) (provider : Provider)
  | store (key : Key) (value : ResolvedCredential Secret)
  | invalidate (key : Key)
deriving DecidableEq

/-- What comes back; `none` where the call is dropped while it waits. -/
abbrev Act.Answer {Secret : Type} : Act Secret → Type
  | readFresh _ => Reading × Option (ResolvedCredential Secret)
  | lock _ => Option Unit
  | unlock _ => Unit
  | startProvider _ _ => Unit
  | awaitProvider _ _ => Option (Except CredentialError (ResolvedCredential Secret))
  | store _ _ => Reading
  | invalidate _ => Bool

variable {Secret ι : Type}

namespace State

/-- `new`. -/
def new : State Secret ι := ⟨0, fun _ => none, fun _ => none⟩

/-- `read_fresh`. -/
def readFresh (config : CredentialCacheConfig) (s : State Secret ι) (key : Key) (now : Reading) :
    Option (ResolvedCredential Secret) := do
  let entry ← s.entries key
  if config.isFresh now entry then some entry.value else none

/-- `store`. -/
def store (s : State Secret ι) (key : Key) (value : ResolvedCredential Secret) (now : Reading) : State Secret ι :=
  { s with
    credEpoch := Word64.saturatingAdd s.credEpoch 1
    entries := Function.update s.entries key (some ⟨now.instant, value.expiresAt, value⟩) }

@[simp] theorem store_entries (s : State Secret ι) (key : Key) (value : ResolvedCredential Secret) (now : Reading) :
    (s.store key value now).entries = Function.update s.entries key (some ⟨now.instant, value.expiresAt, value⟩) := rfl

/-- `invalidate`. -/
def invalidate (s : State Secret ι) (key : Key) : State Secret ι :=
  if (s.entries key).isSome then
    { s with
      credEpoch := Word64.saturatingAdd s.credEpoch 1
      entries := Function.update s.entries key none }
  else s

variable {s : State Secret ι}

theorem invalidate_of_isSome {key : Key} (h : (s.entries key).isSome) : s.invalidate key = { s with
    credEpoch := Word64.saturatingAdd s.credEpoch 1
    entries := Function.update s.entries key none } := if_pos h

theorem invalidate_of_isNone {key : Key} (h : (s.entries key).isSome = false) : s.invalidate key = s :=
  if_neg (by simp [h])

/-- What a step does. -/
def exec [DecidableEq Secret] (config : CredentialCacheConfig) (t : ι) :
    (a : Act Secret) → a.Answer → State Secret ι → Option (State Secret ι)
  | .readFresh key, (now, found), s => if found = s.readFresh config key now then some s else none
  | .lock key, some (), s =>
    if (s.locks key).isNone then some { s with locks := Function.update s.locks key (some t) } else none
  | .lock _, none, s => some s
  | .unlock key, (), s => some { s with locks := Function.update s.locks key none }
  | .startProvider _ _, (), s => some s
  | .awaitProvider _ _, _, s => some s
  | .store key value, now, s => some (s.store key value now)
  | .invalidate key, removed, s => if removed = (s.entries key).isSome then some (s.invalidate key) else none

end State

/-! ### The calls -/

/-- A call; one that may be dropped gives nothing back then. -/
abbrev Call (Secret : Type) := Routine.{0, 0, 0} (@Act.Answer Secret)

/-- One step. -/
def act (a : Act Secret) : Call Secret a.Answer := Routine.perform a

/-- `Result`. -/
abbrev Resolved (Secret : Type) := Except CredentialError (ResolvedCredential Secret)

/-- The chain in order, from what the last provider that was unavailable said. -/
def resolveChain (key : Key) : Option String → List Provider → Call Secret (Option (Resolved Secret))
  | lastUnavailable, [] =>
    return some (.error (.Unavailable (lastUnavailable.getD "all credential providers returned unavailable")))
  | _, provider :: chain => do
    act (.startProvider key provider)
    match ← act (.awaitProvider key provider) with
    | none => return none
    | some (.ok resolved) =>
      let _ ← act (.store key resolved)
      return some (.ok resolved)
    | some (.error (.Unavailable details)) => resolveChain key (some details) chain
    | some (.error (.Backend err)) => return some (.error (.Backend err))

/-- What `resolve` does that holds the single-flight lock. -/
def resolveLocked (key : Key) (chain : List Provider) : Call Secret (Option (Resolved Secret)) := do
  match (← act (.readFresh key)).2 with
  | some value => return some (.ok value)
  | none =>
    if chain.isEmpty then return some (.error (.Unavailable "no credential providers configured"))
    else resolveChain key none chain

/-- `resolve`. -/
def resolve (key : Key) (chain : List Provider) : Call Secret (Option (Resolved Secret)) := do
  match (← act (.readFresh key)).2 with
  | some value => return some (.ok value)
  | none =>
    match ← act (.lock key) with
    | none => return none
    | some () =>
      let result ← resolveLocked key chain
      act (.unlock key)
      return result

/-- `insert`. -/
def insert (key : Key) (value : ResolvedCredential Secret) : Call Secret (Option Unit) := do
  match ← act (.lock key) with
  | none => return none
  | some () =>
    let _ ← act (.store key value)
    act (.unlock key)
    return some ()

/-- `invalidate`. -/
def invalidate (key : Key) : Call Secret (Option Unit) := do
  let _ ← act (.invalidate key)
  return some ()

/-- What is called. -/
inductive Op (Secret : Type)
  | resolve (key : Key) (chain : List Provider)
  | insert (key : Key) (value : ResolvedCredential Secret)
  | invalidate (key : Key)

/-- What a call is among others. -/
def Op.thread : Op Secret → Prog (@Act.Answer Secret)
  | resolve key chain => (Auth.resolve key chain).thread
  | insert key value => (Auth.insert key value).thread
  | invalidate key => (Auth.invalidate key).thread

/-! ### Runs -/

/-- A step of the calls. -/
abbrev Step (Secret ι : Type) := Event ι (Op Secret) (@Act.Answer Secret)

/-- A cache and what is left of the calls on it. -/
abbrev Calls (Secret ι : Type) := Threads ι (State Secret ι) (@Act.Answer Secret)

variable [DecidableEq Secret] [DecidableEq ι] (config : CredentialCacheConfig)

/-- One step of the calls. -/
def Calls.next (s : Calls Secret ι) (l : Step Secret ι) : Option (Calls Secret ι) :=
  s.step (State.exec config) Op.thread l

/-- The runs of a new cache. -/
abbrev Runs : List (Step Secret ι) → Calls Secret ι → Prop :=
  Run (fun s => s = .idle .new) fun s l s' => s.next config l = some s'

end OvStorage.Auth
