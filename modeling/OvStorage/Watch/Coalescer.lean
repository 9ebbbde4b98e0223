import Mathlib.Data.List.Basic
import Mathlib.Logic.Function.Basic
import OvStorage.Lib.Transition

/-!
# One upstream for a watch key

`WatchCoalescer` of `subscription.rs`: calls of `subscribe`, the detached `drive_open` of each
opening, the dispatcher of each fan-out and the receivers, for any number of keys.

## The model

An opening, its token and the fan-out of the upstream that was opened for it have one number. A
critical section is one step, under the registry lock or under that of the fan-out; a future is
dropped where it awaits, and then drops its guard and its opening one after the other.

A counter is the list of those it counts. Who holds an `Arc` is written down, and the last one to
let go of a fan-out runs its `Drop` in the same step. Locks are not poisoned. What the events are
is left to the fan-out; here a dispatcher pulls any.
-/

namespace OvStorage.Watch

/-- What a `subscribe` call is about to do, and with which opening. -/
inductive Phase
  /-- At the top of the loop. -/
  | looking
  /-- About to read the outcome, with a `WaiterGuard`. -/
  | waiting (o : ℕ)
  /-- In the `select!` of `await_open`. -/
  | parked (o : ℕ)
  /-- Out of `await_open`, with the fan-out if it is ready. -/
  | leaving (o : ℕ) (ready : Bool)
  /-- The guard is dropped. -/
  | released (o : ℕ) (ready : Bool)
  /-- About to register with the fan-out. -/
  | attaching (o : ℕ)
  /-- Registered, and handed the stream. -/
  | spawning (o id : ℕ)
  | returning (o id : ℕ)
  /-- The fan-out was cancelled: a corpse. -/
  | evicting (o : ℕ)
  | retrying (o : ℕ)
deriving DecidableEq

structure Call (κ : Type) where
  key : κ
  /-- `effective_cadence`. -/
  cadence : ℕ
  phase : Phase

/-- `OpenOutcome`. -/
inductive OpenOutcome
  | Ready
  | Failed
deriving DecidableEq

/-- What a `drive_open` is about to do. -/
inductive Driver
  | spawned
  /-- In the `select!`, with the cadence that it read. -/
  | opening (cadence : ℕ)
  /-- With the fan-out of the stream that was opened. -/
  | opened
  | failed
  /-- With a fan-out that nobody wants. -/
  | discarding
  | published
  | ending
  | gone
deriving DecidableEq

/-- What the thread of `run` is about to do. -/
inductive Dispatcher
  | absent
  | running
  | pulled
  /-- With an event to acknowledge, and whether anybody is left. -/
  | fannedOut (alive : Bool)
  /-- With a terminal error. -/
  | erring
  | tearingDown
  | exiting
  | gone
deriving DecidableEq

/-- `WatchDirectoryFanout`, with who holds an `Arc` of it and its receivers: those that are in use, and
those that are being dropped, before and after they are unregistered. -/
structure Fanout (θ : Type) where
  pendingStream : Bool
  watchers : List ℕ
  activeConsumers : List ℕ
  nextId : ℕ
  dispatcher : Dispatcher
  byDriver : Bool
  handles : List θ
  receivers : List ℕ
  dropping : List ℕ
  unregistered : List ℕ

/-- `WatchDirectoryFanout::new`, in the hands of the driver. -/
def Fanout.new {θ : Type} : Fanout θ := ⟨true, [], [], 0, .absent, true, [], [], [], []⟩

/-- `Opening`, with its driver, the calls that hold an `Arc` of it, and the fan-out of its upstream. -/
structure Opening (κ θ : Type) where
  key : κ
  cancel : Bool
  done : Bool
  waiters : List θ
  minCadence : ℕ
  frozen : Bool
  outcome : Option OpenOutcome
  driver : Driver
  handles : List θ
  fanout : Option (Fanout θ)

/-- `KeyState`. -/
inductive KeyState
  | Opening (o : ℕ)
  | Live (o : ℕ)
deriving DecidableEq

/-- `WatchCoalescer` and its tasks. -/
structure Coalescer (κ θ : Type) where
  registry : κ → Option KeyState
  openings : ℕ → Option (Opening κ θ)
  next : ℕ
  shutdown : Bool
  /-- The coalescer itself was dropped. -/
  gone : Bool
  calls : θ → Option (Call κ)

variable {κ θ : Type}

/-- `WatchCoalescer::new`. -/
def Coalescer.new : Coalescer κ θ := ⟨fun _ => none, fun _ => none, 0, false, false, fun _ => none⟩

inductive Pulled
  | event
  | error
  | ended
deriving DecidableEq

/-- One step of a call, of the driver or the dispatcher of an opening, of a receiver, or of the owner. -/
inductive Label (κ θ : Type)
  | subscribe (t : θ) (key : κ) (cadence : ℕ)
  | look (t : θ)
  | poll (t : θ)
  /-- Its token fires, or its future is dropped. -/
  | leave (t : θ)
  /-- `done` was fired. -/
  | wake (t : θ)
  | dropGuard (t : θ)
  | dropOpening (t : θ)
  | attach (t : θ)
  | spawn (t : θ)
  | receive (t : θ)
  | evict (t : θ)
  | retry (t : θ)
  | freeze (o : ℕ)
  | openOk (o : ℕ)
  /-- The factory failed, or the open was cancelled. -/
  | openErr (o : ℕ)
  | publish (o : ℕ)
  | discard (o : ℕ)
  | fireDone (o : ℕ)
  | finish (o : ℕ)
  | pull (o : ℕ) (item : Pulled)
  /-- With the entries whose channel is connected. -/
  | fanOut (o : ℕ) (connected : List ℕ)
  | ack (o : ℕ) (ok : Bool)
  | broadcastTerminal (o : ℕ)
  | teardown (o : ℕ)
  | exit (o : ℕ)
  | dropReceiver (o id : ℕ)
  | unregister (o id : ℕ)
  | letGo (o id : ℕ)
  | cancelAll
  | dropCoalescer

namespace Coalescer

variable [DecidableEq κ] [DecidableEq θ] (s : Coalescer κ θ)

/-- `is_cancelled` of the opening's token, a child of the shutdown. -/
def cancelled (op : Opening κ θ) : Bool := op.cancel || s.shutdown

/-- Somebody holds the opening, and in it the fan-out once that is ready. -/
def holdsOutcome (o : ℕ) (op : Opening κ θ) : Bool :=
  op.outcome == some .Ready && (!op.handles.isEmpty || op.driver != .gone || s.registry op.key == some (.Opening o))

/-- Somebody holds the fan-out. -/
def holdsFanout (o : ℕ) (op : Opening κ θ) (f : Fanout θ) : Bool :=
  !f.handles.isEmpty || f.byDriver || (f.dispatcher != .absent && f.dispatcher != .gone) || !f.dropping.isEmpty ||
    !f.unregistered.isEmpty || s.holdsOutcome o op

/-- `Weak::upgrade` of the fan-out succeeds. -/
def upgrades (o : ℕ) : Bool :=
  match s.openings o with
  | some op => op.fanout.any (s.holdsFanout o op)
  | none => false

def setOpening (o : ℕ) (op : Opening κ θ) : Coalescer κ θ :=
  { s with openings := Function.update s.openings o (some op) }

def setCall (t : θ) (call : Option (Call κ)) : Coalescer κ θ := { s with calls := Function.update s.calls t call }

def setEntry (key : κ) (entry : Option KeyState) : Coalescer κ θ :=
  { s with registry := Function.update s.registry key entry }

/-- `Drop` of the fan-out, where nobody holds it any more. -/
def sweep (o : ℕ) : Coalescer κ θ :=
  match s.openings o with
  | some op => if op.fanout.any fun f => !s.holdsFanout o op f then s.setOpening o { op with cancel := true } else s
  | none => s

/-- The opening, and what a step makes of it. -/
def onOpening (o : ℕ) (f : Opening κ θ → Option (Coalescer κ θ)) : Option (Coalescer κ θ) := (s.openings o).bind f

def onFanout (o : ℕ) (g : Opening κ θ → Fanout θ → Option (Coalescer κ θ)) : Option (Coalescer κ θ) :=
  s.onOpening o fun op => op.fanout.bind (g op)

/-- The call goes on. -/
def goesOn (t : θ) (call : Call κ) (phase : Phase) : Coalescer κ θ := s.setCall t (some { call with phase })

/-- `start_opening`, with the guard of the call. -/
def startOpening (t : θ) (call : Call κ) : Coalescer κ θ :=
  let opening : Opening κ θ :=
    { key := call.key, cancel := false, done := false, waiters := [t], minCadence := call.cadence, frozen := false,
      outcome := none, driver := .spawned, handles := [t], fanout := none }
  let s' := ((s.setOpening s.next opening).setEntry call.key (some (.Opening s.next))).goesOn t call (.waiting s.next)
  let s' := { s' with next := s.next + 1 }
  -- the entry that was replaced held its opening
  match s.registry call.key with
  | some (.Opening o) => s'.sweep o
  | _ => s'

/-- The registry lock of `subscribe_receiver`. -/
def look (t : θ) (call : Call κ) : Option (Coalescer κ θ) :=
  match s.registry call.key with
  | some (.Live o) =>
    if s.upgrades o then s.onFanout o fun op f =>
      some ((s.setOpening o { op with fanout := some { f with handles := t :: f.handles } }).goesOn t call
        (.attaching o))
    else some (s.startOpening t call)
  | some (.Opening o) => s.onOpening o fun op =>
    if s.cancelled op then some (s.startOpening t call)
    else
      let minCadence := if op.frozen then op.minCadence else min op.minCadence call.cadence
      some ((s.setOpening o { op with waiters := t :: op.waiters, handles := t :: op.handles, minCadence }).goesOn t
        call (.waiting o))
  | none => some (s.startOpening t call)

/-- `Drop for WaiterGuard`. -/
def dropGuard (t : θ) (o : ℕ) (op : Opening κ θ) : Coalescer κ θ :=
  let waiters := op.waiters.filter fun t' => decide (t' ≠ t)
  let tearDown := waiters.isEmpty && op.outcome.isNone
  if tearDown && (s.gone || s.registry op.key == some (.Opening o)) then
    let s' := s.setOpening o { op with waiters, cancel := true }
    if s.gone then s' else (s'.setEntry op.key none).sweep o
  else s.setOpening o { op with waiters }

/-- `subscribe` of the fan-out, under its locks. -/
def attach (t : θ) (call : Call κ) (o : ℕ) (op : Opening κ θ) (f : Fanout θ) : Coalescer κ θ :=
  let id := f.nextId
  if s.cancelled op then
    (s.setOpening o { op with fanout := some { f with nextId := id + 1 } }).goesOn t call (.evicting o)
  else
    let f' : Fanout θ :=
      { f with
        pendingStream := false, watchers := f.watchers ++ [id], activeConsumers := id :: f.activeConsumers
        nextId := id + 1 }
    (s.setOpening o { op with fanout := some f' }).goesOn t call
      (if f.pendingStream then .spawning o id else .returning o id)

/-- The publication of `drive_open`. -/
def publish (o : ℕ) (op : Opening κ θ) : Option (Coalescer κ θ) :=
  match op.driver, op.fanout with
  | .opened, some f =>
    if s.gone then
      some (s.setOpening o { op with
        outcome := some .Ready, driver := .published, fanout := some { f with byDriver := false } })
    else if s.registry op.key ≠ some (.Opening o) then
      some (s.setOpening o { op with cancel := true, outcome := some .Failed, driver := .discarding })
    else if op.waiters.isEmpty then
      some ((s.setOpening o
        { op with cancel := true, outcome := some .Failed, driver := .discarding }).setEntry op.key none)
    else
      some ((s.setOpening o
        { op with outcome := some .Ready, driver := .published, fanout := some { f with byDriver := false } }).setEntry
          op.key (some (.Live o)))
  | .failed, _ =>
    let s' := s.setOpening o { op with outcome := some .Failed, driver := .published }
    some (if !s.gone && s.registry op.key == some (.Opening o) then s'.setEntry op.key none else s')
  | _, _ => none

/-- A step of a call. -/
def stepCall (t : θ) (call : Call κ) : Phase → Label κ θ → Option (Coalescer κ θ)
  | .looking, .look _ => s.look t call
  | .waiting o, .poll _ => s.onOpening o fun op =>
    match op.outcome with
    | some .Ready => s.onFanout o fun op f =>
      some ((s.setOpening o { op with fanout := some { f with handles := t :: f.handles } }).goesOn t call
        (.leaving o true))
    | some .Failed => some (s.goesOn t call (.leaving o false))
    | none => some (s.goesOn t call (.parked o))
  | .parked o, .leave _ => some (s.goesOn t call (.leaving o false))
  | .parked o, .wake _ => s.onOpening o fun op => if op.done then some (s.goesOn t call (.waiting o)) else none
  | .leaving o ready, .dropGuard _ =>
    s.onOpening o fun op => some ((s.dropGuard t o op).goesOn t call (.released o ready))
  | .released o ready, .dropOpening _ => s.onOpening o fun op =>
    let s' := s.setOpening o { op with handles := op.handles.filter fun t' => decide (t' ≠ t) }
    some (((if ready then s'.goesOn t call (.attaching o) else s'.setCall t none)).sweep o)
  | .attaching o, .attach _ => s.onFanout o fun op f => some (s.attach t call o op f)
  | .spawning o id, .spawn _ => s.onFanout o fun op f =>
    some ((s.setOpening o { op with fanout := some { f with dispatcher := .running } }).goesOn t call (.returning o id))
  | .returning o id, .receive _ => s.onFanout o fun op f =>
    let f' : Fanout θ :=
      { f with receivers := id :: f.receivers, handles := f.handles.filter fun t' => decide (t' ≠ t) }
    some (((s.setOpening o { op with fanout := some f' }).setCall t none).sweep o)
  | .evicting o, .evict _ =>
    let s' := s.goesOn t call (.retrying o)
    match s.registry call.key with
    | some (.Live o') => some (if !s.upgrades o' || o' == o then s'.setEntry call.key none else s')
    | _ => some s'
  | .retrying o, .retry _ => s.onFanout o fun op f =>
    let f' : Fanout θ := { f with handles := f.handles.filter fun t' => decide (t' ≠ t) }
    some (((s.setOpening o { op with fanout := some f' }).goesOn t call .looking).sweep o)
  | _, _ => none

/-- A step of a driver. -/
def stepDriver (o : ℕ) (op : Opening κ θ) : Driver → Label κ θ → Option (Coalescer κ θ)
  | .spawned, .freeze _ => some (s.setOpening o { op with frozen := true, driver := .opening op.minCadence })
  | .opening _, .openOk _ => some (s.setOpening o { op with driver := .opened, fanout := some .new })
  | .opening _, .openErr _ => some (s.setOpening o { op with driver := .failed })
  | .discarding, .discard _ =>
    some ((s.setOpening o { op with driver := .published, fanout := op.fanout.map fun f =>
      { f with byDriver := false } }).sweep o)
  | .published, .fireDone _ => some (s.setOpening o { op with done := true, driver := .ending })
  | .ending, .finish _ => some ((s.setOpening o { op with driver := .gone }).sweep o)
  | _, _ => none

/-- A step of a dispatcher. -/
def stepDispatcher (o : ℕ) (op : Opening κ θ) (f : Fanout θ) : Dispatcher → Label κ θ → Option (Coalescer κ θ)
  | .running, .pull _ .event => some (s.setOpening o { op with fanout := some { f with dispatcher := .pulled } })
  | .running, .pull _ .error => some (s.setOpening o { op with fanout := some { f with dispatcher := .erring } })
  | .running, .pull _ .ended => some (s.setOpening o { op with fanout := some { f with dispatcher := .tearingDown } })
  | .pulled, .fanOut _ connected =>
    let watchers := f.watchers.filter fun id => decide (id ∈ connected)
    some (s.setOpening o { op with fanout := some { f with watchers, dispatcher := .fannedOut (!watchers.isEmpty) } })
  | .fannedOut alive, .ack _ ok =>
    let dispatcher : Dispatcher := if !ok then .erring else if alive then .running else .tearingDown
    some (s.setOpening o { op with fanout := some { f with dispatcher } })
  | .erring, .broadcastTerminal _ =>
    some (s.setOpening o { op with
      cancel := true, fanout := some { f with watchers := [], dispatcher := .tearingDown } })
  | .tearingDown, .teardown _ =>
    some (s.setOpening o { op with cancel := true, fanout := some { f with watchers := [], dispatcher := .exiting } })
  | .exiting, .exit _ => some ((s.setOpening o { op with fanout := some { f with dispatcher := .gone } }).sweep o)
  | _, _ => none

/-- `Drop for WatcherReceiver`, and what leads to it. -/
def stepReceiver (o : ℕ) (op : Opening κ θ) (f : Fanout θ) : Label κ θ → Option (Coalescer κ θ)
  | .dropReceiver _ id =>
    if id ∈ f.receivers then
      let dropping := if s.upgrades o then id :: f.dropping else f.dropping
      some (s.setOpening o { op with fanout := some { f with receivers := f.receivers.erase id, dropping } })
    else none
  | .unregister _ id =>
    if id ∈ f.dropping then
      let f' : Fanout θ :=
        { f with
          watchers := f.watchers.filter fun id' => decide (id' ≠ id)
          activeConsumers := f.activeConsumers.filter fun id' => decide (id' ≠ id)
          dropping := f.dropping.erase id
          unregistered := id :: f.unregistered }
      some (s.setOpening o { op with cancel := op.cancel || f.activeConsumers.length == 1, fanout := some f' })
    else none
  | .letGo _ id =>
    if id ∈ f.unregistered then
      some ((s.setOpening o { op with fanout := some { f with unregistered := f.unregistered.erase id } }).sweep o)
    else none
  | _ => none

/-- One step. -/
def step : Label κ θ → Option (Coalescer κ θ)
  | .subscribe t key cadence =>
    if (s.calls t).isNone && !s.gone then some (s.setCall t (some ⟨key, cadence, .looking⟩)) else none
  | .cancelAll => some { s with shutdown := true }
  | .dropCoalescer => some { s with shutdown := true, gone := true, registry := fun _ => none }
  | l@(.look t) | l@(.poll t) | l@(.leave t) | l@(.wake t) | l@(.dropGuard t) | l@(.dropOpening t)
  | l@(.attach t) | l@(.spawn t) | l@(.receive t) | l@(.evict t) | l@(.retry t) =>
    (s.calls t).bind fun call => s.stepCall t call call.phase l
  | .publish o => s.onOpening o (s.publish o)
  | l@(.freeze o) | l@(.openOk o) | l@(.openErr o) | l@(.discard o) | l@(.fireDone o) | l@(.finish o) =>
    s.onOpening o fun op => s.stepDriver o op op.driver l
  | l@(.pull o _) | l@(.fanOut o _) | l@(.ack o _) | l@(.broadcastTerminal o) | l@(.teardown o) | l@(.exit o) =>
    s.onFanout o fun op f => s.stepDispatcher o op f f.dispatcher l
  | l@(.dropReceiver o _) | l@(.unregister o _) | l@(.letGo o _) => s.onFanout o fun op f => s.stepReceiver o op f l

end Coalescer

/-- Any number of calls, openings and receivers, step by step. -/
abbrev Coalesces [DecidableEq κ] [DecidableEq θ] : List (Label κ θ) → Coalescer κ θ → Prop :=
  Run (· = Coalescer.new) fun s l s' => s.step l = some s'

end OvStorage.Watch
