import Mathlib.Algebra.Group.Nat.Defs
import OvStorage.Lib.Contract
import OvStorage.Routing.Bindings

/-!
# The router and its children

`Router` of `router.rs`, one atomic step at a time: the connection operations that it
forwards to a child, the route-table catch-ups and the removals that it spawns, and the
rebuilds that its root watchers ask for. Any number of them run at once.

## The model

A thread is a task of the runtime. What a task awaits is an action whose answer may also say
that the deadline passed, that the caller's token fired or that its future was dropped there.
A critical section is one action, but for `applied_generation`, which a publication holds over
several; `cross_child_conflict` reads the claims and then, under the read lock of the table,
decides.

A child's add commits when it returns. What a child publishes is any list of roots; what it
lists as its connections are those it holds. A stamp past the range of `u64` panics, and its
task goes no further.

What each child holds, when it came to hold it and what its add was answered, the time, and all of
`Past` are read by no operation but the listings of a child; they are there to be spoken of.
-/

namespace OvStorage.Routing

open Address Interleave

/-- A connection of a child: its target and its id. -/
structure ConnectionRef (ι : Type) where
  child : ι
  target : Target
  id : ConnectionId
deriving DecidableEq

/-- How a child came to hold a connection, and what the add was answered. -/
inductive Standing
  /-- Held since the router was built. -/
  | configured
  /-- Added, and not answered for yet. -/
  | undecided
  | accepted
  /-- Its add was answered `RouteConflict`, or by the error of a refused leftover. -/
  | refused
deriving DecidableEq

/-- A connection that a child holds. -/
structure Held (U : UrlCrate) where
  target : Target
  connection : Connection U
  standing : Standing
  committedAt : ℕ
deriving DecidableEq

/-- What `add_connection` goes on with once its child has committed. -/
structure Adding (U : UrlCrate) (ι : Type) where
  child : ι
  target : Target
  connection : Connection U
  committedAt : ℕ
deriving DecidableEq

/-- `ClaimedRoot`. -/
structure ClaimedRoot (U : UrlCrate) (ι : Type) where
  node : CanonicalUrl U
  child : ι
  generation : ℕ
deriving DecidableEq

/-- What a child answered to `list_address_roots`, and when. -/
structure ChildAnswer (U : UrlCrate) (ι : Type) where
  child : ι
  time : ℕ
  roots : List (PublishedRoot U)
deriving DecidableEq

/-- What a rebuild has gathered: the answers, the targets and the quarantine it filters by, with
whether an id alone suffices under the child of each entry. -/
structure FanOut (U : UrlCrate) (ι : Type) where
  generation : ℕ
  answers : List (ChildAnswer U ι)
  targets : List (Target × ι)
  quarantined : List (Quarantined U ι × Bool)
deriving DecidableEq

/-- The table in force: what its rebuild had gathered, and the roots in the order the table was
built from. -/
structure Table (U : UrlCrate) (ι : Type) where
  fanOut : FanOut U ι
  routes : List (PublishedRoot U × ι)

/-- `RouteTable::empty`. -/
def Table.empty {U : UrlCrate} {ι : Type} : Table U ι := ⟨⟨0, [], [], []⟩, []⟩

/-- What a removal that `roll_back_conflicting_add` spawned came to. -/
inductive Removal
  | removed
  /-- `CommitAmbiguous`: removed, and not reconciled. -/
  | ambiguous
  | failed
deriving DecidableEq

/-- The addresses that an add has bound, or has yet to check. -/
structure Bound (U : UrlCrate) (ι : Type) where
  child : ι
  addresses : List (CanonicalUrl U)
  committedAt : ℕ
deriving DecidableEq

/-- What happened so far. -/
structure Past (U : UrlCrate) (ι : Type) where
  clock : ℕ
  /-- When each generation was stamped. -/
  stampedAt : ℕ → ℕ
  /-- The tables that were in force, the latest first. -/
  tables : List (Table U ι)
  bound : List (Bound U ι)
  /-- When the mutations committed whose catch-up answered `Ok`. -/
  reflected : List ℕ
  /-- The refused connections that the router could not remove, until their child lets go of them or
  takes them in again. -/
  leftovers : List (ConnectionRef ι)

/-- `RouterState`, its tasks and its children. -/
structure World (U : UrlCrate) (ι θ : Type) where
  table : Table U ι
  targets : List (Target × ι)
  nextGeneration : ℕ
  appliedGeneration : ℕ
  /-- Who holds the lock of `applied_generation`. -/
  publisher : Option θ
  /-- Who holds the permit of `catch_up_slot`. -/
  slot : Option θ
  /-- Who holds `add_gate`. -/
  adder : Option θ
  claimedRoots : List (ClaimedRoot U ι)
  quarantined : List (Quarantined U ι)
  /-- What went out on `root_change_tx`, the latest first. -/
  rootChanges : List (List RootInfo)
  /-- The catch-ups that were spawned and have not started. -/
  catchUps : List ℕ
  caughtUp : ℕ → Option Bool
  removals : List (ℕ × ConnectionRef ι)
  removed : ℕ → Option Removal
  held : ι → List (Held U)
  /-- `owned_targets` of each child. -/
  owned : ι → List Target
  past : Past U ι

section Code

variable {U : UrlCrate} {ι θ : Type}

/-- The router that `Router::new` starts from. -/
def World.fresh (held : ι → List (Held U)) (owned : ι → List Target) : World U ι θ where
  table := .empty
  targets := []
  nextGeneration := 0
  appliedGeneration := 0
  publisher := none
  slot := none
  adder := none
  claimedRoots := []
  quarantined := []
  rootChanges := []
  catchUps := []
  caughtUp _ := none
  removals := []
  removed _ := none
  held := held
  owned := owned
  past := ⟨0, fun _ => 0, [.empty], [], [], []⟩

def Quarantined.ref (held : Quarantined U ι) : ConnectionRef ι := ⟨held.child, held.target, held.connection⟩

def Adding.ref (adding : Adding U ι) : ConnectionRef ι := ⟨adding.child, adding.target, adding.connection.id⟩

variable [DecidableEq ι]

/-- The connection that the root is attributed to. -/
def ConnectionRef.owns (ref : ConnectionRef ι) (route : PublishedRoot U × ι) : Bool :=
  route.2 == ref.child && route.1.connectionId == some ref.id && route.1.owningTarget == some ref.target

def ConnectionRef.names (ref : ConnectionRef ι) (held : Held U) : Bool :=
  held.target == ref.target && held.connection.id == ref.id

/-! ### What a rebuild makes of its answers -/

/-- The roots in the order of the children. -/
def aggregated (children : List ι) (answers : List (ChildAnswer U ι)) : List (PublishedRoot U × ι) :=
  children.flatMap fun child =>
    match answers.find? (·.child == child) with
    | some answer => answer.roots.map fun root => (root, child)
    | none => []

/-- The map of targets, or `none` where two children own one. -/
def collectTargets (owned : List (ι × List Target)) : Option (List (Target × ι)) :=
  let targets := owned.flatMap fun child => child.2.map fun target => (target, child.1)
  if (targets.map Prod.fst).Nodup then some targets else none

/-- The roots that are not withheld. -/
def FanOut.routes (children : List ι) (gathered : FanOut U ι) : List (PublishedRoot U × ι) :=
  (withholdQuarantined gathered.quarantined (aggregated children gathered.answers)).1

/-- The entries that nothing was published for. -/
def FanOut.unpublished (children : List ι) (gathered : FanOut U ι) : List (Quarantined U ι) :=
  (withholdQuarantined gathered.quarantined (aggregated children gathered.answers)).2

/-! ### Steps -/

/-- What a task awaited. -/
inductive Reply (α : Type)
  | answered (value : α)
  | failed
  /-- The future was dropped there. -/
  | dropped

/-- What a child makes of an add. -/
inductive Added (U : UrlCrate)
  | Ok (connection : Connection U) (time : ℕ)
  /-- With the connection that is held, which the error does not tell. -/
  | CommitAmbiguous (connection : Connection U) (time : ℕ)
  /-- Nothing was added, or the caller left before. -/
  | failed

/-- What a child makes of a removal. -/
inductive Removed
  | Ok (time : ℕ)
  | CommitAmbiguous
  /-- An error, a deadline or a dropped future; the child may have removed it. -/
  | failed (removed : Bool)

/-- What a call is answered. -/
inductive Outcome (U : UrlCrate) (ι : Type)
  /-- `Ok`, to a mutation of that time. -/
  | ok (committedAt : ℕ)
  | routeConflict (adding : Adding U ι)
  /-- `CommitAmbiguous`, with `NEXT_ACTION_REFUSED_LEFTOVER`. -/
  | refusedLeftover (adding : Adding U ι)
deriving DecidableEq

/-- What a task does at one moment. -/
inductive Action (U : UrlCrate) (ι : Type)
  | routeTarget (target : Target)
  /-- `add_gate`, or the caller's token. -/
  | lockGate
  | unlockGate
  | nextGeneration
  | readClaims
  /-- The decision of `cross_child_conflict`, from claims that were read before; the `last` one, or
  one that the add goes on from only where nothing is contested. -/
  | crossChildConflict (adding : Adding U ι) (claimed : List (CanonicalUrl U × ι)) (claimable : List (CanonicalUrl U))
      (last : Bool)
  /-- `claim_roots`, of all that a connection may have bound. -/
  | claimBound (bound : Bound U ι) (generation : ℕ)
  | claimRoots (child : ι) (nodes : List (CanonicalUrl U)) (generation : ℕ)
  | discardClaimsAt (generation : ℕ)
  | quarantine (adding : Adding U ι)
  | liftQuarantine (ref : ConnectionRef ι)
  | readQuarantined
  | ownedTargets
  | lockApplied
  | installRoutes (gathered : FanOut U ι)
  | installTargets (targets : List (Target × ι))
  | releaseClaimsThrough (applied : ℕ)
  /-- `root_change_tx.send`. -/
  | sendSnapshot
  | unlockApplied
  | spawnCatchUp (generation : ℕ)
  | startCatchUp
  /-- The permit of `catch_up_slot`, or the deadline. -/
  | acquireSlot
  | releaseSlot
  | finishCatchUp (generation : ℕ) (ok : Bool)
  | joinCatchUp (generation : ℕ)
  | spawnRemoval (ticket : ℕ) (ref : ConnectionRef ι)
  | startRemoval
  | finishRemoval (ticket : ℕ) (outcome : Removal)
  | joinRemoval (ticket : ℕ)
  /-- `add_connection` of a child. -/
  | addTo (child : ι) (target : Target)
  /-- `remove_connection` of a child. -/
  | removeFrom (ref : ConnectionRef ι)
  /-- `update_connection_attributes` of a child. -/
  | updateOn (child : ι)
  /-- `list_address_roots` of a child. -/
  | rootsOf (child : ι)
  /-- One of the children that have not answered a fan-out. -/
  | rootsOfAny (remaining : List ι)
  /-- `list_connections` of a child. -/
  | connectionsOf (child : ι)
  /-- A child declares other targets. -/
  | declare (child : ι) (targets : List Target)
  | answer (outcome : Outcome U ι)
deriving DecidableEq

abbrev Answer : Action U ι → Type
  | .routeTarget _ => Option ι
  | .lockGate | .acquireSlot => Bool
  | .nextGeneration | .lockApplied | .startCatchUp => ℕ
  | .readClaims => List (CanonicalUrl U × ι)
  | .crossChildConflict _ _ _ _ => Except ErrorCode (List (CanonicalUrl U))
  | .readQuarantined => List (Quarantined U ι × Bool)
  | .ownedTargets => List (ι × List Target)
  -- released or dropped, or what the catch-up came to
  | .joinCatchUp _ => Option Bool
  | .startRemoval => ℕ × ConnectionRef ι
  -- dropped, or what the removal came to
  | .joinRemoval _ => Option Removal
  | .addTo _ _ => Added U
  | .removeFrom _ => Removed
  -- the time, if it committed
  | .updateOn _ => Option ℕ
  | .rootsOf _ => Reply (List (PublishedRoot U))
  | .rootsOfAny _ => Option (ChildAnswer U ι)
  | .connectionsOf _ => Reply (List ConnectionId)
  | _ => Unit

namespace World

variable (s : World U ι θ)

/-- The time goes on. -/
def tick : World U ι θ := { s with past := { s.past with clock := s.past.clock + 1 } }

/-- `next_generation`. -/
def stamp : World U ι θ :=
  { s with
    nextGeneration := s.nextGeneration + 1
    past := { s.past with stampedAt := Function.update s.past.stampedAt (s.nextGeneration + 1) s.past.clock } }

/-- `claim_roots`, past its look at the nodes. -/
def claimRoots (child : ι) (nodes : List (CanonicalUrl U)) (generation : ℕ) : World U ι θ :=
  if generation ≤ s.appliedGeneration then s
  else { s with claimedRoots := s.claimedRoots ++ nodes.map fun node => ⟨node, child, generation⟩ }

/-- `release_claims_through`. -/
def releaseClaimsThrough (applied : ℕ) : World U ι θ :=
  { s with claimedRoots := s.claimedRoots.filter fun claim => decide (applied < claim.generation) }

/-- `discard_claims_at`. -/
def discardClaimsAt (generation : ℕ) : World U ι θ :=
  { s with claimedRoots := s.claimedRoots.filter fun claim => decide (claim.generation ≠ generation) }

/-- `quarantine`. -/
def quarantine (adding : Adding U ι) : World U ι θ :=
  if s.quarantined.any fun held => held.ref == adding.ref then s
  else { s with quarantined := s.quarantined ++
    [⟨adding.child, adding.target, adding.connection.id, adding.connection.currentAddresses⟩] }

/-- `lift_quarantine`. -/
def liftQuarantine (ref : ConnectionRef ι) : World U ι θ :=
  { s with quarantined := s.quarantined.filter fun held => decide (held.ref ≠ ref) }

/-- The swap of a rebuild, under the lock of `applied_generation`. -/
def install (children : List ι) (gathered : FanOut U ι) : World U ι θ :=
  let table : Table U ι := ⟨gathered, incumbentsFirst s.table.routes (gathered.routes children)⟩
  { s with
    appliedGeneration := gathered.generation
    table
    past := { s.past with tables := table :: s.past.tables } }

/-- The roots of the table, in ranked order. -/
def snapshot (table : Table U ι) : List RootInfo := (tableOf table.routes).entries.map Prod.fst

def holds (ref : ConnectionRef ι) : Bool := (s.held ref.child).any ref.names

/-- The child lets go of a connection. -/
def letGo (ref : ConnectionRef ι) : World U ι θ :=
  { s with
    held := Function.update s.held ref.child ((s.held ref.child).filter fun held => !ref.names held)
    past := { s.past with leftovers := s.past.leftovers.filter fun left => decide (left ≠ ref) } }

/-- The child binds a connection, in place of one under its key. -/
def bind (child : ι) (target : Target) (connection : Connection U) : World U ι θ :=
  let others := (s.held child).filter fun held => !(ConnectionRef.mk child target connection.id).names held
  { s with held := Function.update s.held child (⟨target, connection, .undecided, s.past.clock⟩ :: others) }

/-- What the add was answered is written down. -/
def settle (ref : ConnectionRef ι) (standing : Standing) : World U ι θ :=
  { s with
    held := Function.update s.held ref.child
      ((s.held ref.child).map fun held => if ref.names held then { held with standing } else held) }

/-- What a decision of `cross_child_conflict` makes of an add. -/
def check (adding : Adding U ι) (claimable : List (CanonicalUrl U)) (last : Bool) :
    Except ErrorCode (List (CanonicalUrl U)) → World U ι θ
  | .ok kept =>
    if last || kept.length == claimable.length then
      let s' := s.settle adding.ref .accepted
      { s' with past := { s'.past with
        bound := s'.past.bound.map fun bound =>
          if bound.committedAt = adding.committedAt then { bound with addresses := kept } else bound
        leftovers := s'.past.leftovers.filter fun left => decide (left ≠ adding.ref) } }
    else s
  | .error _ =>
    if last then { s with past := { s.past with
      bound := s.past.bound.filter fun bound => decide (bound.committedAt ≠ adding.committedAt) } }
    else s

end World

section Exec

variable [DecidableEq θ] (children : List ι)

/-- The publisher goes on. -/
def World.publish (s : World U ι θ) (t : θ) (next : World U ι θ) : Option (World U ι θ) :=
  if s.publisher = some t then some next else none

/-- What an action does, if the state gives the answer. -/
def Action.effect (t : θ) : (a : Action U ι) → Answer a → World U ι θ → Option (World U ι θ)
  | .routeTarget target, child, s => if child = s.targets.lookup target then some s else none
  | .lockGate, true, s => if s.adder = none then some { s with adder := some t } else none
  | .lockGate, false, s => some s
  | .unlockGate, _, s => if s.adder = some t then some { s with adder := none } else none
  | .nextGeneration, generation, s =>
    if generation = s.nextGeneration + 1 ∧ generation < 2 ^ 64 then some s.stamp else none
  | .readClaims, claimed, s =>
    if claimed = s.claimedRoots.map fun claim => (claim.node, claim.child) then some s else none
  | .crossChildConflict adding claimed claimable last, verdict, s =>
    if Routing.crossChildConflict claimed s.table.routes adding.child claimable = verdict then
      some (s.check adding claimable last verdict)
    else none
  | .claimBound bound generation, _, s =>
    let s' : World U ι θ := { s with past := { s.past with bound := bound :: s.past.bound } }
    if bound.addresses.isEmpty then some s'
    else if s.publisher = none then some (s'.claimRoots bound.child bound.addresses generation)
    else none
  | .claimRoots child nodes generation, _, s =>
    if nodes.isEmpty then some s
    else if s.publisher = none then some (s.claimRoots child nodes generation)
    else none
  | .discardClaimsAt generation, _, s => some (s.discardClaimsAt generation)
  | .quarantine adding, _, s => some (s.quarantine adding)
  | .liftQuarantine ref, _, s => some (s.liftQuarantine ref)
  | .readQuarantined, quarantined, s =>
    if quarantined = s.quarantined.map fun held => (held, decide ((s.owned held.child).length ≤ 1)) then some s
    else none
  | .ownedTargets, owned, s => if owned = children.map fun child => (child, s.owned child) then some s else none
  | .lockApplied, applied, s =>
    if s.publisher = none ∧ applied = s.appliedGeneration then some { s with publisher := some t } else none
  | .installRoutes gathered, _, s => s.publish t (s.install children gathered)
  | .installTargets targets, _, s => s.publish t { s with targets }
  | .releaseClaimsThrough applied, _, s => s.publish t (s.releaseClaimsThrough applied)
  | .sendSnapshot, _, s => s.publish t { s with rootChanges := World.snapshot s.table :: s.rootChanges }
  | .unlockApplied, _, s => s.publish t { s with publisher := none }
  | .spawnCatchUp generation, _, s => some { s with catchUps := generation :: s.catchUps }
  | .startCatchUp, generation, s =>
    if generation ∈ s.catchUps then some { s with catchUps := s.catchUps.erase generation } else none
  | .acquireSlot, true, s => if s.slot = none then some { s with slot := some t } else none
  | .acquireSlot, false, s => some s
  | .releaseSlot, _, s => if s.slot = some t then some { s with slot := none } else none
  | .finishCatchUp generation ok, _, s => some { s with caughtUp := Function.update s.caughtUp generation (some ok) }
  | .joinCatchUp generation, some ok, s => if s.caughtUp generation = some ok then some s else none
  | .joinCatchUp _, none, s => some s
  | .spawnRemoval ticket ref, _, s => some { s with removals := (ticket, ref) :: s.removals }
  | .startRemoval, task, s => if task ∈ s.removals then some { s with removals := s.removals.erase task } else none
  | .finishRemoval ticket outcome, _, s => some { s with removed := Function.update s.removed ticket (some outcome) }
  | .joinRemoval ticket, some outcome, s => if s.removed ticket = some outcome then some s else none
  | .joinRemoval _, none, s => some s
  | .addTo child target, .Ok connection time, s =>
    if time = s.past.clock then some (s.bind child target connection) else none
  | .addTo child target, .CommitAmbiguous connection time, s =>
    if time = s.past.clock then some (s.bind child target connection) else none
  | .addTo _ _, .failed, s => some s
  | .removeFrom ref, .Ok time, s => if time = s.past.clock then some (s.letGo ref) else none
  | .removeFrom ref, .CommitAmbiguous, s => some (s.letGo ref)
  | .removeFrom ref, .failed removed, s => some (if removed then s.letGo ref else s)
  | .updateOn _, some time, s => if time = s.past.clock then some s else none
  | .updateOn _, none, s => some s
  | .rootsOf _, _, s => some s
  | .rootsOfAny remaining, some reply, s =>
    if reply.child ∈ remaining ∧ reply.time = s.past.clock then some s else none
  | .rootsOfAny _, none, s => some s
  | .connectionsOf child, .answered ids, s =>
    if ids = (s.held child).map fun held => held.connection.id then some s else none
  | .connectionsOf _, _, s => some s
  | .declare child targets, _, s => some { s with owned := Function.update s.owned child targets }
  | .answer (.ok time), _, s => some { s with past := { s.past with reflected := time :: s.past.reflected } }
  | .answer (.routeConflict adding), _, s => some (s.settle adding.ref .refused)
  | .answer (.refusedLeftover adding), _, s =>
    some (if s.holds adding.ref then
      let s' := s.settle adding.ref .refused
      { s' with past := { s'.past with leftovers := adding.ref :: s'.past.leftovers } }
    else s)

attribute [local simp] Action.effect

attribute [elab_as_elim] Action.effect.fun_cases_unfolding

/-- An action takes a moment. -/
def Action.exec (t : θ) (a : Action U ι) (r : Answer a) (s : World U ι θ) : Option (World U ι θ) :=
  (Action.effect children t a r s).map World.tick

end Exec

/-! ### Operations -/

/-- What is left of a task. -/
abbrev Program (U : UrlCrate) (ι : Type) := Prog (Answer (U := U) (ι := ι))

def perform (a : Action U ι) (k : Answer a → Program U ι) : Program U ι := .act a k

section Operations

variable (children : List ι)

/-- The fan-out of `rebuild`: the children answer in any order, and the first error ends it. -/
def fanOut (k : Option (List (ChildAnswer U ι)) → Program U ι) : ℕ → List ι → List (ChildAnswer U ι) → Program U ι
  | 0, _, answers => k (some answers)
  | n + 1, remaining, answers => perform (.rootsOfAny remaining) fun
      | none => k none
      | some answer => fanOut k n (remaining.erase answer.child) (answer :: answers)

/-- `retire_confirmed_quarantines`; it ends early where the rebuild is dropped. -/
def retireConfirmedQuarantines (k : Bool → Program U ι) : List (Quarantined U ι) → Program U ι
  | [] => k true
  | candidate :: candidates => perform (.connectionsOf candidate.child) fun
      | .dropped => k false
      | .failed => retireConfirmedQuarantines k candidates
      | .answered ids =>
        if candidate.connection ∈ ids then retireConfirmedQuarantines k candidates
        else perform (.liftQuarantine candidate.ref) fun _ => retireConfirmedQuarantines k candidates

/-- The publication of `rebuild`, under the lock of `applied_generation`. -/
def publication (gathered : FanOut U ι) (k : Program U ι) : Program U ι :=
  perform .lockApplied fun applied =>
    if gathered.generation ≤ applied then
      perform (.releaseClaimsThrough applied) fun _ => perform .unlockApplied fun _ => k
    else
      perform (.installRoutes gathered) fun _ => perform (.installTargets gathered.targets) fun _ =>
      perform (.releaseClaimsThrough gathered.generation) fun _ => perform .sendSnapshot fun _ =>
      perform .unlockApplied fun _ => k

/-- `rebuild`, which goes on with whether it answered `Ok`. -/
def rebuild (generation : ℕ) (k : Bool → Program U ι) : Program U ι :=
  fanOut (fun
    | none => k false
    | some answers => perform .ownedTargets fun owned =>
      match collectTargets owned with
      | none => k false
      | some targets => perform .readQuarantined fun quarantined =>
        let gathered : FanOut U ι := ⟨generation, answers, targets, quarantined⟩
        retireConfirmedQuarantines (fun done => if done then publication gathered (k true) else k false)
          (gathered.unpublished children)) children.length children []

/-- The task of `spawn_route_catch_up`. -/
def routeCatchUpTask : Program U ι :=
  perform .startCatchUp fun generation => perform .acquireSlot fun
    | false => perform (.finishCatchUp generation false) fun _ => .ret
    | true => rebuild children generation fun ok => perform .releaseSlot fun _ =>
      perform (.finishCatchUp generation ok) fun _ => .ret

/-- A rebuild for which nobody waits: of the construction, and of a root watcher. -/
def watcherRebuild : Program U ι := perform .nextGeneration fun generation => rebuild children generation fun _ => .ret

/-- The task of a rollback's removal. -/
def removalTask : Program U ι :=
  perform .startRemoval fun (ticket, ref) => perform (.removeFrom ref) fun
    | .Ok _ => perform (.finishRemoval ticket .removed) fun _ => .ret
    | .CommitAmbiguous => perform (.finishRemoval ticket .ambiguous) fun _ => .ret
    | .failed _ => perform (.finishRemoval ticket .failed) fun _ => .ret

/-- `route_catch_up_at`: `Ok` is noted, with the time of the mutation. -/
def routeCatchUpAt (generation committedAt : ℕ) (k : Program U ι) : Program U ι :=
  perform (.spawnCatchUp generation) fun _ => perform (.joinCatchUp generation) fun
    | some true => perform (.answer (.ok committedAt)) fun _ => k
    -- the catch-up failed, or the caller did not wait for it
    | _ => k

/-- `reserve_after_ambiguous_commit`, of an add of that time. -/
def reserveAfterAmbiguousCommit (child : ι) (committedAt : ℕ) (k : Program U ι) : Program U ι :=
  perform .nextGeneration fun generation => perform (.rootsOf child) fun
    | .answered roots =>
      perform (.claimBound ⟨child, roots.map PublishedRoot.address, committedAt⟩ generation) fun _ => k
    | _ => k

/-- `roll_back_conflicting_add`, once the provisional claims are discarded. -/
def rollBackConflictingAdd (adding : Adding U ι) (ticket : ℕ) (k : Program U ι) : Program U ι :=
  perform (.quarantine adding) fun _ => perform (.spawnRemoval ticket adding.ref) fun _ =>
    perform (.joinRemoval ticket) fun
      | none => k
      | some .removed =>
        perform (.liftQuarantine adding.ref) fun _ => perform (.answer (.routeConflict adding)) fun _ => k
      | some .ambiguous => perform (.answer (.routeConflict adding)) fun _ => k
      | some .failed => perform (.answer (.refusedLeftover adding)) fun _ => k

/-- `cross_child_conflict`. -/
def crossCheck (adding : Adding U ι) (claimable : List (CanonicalUrl U)) (last : Bool)
    (k : Except ErrorCode (List (CanonicalUrl U)) → Program U ι) : Program U ι :=
  perform .readClaims fun claimed => perform (.crossChildConflict adding claimed claimable last) k

/-- What follows the verdict of an add. -/
def concludeAdd (adding : Adding U ι) (provisional : ℕ) (k : Program U ι) :
    Except ErrorCode (List (CanonicalUrl U)) → Program U ι
  | .error _ => perform (.discardClaimsAt provisional) fun _ => rollBackConflictingAdd adding provisional k
  | .ok claimed => perform .nextGeneration fun generation =>
      perform (.claimRoots adding.child claimed generation) fun _ => perform (.discardClaimsAt provisional) fun _ =>
        routeCatchUpAt generation adding.committedAt k

/-- `add_connection`, once its child has committed. -/
def afterCommit (adding : Adding U ι) (k : Program U ι) : Program U ι :=
  perform (.liftQuarantine adding.ref) fun _ => perform .nextGeneration fun provisional =>
    perform (.claimBound ⟨adding.child, adding.connection.currentAddresses, adding.committedAt⟩ provisional) fun _ =>
      crossCheck adding adding.connection.currentAddresses false fun verdict =>
        if (verdict.toOption.map List.length) = some adding.connection.currentAddresses.length then
          concludeAdd adding provisional k verdict
        else perform (.rootsOf adding.child) fun
          | .dropped => k
          | .failed => crossCheck adding adding.connection.currentAddresses true (concludeAdd adding provisional k)
          | .answered roots =>
            crossCheck adding (publishedClaims adding.connection roots) true (concludeAdd adding provisional k)

/-- `add_connection`, under `add_gate`. -/
def addUnderGate (child : ι) (target : Target) (k : Program U ι) : Program U ι :=
  perform (.addTo child target) fun
    | .Ok connection time => afterCommit ⟨child, target, connection, time⟩ k
    | .CommitAmbiguous _ time => reserveAfterAmbiguousCommit child time k
    | .failed => k

/-- `add_connection`. -/
def addConnection (target : Target) : Program U ι :=
  perform (.routeTarget target) fun
    | none => .ret
    | some child => perform .lockGate fun
        | false => .ret
        | true => addUnderGate child target (perform .unlockGate fun _ => .ret)

/-- `remove_connection`. -/
def removeConnection (target : Target) (id : ConnectionId) : Program U ι :=
  perform (.routeTarget target) fun
    | none => .ret
    | some child => perform (.removeFrom ⟨child, target, id⟩) fun
        | .Ok time => perform (.liftQuarantine ⟨child, target, id⟩) fun _ => perform .nextGeneration fun generation =>
            routeCatchUpAt generation time .ret
        | _ => .ret

/-- `update_connection_attributes`. -/
def updateConnectionAttributes (target : Target) : Program U ι :=
  perform (.routeTarget target) fun
    | none => .ret
    | some child => perform (.updateOn child) fun
        | some time => perform .nextGeneration fun generation => routeCatchUpAt generation time .ret
        | none => .ret

/-- The tasks. -/
inductive Task (ι : Type)
  | addConnection (target : Target)
  | removeConnection (target : Target) (id : ConnectionId)
  | updateConnectionAttributes (target : Target)
  | routeCatchUp
  | rollback
  | rootWatcher
  /-- A child declares other targets. -/
  | declare (child : ι) (targets : List Target)

def Task.program : Task ι → Program U ι
  | .addConnection target => Routing.addConnection target
  | .removeConnection target id => Routing.removeConnection target id
  | .updateConnectionAttributes target => Routing.updateConnectionAttributes target
  | .routeCatchUp => routeCatchUpTask children
  | .rollback => removalTask
  | .rootWatcher => watcherRebuild children
  | .declare child targets => perform (.declare child targets) fun _ => .ret

end Operations

/-! ### Runs -/

abbrev System (U : UrlCrate) (ι θ : Type) := Threads θ (World U ι θ) (Answer (U := U) (ι := ι))

abbrev Step (U : UrlCrate) (ι θ : Type) := Event θ (Task ι) (Answer (U := U) (ι := ι))

/-- The router is built, over children that hold what they were configured with. -/
def System.Initial (s : System U ι θ) : Prop :=
  ∃ (held : ι → List (Held U)) (owned : ι → List Target),
    (∀ child, ∀ connection ∈ held child, connection.standing = .configured) ∧ s = .idle (.fresh held owned)

section Runs

variable [DecidableEq θ] (children : List ι)

def System.step (s : System U ι θ) (l : Step U ι θ) : Option (System U ι θ) :=
  Threads.step (Action.exec children) (Task.program children) s l

/-- Any number of tasks, step by step. -/
abbrev Runs (trace : List (Step U ι θ)) (s : System U ι θ) : Prop :=
  Run System.Initial (fun s l s' => System.step children s l = some s') trace s

/-- The runs whose actions meet a condition. -/
abbrev RunsWhen (Q : θ → (a : Action U ι) → Answer a → World U ι θ → Prop) (trace : List (Step U ι θ))
    (s : System U ι θ) : Prop :=
  Run System.Initial (fun s l s' => System.step children s l = some s' ∧ Threads.Meets s Q l) trace s

omit [DecidableEq ι] [DecidableEq θ] in
theorem initial_fresh (owned : ι → List Target) : System.Initial (.idle (.fresh (fun _ => []) owned) : System U ι θ) :=
  ⟨fun _ => [], owned, fun _ _ h => absurd h List.not_mem_nil, rfl⟩

variable {p : System U ι θ → Bool}

/-- A run whose actions meet a condition, to a state that passes a test, by executing its trace. -/
theorem exists_runsWhen (children : List ι) (q : θ → (a : Action U ι) → Answer a → World U ι θ → Bool)
    (owned : ι → List Target) (trace : List (Step U ι θ))
    (h : (trace.foldlM (fun (s : System U ι θ) l => if s.meets q l then System.step children s l else none)
      (.idle (.fresh (fun _ => []) owned))).any p = true) :
    ∃ s, RunsWhen children (fun t a r s => q t a r s = true) trace s ∧ p s = true :=
  Threads.run_of_any (initial_fresh owned) h

theorem exists_runs (children : List ι) (owned : ι → List Target) (trace : List (Step U ι θ))
    (h : (trace.foldlM (System.step children) (.idle (.fresh (fun _ => []) owned))).any p = true) :
    ∃ s, Runs children trace s ∧ p s = true :=
  Run.of_any (fun _ _ _ hstep => hstep) (initial_fresh owned) h

/-- What a task does, one action after the other. -/
def acts (t : θ) (steps : List ((a : Action U ι) × Answer a)) : List (Step U ι θ) :=
  steps.map fun step => .act t step.1 step.2

/-- The children answer one after the other. -/
def fanOutSteps : List ι → List (ChildAnswer U ι) → List ((a : Action U ι) × Answer a)
  | remaining, answer :: answers =>
    ⟨.rootsOfAny remaining, some answer⟩ :: fanOutSteps (remaining.erase answer.child) answers
  | _, [] => []

/-- A rebuild that finds nothing to confirm, from its fan-out on, with what the children own and the
generation it finds in force. -/
def rebuildSteps (gathered : FanOut U ι) (owned : List (ι × List Target)) (applied : ℕ) :
    List ((a : Action U ι) × Answer a) :=
  fanOutSteps (owned.map Prod.fst) gathered.answers.reverse ++
    [⟨.ownedTargets, owned⟩, ⟨.readQuarantined, gathered.quarantined⟩, ⟨.lockApplied, applied⟩,
      ⟨.installRoutes gathered, ()⟩,
      ⟨.installTargets gathered.targets, ()⟩, ⟨.releaseClaimsThrough gathered.generation, ()⟩, ⟨.sendSnapshot, ()⟩,
      ⟨.unlockApplied, ()⟩]

end Runs

end Code

end OvStorage.Routing
