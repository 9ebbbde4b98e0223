import OvStorage.Cache.Invalidation
import OvStorage.Lib.StableSort
import OvStorage.Lib.Transition
import Mathlib.Data.List.Lex
import Mathlib.Order.WithBot

/-!
# What the root watches have answered

`ScopedWatchState` of `ovstorage-plugin-cache/src/notification_drain.rs`: the advertised roots,
what the watch of each has answered, and the budget for probing below a root whose watch was
refused.

## The model

The drains report what became of their watches, each with the generation of the advertisement it
was opened under. They are cancelled without being aborted, so a report may come at any time.
Clock readings are parameters, and a generation is a number that does not wrap. The wakes of the
supervisor, the registry of scopes and the log are left out. Two history variables: what has been
noted of a root since it was refused or its last pause ran out, and the generations issued.

## What is proved

* `watch_fenced`: the contract of the state, after every sequence of operations.
-/

namespace OvStorage.Watch

open Address StableSort Option

/-- `MAX_CONSECUTIVE_SCOPE_FAILURES`. -/
def MAX_CONSECUTIVE_SCOPE_FAILURES : ℕ := 8

/-- `BARREN_ENDS_BEFORE_DISTRUST`. -/
def BARREN_ENDS_BEFORE_DISTRUST : ℕ := 2

/-- A moment, in nanoseconds. -/
abbrev Instant := ℕ

/-- `DENIED_SCOPE_RETRY`. -/
def DENIED_SCOPE_RETRY : ℕ := 300 * 1000000000

/-- `ScopeOutcome`. -/
inductive ScopeOutcome
  | Opened | Worked | Barren | Failed | OpenUnavailable
deriving DecidableEq

/-- `RootWatch`. -/
inductive RootWatch
  | Pending
  | Live
  | Refused (consecutiveFailures consecutiveBarren : ℕ) (pausedUntil : Option Instant)
  | Unwatchable
deriving DecidableEq

/-- `ScopedRoot`. -/
structure ScopedRoot where
  root : Url
  watch : RootWatch
  generation : ℕ
  /-- What was noted since it was refused or its last pause ran out, the last first. -/
  noted : List ScopeOutcome
deriving DecidableEq

/-- `RootView`. -/
structure RootView where
  root : Url
  generation : ℕ
  covers : Bool
  admitsProbes : Bool
deriving DecidableEq

/-- `ScopedWatchState`. -/
structure ScopedWatchState where
  roots : Table Bytes ScopedRoot
  nextGeneration : ℕ
  /-- The generations that advertisements have taken, the last first. -/
  issued : List ℕ

/-- `root_key`. -/
def rootKey (U : UrlCrate) (root : Url) : Bytes := nodeAddress (U.setPath root (nodePath root.toParts))

/-- One charge to the budget of a root. -/
def charge (consecutiveFailures consecutiveBarren : ℕ) (pausedUntil : Option Instant) (now : Instant) : RootWatch :=
  if MAX_CONSECUTIVE_SCOPE_FAILURES ≤ consecutiveFailures + 1 ∧ pausedUntil = none then
    .Refused (consecutiveFailures + 1) consecutiveBarren (some (now + DENIED_SCOPE_RETRY))
  else .Refused (consecutiveFailures + 1) consecutiveBarren pausedUntil

/-- What an outcome does to a root that is probing. -/
def noteOutcome (outcome : ScopeOutcome) (now : Instant) (record : ScopedRoot) : ScopedRoot :=
  match record.watch with
  | .Refused consecutiveFailures consecutiveBarren pausedUntil =>
    { record with
      noted := outcome :: record.noted
      watch := match outcome with
        | .Opened =>
          if consecutiveBarren < BARREN_ENDS_BEFORE_DISTRUST then .Refused 0 consecutiveBarren pausedUntil
          else record.watch
        | .Worked => .Refused 0 0 pausedUntil
        | .Barren =>
          if consecutiveBarren + 1 < BARREN_ENDS_BEFORE_DISTRUST then
            .Refused consecutiveFailures (consecutiveBarren + 1) pausedUntil
          else charge consecutiveFailures (consecutiveBarren + 1) pausedUntil now
        | .Failed | .OpenUnavailable => charge consecutiveFailures consecutiveBarren pausedUntil now }
  | _ => record

/-- A pause that has run out. -/
def expire (now : Instant) (record : ScopedRoot) : ScopedRoot :=
  match record.watch with
  | .Refused _ _ (some pausedUntil) =>
    if pausedUntil ≤ now then { record with watch := .Refused 0 0 none, noted := [] } else record
  | _ => record

/-- What a root's watch says to the selection of scopes. -/
def ScopedRoot.view (record : ScopedRoot) : RootView where
  root := record.root
  generation := record.generation
  covers := record.watch == .Live
  admitsProbes := match record.watch with
    | .Refused _ _ none => true
    | _ => false

/-- Texts compare by their bytes. -/
def textKey (text : Bytes) : List ℕ := text.map UInt8.toNat

/-- The order of views: the longest prefix first, then by `node_key`. -/
abbrev ViewKey := (ℕ ×ₗ Bool) ×ₗ (List ℕ ×ₗ WithBot (List ℕ) ×ₗ WithBot ℕ ×ₗ List ℕ ×ₗ WithBot (List ℕ))ᵒᵈ

def viewKey (view : RootView) : ViewKey :=
  let (scheme, host, port, path, query) := nodeKey view.root.toParts
  toLex (nodeRank view.root.toParts, OrderDual.toDual (toLex (textKey scheme, toLex (host.map textKey,
    toLex (port.map UInt16.toNat, toLex (textKey path, query.map textKey))))))

namespace ScopedWatchState

variable (U : UrlCrate) (s : ScopedWatchState)

/-- `advertise`. -/
def advertise (root : Url) : ScopedWatchState × ℕ :=
  match s.roots.get (rootKey U root) with
  | some record => (s, record.generation)
  | none =>
    ({ roots := s.roots.insert (rootKey U root) ⟨root, .Pending, s.nextGeneration, []⟩
       nextGeneration := s.nextGeneration + 1
       issued := s.nextGeneration :: s.issued }, s.nextGeneration)

/-- `retain_advertised`. -/
def retainAdvertised (advertised : List Url) : ScopedWatchState :=
  { s with roots := s.roots.retain fun key _ => advertised.any fun root => rootKey U root == key }

/-- `withdraw`. -/
def withdraw (root : Url) : ScopedWatchState := { s with roots := s.roots.erase (rootKey U root) }

/-- What every report of a drain does first: it speaks for the advertisement it was opened under,
if that is still the one there. -/
def report (root : Url) (generation : ℕ) (f : ScopedRoot → ScopedRoot) : ScopedWatchState :=
  { s with roots := s.roots.modify (rootKey U root) fun record =>
    if record.generation = generation then f record else record }

/-- `enter_scoped_mode`. -/
def enterScopedMode (root : Url) (generation : ℕ) : ScopedWatchState :=
  s.report U root generation fun record => match record.watch with
    | .Refused _ _ _ => record
    | _ => { record with watch := .Refused 0 0 none, noted := [] }

/-- `leave_scoped_mode`. -/
def leaveScopedMode (root : Url) (generation : ℕ) : ScopedWatchState :=
  s.report U root generation fun record => { record with watch := .Live }

/-- `root_unwatchable`. -/
def rootUnwatchable (root : Url) (generation : ℕ) : ScopedWatchState :=
  s.report U root generation fun record => { record with watch := .Unwatchable }

/-- `root_watch_ended`. -/
def rootWatchEnded (root : Url) (generation : ℕ) : ScopedWatchState :=
  s.report U root generation fun record => match record.watch with
    | .Live => { record with watch := .Pending }
    | _ => record

/-- `note_scope_outcome`. -/
def noteScopeOutcome (root : Url) (generation : ℕ) (outcome : ScopeOutcome) (now : Instant) : ScopedWatchState :=
  s.report U root generation (noteOutcome outcome now)

/-- What `root_views` leaves: pauses that have run out are over. -/
def expirePauses (now : Instant) : ScopedWatchState := { s with roots := s.roots.map fun record => expire now record }

/-- `root_views`. -/
def rootViews (now : Instant) : List RootView :=
  sortByKeyDesc viewKey ((s.expirePauses now).roots.rows.map fun row => row.2.view)

end ScopedWatchState

/-- What happens to the state: its owner's calls, the reads of the views, and the drains' reports. -/
inductive Event
  | advertise (root : Url)
  | retainAdvertised (advertised : List Url)
  | withdraw (root : Url)
  | rootViews (now : Instant)
  | enterScopedMode (root : Url) (generation : ℕ)
  | leaveScopedMode (root : Url) (generation : ℕ)
  | rootUnwatchable (root : Url) (generation : ℕ)
  | rootWatchEnded (root : Url) (generation : ℕ)
  | noteScopeOutcome (root : Url) (generation : ℕ) (outcome : ScopeOutcome) (now : Instant)

/-- What a drain's report carries. -/
def Event.carries : Event → Option (Url × ℕ)
  | .enterScopedMode root generation | .leaveScopedMode root generation | .rootUnwatchable root generation
  | .rootWatchEnded root generation | .noteScopeOutcome root generation _ _ => some (root, generation)
  | _ => none

/-- One operation. -/
def ScopedWatchState.handle (U : UrlCrate) (s : ScopedWatchState) : Event → ScopedWatchState
  | .advertise root => (s.advertise U root).1
  | .retainAdvertised advertised => s.retainAdvertised U advertised
  | .withdraw root => s.withdraw U root
  | .rootViews now => s.expirePauses now
  | .enterScopedMode root generation => s.enterScopedMode U root generation
  | .leaveScopedMode root generation => s.leaveScopedMode U root generation
  | .rootUnwatchable root generation => s.rootUnwatchable U root generation
  | .rootWatchEnded root generation => s.rootWatchEnded U root generation
  | .noteScopeOutcome root generation outcome now => s.noteScopeOutcome U root generation outcome now

/-- `ScopedWatchState::new`. -/
def ScopedWatchState.new : ScopedWatchState := ⟨.empty, 0, []⟩

/-- The state after a sequence of operations. -/
def ScopedWatchState.after (U : UrlCrate) (events : List Event) : ScopedWatchState :=
  events.foldl (ScopedWatchState.handle U) .new

/-! ### What the counters come to -/

/-- The barren stream ends since a stream last worked. -/
def barrenRow : List ScopeOutcome → ℕ
  | [] => 0
  | .Worked :: _ => 0
  | .Barren :: older => barrenRow older + 1
  | .Opened :: older | .Failed :: older | .OpenUnavailable :: older => barrenRow older

/-- An outcome that costs budget: a barren end does from the second in a row on. -/
def charged (outcome : ScopeOutcome) (older : List ScopeOutcome) : Bool :=
  match outcome with
  | .Failed | .OpenUnavailable => true
  | .Barren => decide (2 ≤ barrenRow older + 1)
  | .Opened | .Worked => false

/-- An outcome that gives the budget back: an open does while barren ends have not cost any. -/
def refunds (outcome : ScopeOutcome) (older : List ScopeOutcome) : Bool :=
  match outcome with
  | .Worked => true
  | .Opened => decide (barrenRow older < BARREN_ENDS_BEFORE_DISTRUST)
  | .Failed | .OpenUnavailable | .Barren => false

/-- The charged outcomes since the last refund. -/
def chargedSinceRefund : List ScopeOutcome → ℕ
  | [] => 0
  | outcome :: older =>
    if refunds outcome older then 0
    else if charged outcome older then chargedSinceRefund older + 1
    else chargedSinceRefund older

/-- The counters of a record are what was noted of it, and its budget is spent only in a pause. -/
structure Counted (record : ScopedRoot) : Prop where
  counters : ∀ {failures barren pause}, record.watch = .Refused failures barren pause →
    failures = chargedSinceRefund record.noted ∧ barren = barrenRow record.noted
  unspent : ∀ {failures barren}, record.watch = .Refused failures barren none →
    failures < MAX_CONSECUTIVE_SCOPE_FAILURES

/-- The root is waiting out a spent budget. -/
def ScopedRoot.paused (record : ScopedRoot) : Bool :=
  match record.watch with
  | .Refused _ _ (some _) => true
  | _ => false

/-- A change of a record that keeps whose it is and what its counters mean, and starts a pause
only over a spent budget. -/
structure Change (f : ScopedRoot → ScopedRoot) : Prop where
  root : ∀ record, (f record).root = record.root
  generation : ∀ record, (f record).generation = record.generation
  counted : ∀ {record}, Counted record → Counted (f record)
  spent : ∀ {record}, Counted record → record.paused = false → (f record).paused = true →
    MAX_CONSECUTIVE_SCOPE_FAILURES ≤ chargedSinceRefund (f record).noted

variable {record : ScopedRoot}

theorem counted_of_not_refused (h : ∀ failures barren pause, record.watch ≠ .Refused failures barren pause) :
    Counted record :=
  ⟨fun hw => absurd hw (h _ _ _), fun hw => absurd hw (h _ _ _)⟩

/-- A root that starts to probe has all of its budget. -/
theorem counted_fresh (root : Url) (generation : ℕ) : Counted ⟨root, .Refused 0 0 none, generation, []⟩ where
  counters h := by
    cases h
    exact ⟨rfl, rfl⟩
  unspent h := by
    cases h
    exact Nat.zero_lt_succ _

theorem Change.id : Change id :=
  ⟨fun _ => rfl, fun _ => rfl, fun h => h, fun _ h h' => absurd (h.symm.trans h') Bool.false_ne_true⟩

/-! ### What the drains' reports and the clock change -/

variable {outcome : ScopeOutcome}

theorem chargedSinceRefund_charged {older : List ScopeOutcome}
    (hrefund : refunds outcome older = false) (hcharged : charged outcome older = true) :
    chargedSinceRefund (outcome :: older) = chargedSinceRefund older + 1 := by
  rw [chargedSinceRefund, hrefund, hcharged]
  rfl

variable {failures barren : ℕ}

/-- A charge counts one more, and it starts a pause when that spends the budget. -/
theorem counted_charge (hc : Counted record) {pause : Option Instant}
    (hw : record.watch = .Refused failures barren pause) {row : ℕ} (now : Instant)
    (hrefund : refunds outcome record.noted = false) (hcharged : charged outcome record.noted = true)
    (hrow : row = barrenRow (outcome :: record.noted)) :
    Counted { record with noted := outcome :: record.noted, watch := charge failures row pause now } := by
  have hcount : failures + 1 = chargedSinceRefund (outcome :: record.noted) := by
    rw [chargedSinceRefund_charged hrefund hcharged, (hc.counters hw).1]
  constructor
  · intro failures' barren' pause' h
    dsimp only at h ⊢
    rw [charge] at h
    split_ifs at h with hspent
    · cases h
      exact ⟨hcount, hrow⟩
    · cases h
      exact ⟨hcount, hrow⟩
  · intro failures' barren' h
    dsimp only at h
    rw [charge] at h
    split_ifs at h with hspent
    · obtain ⟨-, -, hpause⟩ := RootWatch.Refused.inj h
      exact absurd hpause (some_ne_none _)
    · obtain ⟨rfl, -, hpause⟩ := RootWatch.Refused.inj h
      exact Nat.lt_of_not_le fun hle => hspent ⟨hle, hpause⟩

theorem counted_noteOutcome (outcome : ScopeOutcome) (now : Instant) (hc : Counted record) :
    Counted (noteOutcome outcome now record) := by
  unfold noteOutcome
  cases hw : record.watch with
  | Refused failures barren pause =>
    obtain ⟨hfailures, hbarren⟩ := hc.counters hw
    cases outcome with
    | Opened =>
      dsimp only
      split_ifs with hlt
      · -- the barren history has cost nothing: the budget is refunded
        constructor
        · intro _ _ _ h
          cases h
          rw [hbarren] at hlt
          exact ⟨by simp [chargedSinceRefund, refunds, hlt], hbarren⟩
        · intro _ _ h
          cases h
          exact Nat.zero_lt_succ _
      · constructor
        · intro _ _ _ h
          cases h
          rw [hbarren] at hlt
          exact ⟨by simp [chargedSinceRefund, refunds, charged, hlt, hfailures], hbarren⟩
        · intro _ _ h
          exact hc.unspent (hw.trans h)
    | Worked =>
      constructor
      · intro _ _ _ h
        cases h
        exact ⟨rfl, rfl⟩
      · intro _ _ h
        cases h
        exact Nat.zero_lt_succ _
    | Barren =>
      dsimp only
      split_ifs with hlt
      · -- the first in a row
        have hfree : charged .Barren record.noted = false := by
          rw [hbarren, BARREN_ENDS_BEFORE_DISTRUST] at hlt
          exact decide_eq_false (by omega)
        constructor
        · intro _ _ _ h
          cases h
          exact ⟨by simp [chargedSinceRefund, refunds, hfree, hfailures], by rw [barrenRow, hbarren]⟩
        · intro _ _ h
          cases h
          exact hc.unspent hw
      · have hcharged : charged .Barren record.noted = true := by
          rw [hbarren, BARREN_ENDS_BEFORE_DISTRUST] at hlt
          exact decide_eq_true (by omega)
        exact counted_charge hc hw now rfl hcharged (by rw [barrenRow, hbarren])
    | Failed => exact counted_charge hc hw now rfl rfl hbarren
    | OpenUnavailable => exact counted_charge hc hw now rfl rfl hbarren
  | Pending => exact hc
  | Live => exact hc
  | Unwatchable => exact hc

theorem paused_eq_true (h : record.paused = true) :
    ∃ failures barren until_, record.watch = .Refused failures barren (some until_) := by
  unfold ScopedRoot.paused at h
  split at h
  · exact ⟨_, _, _, ‹_›⟩
  · exact absurd h Bool.false_ne_true

/-- Only a charge that spends the budget starts a pause. -/
theorem charge_paused {now : Instant} {failures' barren' until_ : ℕ}
    (h : charge failures barren none now = .Refused failures' barren' (some until_)) :
    MAX_CONSECUTIVE_SCOPE_FAILURES ≤ failures' := by
  rw [charge] at h
  split_ifs at h with hspent
  · cases h
    exact hspent.1
  · obtain ⟨-, -, hpause⟩ := RootWatch.Refused.inj h
    exact absurd hpause.symm (some_ne_none _)

theorem change_noteOutcome (outcome : ScopeOutcome) (now : Instant) : Change (noteOutcome outcome now) where
  root record := by
    unfold noteOutcome
    cases record.watch <;> rfl
  generation record := by
    unfold noteOutcome
    cases record.watch <;> rfl
  counted := counted_noteOutcome outcome now
  spent := by
    intro record hc hbefore hafter
    obtain ⟨failures', barren', until_, hw'⟩ := paused_eq_true hafter
    rw [← ((counted_noteOutcome outcome now hc).counters hw').1]
    unfold noteOutcome at hw'
    cases hw : record.watch with
    | Refused failures barren pause =>
      obtain rfl : pause = none := by
        cases pause with
        | none => rfl
        | some until' => simp [ScopedRoot.paused, hw] at hbefore
      rw [hw] at hw'
      cases outcome with
      | Opened => dsimp only at hw'; split_ifs at hw' <;> simp at hw'
      | Worked => simp at hw'
      | Barren =>
        dsimp only at hw'
        split_ifs at hw'
        · simp at hw'
        · exact charge_paused hw'
      | Failed => exact charge_paused hw'
      | OpenUnavailable => exact charge_paused hw'
    | Pending => simp [hw] at hw'
    | Live => simp [hw] at hw'
    | Unwatchable => simp [hw] at hw'

/-- Setting a watch that is not `Refused`. -/
theorem change_settle {watch : RootWatch} (h : ∀ failures barren pause, watch ≠ .Refused failures barren pause) :
    Change fun record => { record with watch := watch } where
  root _ := rfl
  generation _ := rfl
  counted _ := counted_of_not_refused h
  spent _ _ hafter := by
    obtain ⟨_, _, _, hw⟩ := paused_eq_true hafter
    exact absurd hw (h _ _ _)

theorem change_enterScopedMode : Change fun record => match record.watch with
    | .Refused _ _ _ => record
    | _ => { record with watch := .Refused 0 0 none, noted := [] } where
  root record := by cases record.watch <;> rfl
  generation record := by cases record.watch <;> rfl
  counted {record} hc := by
    cases record.watch with
    | Refused _ _ _ => exact hc
    | Pending => exact counted_fresh record.root record.generation
    | Live => exact counted_fresh record.root record.generation
    | Unwatchable => exact counted_fresh record.root record.generation
  spent {record} _ hbefore hafter := by
    cases hw : record.watch with
    | Refused _ _ _ =>
      rw [hw] at hafter
      exact absurd (hbefore.symm.trans hafter) Bool.false_ne_true
    | Pending => simp [ScopedRoot.paused, hw] at hafter
    | Live => simp [ScopedRoot.paused, hw] at hafter
    | Unwatchable => simp [ScopedRoot.paused, hw] at hafter

theorem change_rootWatchEnded : Change fun record => match record.watch with
    | .Live => { record with watch := .Pending }
    | _ => record where
  root record := by cases record.watch <;> rfl
  generation record := by cases record.watch <;> rfl
  counted {record} hc := by
    cases record.watch with
    | Live => exact counted_of_not_refused fun _ _ _ => RootWatch.noConfusion
    | Refused _ _ _ => exact hc
    | Pending => exact hc
    | Unwatchable => exact hc
  spent {record} _ hbefore hafter := by
    cases hw : record.watch with
    | Live => simp [ScopedRoot.paused, hw] at hafter
    | Refused _ _ _ | Pending | Unwatchable =>
      rw [hw] at hafter
      exact absurd (hbefore.symm.trans hafter) Bool.false_ne_true

theorem change_expire (now : Instant) : Change (expire now) where
  root record := by
    unfold expire
    split
    · split_ifs <;> rfl
    · rfl
  generation record := by
    unfold expire
    split
    · split_ifs <;> rfl
    · rfl
  counted {record} hc := by
    unfold expire
    split
    · split_ifs
      · exact counted_fresh record.root record.generation
      · exact hc
    · exact hc
  spent {record} _ hbefore hafter := by
    unfold expire at hafter
    split at hafter
    · split_ifs at hafter
      · exact absurd hafter Bool.false_ne_true
      · exact absurd (hbefore.symm.trans hafter) Bool.false_ne_true
    · exact absurd (hbefore.symm.trans hafter) Bool.false_ne_true

/-! ### Every operation -/

section Operations

variable {U : UrlCrate} {s : ScopedWatchState}

/-- A report speaks to the record of its root, if that has the generation it carries. -/
theorem get_report (root : Url) (generation : ℕ) (f : ScopedRoot → ScopedRoot) (key : Bytes) :
    (s.report U root generation f).roots.get key =
      (s.roots.get key).map fun record =>
        if key = rootKey U root ∧ record.generation = generation then f record else record := by
  unfold ScopedWatchState.report
  dsimp only
  by_cases hk : key = rootKey U root
  · subst hk
    rw [Table.get_modify_self]
    simp
  · rw [Table.get_modify_of_ne _ _ hk]
    simp [hk]

/-- What a report does is one `Change` of the record it speaks to. -/
theorem handle_report {event : Event} {root : Url} {generation : ℕ} (h : event.carries = some (root, generation)) :
    ∃ f, Change f ∧ s.handle U event = s.report U root generation f := by
  cases event with
  | enterScopedMode =>
    cases h
    exact ⟨_, change_enterScopedMode, rfl⟩
  | leaveScopedMode =>
    cases h
    exact ⟨_, change_settle fun _ _ _ => RootWatch.noConfusion, rfl⟩
  | rootUnwatchable =>
    cases h
    exact ⟨_, change_settle fun _ _ _ => RootWatch.noConfusion, rfl⟩
  | rootWatchEnded =>
    cases h
    exact ⟨_, change_rootWatchEnded, rfl⟩
  | noteScopeOutcome _ _ outcome now =>
    cases h
    exact ⟨_, change_noteOutcome outcome now, rfl⟩
  | advertise => exact absurd h (some_ne_none _).symm
  | retainAdvertised => exact absurd h (some_ne_none _).symm
  | withdraw => exact absurd h (some_ne_none _).symm
  | rootViews => exact absurd h (some_ne_none _).symm

/-- A record after an operation is one that was there, changed, or that of a new advertisement. -/
theorem handle_cases {event : Event} {key : Bytes} {record' : ScopedRoot}
    (h : (s.handle U event).roots.get key = some record') :
    (∃ record f, s.roots.get key = some record ∧ Change f ∧ record' = f record) ∨
      ∃ root, event = .advertise root ∧ s.roots.get (rootKey U root) = none ∧ key = rootKey U root ∧
        record' = ⟨root, .Pending, s.nextGeneration, []⟩ := by
  cases hcarries : event.carries with
  | some carried =>
    obtain ⟨root, generation⟩ := carried
    obtain ⟨f, hf, hhandle⟩ := handle_report (U := U) (s := s) hcarries
    rw [hhandle, get_report] at h
    obtain ⟨record, hrecord, rfl⟩ := map_eq_some_iff.mp h
    left
    split_ifs
    · exact ⟨record, f, hrecord, hf, rfl⟩
    · exact ⟨record, id, hrecord, .id, rfl⟩
  | none =>
    cases event with
    | advertise root =>
      simp only [ScopedWatchState.handle, ScopedWatchState.advertise] at h
      cases hget : s.roots.get (rootKey U root) with
      | some record =>
        rw [hget] at h
        exact Or.inl ⟨record', id, h, .id, rfl⟩
      | none =>
        rw [hget] at h
        by_cases hk : key = rootKey U root
        · rw [hk, Table.get_insert_self] at h
          exact Or.inr ⟨root, rfl, hget, hk, (Option.some.inj h).symm⟩
        · rw [Table.get_insert_of_ne _ _ hk] at h
          exact Or.inl ⟨record', id, h, .id, rfl⟩
    | retainAdvertised advertised =>
      simp only [ScopedWatchState.handle, ScopedWatchState.retainAdvertised, Table.get_retain] at h
      exact Or.inl ⟨record', id, (filter_eq_some_iff.mp h).1, .id, rfl⟩
    | withdraw root =>
      simp only [ScopedWatchState.handle, ScopedWatchState.withdraw, Table.erase, Table.get_retain] at h
      exact Or.inl ⟨record', id, (filter_eq_some_iff.mp h).1, .id, rfl⟩
    | rootViews now =>
      simp only [ScopedWatchState.handle, ScopedWatchState.expirePauses, Table.get_map] at h
      obtain ⟨record, hrecord, rfl⟩ := map_eq_some_iff.mp h
      exact Or.inl ⟨record, expire now, hrecord, change_expire now, rfl⟩
    | enterScopedMode | leaveScopedMode | rootUnwatchable | rootWatchEnded | noteScopeOutcome =>
      exact absurd hcarries (some_ne_none _)

/-- Generations are taken by new advertisements alone, each time the next one. -/
theorem handle_issued (event : Event) :
    ((s.handle U event).issued = s.issued ∧ (s.handle U event).nextGeneration = s.nextGeneration ∧
      ∀ root, event = .advertise root → s.roots.get (rootKey U root) ≠ none) ∨
    ((s.handle U event).issued = s.nextGeneration :: s.issued ∧
      (s.handle U event).nextGeneration = s.nextGeneration + 1) := by
  cases event with
  | advertise root =>
    simp only [ScopedWatchState.handle, ScopedWatchState.advertise]
    cases hget : s.roots.get (rootKey U root) with
    | some record =>
      refine Or.inl ⟨rfl, rfl, fun root' h => ?_⟩
      obtain rfl := Event.advertise.inj h
      simp [hget]
    | none => exact Or.inr ⟨rfl, rfl⟩
  | retainAdvertised | withdraw | rootViews | enterScopedMode | leaveScopedMode | rootUnwatchable
  | rootWatchEnded | noteScopeOutcome => exact Or.inl ⟨rfl, rfl, fun _ h => Event.noConfusion h⟩

/-! ### Every sequence of operations -/

/-- What holds after every sequence of operations. -/
structure Inv (s : ScopedWatchState) : Prop where
  issued_nodup : s.issued.Nodup
  issued_lt : ∀ generation ∈ s.issued, generation < s.nextGeneration
  generation_mem : ∀ {key record}, s.roots.get key = some record → record.generation ∈ s.issued
  generation_inj : ∀ {key key' record record'}, s.roots.get key = some record → s.roots.get key' = some record' →
    record.generation = record'.generation → key = key'
  counted : ∀ {key record}, s.roots.get key = some record → Counted record

theorem inv_new : Inv .new where
  issued_nodup := List.nodup_nil
  issued_lt _ h := absurd h List.not_mem_nil
  generation_mem h := absurd h (some_ne_none _).symm
  generation_inj h := absurd h (some_ne_none _).symm
  counted h := absurd h (some_ne_none _).symm

theorem Inv.handle (hi : Inv s) (event : Event) : Inv (s.handle U event) := by
  have hissued : ∀ generation ∈ s.issued, generation ∈ (s.handle U event).issued := by
    intro generation hg
    rcases handle_issued (U := U) (s := s) event with ⟨h, -⟩ | ⟨h, -⟩ <;> rw [h]
    · exact hg
    · exact List.mem_cons_of_mem _ hg
  -- a new advertisement has taken the next generation
  have hnew : ∀ {root}, event = .advertise root → s.roots.get (rootKey U root) = none →
      s.nextGeneration ∈ (s.handle U event).issued := by
    intro root he hnone
    rcases handle_issued (U := U) (s := s) event with ⟨-, -, hknown⟩ | ⟨h, -⟩
    · exact absurd hnone (hknown root he)
    · rw [h]
      exact List.mem_cons_self
  constructor
  · rcases handle_issued (U := U) (s := s) event with ⟨h, -⟩ | ⟨h, -⟩ <;> rw [h]
    · exact hi.issued_nodup
    · exact List.nodup_cons.mpr ⟨fun hm => lt_irrefl _ (hi.issued_lt _ hm), hi.issued_nodup⟩
  · intro generation hg
    rcases handle_issued (U := U) (s := s) event with ⟨h, hnext, -⟩ | ⟨h, hnext⟩ <;> rw [hnext] <;> rw [h] at hg
    · exact hi.issued_lt generation hg
    · rcases List.mem_cons.mp hg with rfl | hg
      · exact Nat.lt_succ_self _
      · exact Nat.lt_succ_of_lt (hi.issued_lt generation hg)
  · intro key record' h
    rcases handle_cases h with ⟨record, f, hrecord, hf, rfl⟩ | ⟨root, he, hnone, -, rfl⟩
    · rw [hf.generation]
      exact hissued _ (hi.generation_mem hrecord)
    · exact hnew he hnone
  · intro key₁ key₂ record₁' record₂' h₁ h₂ heq
    rcases handle_cases h₁ with ⟨record₁, f₁, hr₁, hf₁, rfl⟩ | ⟨root₁, he₁, -, hk₁, rfl⟩ <;>
      rcases handle_cases h₂ with ⟨record₂, f₂, hr₂, hf₂, rfl⟩ | ⟨root₂, he₂, -, hk₂, rfl⟩
    · rw [hf₁.generation, hf₂.generation] at heq
      exact hi.generation_inj hr₁ hr₂ heq
    · rw [hf₁.generation] at heq
      exact absurd (hi.issued_lt _ (hi.generation_mem hr₁)) (by rw [heq]; exact lt_irrefl _)
    · rw [hf₂.generation] at heq
      exact absurd (hi.issued_lt _ (hi.generation_mem hr₂)) (by rw [← heq]; exact lt_irrefl _)
    · obtain rfl := Event.advertise.inj (he₁.symm.trans he₂)
      rw [hk₁, hk₂]
  · intro key record' h
    rcases handle_cases h with ⟨record, f, hrecord, hf, rfl⟩ | ⟨root, -, -, -, rfl⟩
    · exact hf.counted (hi.counted hrecord)
    · exact counted_of_not_refused fun _ _ _ => RootWatch.noConfusion

theorem inv_after (U : UrlCrate) (events : List Event) : Inv (.after U events) := by
  unfold ScopedWatchState.after
  induction events using List.reverseRecOn with
  | nil => exact inv_new
  | append_singleton events event ih =>
    rw [List.foldl_append]
    exact ih.handle event

/-- What one more operation does in a state, said of the generations, the reports and the budgets. -/
structure Fenced (U : UrlCrate) (s : ScopedWatchState) (event : Event) : Prop where
  /-- No two advertisements have taken one generation, and each record is of one of them. -/
  issued_nodup : s.issued.Nodup
  generation_mem : ∀ {key record}, s.roots.get key = some record → record.generation ∈ s.issued
  generation_inj : ∀ {key key' record record'}, s.roots.get key = some record → s.roots.get key' = some record' →
    record.generation = record'.generation → key = key'
  /-- A new advertisement takes a generation that none has taken. -/
  advertise_fresh : ∀ {root}, event = .advertise root → s.roots.get (rootKey U root) = none →
    (s.advertise U root).2 ∉ s.issued ∧ (s.handle U event).issued = (s.advertise U root).2 :: s.issued ∧
      ∃ record, (s.handle U event).roots.get (rootKey U root) = some record ∧
        record.generation = (s.advertise U root).2
  /-- A report only changes the record of its root, which has the generation it carries. -/
  report_current : ∀ {root generation}, event.carries = some (root, generation) → ∀ {key},
    (s.handle U event).roots.get key ≠ s.roots.get key →
      key = rootKey U root ∧ ∃ record, s.roots.get key = some record ∧ record.generation = generation
  /-- A report creates no record. -/
  report_absent : ∀ {carried}, event.carries = some carried → ∀ {key},
    s.roots.get key = none → (s.handle U event).roots.get key = none
  /-- A root that probes has budget left. -/
  unspent : ∀ {key record failures barren}, s.roots.get key = some record →
    record.watch = .Refused failures barren none →
    failures < MAX_CONSECUTIVE_SCOPE_FAILURES
  /-- A pause begins over a spent budget: the outcomes charged since the root was refused, came
  out of a pause or was refunded last. -/
  spent : ∀ {key record'}, (s.handle U event).roots.get key = some record' → record'.paused = true →
    (∀ {record}, s.roots.get key = some record → record.paused = false) →
      MAX_CONSECUTIVE_SCOPE_FAILURES ≤ chargedSinceRefund record'.noted

/-- The contract of the root watches, after every sequence of operations. -/
theorem watch_fenced (U : UrlCrate) (events : List Event) (event : Event) : Fenced U (.after U events) event := by
  have hi := inv_after U events
  generalize ScopedWatchState.after U events = s at hi
  refine ⟨hi.issued_nodup, hi.generation_mem, hi.generation_inj, ?_, ?_, ?_, fun h hw => (hi.counted h).unspent hw, ?_⟩
  · rintro root rfl hnone
    have hadvertise : s.advertise U root =
        (⟨s.roots.insert (rootKey U root) ⟨root, .Pending, s.nextGeneration, []⟩, s.nextGeneration + 1,
          s.nextGeneration :: s.issued⟩, s.nextGeneration) := by
      rw [ScopedWatchState.advertise, hnone]
    rw [ScopedWatchState.handle, hadvertise]
    exact ⟨fun hm => lt_irrefl _ (hi.issued_lt _ hm), rfl, _, Table.get_insert_self _ _ _, rfl⟩
  · intro root generation hcarries key hne
    obtain ⟨f, -, hhandle⟩ := handle_report (U := U) (s := s) hcarries
    rw [hhandle, get_report] at hne
    cases hget : s.roots.get key with
    | none => simp [hget] at hne
    | some record =>
      rw [hget, map_some] at hne
      split_ifs at hne with hspeaks
      · exact ⟨hspeaks.1, record, rfl, hspeaks.2⟩
      · exact absurd rfl hne
  · rintro ⟨root, generation⟩ hcarries key hnone
    obtain ⟨f, -, hhandle⟩ := handle_report (U := U) (s := s) hcarries
    rw [hhandle, get_report, hnone, map_none]
  · intro key record' h hpaused hbefore
    rcases handle_cases h with ⟨record, f, hrecord, hf, rfl⟩ | ⟨root, -, -, -, rfl⟩
    · exact hf.spent (hi.counted hrecord) (hbefore hrecord) hpaused
    · exact absurd hpaused Bool.false_ne_true

end Operations

end OvStorage.Watch
