import OvStorage.Connections.Changes

/-!
# One refresh for each expiry

Operations on one connection fail where the credentials that they started on have expired, and
recover: each such generation of credentials is refreshed once, for all the operations that failed
on it, as long as each takes, when it has failed, the generation that it started on (`Prompt`).

## The two counts

Under the single-flight lock a recovery that finds its generation drives a grant and commits it.
While nobody is in the lock, a grant was driven for each generation before the current one, and as
many refreshes are counted as there were commits; so whoever finds its generation still there finds
the count of refreshes too, and never shares a failure.
-/

namespace OvStorage.Connections.Expiry

open Interleave Contract

/-- What is done with the connection: operations, each with its recovery, while credentials expire. -/
inductive Operation
  | withRecovery
  | expire

def Operation.program (C : Config) (id : ConnectionId) (e : EntryRef) : Operation → Program
  | .withRecovery => recover C id
  | .expire => Connections.expire e

section Statement

variable {ι : Type}

/-- Refreshes, and what they need of the store and the cross-process lock, succeed. -/
def Succeeds : (a : Action) → Answer a → Bool
  | .load _, .error _ => false
  | .change _ (.refresh _), .error _ => false
  | .lockRefresh _ _, .Failed _ => false
  | .unlockRefresh _, some _ => false
  | _, _ => true

/-- An operation fails on its credentials where these have expired since it started, or had before. -/
def Expires (C : Config) (t : ι) (s : ConnectionSet ι) : (a : Action) → Answer a → Bool
  | .endOp, outcome =>
    (outcome.any fun error => C.classify error == .RecoverableCredential) == s.past.expired.contains (s.past.started t)
  | _, _ => true

/-- An operation that has failed takes the generation that it started on. -/
def Prompt (t : ι) (s : ConnectionSet ι) : Action → Bool
  | .change e .captureGen => (s.vault.heap e).credGen == s.past.started t
  | _ => true

/-- The entry is registered, and nothing is in progress. -/
structure Start (id : ConnectionId) (e : EntryRef) (gen refreshes : ℕ) (s : Threads ι (ConnectionSet ι) Answer) :
    Prop where
  idle : ∀ t, s.progs t = .ret
  entry : s.shared.vault.entries.get id = some e
  keyed : (s.shared.vault.heap e).id = id
  held : ∀ l, s.shared.vault.held l = none
  gen : (s.shared.vault.heap e).credGen = gen
  refreshes : (s.shared.face.refreshGens.get id).getD 0 = refreshes
  failed : ∀ t, s.shared.past.failed t = []
  driven : s.shared.past.driven = []

variable [DecidableEq ι]

/-- The runs in which refreshes succeed, whose steps meet a condition. -/
def Runs (C : Config) (id : ConnectionId) (e : EntryRef) (gen refreshes : ℕ)
    (q : ι → (a : Action) → Answer a → ConnectionSet ι → Bool) :
    List (Event ι Operation Answer) → Threads ι (ConnectionSet ι) Answer → Prop :=
  Run (Start id e gen refreshes) fun s l s' => s.step (Action.exec C) (Operation.program C id e) l = some s' ∧
    s.Meets (fun t a r s => (Succeeds a r && Expires C t s a r && q t a r s) = true) l

/-- No grant is driven for credentials that have been replaced, and for each that operations have
failed on exactly one is. -/
structure OneRefresh (C : Config) (id : ConnectionId) (e : EntryRef) (s : Threads ι (ConnectionSet ι) Answer) :
    Prop where
  current : ∀ t base refreshed s',
    s.step (Action.exec C) (Operation.program C id e) (.act t (.change e (.refresh base)) (.ok refreshed)) = some s' →
    (s.shared.vault.heap e).credGen ≤ s.shared.past.started t
  once : s.shared.past.driven.Nodup
  driven : (∀ t, s.progs t = .ret) → ∀ t, ∀ gen ∈ s.shared.past.failed t, gen ∈ s.shared.past.driven

end Statement

section Contract

variable {ι : Type} [DecidableEq ι]

/-- What recoveries go by. -/
structure View where
  credGen : ℕ
  identityGen : ℕ
  refreshGen : ℕ
  driven : List ℕ

def view (id : ConnectionId) (e : EntryRef) (s : ConnectionSet ι) : View :=
  ⟨(s.vault.heap e).credGen, (s.vault.heap e).identityGen, (s.face.refreshGens.get id).getD 0, s.past.driven⟩

/-- The generations for which a grant was driven are those from `gen` up to the bound. -/
def View.Drove (gen bound : ℕ) (v : View) : Prop := ∀ g, g ∈ v.driven ↔ gen ≤ g ∧ g < bound

/-- A grant was driven, and counted, for each generation before the current one. -/
structure View.Settled (gen refreshes : ℕ) (v : View) : Prop where
  drove : v.Drove gen v.credGen
  counted : v.refreshGen + gen = v.credGen + refreshes

/-- Nobody is in the single-flight lock of the connection. -/
def Free (id : ConnectionId) (s : ConnectionSet ι) : Prop :=
  ∀ made, s.vault.bringupLocks.get id = some made → s.vault.held (.bringup made) = none

structure Inv (id : ConnectionId) (e : EntryRef) (gen refreshes : ℕ) (s : ConnectionSet ι) : Prop where
  entry : s.vault.entries.get id = some e
  keyed : (s.vault.heap e).id = id
  nodup : s.past.driven.Nodup
  low : gen ≤ (s.vault.heap e).credGen
  counted : (view id e s).credGen + refreshes ≤ (view id e s).refreshGen + gen
  settled : Free id s → (view id e s).Settled gen refreshes

/-- Who is in the single-flight lock keeps it, and nobody else changes what recoveries go by. -/
structure Rely (id : ConnectionId) (e : EntryRef) (t : ι) (s s' : ConnectionSet ι) : Prop where
  locks : ∀ made, s.vault.bringupLocks.get id = some made → s'.vault.bringupLocks.get id = some made
  held : ∀ made, s'.vault.held (.bringup made) = some t ↔ s.vault.held (.bringup made) = some t
  started : s'.past.started t = s.past.started t
  failed : s'.past.failed t = s.past.failed t
  driven : s.past.driven ⊆ s'.past.driven
  credGen : (view id e s).credGen ≤ (view id e s').credGen
  refreshGen : (view id e s).refreshGen ≤ (view id e s').refreshGen
  view : ∀ made, s.vault.bringupLocks.get id = some made → s.vault.held (.bringup made) = some t →
    view id e s' = view id e s

/-- The thread is in no single-flight lock. -/
def Outside (t : ι) (s : ConnectionSet ι) : Prop := ∀ made, s.vault.held (.bringup made) ≠ some t

/-- And a grant was driven for all that its operations have failed on. -/
structure Quiet (t : ι) (s : ConnectionSet ι) : Prop where
  outside : Outside t s
  driven : s.past.failed t ⊆ s.past.driven

/-- The thread drives no grant for credentials that have been replaced. -/
def Current (e : EntryRef) (t : ι) (s : ConnectionSet ι) : Action → Prop
  | .change e' (.refresh _) => e' = e → (s.vault.heap e).credGen ≤ s.past.started t
  | _ => True

def contract (C : Config) (id : ConnectionId) (e : EntryRef) (gen refreshes : ℕ) :
    Contract (Action.exec (ι := ι) C) where
  allowed t a r s := (Succeeds a r && Expires C t s a r && Prompt t s a) = true
  inv := Inv id e gen refreshes
  guar t a s s' := (∀ t' ≠ t, Rely id e t' s s') ∧ Current e t s a
  rely := Rely id e
  quiet := Quiet
  rely_refl _ _ := ⟨fun _ h => h, fun _ => Iff.rfl, rfl, rfl, fun _ h => h, le_rfl, le_rfl, fun _ _ _ => rfl⟩
  rely_trans h₁ h₂ := {
    locks := fun made h => h₂.locks made (h₁.locks made h)
    held := fun made => (h₂.held made).trans (h₁.held made)
    started := h₂.started.trans h₁.started
    failed := h₂.failed.trans h₁.failed
    driven := List.Subset.trans h₁.driven h₂.driven
    credGen := h₁.credGen.trans h₂.credGen
    refreshGen := h₁.refreshGen.trans h₂.refreshGen
    view := fun made hmade hheld =>
      (h₂.view made (h₁.locks made hmade) ((h₁.held made).mpr hheld)).trans (h₁.view made hmade hheld) }
  rely_of_guar ht h := h.1 _ ht
  quiet_of_rely h hs := ⟨fun made hheld => hs.outside made ((h.held made).mp hheld), by
    rw [h.failed]
    exact List.Subset.trans hs.driven h.driven⟩

end Contract

/-! ### The steps -/

section Steps

variable {ι : Type} [DecidableEq ι] {C : Config} {id : ConnectionId} {e : EntryRef} {gen refreshes : ℕ} {t : ι}
  {a : Action}
  {r : Answer a} {s s' : ConnectionSet ι}

/-- The steps of a recovery that are of no account here. -/
def tame : Action → Bool
  | .ask _ _ | .tell _ .emitUpdatedIfLive | .tell _ (.park _ _) | .tell _ (.parkAndEmitIfLive _ _)
  | .change _ (.commitGrant _ _ _) | .change _ (.persist _) | .change _ (.setDebt _) | .change _ (.delete _)
  | .entry _ | .lock (.purge _) | .unlock (.purge _) | .lockRefresh _ _ | .unlockRefresh _ | .load _ | .endOp
  | .expire _ => true
  | _ => false

/-- The registry and the single-flight locks are as they were, and no operation has started or failed. -/
structure Keeps (s s' : ConnectionSet ι) : Prop where
  entries : s'.vault.entries = s.vault.entries
  bringupLocks : s'.vault.bringupLocks = s.vault.bringupLocks
  held : ∀ made, s'.vault.held (.bringup made) = s.vault.held (.bringup made)
  keyed : ∀ e, (s'.vault.heap e).id = (s.vault.heap e).id
  started : s'.past.started = s.past.started
  failed : s'.past.failed = s.past.failed

/-- And so is what recoveries go by. -/
structure Leaves (s s' : ConnectionSet ι) : Prop extends Keeps s s' where
  view : ∀ id e, view id e s' = view id e s

omit [DecidableEq ι] in
/-- A change of an entry that leaves its generations. -/
theorem view_of_update {e' : EntryRef} {entry : ConnEntry}
    (hheap : s'.vault.heap = Function.update s.vault.heap e' entry) (hcred : entry.credGen = (s.vault.heap e').credGen)
    (hidentity : entry.identityGen = (s.vault.heap e').identityGen) (hface : s'.face = s.face)
    (hdriven : s'.past.driven = s.past.driven) : view id e s' = view id e s := by
  have hcred' := update_leaves s.vault.heap e' ConnEntry.credGen hcred e
  have hidentity' := update_leaves s.vault.heap e' ConnEntry.identityGen hidentity e
  simp only [view, hheap, hcred', hidentity', hface, hdriven]

theorem leaves_of_exec (h : a.exec C t r s = some s') (ha : tame a = true) : Leaves s s' := by
  have hheld : ∀ made, a.locks ≠ some (.bringup made) := by
    intro made hlocks
    cases a with
    | lock l | unlock l =>
      cases hlocks
      cases ha
    | _ => simp [Action.locks] at hlocks
  have hheld := fun made => a.exec_held h (hheld made)
  revert h ha hheld
  fun_cases Action.exec C t a r s
  case case4 e' made r =>
    intro h ha hheld
    revert h
    fun_cases Change.exec t e' s made r <;> rintro ⟨⟩
    all_goals first
      | exact ⟨⟨rfl, rfl, hheld, fun _ => rfl, rfl, rfl⟩, fun _ _ => rfl⟩
      | exact ⟨⟨rfl, rfl, hheld, update_leaves s.vault.heap _ ConnEntry.id (by rfl), rfl, rfl⟩,
        fun _ _ => view_of_update rfl rfl rfl rfl rfl⟩
      | cases ha
  case case3 e' notice r =>
    rintro ⟨⟩ ha hheld
    have hrefreshGens : (notice.apply C s.vault e' s.face r).refreshGens = s.face.refreshGens := by
      cases notice <;> simp only [tame, Bool.false_eq_true] at ha <;> simp only
        [Notice.apply, Face.park, Face.modify, Face.emitUpdated, Face.emit] <;>
        split_ifs <;> rfl
    exact ⟨⟨rfl, rfl, hheld, fun _ => rfl, rfl, rfl⟩, fun id e => by simp only [view, hrefreshGens]⟩
  all_goals rintro ⟨⟩ ha hheld
  all_goals first
    | exact ⟨⟨rfl, rfl, hheld, fun _ => rfl, rfl, rfl⟩, fun _ _ => rfl⟩
    | cases ha

section

omit [DecidableEq ι]

theorem Leaves.driven (h : Leaves s s') : s'.past.driven = s.past.driven := congrArg View.driven (h.view "" 0)

theorem Leaves.inv (h : Leaves s s') (hs : Inv id e gen refreshes s) : Inv id e gen refreshes s' where
  entry := by rw [h.entries]; exact hs.entry
  keyed := (h.keyed e).trans hs.keyed
  nodup := by rw [h.driven]; exact hs.nodup
  low := hs.low.trans (congrArg View.credGen (h.view id e)).ge
  counted := by rw [h.view]; exact hs.counted
  settled hfree := by
    rw [h.view]
    exact hs.settled fun made hmade => (h.held made).symm.trans (hfree made (by rw [h.bringupLocks]; exact hmade))

theorem Leaves.rely (h : Leaves s s') : Rely id e t s s' where
  locks made hmade := by rw [h.bringupLocks]; exact hmade
  held made := by rw [h.held]
  started := by rw [h.started]
  failed := by rw [h.failed]
  driven := by rw [h.driven]; exact List.Subset.refl _
  credGen := by rw [h.view]
  refreshGen := by rw [h.view]
  view _ _ _ := h.view id e

end

theorem calm (ha : tame a = true) : (contract (ι := ι) C id e gen refreshes).Calm a := by
  intro t r s s' h hs
  have hleaves := leaves_of_exec h ha
  refine ⟨hleaves.inv hs, ⟨fun t' _ => hleaves.rely, ?_⟩, hleaves.rely⟩
  cases a with
  | change e' made => cases made <;> trivial
  | _ => trivial

omit [DecidableEq ι] in
theorem succeeds_of_allowed (h : (Succeeds a r && Expires C t s a r && Prompt t s a) = true) : Succeeds a r = true :=
  (Bool.and_eq_true_iff.mp (Bool.and_eq_true_iff.mp h).1).1

theorem valid_tame {K : ConnectionSet ι → Prop} {k : Answer a → Program} (ha : tame a = true)
    (hK : (contract C id e gen refreshes).Stable t K)
    (hk : ∀ r, Succeeds a r = true → (contract C id e gen refreshes).Valid t K (k r)) :
    (contract C id e gen refreshes).Valid t K (.act a k) := by
  refine Valid.act (Q := fun r s => Succeeds a r = true ∧ K s) hK (fun s r s' hs hinv hallowed h => ?_) fun r => ?_
  · obtain ⟨hinv', hguar, hrely⟩ := calm ha h hinv
    exact ⟨hinv', hguar, succeeds_of_allowed hallowed, hK hrely hs⟩
  · by_cases hr : Succeeds a r = true
    · exact (hk r hr).weaken fun _ hs => hs.2
    · exact Valid.absurd fun _ hs => hr hs.1

end Steps

/-! ### What a recovery knows -/

section Knowledge

variable {ι : Type} [DecidableEq ι] {C : Config} {id : ConnectionId} {e : EntryRef} {gen refreshes : ℕ} {t : ι}
  {s s' : ConnectionSet ι}
  {g r made : ℕ} {P P' : View → Prop}

/-- An operation of the thread has failed on a generation. -/
structure Failing (e : EntryRef) (gen g : ℕ) (t : ι) (s : ConnectionSet ι) : Prop where
  outside : Outside t s
  failed : ∀ g' ∈ s.past.failed t, g' = g ∨ g' ∈ s.past.driven
  started : s.past.started t = g
  low : gen ≤ g
  reached : g ≤ (s.vault.heap e).credGen

/-- It has seen the count of refreshes since. -/
structure Queued (id : ConnectionId) (e : EntryRef) (gen refreshes g r : ℕ) (t : ι) (s : ConnectionSet ι) :
    Prop extends Failing e gen g t s where
  seen : r ≤ (view id e s).refreshGen
  after : g + refreshes ≤ r + gen

/-- And it knows the single-flight lock. -/
structure Named (id : ConnectionId) (e : EntryRef) (gen refreshes g r made : ℕ) (t : ι) (s : ConnectionSet ι) :
    Prop extends
    Queued id e gen refreshes g r t s where
  lock : s.vault.bringupLocks.get id = some made

/-- It is in the lock, where it knows what recoveries go by. -/
structure Within (id : ConnectionId) (e : EntryRef) (g made : ℕ) (P : View → Prop) (t : ι) (s : ConnectionSet ι) :
    Prop where
  lock : s.vault.bringupLocks.get id = some made
  held : ∀ made', s.vault.held (.bringup made') = some t ↔ made' = made
  failed : ∀ g' ∈ s.past.failed t, g' = g ∨ g' ∈ s.past.driven
  started : s.past.started t = g
  seen : P (view id e s)

/-- The program keeps the contract, from within the single-flight lock on. -/
abbrev Staged (C : Config) (id : ConnectionId) (e : EntryRef) (gen refreshes g made : ℕ) (P : View → Prop) (t : ι)
    (p : Program) : Prop :=
  (contract C id e gen refreshes).Valid t (Within id e g made P t) p

theorem stable_quiet : (contract C id e gen refreshes).Stable t (Quiet t) :=
  (contract C id e gen refreshes).quiet_of_rely

theorem stable_failing : (contract C id e gen refreshes).Stable t (Failing e gen g t) := fun hrely hs => {
  outside := fun made hheld => hs.outside made ((hrely.held made).mp hheld)
  failed := fun g' hg' => (hs.failed g' (hrely.failed ▸ hg')).imp_right fun h => hrely.driven h
  started := hrely.started.trans hs.started
  low := hs.low
  reached := hs.reached.trans hrely.credGen }

theorem stable_queued : (contract C id e gen refreshes).Stable t (Queued id e gen refreshes g r t) := fun hrely hs =>
  { stable_failing hrely hs.toFailing with seen := hs.seen.trans hrely.refreshGen, after := hs.after }

theorem stable_named : (contract C id e gen refreshes).Stable t (Named id e gen refreshes g r made t) := fun hrely hs =>
  { stable_queued hrely hs.toQueued with lock := hrely.locks made hs.lock }

theorem stable_within : (contract C id e gen refreshes).Stable t (Within id e g made P t) := fun hrely hs => {
  lock := hrely.locks made hs.lock
  held := fun made' => (hrely.held made').trans (hs.held made')
  failed := fun g' hg' => (hs.failed g' (hrely.failed ▸ hg')).imp_right fun h => hrely.driven h
  started := hrely.started.trans hs.started
  seen := by
    rw [hrely.view made hs.lock ((hs.held made).mpr rfl)]
    exact hs.seen }

omit [DecidableEq ι] in
theorem Within.mono (hs : Within id e g made P t s) (hP : ∀ v, P v → P' v) : Within id e g made P' t s :=
  { hs with seen := hP _ hs.seen }

omit [DecidableEq ι] in
/-- What the thread in the lock does to the view, nobody else relies on. -/
theorem Within.keeps (hs : Within id e g made P t s) (hinv : Inv id e gen refreshes s) (h : Keeps s s')
    (hdriven : s.past.driven ⊆ s'.past.driven) (hnodup : s'.past.driven.Nodup)
    (hcred : (view id e s).credGen ≤ (view id e s').credGen)
    (hrefresh : (view id e s).refreshGen ≤ (view id e s').refreshGen)
    (hcounted : (view id e s').credGen + refreshes ≤ (view id e s').refreshGen + gen) :
    Inv id e gen refreshes s' ∧ (∀ t' ≠ t, Rely id e t' s s') ∧
    Within id e g made (fun v => v = view id e s') t s' := by
  have hmine : s.vault.held (.bringup made) = some t := (hs.held made).mpr rfl
  refine ⟨⟨by rw [h.entries]; exact hinv.entry, (h.keyed e).trans hinv.keyed, hnodup, hinv.low.trans hcred, hcounted,
      fun hfree => ?_⟩, fun t' ht => ?_, ?_⟩
  · have hnone := hfree made (by rw [h.bringupLocks]; exact hs.lock)
    rw [h.held, hmine] at hnone
    cases hnone
  · refine ⟨fun made' hmade' => by rw [h.bringupLocks]; exact hmade', fun made' => by rw [h.held], by rw [h.started],
      by rw [h.failed], hdriven, hcred, hrefresh, fun made' hmade' hheld' => ?_⟩
    rw [hs.lock] at hmade'
    cases hmade'
    rw [hmine] at hheld'
    exact absurd (Option.some.inj hheld').symm ht
  · exact ⟨by rw [h.bringupLocks]; exact hs.lock, fun made' => by rw [h.held]; exact hs.held made',
      fun g' hg' => (hs.failed g' (by rwa [h.failed] at hg')).imp_right fun h => hdriven h, by
        rw [h.started]; exact hs.started, rfl⟩

end Knowledge

/-! ### Within the lock -/

section Lock

variable {ι : Type} [DecidableEq ι] {C : Config} {id : ConnectionId} {e : EntryRef} {gen refreshes : ℕ} {t : ι}
  {g r made : ℕ}
  {P : View → Prop} {stableId : Option ConnectionId} {k : Program}

/-- What is known before a grant: it is at hand, and none was driven for its generation. -/
structure Ready (gen refreshes g identityGen : ℕ) (v : View) : Prop where
  settled : v.Settled gen refreshes
  credGen : v.credGen = g
  identityGen : v.identityGen = identityGen

/-- A grant was driven, and its bundle is yet to be committed. -/
structure Granted (gen refreshes g identityGen count : ℕ) (v : View) : Prop where
  drove : v.Drove gen (g + 1)
  credGen : v.credGen = g
  identityGen : v.identityGen = identityGen
  counted : v.refreshGen + gen = g + refreshes + count

/-- The generation is done with. -/
structure Done (gen refreshes g : ℕ) (v : View) : Prop where
  settled : v.Settled gen refreshes
  driven : g ∈ v.driven

/-- A look at the entry tells its generations. -/
theorem valid_look {k : ConnEntry × ConnectionAuthState → Program}
    (hk : ∀ state, Staged C id e gen refreshes g made (fun v => P v ∧ v.credGen = state.1.credGen ∧
      v.identityGen = state.1.identityGen) t (k state)) :
    Staged C id e gen refreshes g made P t (ask e .state k) := by
  refine Valid.act (Q := fun state => Within id e g made
    (fun v => P v ∧ v.credGen = state.1.credGen ∧ v.identityGen = state.1.identityGen) t) stable_within ?_ hk
  intro s state s' hs hinv _ h
  obtain ⟨hinv', hguar, -⟩ := calm rfl h hinv
  obtain ⟨rfl, rfl⟩ := Action.exec_state.mp h
  exact ⟨hinv', hguar, { hs with seen := ⟨hs.seen, rfl, rfl⟩ }⟩

/-- The entry stays registered. -/
theorem valid_isRegistered {k : Bool → Program} {K : ConnectionSet ι → Prop}
    (hK : (contract C id e gen refreshes).Stable t K) (hk : (contract C id e gen refreshes).Valid t K (k true)) :
    (contract C id e gen refreshes).Valid t K (ask e .isRegistered k) := by
  refine Valid.answered (Q := K) hK ?_ hk
  intro s registered s' hs hinv _ h
  obtain ⟨hinv', hguar, -⟩ := calm rfl h hinv
  obtain ⟨hanswer, rfl⟩ := Action.exec_ask.mp h
  refine ⟨hinv', hguar, (beq_iff_eq.mp hanswer).trans ?_, hs⟩
  simp [Vault.isRegistered, hinv.keyed, hinv.entry]

theorem valid_persistAttempts {bundle : SecretBundle} (hk : Staged C id e gen refreshes g made P t k) (n : ℕ) :
    Staged C id e gen refreshes g made P t (persistAttempts e bundle k n) := by
  induction n with
  | zero => exact valid_tame rfl stable_within fun _ _ => hk
  | succ n ih =>
    refine valid_tame rfl stable_within fun written _ => ?_
    split_ifs
    · exact valid_tame rfl stable_within fun _ _ => hk
    · exact ih

theorem valid_unlockPurge (hk : Staged C id e gen refreshes g made P t k) :
    Staged C id e gen refreshes g made P t (unlockPurge stableId k) := by
  cases stableId with
  | none => exact hk
  | some stable => exact valid_tame rfl stable_within fun _ _ => hk

theorem valid_purge {k : Bool → Program} (hk : ∀ purged, Staged C id e gen refreshes g made P t (k purged)) :
    Staged C id e gen refreshes g made P t (purgeDurableCredential e e stableId .unregistered k) := by
  have hdone : ∀ purged, Staged C id e gen refreshes g made P t (unlockPurge stableId (k purged)) :=
    fun purged => valid_unlockPurge (hk purged)
  have hasked : Staged C id e gen refreshes g made P t (ask e (.sharedByOther e) fun shared =>
      if shared then unlockPurge stableId (k true)
      else stillOrphaned e .unregistered fun orphaned =>
        if orphaned then change e (.delete e) fun purged =>
          unlockPurge stableId (k purged) else unlockPurge stableId (k true)) := by
    refine valid_tame rfl stable_within fun shared _ => ?_
    split_ifs
    · exact hdone true
    · exact valid_isRegistered stable_within (hdone true)
  cases stableId with
  | none => exact hasked
  | some stable => exact valid_tame rfl stable_within fun _ _ => hasked

variable {identityGen : ℕ} {credentials refreshed : SecretBundle}

theorem valid_commitAndPersist {k : Bool → Program}
    (hk : ∀ persisted, Staged C id e gen refreshes g made P t (k persisted)) :
    Staged C id e gen refreshes g made P t
      (Grant.commitAndPersist ⟨e, stableId, g, identityGen⟩ credentials k) := by
  refine valid_tame rfl stable_within fun superseded _ => ?_
  split_ifs
  · exact hk false
  · exact valid_isRegistered stable_within (valid_persistAttempts (valid_purge fun _ => hk true) 3)

/-- A grant, for the credentials that the operation started on. -/
theorem valid_refresh {base : SecretBundle} {k : Except ErrorCode SecretBundle → Program}
    (hk : ∀ refreshed, Staged C id e gen refreshes g made (Granted gen refreshes g identityGen 0) t
      (k (.ok refreshed))) :
    Staged C id e gen refreshes g made (Ready gen refreshes g identityGen) t (change e (.refresh base) k) := by
  refine Valid.act (Q := fun r s => r.isOk = true ∧
    Within id e g made (Granted gen refreshes g identityGen 0) t s) stable_within ?_
    fun r => ?_
  · intro s r s' hs hinv hallowed h
    match r with
    | .error _ => exact Bool.noConfusion (succeeds_of_allowed hallowed)
    | .ok refreshed =>
      cases h
      obtain ⟨⟨hdrove, hcounted⟩, hcred, hidentity⟩ := hs.seen
      have hnotin : s.past.started t ∉ s.past.driven := by
        intro hmem
        have := (hdrove _).mp hmem
        rw [hs.started, hcred] at this
        exact absurd this.2 (lt_irrefl _)
      have hkeeps : Keeps s { s.grant base
          with past := { (s.grant base).past with driven := s.past.started t :: s.past.driven } } :=
        ⟨rfl, rfl, fun _ => rfl, fun _ => rfl, rfl, rfl⟩
      obtain ⟨hinv', hrely, hwithin⟩ := hs.keeps hinv hkeeps
        (List.subset_cons_self _ _) (List.nodup_cons.mpr ⟨hnotin, hinv.nodup⟩) le_rfl le_rfl hinv.counted
      refine ⟨hinv', ⟨hrely, fun _ => ?_⟩, rfl, hwithin.mono ?_⟩
      · rw [hs.started]
        exact hcred.le
      · rintro _ rfl
        refine ⟨fun g' => ?_, hcred, hidentity, by rw [← hcred]; exact hcounted⟩
        have hmem := hdrove g'
        have hlow : gen ≤ g := hcred ▸ hinv.low
        simp only [view, List.mem_cons, hs.started] at hmem hcred ⊢
        rw [hmem, hcred]
        omega
  · cases r with
    | ok refreshed => exact (hk refreshed).weaken fun _ hs => hs.2
    | error error => exact Valid.absurd fun _ hs => Bool.noConfusion hs.1

theorem valid_refreshBase {k : Except ErrorCode SecretBundle → Program}
    (hk : ∀ base, Staged C id e gen refreshes g made P t (k (.ok base))) :
    Staged C id e gen refreshes g made P t
      (Grant.refreshBase ⟨e, stableId, g, identityGen⟩ credentials k) := by
  refine valid_tame rfl stable_within fun state _ => ?_
  split_ifs
  · exact hk _
  refine valid_tame rfl stable_within fun loaded hloaded => ?_
  match loaded with
  | .ok (some head) => exact hk _
  | .ok none => exact hk _
  | .error error => exact Bool.noConfusion hloaded

theorem valid_lockedRefresh {stable : ConnectionId} {zeroWindow : Bool}
    {k : Option (Except ErrorCode (SecretBundle × Bool)) → Program}
    (hskipped : Staged C id e gen refreshes g made (Ready gen refreshes g identityGen) t (k none))
    (hk : ∀ refreshed persisted, Staged C id e gen refreshes g made (Granted gen refreshes g identityGen 0) t
      (k (some (.ok (refreshed, persisted))))) :
    Staged C id e gen refreshes g made (Ready gen refreshes g identityGen) t
      (Grant.lockedRefresh ⟨e, stableId, g, identityGen⟩ stable zeroWindow credentials k) := by
  refine valid_tame rfl stable_within fun answer hanswer => ?_
  cases answer with
  | Failed error => exact Bool.noConfusion hanswer
  | Skipped => exact hskipped
  | Locked =>
    refine valid_refreshBase fun base => valid_refresh fun refreshed => valid_commitAndPersist fun persisted => ?_
    refine valid_tame rfl stable_within fun r hr => ?_
    cases r with
    | some error => exact Bool.noConfusion hr
    | none => exact hk refreshed persisted

theorem valid_coalescedRefresh {k : Except ErrorCode (SecretBundle × Bool) → Program}
    (hk : ∀ refreshed persisted, Staged C id e gen refreshes g made (Granted gen refreshes g identityGen 0) t
      (k (.ok (refreshed, persisted)))) :
    Staged C id e gen refreshes g made (Ready gen refreshes g identityGen) t
      (Grant.coalescedRefresh ⟨e, stableId, g, identityGen⟩ C credentials k) := by
  have hplain : Staged C id e gen refreshes g made (Ready gen refreshes g identityGen) t
      (Grant.refreshFromHead ⟨e, stableId, g, identityGen⟩ credentials k) :=
    valid_refreshBase fun base => valid_refresh fun refreshed => hk refreshed false
  unfold Grant.coalescedRefresh
  split
  · exact valid_lockedRefresh (valid_lockedRefresh hplain hk) hk
  · exact hplain

/-- The attempt is counted. -/
theorem valid_bumpRefreshGen
    (hk : Staged C id e gen refreshes g made (Granted gen refreshes g identityGen 1) t k) :
    Staged C id e gen refreshes g made (Granted gen refreshes g identityGen 0) t (tell e .bumpRefreshGen k) := by
  refine Valid.act (Q := fun _ => Within id e g made (Granted gen refreshes g identityGen 1) t)
    stable_within ?_ fun _ => hk
  intro s r s' hs hinv _ h
  cases h
  obtain ⟨hdrove, hcred, hidentity, hcounted⟩ := hs.seen
  have hview : view id e { s with face := s.face.bumpRefreshGen (s.vault.heap e).id } =
      { view id e s with refreshGen := (view id e s).refreshGen + 1 } := by
    simp [view, Face.bumpRefreshGen, hinv.keyed]
  have hkeeps : Keeps s { s with face := s.face.bumpRefreshGen (s.vault.heap e).id } :=
    ⟨rfl, rfl, fun _ => rfl, fun _ => rfl, rfl, rfl⟩
  obtain ⟨hinv', hrely, hwithin⟩ :=
      hs.keeps hinv hkeeps (List.Subset.refl _) hinv.nodup le_rfl (by rw [hview]; exact Nat.le_succ _)
    (by rw [hview]; have := hinv.counted; dsimp only; omega)
  refine ⟨hinv', ⟨hrely, trivial⟩, hwithin.mono ?_⟩
  rintro _ rfl
  rw [hview]
  exact ⟨hdrove, hcred, hidentity, by dsimp only; omega⟩

variable {persisted : Bool}

/-- Its bundle is committed: nothing else has moved the generations. -/
theorem valid_commitRefreshed {k : Bool → Program}
    (hk : Staged C id e gen refreshes g made (Done gen refreshes g) t (k true)) :
    Staged C id e gen refreshes g made (Granted gen refreshes g identityGen 1) t
      (change e (.commitRefreshed refreshed g identityGen persisted) k) := by
  refine Valid.answered (Q := Within id e g made (Done gen refreshes g) t) stable_within ?_ hk
  intro s committed s' hs hinv _ h
  obtain ⟨hdrove, hcred, hidentity, hcounted⟩ := hs.seen
  obtain ⟨hcommitted, hs'⟩ := Action.exec_commitRefreshed h
  obtain rfl : committed = true := hcommitted.trans (decide_eq_true ⟨hcred, hidentity⟩)
  have hkeeps : Keeps s s' := by
    subst hs'
    cases persisted <;> exact ⟨rfl, rfl, fun _ => rfl, update_leaves s.vault.heap _ ConnEntry.id (by rfl), rfl, rfl⟩
  have hview : view id e s' = { view id e s with credGen := g + 1 } := by
    subst hs'
    cases persisted <;> simpa [view, ConnectionSet.swap, ConnectionSet.owing, Vault.modify, Face.authenticated,
      Face.modify] using hcred
  have hdriven : s'.past.driven = s.past.driven := congrArg View.driven hview
  obtain ⟨hinv', hrely, hwithin⟩ :=
      hs.keeps hinv hkeeps (by rw [hdriven]; exact List.Subset.refl _) (by rw [hdriven]; exact hinv.nodup)
    (by rw [hview, hcred]; exact Nat.le_succ g) (by rw [hview]) (by rw [hview]; dsimp only; omega)
  refine ⟨hinv', ⟨hrely, trivial⟩, rfl, hwithin.mono ?_⟩
  rintro _ rfl
  rw [hview]
  exact ⟨⟨hdrove, by dsimp only; omega⟩, (hdrove g).mpr ⟨hcred ▸ hinv.low, Nat.lt_succ_self g⟩⟩

theorem valid_recordRefreshed
    (hk : Staged C id e gen refreshes g made (Done gen refreshes g) t k) :
    Staged C id e gen refreshes g made (Granted gen refreshes g identityGen 1) t
      (Grant.recordRefreshed ⟨e, stableId, g, identityGen⟩ refreshed persisted k) := by
  have hestablished : Staged C id e gen refreshes g made (Done gen refreshes g) t
      (runOnAuthenticated e fun succeeded => if succeeded then tell e .emitUpdatedIfLive k else k) := by
    refine valid_tame rfl stable_within fun failure _ => ?_
    cases failure with
    | none => exact valid_tame rfl stable_within fun _ _ => hk
    | some error => exact valid_tame rfl stable_within fun _ _ => hk
  refine valid_isRegistered stable_within (valid_commitRefreshed ?_)
  cases persisted with
  | true => exact hestablished
  | false => exact valid_persistAttempts (valid_isRegistered stable_within hestablished) 3

/-- Once the generation is done with, the thread is as it was between its calls. -/
theorem valid_unlock (hk : (contract C id e gen refreshes).Valid t (Quiet t) k) :
    Staged C id e gen refreshes g made (Done gen refreshes g) t (unlock (.bringup made) k) := by
  refine Valid.act (Q := fun _ => Quiet t) stable_within ?_ fun _ => hk
  intro s r s' hs hinv _ h
  have hstep := h
  obtain ⟨hheld, rfl⟩ := Option.of_guard h
  have hne : ∀ made', made' ≠ made →
      (s.hold (.bringup made) none).vault.held (.bringup made') = s.vault.held (.bringup made') :=
    fun made' hmade => Function.update_of_ne (by simpa using hmade) _ _
  have hself : (s.hold (.bringup made) none).vault.held (.bringup made) = none := Function.update_self _ _ _
  refine ⟨⟨hinv.entry, hinv.keyed, hinv.nodup, hinv.low, hinv.counted, fun _ => hs.seen.settled⟩,
    ⟨fun t' ht => ?_, trivial⟩, ?_, ?_⟩
  · exact ⟨fun _ h => h, fun made' => Action.exec_held_of_ne hstep ht _, rfl, rfl, List.Subset.refl _, le_rfl,
      le_rfl, fun _ _ _ => rfl⟩
  · intro made' hheld'
    by_cases hmade : made' = made
    · subst hmade
      rw [hself] at hheld'
      cases hheld'
    · rw [hne made' hmade] at hheld'
      exact hmade ((hs.held made').mp hheld')
  · intro g' hg'
    rcases hs.failed g' hg' with rfl | hdriven
    · exact hs.seen.driven
    · exact hdriven

/-- What a thread finds in the lock that it has queued for. -/
structure Found (gen refreshes g r : ℕ) (v : View) : Prop where
  settled : v.Settled gen refreshes
  low : gen ≤ g
  reached : g ≤ v.credGen
  same : v.credGen = g → v.refreshGen = r

theorem valid_lock {k : Unit → Program}
    (hk : Staged C id e gen refreshes g made (Found gen refreshes g r) t (k ())) :
    (contract C id e gen refreshes).Valid t (Named id e gen refreshes g r made t) (.act (.lock (.bringup made)) k) := by
  refine Valid.act (Q := fun _ => Within id e g made (Found gen refreshes g r) t) stable_named ?_ fun _ => hk
  intro s _ s' hs hinv _ h
  have hstep := h
  obtain ⟨hheld, rfl⟩ := Option.of_guard h
  have hsettled : (view id e s).Settled gen refreshes := hinv.settled fun made' hmade' => by
    rw [hs.lock] at hmade'
    cases hmade'
    exact hheld
  refine ⟨⟨hinv.entry, hinv.keyed, hinv.nodup, hinv.low, hinv.counted, fun _ => hsettled⟩,
    ⟨fun t' ht => ?_, trivial⟩, ?_⟩
  · exact ⟨fun _ h => h, fun made' => Action.exec_held_of_ne hstep ht _, rfl, rfl, List.Subset.refl _, le_rfl,
      le_rfl, fun _ _ _ => rfl⟩
  · refine ⟨hs.lock, fun made' => ?_, hs.failed, hs.started, ⟨hsettled, hs.low, hs.reached, fun hcred => ?_⟩⟩
    · by_cases hmade : made' = made
      · simp [hmade, ConnectionSet.hold]
      · simpa [hmade, ConnectionSet.hold, Function.update_of_ne] using hs.outside made'
    · have hcounted := hsettled.counted
      have hseen := hs.seen
      have hafter := hs.after
      change (view id e s).credGen = g at hcred
      change (view id e s).refreshGen = r
      omega

theorem valid_bringupLockFor {k : ℕ → Program}
    (hk : ∀ made, (contract C id e gen refreshes).Valid t (Named id e gen refreshes g r made t) (k made)) :
    (contract C id e gen refreshes).Valid t (Queued id e gen refreshes g r t) (.act (.bringupLockFor id) k) := by
  refine Valid.act (Q := fun made => Named id e gen refreshes g r made t) stable_queued ?_ hk
  intro s made s' hs hinv _ h
  have hrefl : ∀ t', Rely id e t' s s := fun t' => (contract C id e gen refreshes).rely_refl t' s
  simp only [Action.exec] at h
  split at h
  next known hknown =>
    split_ifs at h with hmade
    cases h
    exact ⟨hinv, ⟨fun t' _ => hrefl t', trivial⟩, { hs with lock := hmade ▸ hknown }⟩
  next hnone =>
    split_ifs at h with hmade
    cases h
    have hsettled : (view id e s).Settled gen refreshes := hinv.settled fun made' hmade' => by
      rw [hnone] at hmade'
      cases hmade'
    refine ⟨⟨hinv.entry, hinv.keyed, hinv.nodup, hinv.low, hinv.counted, fun _ => hsettled⟩, ⟨fun t' _ => ?_, trivial⟩,
      { outside := hs.outside, failed := hs.failed, started := hs.started, low := hs.low,
        reached := hs.reached, seen := hs.seen,
        after := hs.after, lock := Table.get_insert_self _ _ _ }⟩
    refine ⟨fun made' hmade' => ?_, fun _ => Iff.rfl, rfl, rfl, List.Subset.refl _, le_rfl, le_rfl, fun _ _ _ => rfl⟩
    rw [hnone] at hmade'
    cases hmade'

/-! ### The recovery -/

theorem valid_startOp {k : Unit → Program} (hk : (contract C id e gen refreshes).Valid t (Quiet t) (k ())) :
    (contract C id e gen refreshes).Valid t (Quiet t) (.act (.startOp id) k) := by
  refine Valid.act (Q := fun _ => Quiet t) stable_quiet ?_ fun _ => hk
  intro s r s' hs hinv _ h
  cases h
  refine ⟨⟨hinv.entry, hinv.keyed, hinv.nodup, hinv.low, hinv.counted, hinv.settled⟩, ⟨fun t' ht => ?_, trivial⟩,
    ⟨hs.outside, hs.driven⟩⟩
  exact ⟨fun _ h => h, fun _ => Iff.rfl, Function.update_of_ne ht _ _, rfl, List.Subset.refl _, le_rfl,
    le_rfl, fun _ _ _ => rfl⟩

theorem valid_ret : (contract C id e gen refreshes).Valid t (Quiet t) .ret := Valid.ret fun _ hs => hs

theorem valid_retry : (contract C id e gen refreshes).Valid t (Quiet t) (retry id) :=
  valid_startOp (valid_tame rfl stable_quiet fun _ _ => valid_ret)

/-- The operation has failed, and takes the generation that it started on. -/
theorem valid_captureGen {k : ℕ → Program}
    (hk : ∀ g, (contract C id e gen refreshes).Valid t (Failing e gen g t) (k g)) :
    (contract C id e gen refreshes).Valid t (Quiet t) (change e .captureGen k) := by
  refine Valid.act (Q := fun g => Failing e gen g t) stable_quiet ?_ hk
  intro s g s' hs hinv hallowed h
  obtain ⟨hgen, rfl⟩ := Option.of_guard h
  have hprompt : (s.vault.heap e).credGen = s.past.started t := beq_iff_eq.mp (Bool.and_eq_true_iff.mp hallowed).2
  subst hgen
  refine ⟨⟨hinv.entry, hinv.keyed, hinv.nodup, hinv.low, hinv.counted, hinv.settled⟩, ⟨fun t' ht => ?_, trivial⟩,
    ⟨hs.outside, fun g' hg' => ?_, hprompt.symm, hinv.low, le_rfl⟩⟩
  · exact ⟨fun _ h => h, fun _ => Iff.rfl, rfl, Function.update_of_ne ht _ _, List.Subset.refl _, le_rfl,
      le_rfl, fun _ _ _ => rfl⟩
  · have hmem : g' = s.past.started t ∨ g' ∈ s.past.failed t := by simpa using hg'
    exact hmem.imp (fun h => h.trans hprompt.symm) fun h => hs.driven h

theorem valid_askRefreshGen {k : ℕ → Program}
    (hk : ∀ r, (contract C id e gen refreshes).Valid t (Queued id e gen refreshes g r t) (k r)) :
    (contract C id e gen refreshes).Valid t (Failing e gen g t) (ask e .refreshGen k) := by
  refine Valid.act (Q := fun r => Queued id e gen refreshes g r t) stable_failing ?_ hk
  intro s r s' hs hinv _ h
  obtain ⟨hinv', hguar, -⟩ := calm rfl h hinv
  obtain ⟨hanswer, rfl⟩ := Action.exec_ask.mp h
  have hr : r = (view id e s).refreshGen := by
    rw [beq_iff_eq.mp hanswer, hinv.keyed]
    rfl
  have hcounted := hinv.counted
  have hreached : g ≤ (view id e s).credGen := hs.reached
  have hafter : g + refreshes ≤ (view id e s).refreshGen + gen := by omega
  exact ⟨hinv', hguar, { hs with seen := hr.le, after := hr.symm ▸ hafter }⟩

/-- Whoever finds its generation in the lock finds the count of refreshes too. -/
theorem valid_recoverLocked :
    Staged C id e gen refreshes g made (Found gen refreshes g r) t
      (recoverLocked C id e (.bringup made) g r) := by
  refine valid_look fun now => ?_
  split_ifs with hmoved
  · refine Valid.imp (Within id e g made (Done gen refreshes g) t) (fun s hs => hs.mono ?_) (valid_unlock valid_retry)
    rintro v ⟨hfound, hcred, -⟩
    refine ⟨hfound.settled, (hfound.settled.drove g).mpr ⟨hfound.low, lt_of_le_of_ne hfound.reached fun h => hmoved ?_⟩⟩
    rw [← hcred, h]
  · refine Valid.act (Q := fun refreshGen s => refreshGen = r ∧ Within id e g made
      (fun v => v.Settled gen refreshes ∧ v.credGen = g) t s) stable_within ?_ fun refreshGen => ?_
    · intro s refreshGen s' hs hinv _ h
      obtain ⟨hinv', hguar, -⟩ := calm rfl h hinv
      obtain ⟨hanswer, rfl⟩ := Action.exec_ask.mp h
      obtain ⟨hfound, hcred, -⟩ := hs.seen
      have hcred' : (view id e s).credGen = g := hcred.trans (not_not.mp hmoved)
      refine ⟨hinv', hguar, ?_, { hs with seen := ⟨hfound.settled, hcred'⟩ }⟩
      rw [beq_iff_eq.mp hanswer, hinv.keyed]
      exact hfound.same hcred'
    · by_cases hr : refreshGen = r
      · subst hr
        rw [if_neg (not_not.mpr rfl)]
        refine Valid.imp (Within id e g made (fun v => v.Settled gen refreshes ∧ v.credGen = g) t) (fun _ hs => hs.2) ?_
        refine valid_tame rfl stable_within fun first _ => valid_look fun second => ?_
        refine Valid.imp (Within id e g made (Ready gen refreshes g second.1.identityGen) t)
          (fun _ hs => hs.mono fun _ h => ⟨h.1.1, h.1.2, h.2.2⟩) ?_
        exact valid_coalescedRefresh fun refreshed persisted =>
          valid_bumpRefreshGen (valid_recordRefreshed (valid_unlock valid_retry))
      · exact Valid.absurd fun _ hs => hr hs.1

theorem valid_recover : (contract C id e gen refreshes).Valid t (Quiet t) (recover C id) := by
  refine valid_startOp (valid_tame rfl stable_quiet fun failure _ => ?_)
  cases failure with
  | none => exact valid_ret
  | some error =>
    refine Valid.act (Q := fun found s => found = some e ∧ Quiet t s) stable_quiet ?_ fun found => ?_
    · intro s found s' hs hinv _ h
      obtain ⟨hinv', hguar, -⟩ := calm rfl h hinv
      obtain ⟨hfound, rfl⟩ := Option.of_guard h
      exact ⟨hinv', hguar, hfound.trans hinv.entry, hs⟩
    · cases found with
      | none => exact Valid.absurd fun _ hs => by cases hs.1
      | some e' =>
        by_cases he : e' = e
        · subst he
          refine Valid.imp (Quiet t) (fun _ hs => hs.2) ?_
          dsimp only
          split_ifs
          · exact valid_ret
          · exact valid_captureGen fun g => valid_askRefreshGen fun r => valid_bringupLockFor fun made =>
              valid_lock valid_recoverLocked
        · exact Valid.absurd fun _ hs => he (Option.some.inj hs.1)

theorem valid_program (op : Operation) : (contract C id e gen refreshes).Valid t (Quiet t) (op.program C id e) := by
  cases op with
  | withRecovery => exact valid_recover
  | expire => exact valid_tame rfl stable_quiet fun _ _ => valid_ret

end Lock

/-! ### The runs -/

section Runs

variable {ι : Type} [DecidableEq ι] {C : Config} {id : ConnectionId} {e : EntryRef} {gen refreshes : ℕ}

theorem kept_of_start {s : Threads ι (ConnectionSet ι) Answer} (hs : Start id e gen refreshes s) :
    (contract C id e gen refreshes).Kept s := by
  have hcred : (view id e s.shared).credGen = gen := hs.gen
  have hrefresh : (view id e s.shared).refreshGen = refreshes := hs.refreshes
  have hsettled : (view id e s.shared).Settled gen refreshes := by
    refine ⟨fun g => ?_, by omega⟩
    simp [view, hs.driven, hs.gen]
  refine ⟨⟨hs.entry, hs.keyed, by simp [hs.driven], hs.gen.ge, by omega, fun _ => hsettled⟩, fun t => ?_⟩
  rw [hs.idle t]
  exact ⟨fun made => by simp [hs.held], by simp [hs.failed]⟩

/-- As long as each operation that fails takes the generation that it started on, each generation
is refreshed once. -/
theorem one_refresh {trace : List (Event ι Operation Answer)} {s : Threads ι (ConnectionSet ι) Answer}
    (h : Runs C id e gen refreshes (fun t a _ s => Prompt t s a) trace s) : OneRefresh C id e s := by
  have hkept : (contract C id e gen refreshes).Kept s := run (fun _ op => valid_program op) (fun _ => kept_of_start) h
  refine ⟨fun t base refreshed s' hstep => ?_, hkept.inv.nodup, fun hidle t => (hkept.quiet (hidle t)).driven⟩
  have hallowed : (contract C id e gen refreshes).allowed t (.change e (.refresh base)) (.ok refreshed) s.shared := rfl
  exact (hkept.acts hallowed hstep).2.2 rfl

end Runs

/-! ### An operation that fails late -/

/-- What is in the store, and what a refresh gives. -/
def held : SecretBundle := ⟨some 0, []⟩

def renewed : SecretBundle := ⟨some 1, []⟩

/-- The connection `a`, which is authenticated. -/
def served : ConnectionSet Bool :=
  { Rotation.blank with
    vault := { Rotation.blank.vault with
      entries := Table.empty.insert "a" 0
      heap := fun _ => ⟨"a", some "s", held, 0, false, false, 0⟩
      nextEntry := 1 } }

theorem start_served : Start "a" 0 0 0 (Threads.idle served) :=
  ⟨fun _ => rfl, rfl, rfl, fun _ => rfl, rfl, rfl, fun _ => rfl, rfl⟩

private theorem exists_run {q : Bool → (a : Action) → Answer a → ConnectionSet Bool → Bool}
    (trace : List (Event Bool Operation Answer)) {p : Threads Bool (ConnectionSet Bool) Answer → Bool}
    (h : (trace.foldlM (fun (s : Threads Bool (ConnectionSet Bool) Answer) l =>
      if s.meets (fun t a r s => Succeeds a r && Expires Debt.unlockedConfig t s a r && q t a r s) l then
        s.step (Action.exec Debt.unlockedConfig) (Operation.program Debt.unlockedConfig "a" 0) l else none)
          (Threads.idle served)).any p = true) :
    ∃ s, Runs Debt.unlockedConfig "a" 0 0 0 q trace s ∧ p s = true :=
  Threads.run_of_any start_served h

/-- The credentials expire, an operation fails on them, and they are refreshed. -/
def recovers : List (Event Bool Operation Answer) :=
  let entry : ConnEntry := ⟨"a", some "s", held, 0, false, false, 0⟩
  [.call true .expire, .act true (.expire 0) (), .call true .withRecovery, .act true (.startOp "a") (),
    .act true .endOp (some .CredentialExpired), .act true (.entry "a") (some 0), .act true (.change 0 .captureGen) 0,
    .act true (.ask 0 .refreshGen) 0, .act true (.bringupLockFor "a") 0, .act true (.lock (.bringup 0)) (),
    .act true (.ask 0 .state) (entry, .Anonymous), .act true (.ask 0 .refreshGen) 0,
    .act true (.ask 0 .state) (entry, .Anonymous),
    .act true (.ask 0 .state) (entry, .Anonymous), .act true (.ask 0 .state) (entry, .Anonymous),
    .act true (.load (some "s")) (.ok (some held)),
    .act true (.change 0 (.refresh held)) (.ok renewed), .act true (.tell 0 .bumpRefreshGen) (),
    .act true (.ask 0 .isRegistered) true,
    .act true (.change 0 (.commitRefreshed renewed 0 0 false)) true, .act true (.change 0 (.persist renewed)) true,
    .act true (.change 0 (.setDebt false)) (), .act true (.ask 0 .isRegistered) true,
    .act true (.ask 0 .onAuthenticated) none,
    .act true (.tell 0 .emitUpdatedIfLive) (), .act true (.unlock (.bringup 0)) (), .act true (.startOp "a") (),
    .act true .endOp none]

theorem one_refresh_recovers :
    ∃ trace s, Runs Debt.unlockedConfig "a" 0 0 0 (fun (t : Bool) a _ s => Prompt t s a) trace s ∧
    s.shared.past.driven = [0] ∧ s.shared.past.failed true = [0] ∧ OneRefresh Debt.unlockedConfig "a" 0 s := by
  obtain ⟨s, hrun, hs⟩ := exists_run (q := fun t a _ s => Prompt t s a)
    (p := fun s => s.shared.past.driven == [0] && s.shared.past.failed true == [0]) recovers (by decide +kernel)
  obtain ⟨hdriven, hfailed⟩ := Bool.and_eq_true_iff.mp hs
  exact ⟨_, s, hrun, beq_iff_eq.mp hdriven, beq_iff_eq.mp hfailed, one_refresh hrun⟩

/-- Another operation that started on them fails once they have been refreshed, and takes the
generation of the new ones. -/
def recoversLate : List (Event Bool Operation Answer) :=
  let look : ConnEntry × ConnectionAuthState := (⟨"a", some "s", renewed, 1, false, false, 0⟩, .Authenticated)
  [.call false .withRecovery, .act false (.startOp "a") ()] ++ recovers ++
    [.act false .endOp (some .CredentialExpired), .act false (.entry "a") (some 0),
      .act false (.change 0 .captureGen) 1,
      .act false (.ask 0 .refreshGen) 1, .act false (.bringupLockFor "a") 0, .act false (.lock (.bringup 0)) (),
      .act false (.ask 0 .state) look, .act false (.ask 0 .refreshGen) 1, .act false (.ask 0 .state) look,
      .act false (.ask 0 .state) look,
      .act false (.ask 0 .state) look, .act false (.load (some "s")) (.ok (some renewed))]

/-- It is about to have the new ones refreshed. -/
theorem refreshed_twice : ¬∀ (C : Config) id e gen refreshes trace s,
    Runs C id e gen refreshes (fun (_ : Bool) _ _ _ => true) trace s → OneRefresh C id e s := by
  intro h
  obtain ⟨s, hrun, hs⟩ := exists_run (q := fun _ _ _ _ => true)
    (p := fun s => (s.shared.vault.heap 0).credGen == 1 && s.shared.past.started false == 0 &&
      (s.step (Action.exec Debt.unlockedConfig) (Operation.program Debt.unlockedConfig "a" 0)
        (.act false (.change 0 (.refresh renewed)) (.ok renewed))).isSome) recoversLate (by decide +kernel)
  obtain ⟨hs, hstep⟩ := Bool.and_eq_true_iff.mp hs
  obtain ⟨hcred, hstarted⟩ := Bool.and_eq_true_iff.mp hs
  obtain ⟨s', hs'⟩ := Option.isSome_iff_exists.mp hstep
  have hcurrent := (h _ _ _ _ _ _ s hrun).current false renewed renewed s' hs'
  rw [beq_iff_eq.mp hcred, beq_iff_eq.mp hstarted] at hcurrent
  exact absurd hcurrent (by decide)

end OvStorage.Connections.Expiry
