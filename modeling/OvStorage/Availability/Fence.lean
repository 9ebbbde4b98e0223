import OvStorage.Availability.Rules

/-!
# The fence of the availability index

## What is proved

* `fenced_of_run`: in no run without a redirect step does the row name, once a mutation is
  over, a validator that the backend held only before that mutation's commit.
* `redirect_restores_superseded`: a redirect step may put such a row back; `fenced_of_restoreClear`:
  it does not when no mutation has settled the row while it was away.
-/

namespace OvStorage.Availability

open Interleave Discipline

variable {ι ε : Type} [DecidableEq ι] [DecidableEq ε]
  {allowed : ι → (a : Action ε) → Answer ε a → Shared ι ε → Prop} {s s' s₁ s₂ : Shared ι ε} {t : ι}
  {S : AvailRow ε} {v etag : ε} {c : Frame ε} {k : Call ε} {snapshot : Option (AvailRow ε)}

/-- The call keeps the fence from here on. -/
abbrev CallSafe (allowed : ι → (a : Action ε) → Answer ε a → Shared ι ε → Prop) (t : ι) (k : Call ε)
    (s : Shared ι ε) : Prop :=
  (fence allowed).Safe t k s

/-- The call may be dropped here. -/
def FrameSafe (allowed : ι → (a : Action ε) → Answer ε a → Shared ι ε → Prop) (t : ι) (c : Frame ε)
    (s : Shared ι ε) : Prop :=
  ∀ s₁ rest, Rely t s s₁ → (∀ s₂, Grows s₁ s₂ → Quiet t s₂ → CallSafe allowed t rest s₂) →
    CallSafe allowed t (c rest) s₁

section Frames

/-- A dropped call that has nothing left to run. -/
theorem FrameSafe.drop (hc : FrameSafe allowed t c s) (h : Rely t s s') : CallSafe allowed t (c .ret) s' :=
  hc s' .ret h fun _ _ hquiet => Safe.ret hquiet

theorem FrameSafe.mono (hc : FrameSafe allowed t c s) (h : Rely t s s') : FrameSafe allowed t c s' :=
  fun s₁ rest h₁ => hc s₁ rest (h.trans h₁)

variable {a : Action ε} {Q : Answer ε a → Shared ι ε → Prop}

/-- An action of the program, followed by what the caller does. -/
theorem safe_act {k : Answer ε a → Call ε}
    (ha : Does allowed t a s Q) (hk : ∀ r s', Rely t s s' → Q r s' → CallSafe allowed t (k r) s') :
    CallSafe allowed t (.act a k) s :=
  Safe.act ha fun r s' h => hk r s' h.1 h.2

theorem frameSafe_id (hquiet : Quiet t s) : FrameSafe allowed t id s :=
  fun s₁ _ h hrest => hrest s₁ (Grows.refl s₁) (h.quiet hquiet)

theorem frameSafe_dropReadGuard (hc : FrameSafe allowed t c s) :
    FrameSafe allowed t (fun rest => dropReadGuard (c rest)) s := by
  intro s₁ rest h hrest
  refine safe_act does_removeIndex fun _ s₂ h₂ _ => hc s₂ rest (h.trans h₂) fun s₃ h₃ => ?_
  exact hrest s₃ (h₂.toGrows.trans h₃)

theorem frameSafe_unregister (hc : FrameSafe allowed t c s) :
    FrameSafe allowed t (fun rest => unregister (c rest)) s := by
  intro s₁ rest h hrest
  refine safe_act does_unregister fun _ s₂ h₂ _ => hc s₂ rest (h.trans h₂) fun s₃ h₃ => ?_
  exact hrest s₃ (h₂.toGrows.trans h₃)

/-- The guard of a mutation clears the row, and the mutation is over. -/
theorem safe_dropMutationGuard (hk : ∀ s', Grows s s' → Quiet t s' → CallSafe allowed t k s') :
    CallSafe allowed t (dropMutationGuard k) s := by
  refine safe_act does_removeIndex fun _ s₁ h₁ hsettled => ?_
  refine Safe.act (ensures_finish hsettled) fun _ s₂ h₂ => ?_
  exact hk s₂ (h₁.toGrows.trans h₂.1) h₂.2

theorem frameSafe_dropMutationGuard : FrameSafe allowed t dropMutationGuard s :=
  fun _ _ _ hrest => safe_dropMutationGuard hrest

theorem frameSafe_abandon : FrameSafe allowed t (fun rest => .act .abandon fun _ => rest) s :=
  fun _ _ _ hrest => Safe.act ensures_abandon fun _ s' h => hrest s' h.1 h.2

theorem safe_await {k : Answer ε a → Call ε} (hc : FrameSafe allowed t c s) (ha : Does allowed t a s Q)
    (hk : ∀ r s', Rely t s s' → Q r s' → CallSafe allowed t (k r) s') : CallSafe allowed t (await a c k) s :=
  Safe.alt (safe_act ha hk) (hc.drop (Rely.refl t s))

/-- An action of the blocking pool is safe if it is also when its caller has been dropped. -/
theorem safe_task {k : Answer ε a → Call ε} (hc : FrameSafe allowed t c s) (ha : Does allowed t a s Q)
    (hleft : ∀ s', Grows s s' → Quiet t s' → Does allowed t a s' fun _ _ => True)
    (hk : ∀ r s', Rely t s s' → Q r s' → CallSafe allowed t (k r) s') : CallSafe allowed t (task a c k) s := by
  apply Safe.alt
  · exact safe_act ha fun r s' h hQ => Safe.alt (hk r s' h hQ) (hc.drop h)
  · refine hc s _ (Rely.refl t s) fun s₁ h₁ hquiet => ?_
    exact safe_act (hleft s₁ h₁ hquiet) fun _ s₂ h₂ _ => Safe.ret (h₂.quiet hquiet)

end Frames

section Row

theorem safe_removeIndex (hc : FrameSafe allowed t c s)
    (hk : ∀ s', Rely t s s' → Settled t s' → CallSafe allowed t k s') :
    CallSafe allowed t (task .removeIndex c fun _ => k) s :=
  safe_task hc does_removeIndex (fun _ _ _ => does_removeIndex.weaken) fun _ s' h hsettled => hk s' h hsettled

theorem safe_tombstone {expected : Option (AvailRow ε)} {k : Option (AvailRow ε) → Call ε}
    (hc : FrameSafe allowed t c s)
    (hk : ∀ r s', Rely t s s' → (∀ S, r = some S → Stood S s' ∧ Settled t s') → CallSafe allowed t (k r) s') :
    CallSafe allowed t (task (.compareAndPut expected none) c k) s :=
  safe_task hc does_tombstone (fun _ _ _ => does_tombstone.weaken) hk

theorem safe_snapshotLoop {k : Option (AvailRow ε) → Call ε} (n : ℕ) (hc : FrameSafe allowed t c s)
    (hk : ∀ snapshot s', Rely t s s' → (∀ S, snapshot = some S → Stood S s') → CallSafe allowed t (k snapshot) s') :
    CallSafe allowed t (snapshotLoop c k n) s := by
  induction n generalizing s with
  | zero => exact hk none s (Rely.refl t s) fun _ h => nomatch h
  | succ n ih =>
    refine safe_await hc does_readAvail fun r s₁ h₁ hr => ?_
    match r with
    | none => exact hk none s₁ h₁ fun _ h => nomatch h
    | some (some row) => exact hk (some row) s₁ h₁ fun S hS => hr S (congrArg some hS)
    | some none =>
      refine safe_tombstone (hc.mono h₁) fun seed s₂ h₂ hseed => ?_
      match seed with
      | some seed => exact hk (some seed) s₂ (h₁.trans h₂) fun S hS => (hseed S hS).1
      | none => exact ih (hc.mono (h₁.trans h₂)) fun snapshot s₃ h₃ => hk snapshot s₃ ((h₁.trans h₂).trans h₃)

/-- A snapshot is a row that has stood. -/
theorem safe_snapshotAvail {k : Option (AvailRow ε) → Call ε} (hc : FrameSafe allowed t c s)
    (hk : ∀ snapshot s', Rely t s s' → (∀ S, snapshot = some S → Stood S s') → CallSafe allowed t (k snapshot) s') :
    CallSafe allowed t (snapshotAvail c k) s :=
  safe_snapshotLoop availCasAttempts hc hk

theorem safe_discardUnusedSeed (hc : FrameSafe allowed t c s) (hk : ∀ s', Rely t s s' → CallSafe allowed t k s') :
    CallSafe allowed t (discardUnusedSeed snapshot c k) s := by
  cases snapshot with
  | none => exact hk s (Rely.refl t s)
  | some row =>
    rw [discardUnusedSeed]
    split_ifs
    · exact hk s (Rely.refl t s)
    · exact safe_task hc does_compareAndRemove (fun _ _ _ => does_compareAndRemove) fun _ s' h _ => hk s' h

theorem safe_clearLiveFallback (hc : FrameSafe allowed t c s) (hk : ∀ s', Rely t s s' → CallSafe allowed t k s') :
    CallSafe allowed t (clearLiveFallback c k) s := by
  refine safe_await hc does_readAvail fun r s₁ h₁ _ => ?_
  match r with
  | none | some none => exact hk s₁ h₁
  | some (some row) =>
    dsimp only
    split_ifs
    · refine safe_act does_bumpGeneration fun _ s₂ h₂ _ => ?_
      have h₁₂ := h₁.trans h₂
      exact safe_tombstone (hc.mono h₁₂) fun _ s₃ h₃ _ => hk s₃ (h₁₂.trans h₃)
    · exact hk s₁ h₁

theorem safe_settleWithoutValidator {disproves : Bool} (hc : FrameSafe allowed t c s)
    (hk : ∀ s', Rely t s s' → CallSafe allowed t k s') :
    CallSafe allowed t (settleWithoutValidator disproves snapshot c k) s := by
  rw [settleWithoutValidator]
  split_ifs
  · apply safe_clearLiveFallback hc
    exact fun s₁ h₁ => safe_discardUnusedSeed (hc.mono h₁) fun s₂ h₂ => hk s₂ (h₁.trans h₂)
  · exact safe_discardUnusedSeed hc hk

theorem safe_clearLoop (n : ℕ) (hc : FrameSafe allowed t c s)
    (hk : ∀ s', Rely t s s' → Settled t s' → CallSafe allowed t k s') : CallSafe allowed t (clearLoop c k n) s := by
  induction n generalizing s with
  | zero => exact safe_removeIndex hc hk
  | succ n ih =>
    refine safe_await hc does_readAvail fun r s₁ h₁ _ => ?_
    match r with
    | none => exact safe_removeIndex (hc.mono h₁) fun s₂ h₂ => hk s₂ (h₁.trans h₂)
    | some current =>
      refine safe_tombstone (hc.mono h₁) fun written s₂ h₂ hwritten => ?_
      match written with
      | some row => exact hk s₂ (h₁.trans h₂) (hwritten row rfl).2
      | none => exact ih (hc.mono (h₁.trans h₂)) fun s₃ h₃ => hk s₃ ((h₁.trans h₂).trans h₃)

/-- A clear settles the row. -/
theorem safe_clearLatest (hc : FrameSafe allowed t c s)
    (hk : ∀ s', Rely t s s' → Settled t s' → CallSafe allowed t k s') : CallSafe allowed t (clearLatest c k) s := by
  refine safe_act does_bumpGeneration fun _ s₁ h₁ _ => ?_
  exact safe_clearLoop _ (hc.mono h₁) fun s₂ h₂ => hk s₂ (h₁.trans h₂)

theorem safe_clearWatchedObject (hk : ∀ s', Rely t s s' → Settled t s' → CallSafe allowed t k s') :
    CallSafe allowed t (clearWatchedObject k) s := by
  refine safe_act does_bumpGeneration fun _ s₁ h₁ _ => ?_
  exact safe_act does_removeIndex fun _ s₂ h₂ => hk s₂ (h₁.trans h₂)

/-- A publication settles the row, when what it publishes is publishable. -/
theorem safe_publishMutation (hc : FrameSafe allowed t c s)
    (hsnapshot : ∀ S, snapshot = some S → Publishable t S etag s)
    (hk : ∀ s', Rely t s s' → Settled t s' → CallSafe allowed t k s') :
    CallSafe allowed t (publishMutation snapshot etag c k) s := by
  cases snapshot with
  | none => exact safe_removeIndex hc hk
  | some row =>
    refine safe_task hc (does_publish (hsnapshot row rfl)) (fun s₁ h₁ hquiet => ?_) fun r s₁ h₁ hr => ?_
    · exact (does_publish ((hsnapshot row rfl).quiet h₁ hquiet)).weaken
    · match r with
      | some written => exact hk s₁ h₁ (hr written rfl).2
      | none => exact safe_removeIndex (hc.mono h₁) fun s₂ h₂ => hk s₂ (h₁.trans h₂)

theorem safe_finalizeCommittedTee {startGeneration : ℕ} (hc : FrameSafe allowed t c s)
    (hsnapshot : ∀ S, snapshot = some S → Publishable t S etag s)
    (hk : ∀ s', Rely t s s' → Settled t s' → CallSafe allowed t k s') :
    CallSafe allowed t (finalizeCommittedTee snapshot etag startGeneration c k) s := by
  refine safe_act does_generation fun current s₁ h₁ _ => ?_
  split_ifs
  · exact safe_clearLatest (hc.mono h₁) fun s₂ h₂ => hk s₂ (h₁.trans h₂)
  · refine safe_act does_bumpGeneration fun _ s₂ h₂ _ => ?_
    have h₁₂ := h₁.trans h₂
    apply safe_publishMutation (hc.mono h₁₂)
    · exact fun S hS => h₁₂.publishable (hsnapshot S hS)
    · exact fun s₃ h₃ => hk s₃ (h₁₂.trans h₃)

end Row

section Reads

/-- What a read publishes is publishable, and each of its exits clears or leaves the row. -/
theorem safe_recordLatestGuarded (hc : FrameSafe allowed t c s)
    (hsnapshot : ∀ S, snapshot = some S → Publishable t S etag s) (hk : ∀ s', Rely t s s' → CallSafe allowed t k s') :
    CallSafe allowed t (recordLatestGuarded snapshot etag c k) s := by
  cases snapshot with
  | none => exact safe_act does_removeIndex fun _ s₁ h₁ _ => hk s₁ h₁
  | some row =>
    have hpublish := hsnapshot row rfl
    refine Safe.alt ?_ (Safe.alt ?_ (Safe.alt ?_ ?_))
    · refine safe_act (does_publish hpublish) fun r s₁ h₁ _ => ?_
      match r with
      | some _ => exact Safe.alt (hk s₁ h₁) (hc.drop h₁)
      | none =>
        have hdrop := frameSafe_dropReadGuard (hc.mono h₁)
        refine safe_await hdrop does_readAvail fun r s₂ h₂ _ => ?_
        split_ifs
        · exact hk s₂ (h₁.trans h₂)
        · exact safe_removeIndex (hdrop.mono h₂) fun s₃ h₃ _ => hk s₃ ((h₁.trans h₂).trans h₃)
    · -- The task runs when its caller is gone.
      refine hc s _ (Rely.refl t s) fun s₁ h₁ hquiet => ?_
      refine safe_act (does_publish (hpublish.quiet h₁ hquiet)) fun r s₂ h₂ _ => ?_
      match r with
      | some _ => exact Safe.ret (h₂.quiet hquiet)
      | none =>
        refine safe_act does_removeIndex fun _ s₃ h₃ _ => ?_
        exact Safe.ret ((h₂.trans h₃).quiet hquiet)
    · exact safe_act does_removeIndex fun _ s₁ h₁ _ => hk s₁ h₁
    · exact (frameSafe_dropReadGuard hc).drop (Rely.refl t s)

theorem safe_dropReadGuard (hquiet : Quiet t s) : CallSafe allowed t (dropReadGuard .ret) s :=
  (frameSafe_dropReadGuard (frameSafe_id hquiet)).drop (Rely.refl t s)

theorem safe_teeIntoCache (hquiet : Quiet t s) (hsnapshot : ∀ S, snapshot = some S → Publishable t S etag s) :
    CallSafe allowed t (teeIntoCache snapshot etag) s := by
  have hframe : FrameSafe allowed t unregister s := frameSafe_unregister (frameSafe_id hquiet)
  have hdrop : FrameSafe allowed t (fun rest => unregister (dropReadGuard rest)) s :=
    frameSafe_unregister (frameSafe_dropReadGuard (frameSafe_id hquiet))
  refine safe_act does_register fun start s₁ h₁ _ => Safe.alt (hdrop.drop h₁) ?_
  refine safe_act does_generation fun current s₂ h₂ _ => ?_
  have h₁₂ := h₁.trans h₂
  split_ifs
  · refine Safe.alt ?_ (hdrop.drop h₁₂)
    apply safe_recordLatestGuarded (hframe.mono h₁₂)
    · exact fun S hS => h₁₂.publishable (hsnapshot S hS)
    · exact fun s₃ h₃ => hframe.drop (h₁₂.trans h₃)
  · exact hdrop.drop h₁₂

theorem safe_fill (hquiet : Quiet t s) (hsnapshot : ∀ S, snapshot = some S → Publishable t S etag s) :
    CallSafe allowed t (fill snapshot etag) s := by
  have hret : ∀ s', Rely t s s' → CallSafe allowed t .ret s' := fun _ h => Safe.ret (h.quiet hquiet)
  refine Safe.alt (safe_dropReadGuard hquiet) (Safe.alt ?_ (Safe.alt ?_ ?_))
  · exact safe_recordLatestGuarded (frameSafe_id hquiet) hsnapshot hret
  · exact safe_teeIntoCache hquiet hsnapshot
  · apply safe_clearLatest (frameSafe_dropReadGuard (frameSafe_id hquiet))
    exact fun s₁ h₁ _ => safe_dropReadGuard (h₁.quiet hquiet)

/-- The inner layer is read after the snapshot: what it proves is publishable against it. -/
theorem safe_readInner {probe : ValidatorProbe ε} (hquiet : Quiet t s)
    (hsnapshot : ∀ S, snapshot = some S → Stood S s) :
    CallSafe allowed t (readInner probe snapshot) s := by
  refine safe_await (frameSafe_id hquiet) does_backendRead fun r s₁ h₁ hr => ?_
  have hquiet₁ := h₁.quiet hquiet
  have hret : ∀ s', Rely t s₁ s' → CallSafe allowed t .ret s' := fun _ h => Safe.ret (h.quiet hquiet₁)
  match r with
  | .failed => exact safe_discardUnusedSeed (frameSafe_id hquiet₁) hret
  | .unproved disproves =>
    dsimp only
    split_ifs
    · exact hret s₁ (Rely.refl t s₁)
    · exact safe_settleWithoutValidator (frameSafe_id hquiet₁) hret
  | .proved etag => exact safe_fill hquiet₁ fun S hS => hr etag rfl S (hsnapshot S hS)

theorem safe_lookupEtag {k : ValidatorProbe ε → Call ε} (hquiet : Quiet t s)
    (hk : ∀ probe s', Rely t s s' → CallSafe allowed t (k probe) s') : CallSafe allowed t (lookupEtag k) s := by
  refine safe_await (frameSafe_id hquiet) does_stat fun r s₁ h₁ _ => ?_
  have hframe : FrameSafe allowed t id s₁ := frameSafe_id (h₁.quiet hquiet)
  match r with
  | .cancelled => exact Safe.ret (h₁.quiet hquiet)
  | .strong _ | .unnamed | .untrusted => exact safe_settleWithoutValidator hframe fun s₂ h₂ => hk _ s₂ (h₁.trans h₂)
  | .outage => exact safe_await hframe does_readAvail fun _ s₂ h₂ _ => hk _ s₂ (h₁.trans h₂)
  | .refused => exact hk _ s₁ h₁

theorem safe_read (hquiet : Quiet t s) : CallSafe allowed t read s := by
  refine safe_lookupEtag hquiet fun probe s₁ h₁ => ?_
  have hquiet₁ := h₁.quiet hquiet
  have hmiss : CallSafe allowed t
      (if probe.snapshotFence then snapshotAvail id fun snapshot => readInner probe snapshot
       else readInner probe none) s₁ := by
    split_ifs
    · apply safe_snapshotAvail (frameSafe_id hquiet₁)
      exact fun snapshot s₂ h₂ hstood => safe_readInner (h₂.quiet hquiet₁) hstood
    · exact safe_readInner hquiet₁ fun _ h => nomatch h
  by_cases hvalidator : probe.validator.isSome
  · simp only [if_pos hvalidator]
    exact Safe.alt (Safe.ret hquiet₁) hmiss
  · simp only [if_neg hvalidator]
    exact hmiss

end Reads

section Mutations

/-- A mutation starts with a write-ahead clear, and saves a row that has stood. -/
theorem safe_arm {k : Option (AvailRow ε) → Call ε}
    (hk : ∀ preserved s', Rely t s s' → (∀ S, preserved = some S → Stood S s') → CallSafe allowed t (k preserved) s') :
    CallSafe allowed t (arm k) s := by
  refine safe_await frameSafe_dropMutationGuard does_readAvail fun r s₁ h₁ hr => ?_
  refine safe_removeIndex frameSafe_dropMutationGuard fun s₂ h₂ _ => ?_
  refine hk r.join s₂ (h₁.trans h₂) fun S hS => h₂.stood (hr S ?_)
  exact Option.join_eq_some_iff.mp hS

/-- A mutation may return once the row is settled. -/
theorem safe_disarm (hsettled : Settled t s) (hk : ∀ s', Grows s s' → Quiet t s' → CallSafe allowed t k s') :
    CallSafe allowed t (disarm k) s :=
  Safe.act (ensures_finish hsettled) fun _ s' h => hk s' h.1 h.2

theorem safe_disarm_ret (hsettled : Settled t s) : CallSafe allowed t (disarm .ret) s :=
  safe_disarm hsettled fun _ _ hquiet => Safe.ret hquiet

/-- The inner call of a mutation: its commit lies behind what the backend held when it began. -/
theorem safe_innerCall {reply : Action ε} {Q : Answer ε reply → Shared ι ε → Prop} {k : Answer ε reply → Call ε}
    (hquiet : Quiet t s) (hc : ∀ s, FrameSafe allowed t c s) (hreply : ∀ s, Does allowed t reply s Q)
    (hk : ∀ r s', Grows s s' → (∀ n, s'.commits t = some n → s.held.length ≤ n) → Q r s' →
      CallSafe allowed t (k r) s') : CallSafe allowed t (innerCall reply c k) s := by
  refine Safe.alt ?_ ((hc s).drop (Rely.refl t s))
  refine Safe.act (ensures_backendCommit hquiet) fun _ s₁ h₁ => ?_
  refine safe_await (hc s₁) (hreply s₁) fun r s₂ h₂ hQ => ?_
  exact hk r s₂ (h₁.1.trans h₂.toGrows) (fun n hn => h₁.2 n (h₂.commits.symm.trans hn)) hQ

theorem safe_invalidating (hquiet : Quiet t s) (hc : ∀ s, FrameSafe allowed t c s)
    (hk : ∀ s', Settled t s' → CallSafe allowed t k s') : CallSafe allowed t (invalidating c k) s := by
  refine safe_innerCall hquiet hc (fun _ => does_backendReply) fun r s₁ _ _ _ => ?_
  match r with
  | none => exact (hc s₁).drop (Rely.refl t s₁)
  | some _ => exact safe_clearLatest (hc s₁) fun s₂ _ hsettled => hk s₂ hsettled

theorem safe_clearSubtree (hk : ∀ s', Rely t s s' → CallSafe allowed t k s') : CallSafe allowed t (clearSubtree k) s :=
  Safe.alt (hk s (Rely.refl t s)) (safe_clearWatchedObject fun s' h _ => hk s' h)

theorem safe_mutation (hquiet : Quiet t s) : CallSafe allowed t mutation s := by
  refine safe_arm fun _ s₁ h₁ _ => ?_
  apply safe_invalidating (h₁.quiet hquiet) fun _ => frameSafe_dropMutationGuard
  exact fun s₂ hsettled => safe_disarm_ret hsettled

theorem safe_sweepingMutation (hquiet : Quiet t s) : CallSafe allowed t sweepingMutation s := by
  refine safe_arm fun _ s₁ h₁ _ => ?_
  refine safe_invalidating (h₁.quiet hquiet) (fun _ => frameSafe_dropMutationGuard) fun s₂ hsettled => ?_
  apply Safe.alt
  · exact safe_clearSubtree fun s₃ h₃ => safe_disarm_ret (h₃.settled hsettled)
  · exact frameSafe_dropMutationGuard.drop (Rely.refl t s₂)

theorem safe_renameToItself (hquiet : Quiet t s) : CallSafe allowed t renameToItself s := by
  have hboth : ∀ s, FrameSafe allowed t (fun rest => dropMutationGuard (dropMutationGuard rest)) s :=
      fun s s₁ rest _ hrest =>
    safe_dropMutationGuard fun s₂ h₂ _ => safe_dropMutationGuard fun s₃ h₃ => hrest s₃ (h₂.trans h₃)
  refine safe_arm fun _ s₁ h₁ _ => ?_
  refine safe_await (hboth s₁) does_readAvail fun _ s₂ h₂ _ => ?_
  refine safe_removeIndex (hboth s₂) fun s₃ h₃ _ => ?_
  refine safe_invalidating (((h₁.trans h₂).trans h₃).quiet hquiet) hboth fun s₄ _ => ?_
  refine safe_clearLatest (hboth s₄) fun s₅ _ hsettled => safe_clearSubtree fun s₆ h₆ => ?_
  exact safe_disarm (h₆.settled hsettled) fun s₇ _ hquiet₇ => safe_disarm_ret hquiet₇.settled

theorem safe_ancestorMutation (hquiet : Quiet t s) : CallSafe allowed t ancestorMutation s := by
  refine safe_innerCall hquiet (fun _ => frameSafe_abandon) (fun _ => does_backendReply) fun r s₁ _ _ _ => ?_
  have hforget : CallSafe allowed t (.act .abandon fun _ => .ret) s₁ := frameSafe_abandon.drop (Rely.refl t s₁)
  match r with
  | none => exact hforget
  | some _ =>
    refine Safe.alt ?_ hforget
    exact safe_clearWatchedObject fun s₂ _ hsettled => safe_disarm_ret hsettled

/-- A write that has succeeded publishes what its own commit made of the object, or clears. -/
theorem safe_writeThroughDone {startGeneration : ℕ} {proof : Option ε}
    (hsnapshot : ∀ S v, snapshot = some S → proof = some v → Publishable t S v s) :
    CallSafe allowed t (writeThroughDone snapshot startGeneration proof) s := by
  have hframe : ∀ s, FrameSafe allowed t (fun rest => unregister (dropMutationGuard rest)) s :=
    fun _ => frameSafe_unregister frameSafe_dropMutationGuard
  have hdone : ∀ s', Settled t s' → CallSafe allowed t (disarm (unregister .ret)) s' := fun s' hsettled =>
    safe_disarm hsettled fun s₁ _ hquiet₁ => (frameSafe_unregister (frameSafe_id hquiet₁)).drop (Rely.refl t s₁)
  have hclear : ∀ s', CallSafe allowed t
      (clearLatest (fun rest => unregister (dropMutationGuard rest)) (disarm (unregister .ret))) s' :=
    fun s' => safe_clearLatest (hframe s') fun s₁ _ hsettled => hdone s₁ hsettled
  cases proof with
  | none => exact hclear s
  | some etag =>
    refine safe_act does_generation fun current s₁ h₁ _ => ?_
    dsimp only
    split_ifs
    · refine Safe.alt ?_ (Safe.alt (hclear s₁) ((hframe s₁).drop (Rely.refl t s₁)))
      apply safe_finalizeCommittedTee (hframe s₁)
      · exact fun S hS => h₁.publishable (hsnapshot S etag hS rfl)
      · exact fun s₂ _ hsettled => hdone s₂ hsettled
    · exact hclear s₁

theorem safe_writeThrough (hquiet : Quiet t s) : CallSafe allowed t writeThrough s := by
  have hframe : ∀ s, FrameSafe allowed t (fun rest => unregister (dropMutationGuard rest)) s :=
    fun _ => frameSafe_unregister frameSafe_dropMutationGuard
  have hinvalidating : ∀ s', Quiet t s' → CallSafe allowed t (invalidating dropMutationGuard (disarm .ret)) s' :=
    fun s' hquiet' => safe_invalidating hquiet' (fun _ => frameSafe_dropMutationGuard) fun _ => safe_disarm_ret
  refine safe_arm fun _ s₁ h₁ _ => ?_
  refine Safe.alt (hinvalidating s₁ (h₁.quiet hquiet)) ?_
  refine safe_snapshotAvail frameSafe_dropMutationGuard fun snapshot s₂ h₂ hstood => ?_
  refine safe_act does_register fun start s₃ h₃ _ => ?_
  have hquiet₃ := ((h₁.trans h₂).trans h₃).quiet hquiet
  apply Safe.alt
  · exact safe_act does_unregister fun _ s₄ h₄ _ => hinvalidating s₄ (h₄.quiet hquiet₃)
  · refine safe_innerCall hquiet₃ hframe (fun _ => does_backendReply) fun r s₄ h₄ hcommit hr => ?_
    match r with
    | none => exact (hframe s₄).drop (Rely.refl t s₄)
    | some proof =>
      apply Safe.alt
      · refine safe_clearLatest (hframe s₄) fun s₅ _ hsettled => safe_disarm hsettled fun s₆ _ hquiet₆ => ?_
        exact (frameSafe_unregister (frameSafe_id hquiet₆)).drop (Rely.refl t s₆)
      · refine safe_writeThroughDone fun S v hS hv => ?_
        obtain ⟨n, hn, hheld⟩ := hr v (congrArg some hv)
        exact publishable_of_commit (h₃.stood (hstood S hS)) h₄ hn (hcommit n hn) hheld

/-- What `continue_write` does in the runs in question: it meets no redirect step, or a redirect
step puts a row back only if no mutation has settled since it was written. -/
def Restores (allowed : ι → (a : Action ε) → Answer ε a → Shared ι ε → Prop) : Prop :=
  (∀ t s, ¬allowed t .backendStep .redirects s) ∨
    ∀ t S r s, allowed t (.restore S) r s → s.row = none → s.stamp S.nonce = s.floor

theorem safe_continueWrite (hallowed : Restores allowed) (hquiet : Quiet t s) : CallSafe allowed t continueWrite s := by
  refine safe_arm fun preserved s₁ h₁ hstood => ?_
  refine safe_innerCall (h₁.quiet hquiet) (fun _ => frameSafe_dropMutationGuard) (fun _ => does_backendStep)
    fun r s₂ h₂ _ hr => ?_
  match r with
  | .failed => exact frameSafe_dropMutationGuard.drop (Rely.refl t s₂)
  | .done => exact safe_clearLatest frameSafe_dropMutationGuard fun s₃ _ hsettled => safe_disarm_ret hsettled
  | .redirects =>
    obtain ⟨hquiet₂, s₀, hs₀⟩ := hr rfl
    rcases hallowed with hno | hclear
    · exact absurd hs₀ (hno t s₀)
    · cases preserved with
      | none => exact Safe.ret hquiet₂
      | some S =>
        have hS := h₂.stood (hstood S rfl)
        apply safe_task (frameSafe_id hquiet₂) (does_restore hS fun r s₁ => hclear t S r s₁)
        · exact fun s₃ h₃ _ => does_restore (h₃.stood hS) fun r s₁ => hclear t S r s₁
        · exact fun _ s₃ h₃ _ => Safe.ret (h₃.quiet hquiet₂)

end Mutations

/-- Every operation keeps the invariant, however the others interleave with it. -/
theorem operation_safe (hallowed : Restores allowed) (op : Operation) (hquiet : Quiet t s) :
    CallSafe allowed t op.program s := by
  have hret : ∀ s', Rely t s s' → CallSafe allowed t .ret s' := fun _ h => Safe.ret (h.quiet hquiet)
  cases op with
  | read => exact safe_read hquiet
  | writeThrough => exact safe_writeThrough hquiet
  | mutation => exact safe_mutation hquiet
  | sweepingMutation => exact safe_sweepingMutation hquiet
  | renameToItself => exact safe_renameToItself hquiet
  | ancestorMutation => exact safe_ancestorMutation hquiet
  | continueWrite => exact safe_continueWrite hallowed hquiet
  | watchClear => exact safe_clearWatchedObject fun s₁ h₁ _ => hret s₁ h₁
  | evict => exact safe_act does_removeIndex fun _ s₁ h₁ _ => hret s₁ h₁
  | outOfBand => exact safe_act does_outOfBand fun _ s₁ h₁ _ => hret s₁ h₁

theorem System.Initial.kept {s : System ι ε} (hs : s.Initial) : (fence allowed).Kept s where
  inv := {
    nonce S hS := ⟨hs.nonce S hS, by rw [hs.stamp, hs.floor]⟩
    names _ _ _ _ hpos := absurd hs.floor hpos.ne'
    floor := by
      rw [hs.floor]
      exact List.length_pos_iff.mpr hs.held
    commits t n hn := by
      rw [hs.commits] at hn
      cases hn
    finished n hn := by
      rw [hs.finished] at hn
      cases hn }
  safe t := by
    rw [hs.progs]
    exact Safe.ret (congrFun hs.commits t)

/-- In every run of allowed steps, no mutation is undone. -/
theorem fenced_of_allowed (allowed : ι → (a : Action ε) → Answer ε a → Shared ι ε → Prop) (hallowed : Restores allowed)
    {trace : List (Step ι ε)} {s : System ι ε}
    (h : Run System.Initial (fun s l s' => s.step l = some s' ∧ (fence allowed).Allows s l) trace s) :
    Fenced s.shared :=
  (run (fun _ op _ _ hquiet => operation_safe hallowed op hquiet) (fun _ hs => hs.kept) h).inv.fenced

/-- The steps that are no answer of `Redirects`. -/
def noRedirects (t : ι) (a : Action ε) (r : Answer ε a) (_ : Shared ι ε) : Prop :=
  ∀ t', (Event.act t a r : Step ι ε) ≠ .act t' .backendStep .redirects

/-- Without redirect steps, no mutation that is over is undone, whatever runs beside it, fails or
is cancelled. -/
theorem fenced_of_run {trace : List (Step ι ε)} {s : System ι ε} (h : Runs trace s)
    (hredirects : ∀ t, Event.act t .backendStep .redirects ∉ trace) : Fenced s.shared := by
  apply fenced_of_allowed noRedirects
  · exact .inl fun t _ hno => hno t rfl
  · refine h.imp fun s l s' hl hstep => ⟨hstep, ?_⟩
    cases l with
    | act t a r => exact fun t' heq => hredirects t' (heq ▸ hl)
    | _ => trivial

/-- Where the step is the swap of a redirect step that finds no row, no mutation has settled the
address since the saved row was written. -/
def RestoreClear (s : Shared ι ε) : Step ι ε → Prop
  | .act _ (.restore S) _ => s.row = none → s.stamp S.nonce = s.floor
  | _ => True

instance (s : Shared ι ε) (l : Step ι ε) : Decidable (RestoreClear s l) := by
  unfold RestoreClear
  split <;> infer_instance

/-- A redirect step undoes no mutation if none has settled the address in the meantime. -/
theorem fenced_of_restoreClear {trace : List (Step ι ε)} {s : System ι ε}
    (h : RunsWhen (fun s => RestoreClear s.shared) trace s) : Fenced s.shared := by
  apply fenced_of_allowed fun t a r s => RestoreClear s (.act t a r)
  · exact .inr fun t S r s hclear => hclear
  · refine h.imp fun s l s' _ hstep => ⟨hstep.1, ?_⟩
    cases l with
    | act t a r => exact hstep.2
    | _ => trivial

section Runs

/-- A row that names the validator 7, which the backend holds. -/
def cached : System ℕ ℕ := Threads.idle
  { row := some ⟨0, some 7⟩, nextNonce := 1, held := [some 7], slot := none, commits := fun _ => none, floor := 0,
    stamp := fun _ => 0, finished := [] }

theorem cached_initial : cached.Initial where
  progs := rfl
  nonce S hS := by
    cases hS
    exact Nat.one_pos
  held := by decide
  commits := rfl
  floor := rfl
  stamp := rfl
  finished := rfl

/-- A write-through publishes the validator 9. -/
def written : List (Step ℕ ℕ) :=
  [.call 0 .writeThrough, .left 0, .act 0 .readAvail (some (some ⟨0, some 7⟩)), .left 0,
    .act 0 .removeIndex (), .left 0,
    .right 0, .left 0, .act 0 .readAvail (some none), .left 0, .act 0 (.compareAndPut none none) (some ⟨1, none⟩),
    .left 0, .act 0 .register 0, .right 0, .left 0, .act 0 .backendCommit (some (some 9)), .left 0,
    .act 0 .backendReply (some (some 9)), .right 0, .act 0 .generation 0, .left 0, .act 0 .generation 0,
    .act 0 .bumpGeneration (), .left 0, .act 0 (.compareAndPut (some ⟨1, none⟩) (some 9)) (some ⟨2, some 9⟩), .left 0,
    .act 0 .finish (), .act 0 .unregister ()]

/-- `continue_write` takes the row away until its step is answered. -/
def armed (S : AvailRow ℕ) : List (Step ℕ ℕ) :=
  [.call 1 .continueWrite, .left 1, .act 1 .readAvail (some (some S)), .left 1, .act 1 .removeIndex (), .left 1]

/-- The step is answered with `Redirects`, and the row put back. -/
def restored (S : AvailRow ℕ) : List (Step ℕ ℕ) :=
  [.left 1, .act 1 .backendCommit none, .left 1, .act 1 .backendStep .redirects, .left 1, .act 1 (.restore S) true]

/-- A delete of the object, which leaves a tombstone. -/
def deleted : List (Step ℕ ℕ) :=
  [.call 2 .mutation, .left 2, .act 2 .readAvail (some none), .left 2, .act 2 .removeIndex (), .left 2, .left 2,
    .act 2 .backendCommit (some none), .left 2, .act 2 .backendReply (some none), .act 2 .bumpGeneration (), .left 2,
    .act 2 .readAvail (some none), .left 2, .act 2 (.compareAndPut none none) (some ⟨1, none⟩), .left 2,
    .act 2 .finish ()]

/-- A read that finds no object, and takes the tombstone with it. -/
def probed : List (Step ℕ ℕ) :=
  [.call 3 .read, .left 3, .act 3 .stat .unnamed, .left 3, .act 3 .readAvail (some (some ⟨1, none⟩)), .left 3,
    .act 3 .backendRead .failed, .left 3, .act 3 (.compareAndRemove ⟨1, none⟩) true]

/-- A write-through that is over, with the row it has published. -/
theorem written_fenced : ∃ s : System ℕ ℕ, Runs written s ∧ s.shared.finished = [1] ∧
    s.shared.row = some ⟨2, some 9⟩ ∧ Fenced s.shared := by
  obtain ⟨s, hs, hp⟩ := System.exists_run cached_initial written
    (fun s => s.shared.finished = [1] ∧ s.shared.row = some ⟨2, some 9⟩) (by decide +kernel)
  have hp := of_decide_eq_true hp
  refine ⟨s, hs, hp.1, hp.2, fenced_of_run hs fun t ht => ?_⟩
  simp [written] at ht

/-- A redirect step alone puts its row back. -/
theorem restored_fenced : ∃ s : System ℕ ℕ, RunsWhen (fun s => RestoreClear s.shared)
    (written ++ armed ⟨2, some 9⟩ ++ restored ⟨2, some 9⟩) s ∧ s.shared.finished = [1] ∧
    s.shared.row = some ⟨2, some 9⟩ ∧ Fenced s.shared := by
  obtain ⟨s, hs, hp⟩ := System.exists_runWhen cached_initial (fun s => RestoreClear s.shared)
    (written ++ armed ⟨2, some 9⟩ ++ restored ⟨2, some 9⟩)
    (fun s => s.shared.finished = [1] ∧ s.shared.row = some ⟨2, some 9⟩) (by decide +kernel)
  have hp := of_decide_eq_true hp
  exact ⟨s, hs, hp.1, hp.2, fenced_of_restoreClear hs⟩

/-- A delete commits and returns while a redirect step holds the row; a read takes the delete's
tombstone away, and the redirect step puts the deleted object's validator back. -/
theorem redirect_restores_superseded : ∃ s : System ℕ ℕ,
    Runs (armed ⟨0, some 7⟩ ++ deleted ++ probed ++ restored ⟨0, some 7⟩) s ∧ s.shared.finished = [1] ∧
    s.shared.row = some ⟨0, some 7⟩ ∧ some 7 ∉ s.shared.held.drop 1 ∧ ¬Fenced s.shared := by
  obtain ⟨s, hs, hp⟩ := System.exists_run cached_initial
      (armed ⟨0, some 7⟩ ++ deleted ++ probed ++ restored ⟨0, some 7⟩)
    (fun s => s.shared.finished = [1] ∧ s.shared.row = some ⟨0, some 7⟩ ∧ some 7 ∉ s.shared.held.drop 1)
    (by decide +kernel)
  obtain ⟨hfinished, hrow, hheld⟩ := of_decide_eq_true hp
  refine ⟨s, hs, hfinished, hrow, hheld, fun hfenced => hheld ?_⟩
  exact hfenced 1 (by simp [hfinished]) _ 7 hrow rfl

end Runs

end OvStorage.Availability
