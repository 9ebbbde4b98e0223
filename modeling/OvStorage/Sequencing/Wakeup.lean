import OvStorage.Sequencing.TicketOrder

/-!
# Waiting for a ticket

`TicketOrder::wait_for` among retirements and closes: any number of waiters for any tickets, each cut at every read
of `closed` and of the watch, and any number of closes, cut between the store of the flag and the notification.

The watch counts its versions: a receiver marks the version seen whose value it borrows, `changed` returns where the
two differ, and every `send_modify` and every `send_if_modified` that reports a change makes a new version.

## What is proved

* `parked_is_woken`: where a parked waiter has something to see there is a version that it has not seen.
-/

namespace OvStorage.Sequencing

/-- Where `wait_for` stands. -/
inductive WaitPc
  | checkClosed
  | borrow
  | recheckClosed
  | changed
  | refused
  | passed
deriving DecidableEq, Repr

/-- The future can be dropped where it awaits, and when it has returned. -/
def WaitPc.droppable : WaitPc → Bool
  | .changed | .refused | .passed => true
  | _ => false

/-- A call of `wait_for`. -/
structure Waiter where
  ticket : ℕ
  pc : WaitPc
  seen : ℕ
deriving DecidableEq, Repr

/-- `TicketOrder`: the watch with its version, the early retirements and the flag. `closing` is how many closes have
stored the flag and not yet sent, `notified` whether some close has. -/
structure Order where
  frontier : ℕ
  version : ℕ
  pending : Finset ℕ
  closed : Bool
  closing : ℕ
  notified : Bool
  waiter : ℕ → Option Waiter

/-- `TicketOrder::new`. -/
def Order.new : Order where
  frontier := 0
  version := 0
  pending := ∅
  closed := false
  closing := 0
  notified := false
  waiter _ := none

/-- Replace a waiter. -/
def Order.setWaiter (o : Order) (i : ℕ) (w : Option Waiter) : Order := { o with waiter := Function.update o.waiter i w }

/-- `TicketOrder::retire`. -/
def Order.retire (o : Order) (ticket : ℕ) : Order :=
  if ticket ≠ o.frontier + 1 then
    { o with pending := insert ticket o.pending }
  else
    { o with
      frontier := (absorb ticket o.pending).1
      pending := (absorb ticket o.pending).2
      version := o.version + 1 }

/-- The atomic steps, each waiter under a name of its own. -/
inductive OrderLabel
  | subscribe (i ticket : ℕ)
  | checkClosed (i : ℕ)
  | borrow (i : ℕ)
  | recheckClosed (i : ℕ)
  | wake (i : ℕ)
  | drop (i : ℕ)
  | retire (ticket : ℕ)
  | storeClosed
  | publishClosed

/-- One step of some thread. -/
inductive OrderStep : Order → OrderLabel → Order → Prop
  | subscribe (o : Order) (i t : ℕ) (fresh : o.waiter i = none) (stamped : 0 < t) :
    OrderStep o (.subscribe i t) (o.setWaiter i (some ⟨t, .checkClosed, o.version⟩))
  | checkClosed (o : Order) (i : ℕ) (w : Waiter) (waits : o.waiter i = some w) (pc : w.pc = .checkClosed) :
    OrderStep o (.checkClosed i) (o.setWaiter i (some { w with pc := if o.closed then .refused else .borrow }))
  | borrow (o : Order) (i : ℕ) (w : Waiter) (waits : o.waiter i = some w) (pc : w.pc = .borrow) :
    OrderStep o (.borrow i)
      (o.setWaiter i
        (some { w with pc := if o.frontier ≥ w.ticket - 1 then .passed else .recheckClosed, seen := o.version }))
  | recheckClosed (o : Order) (i : ℕ) (w : Waiter) (waits : o.waiter i = some w) (pc : w.pc = .recheckClosed) :
    OrderStep o (.recheckClosed i) (o.setWaiter i (some { w with pc := if o.closed then .refused else .changed }))
  | wake (o : Order) (i : ℕ) (w : Waiter) (waits : o.waiter i = some w) (pc : w.pc = .changed)
    (newer : o.version ≠ w.seen) :
    OrderStep o (.wake i) (o.setWaiter i (some { w with pc := .checkClosed, seen := o.version }))
  | drop (o : Order) (i : ℕ) (w : Waiter) (waits : o.waiter i = some w) (idle : w.pc.droppable) :
    OrderStep o (.drop i) (o.setWaiter i none)
  | retire (o : Order) (t : ℕ) : OrderStep o (.retire t) (o.retire t)
  | storeClosed (o : Order) : OrderStep o .storeClosed { o with closed := true, closing := o.closing + 1 }
  | publishClosed (o : Order) (stored : 0 < o.closing) :
    OrderStep o .publishClosed { o with version := o.version + 1, closing := o.closing - 1, notified := true }

/-- The runs of one `TicketOrder`. -/
abbrev OrderRun : List OrderLabel → Order → Prop := Run (· = Order.new) OrderStep

/-! ### What a waiter has seen -/

/-- A waiter that has seen the latest version: behind the borrow its turn had not come, and behind the second check
no close had been published. -/
structure Waiter.Fresh (o : Order) (w : Waiter) : Prop where
  seen_le : w.seen ≤ o.version
  behind : w.pc = .recheckClosed ∨ w.pc = .changed → w.seen = o.version → o.frontier < w.ticket - 1
  open_ : w.pc = .changed → w.seen = o.version → o.notified = false

/-- What every reachable state keeps. -/
structure Fresh (o : Order) : Prop where
  closed : 0 < o.closing ∨ o.notified = true → o.closed = true
  waiters : ∀ i w, o.waiter i = some w → w.Fresh o

variable {o o' : Order}

/-- Under a new version nothing has seen the latest one. -/
theorem Waiter.Fresh.newer {w : Waiter} (h : w.Fresh o) (hv : o'.version = o.version + 1) : w.Fresh o' where
  seen_le := by
    have := h.seen_le
    omega
  behind := by
    have := h.seen_le
    omega
  open_ := by
    have := h.seen_le
    omega

theorem Waiter.Fresh.same {w : Waiter} (h : w.Fresh o) (hv : o'.version = o.version) (hf : o'.frontier = o.frontier)
    (hn : o'.notified = o.notified) : w.Fresh o' where
  seen_le := hv ▸ h.seen_le
  behind := hv ▸ hf ▸ h.behind
  open_ := hv ▸ hn ▸ h.open_

variable {w : Option Waiter} {i t : ℕ}

/-- A step of one waiter. -/
theorem Fresh.setWaiter (h : Fresh o) (hw : ∀ w' ∈ w, w'.Fresh o) : Fresh (o.setWaiter i w) where
  closed := h.closed
  waiters j w' hw' := by
    have hfresh : w'.Fresh o := by
      unfold Order.setWaiter at hw'
      by_cases hj : j = i
      · rw [hj] at hw'
        exact hw w' (by simpa using hw')
      · exact h.waiters j w' (by simpa [Function.update_of_ne hj] using hw')
    exact hfresh.same rfl rfl rfl

theorem Fresh.retire (h : Fresh o) (t : ℕ) : Fresh (o.retire t) := by
  unfold Order.retire
  split
  · exact ⟨h.closed, fun i w hw => (h.waiters i w hw).same rfl rfl rfl⟩
  · exact ⟨h.closed, fun i w hw => (h.waiters i w hw).newer rfl⟩

theorem Fresh.step {l : OrderLabel} (h : Fresh o) (hs : OrderStep o l o') : Fresh o' := by
  cases hs with
  | subscribe i t fresh stamped =>
    refine h.setWaiter fun w' hw' => ?_
    cases hw'
    exact ⟨Nat.le_refl _, by simp, by simp⟩
  | checkClosed i w waits pc =>
    refine h.setWaiter fun w' hw' => ?_
    cases hw'
    have hseen := (h.waiters i w waits).seen_le
    refine ⟨hseen, ?_, ?_⟩ <;> cases o.closed <;> simp
  | borrow i w waits pc =>
    refine h.setWaiter fun w' hw' => ?_
    cases hw'
    refine ⟨Nat.le_refl _, ?_, ?_⟩
    · dsimp only
      split
      · simp
      · rename_i hbehind
        exact fun _ _ => Nat.not_le.mp hbehind
    · dsimp only
      split <;> simp
  | recheckClosed i w waits pc =>
    refine h.setWaiter fun w' hw' => ?_
    cases hw'
    have hw := h.waiters i w waits
    -- a flag that is not set has not been sent either
    have hopen : o.closed = false → o.notified = false := by
      intro hclosed
      by_contra hnotified
      rw [h.closed (.inr (by simpa using hnotified))] at hclosed
      cases hclosed
    refine ⟨hw.seen_le, ?_, ?_⟩
    · exact fun _ => hw.behind (.inl pc)
    · dsimp only
      split
      · simp
      · rename_i hclosed
        exact fun _ _ => hopen (by simpa using hclosed)
  | wake i w waits pc newer =>
    refine h.setWaiter fun w' hw' => ?_
    cases hw'
    exact ⟨Nat.le_refl _, by simp, by simp⟩
  | drop i w waits idle => exact h.setWaiter (by simp)
  | retire t => exact h.retire t
  | storeClosed => exact ⟨fun _ => rfl, fun i w hw => (h.waiters i w hw).same rfl rfl rfl⟩
  | publishClosed stored => exact ⟨fun _ => h.closed (.inl stored), fun i w hw => (h.waiters i w hw).newer rfl⟩

variable {trace : List OrderLabel}

/-- Every reachable state keeps the invariant. -/
theorem OrderRun.fresh (h : OrderRun trace o) : Fresh o := by
  refine h.stateInvariant (I := Fresh) ?_ fun _ _ _ inv hs => inv.step hs
  rintro o rfl
  exact ⟨by simp [Order.new], fun i w hw => by cases hw⟩

/-- A parked waiter with something to see has not seen the latest version. -/
theorem Fresh.seen_lt (h : Fresh o) {w : Waiter} (hw : o.waiter i = some w) (hpc : w.pc = .changed)
    (hsee : o.frontier ≥ w.ticket - 1 ∨ o.notified = true) : w.seen < o.version := by
  have hfresh := h.waiters i w hw
  refine Nat.lt_of_le_of_ne hfresh.seen_le fun hseen => ?_
  rcases hsee with hfrontier | hnotified
  · exact absurd (hfresh.behind (.inr hpc) hseen) (Nat.not_lt.mpr hfrontier)
  · rw [hfresh.open_ hpc hseen] at hnotified
    cases hnotified

/-! ### The handles of a `Sequenced` -/

/-- A `Deferred` as the call of `wait_for` that it is in. -/
def Deferred.waiter (t : ℕ) (d : Deferred) : Option Waiter :=
  match d.pc with
  | .untaken | .transferring | .returned => none
  | .checkClosed => some ⟨t, .checkClosed, d.seen⟩
  | .borrow => some ⟨t, .borrow, d.seen⟩
  | .recheckClosed => some ⟨t, .recheckClosed, d.seen⟩
  | .changed => some ⟨t, .changed, d.seen⟩
  | .refused => some ⟨t, .refused, d.seen⟩
  | .passed => some ⟨t, .passed, d.seen⟩

/-- The line in a `Sequenced`. -/
def State.order (s : State) : Order where
  frontier := s.frontier
  version := s.version
  pending := s.pending
  closed := s.closed
  closing := if s.owner = .closing then 1 else 0
  notified := s.owner = .closed ∨ s.owner = .gone
  waiter t := (s.deferred t).bind (Deferred.waiter t)

theorem State.order_setDeferred (s : State) (t : ℕ) (d : Option Deferred) :
    (s.setDeferred t d).order = s.order.setWaiter t (d.bind (Deferred.waiter t)) := by
  unfold State.order State.setDeferred Order.setWaiter
  congr 1
  funext u
  by_cases hu : u = t
  · simp [hu]
  · simp [Function.update_of_ne hu]

theorem State.order_retire (s : State) (t : ℕ) : (s.retire t).order = s.order.retire t := by
  by_cases h : t = s.frontier + 1
  · rw [State.retire, Order.retire, if_neg (not_not.mpr h), if_neg (not_not.mpr (show t = s.order.frontier + 1 from h))]
    rfl
  · rw [State.retire, Order.retire, if_pos h, if_pos (show t ≠ s.order.frontier + 1 from h)]
    rfl

theorem Order.setWaiter_self (h : o.waiter i = w) : o.setWaiter i w = o := by
  unfold Order.setWaiter
  rw [← h, Function.update_eq_self]

variable {s : State}

theorem State.order_waiter {d : Deferred} (h : s.deferred t = some d) : s.order.waiter t = d.waiter t := by
  simp [State.order, h]

/-- A handle that is dropped or handed over is in no call of `wait_for` any more. -/
theorem exists_run_drop (h : OrderRun trace s.order) {d : Deferred}
    (held : s.deferred t = some d) (idle : d.pc.droppable) : ∃ trace', OrderRun trace' (s.order.setWaiter t none) := by
  cases hw : d.waiter t with
  | none =>
    rw [Order.setWaiter_self ((State.order_waiter held).trans hw)]
    exact ⟨trace, h⟩
  | some w =>
    refine ⟨_, h.step (.drop _ t w ((State.order_waiter held).trans hw) ?_)⟩
    unfold Deferred.waiter at hw
    cases hpc : d.pc <;> rw [hpc] at hw idle <;> cases hw <;> first | rfl | cases idle

/-- A step of a `Sequenced` is one or two of the line's, or none. -/
theorem exists_run_step {Event : Type} {s' : State} {l : Label Event} (h : OrderRun trace s.order)
    (inv : Inv s) (hs : Step s l s') : ∃ trace', OrderRun trace' s'.order := by
  cases hs with
  | stamp alive room =>
    have hfree : s.deferred (s.next + 1) = none := by
      by_contra hne
      exact absurd (inv.line.above _ (.inl hne)).2 (by omega)
    have hnone : s.order.waiter (s.next + 1) = none := by simp [State.order, hfree]
    have horder : s.defer.order = s.order.setWaiter (s.next + 1) none := State.order_setDeferred _ _ _
    rw [horder, Order.setWaiter_self hnone]
    exact ⟨trace, h⟩
  | dropDeferred t d held idle =>
    obtain ⟨trace', h'⟩ := exists_run_drop h held idle
    unfold State.dropDeferred
    split
    · rw [State.order_retire, State.order_setDeferred]
      exact ⟨_, h'.step (.retire _ t)⟩
    · rw [State.order_setDeferred]
      exact ⟨trace', h'⟩
  | poll t d held pc =>
    have hnone : s.order.waiter t = none := by
      rw [State.order_waiter held, Deferred.waiter, pc]
    have hpos : 0 < t := Nat.lt_of_le_of_lt (Nat.zero_le _) (inv.line.above t (State.mem_live_of_deferred held)).1
    rw [State.order_setDeferred]
    exact ⟨_, h.step (.subscribe _ t t hnone hpos)⟩
  | checkClosed t d held pc =>
    have hw : s.order.waiter t = some ⟨t, .checkClosed, d.seen⟩ := by rw [State.order_waiter held, Deferred.waiter, pc]
    have hstep := OrderStep.checkClosed s.order t _ hw rfl
    rw [State.order_setDeferred]
    refine ⟨_, h.step (l := .checkClosed t) ?_⟩
    convert hstep using 2
    by_cases hc : s.closed = true <;> simp [Deferred.waiter, State.order, hc]
  | borrow t d held pc =>
    have hw : s.order.waiter t = some ⟨t, .borrow, d.seen⟩ := by rw [State.order_waiter held, Deferred.waiter, pc]
    have hstep := OrderStep.borrow s.order t _ hw rfl
    rw [State.order_setDeferred]
    refine ⟨_, h.step (l := .borrow t) ?_⟩
    convert hstep using 2
    by_cases hf : s.frontier ≥ t - 1 <;> simp [Deferred.waiter, State.order, hf]
  | recheckClosed t d held pc =>
    have hw : s.order.waiter t = some ⟨t, .recheckClosed, d.seen⟩ := by
      rw [State.order_waiter held, Deferred.waiter, pc]
    have hstep := OrderStep.recheckClosed s.order t _ hw rfl
    rw [State.order_setDeferred]
    refine ⟨_, h.step (l := .recheckClosed t) ?_⟩
    convert hstep using 2
    by_cases hc : s.closed = true <;> simp [Deferred.waiter, State.order, hc]
  | wake t d held pc newer =>
    have hw : s.order.waiter t = some ⟨t, .changed, d.seen⟩ := by rw [State.order_waiter held, Deferred.waiter, pc]
    rw [State.order_setDeferred]
    exact ⟨_, h.step (.wake s.order t _ hw rfl newer)⟩
  | grant t d held pc =>
    rw [State.order_setDeferred]
    exact exists_run_drop h held (by rw [pc]; rfl)
  | disarm t d held pc =>
    have hnone : s.order.waiter t = none := by rw [State.order_waiter held, Deferred.waiter, pc]
    have horder := State.order_setDeferred s t (some { d with armed := false, pc := .returned })
    rw [horder]
    change ∃ trace', OrderRun trace' (s.order.setWaiter t none)
    rw [Order.setWaiter_self hnone]
    exact ⟨trace, h⟩
  | upgrade t x held returned fresh strong => exact ⟨trace, h⟩
  | emit t x e held returned admitted => exact ⟨trace, h⟩
  | dropTurn t x held returned =>
    unfold State.dropTurn
    simp only
    split
    · rw [State.order_retire]
      exact ⟨_, h.step (.retire _ t)⟩
    · exact ⟨trace, h⟩
  | storeClosed alive =>
    refine ⟨_, h.step (l := .storeClosed) ?_⟩
    convert OrderStep.storeClosed s.order using 1
    simp [State.order, alive]
  | publishClosed closing =>
    refine ⟨_, h.step (l := .publishClosed) ?_⟩
    convert OrderStep.publishClosed s.order (by simp [State.order, closing]) using 1
    simp [State.order, closing]
  | dropSender closed =>
    refine ⟨trace, ?_⟩
    convert h using 1
    simp [State.order, closed]

/-- The handles of a `Sequenced` wait as the waiters of a line do. -/
theorem exists_order_run {Event : Type} {trace : List (Label Event)} (h : SequencedRun trace s) :
    ∃ trace', OrderRun trace' s.order := by
  refine h.invariant (I := fun _ s => ∃ trace', OrderRun trace' s.order) ?_ fun _ _ _ _ hr ih hs => ?_
  · rintro s rfl
    exact ⟨[], .start rfl⟩
  · obtain ⟨trace', h'⟩ := ih
    exact exists_run_step h' (SequencedRun.inv hr) hs

/-- No ticket is stranded: where a waiter is parked and its turn has come, or a close has been published, there is a
version that it has not seen, so `changed` returns. -/
theorem parked_is_woken :
    (∀ (trace : List OrderLabel) (o : Order), OrderRun trace o → ∀ i w, o.waiter i = some w → w.pc = .changed →
      o.frontier ≥ w.ticket - 1 ∨ o.closed = true ∧ o.notified = true →
      w.seen < o.version ∧ ∃ o', OrderStep o (.wake i) o') ∧
    ∀ (Event : Type) (trace : List (Label Event)) (s : State), SequencedRun trace s → ∀ t d, s.deferred t = some d →
      d.pc = .changed → s.frontier ≥ t - 1 ∨ s.closed = true ∧ (s.owner = .closed ∨ s.owner = .gone) →
      d.seen < s.version ∧ ∃ s', Step s (.wake t : Label Event) s' := by
  refine ⟨fun trace o h i w hw hpc hsee => ?_, fun Event trace s h t d hd hpc hsee => ?_⟩
  · have hlt := h.fresh.seen_lt hw hpc (hsee.imp_right And.right)
    exact ⟨hlt, _, .wake o i w hw hpc (Nat.ne_of_gt hlt)⟩
  · obtain ⟨trace', h'⟩ := exists_order_run h
    have hw : s.order.waiter t = some ⟨t, .changed, d.seen⟩ := by rw [State.order_waiter hd, Deferred.waiter, hpc]
    have hlt : d.seen < s.version := by
      refine h'.fresh.seen_lt hw rfl (hsee.imp_right fun hclosed => ?_)
      simpa [State.order] using hclosed.2
    exact ⟨hlt, _, .wake s t d hd hpc (Nat.ne_of_gt hlt)⟩

/-- The waiter for the second ticket has parked when the first is retired. -/
theorem parked_is_woken_second :
    ∃ o o', OrderRun [.subscribe 0 2, .checkClosed 0, .borrow 0, .recheckClosed 0, .retire 1] o ∧
    OrderStep o (.wake 0) o' := by
  have hstart : OrderRun [] .new := .start rfl
  have hsubscribed := hstart.step (.subscribe _ 0 2 rfl (by decide))
  have hchecked := hsubscribed.step (.checkClosed _ 0 _ rfl rfl)
  have hborrowed := hchecked.step (.borrow _ 0 _ rfl rfl)
  have hparked := hborrowed.step (.recheckClosed _ 0 _ rfl rfl)
  have hretired := hparked.step (.retire _ 1)
  obtain ⟨-, o', hwake⟩ := parked_is_woken.1 _ _ hretired 0 _ rfl rfl (.inl (le_absorb 1 ∅))
  exact ⟨_, o', hretired, hwake⟩

end OvStorage.Sequencing
