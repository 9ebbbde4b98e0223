import OvStorage.Watch.Coalescer

/-!
# Who keeps an upstream open

An uncancelled upstream is named by the registry: its opening while the driver is at it, its
fan-out once that is published. It is held by the calls that wait for it or attach to it, then by
the receivers, and in between by the driver, which lets go of the outcome when it ends.

`Coalescer.Inv` says that of every opening. Here the steps of the dispatchers, the receivers and the
drivers keep it; the calls follow in `Handover`.
-/

namespace OvStorage.Watch

variable {κ θ : Type}

namespace Phase

/-- The opening that a phase is about. -/
def opening? : Phase → Option ℕ
  | looking => none
  | waiting o | parked o | leaving o _ | released o _ | attaching o | spawning o _ | returning o _
  | evicting o | retrying o => some o

/-- A guard is held. -/
def guards : Phase → Bool
  | waiting _ | parked _ | leaving _ _ => true
  | _ => false

/-- The opening is held. -/
def holdsOpening : Phase → Bool
  | waiting _ | parked _ | leaving _ _ | released _ _ => true
  | _ => false

/-- The fan-out is held. -/
def holdsFanout : Phase → Bool
  | leaving _ true | released _ true | attaching _ | spawning _ _ | returning _ _ | evicting _ | retrying _ => true
  | _ => false

/-- It is registered as that consumer, and has not returned its receiver. -/
def attached? : Phase → Option ℕ
  | spawning _ id | returning _ id => some id
  | _ => none

end Phase

def KeyState.id : KeyState → ℕ
  | Opening o | Live o => o

namespace Coalescer

/-- The call is about that opening of its key. -/
def Of (s : Coalescer κ θ) (o : ℕ) (op : Opening κ θ) (t : θ) (p : Phase → Prop) : Prop :=
  ∃ call, s.calls t = some call ∧ call.key = op.key ∧ call.phase.opening? = some o ∧ p call.phase

/-- What holds of an opening that has a fan-out, once that is swept. -/
structure FanoutInv (s : Coalescer κ θ) (swept : Prop) (o : ℕ) (op : Opening κ θ) (f : Fanout θ) : Prop where
  handles : ∀ t ∈ f.handles, s.Of o op t fun p => p.holdsFanout = true
  byDriver : f.byDriver = true → op.driver = .opened ∨ op.driver = .discarding
  dispatcher : f.dispatcher ≠ .absent → f.pendingStream = false
  held : swept → s.cancelled op = false → s.holdsFanout o op f = true
  consumed : s.cancelled op = false → f.pendingStream = false → f.activeConsumers ≠ []
  consumer : s.cancelled op = false → ∀ id ∈ f.activeConsumers, id ∈ f.receivers ∨ id ∈ f.dropping ∨
    ∃ t, s.Of o op t fun p => p.attached? = some id
  nodup : f.activeConsumers.Nodup
  ids : ∀ id ∈ f.activeConsumers, id < f.nextId

/-- Where its driver is. -/
def DriverInv (op : Opening κ θ) : Prop :=
  match op.driver with
  | .spawned | .opening _ | .failed => op.outcome = none ∧ op.fanout = none
  | .opened => op.outcome = none
  | .discarding => op.outcome = some .Failed
  | .published | .ending | .gone => op.outcome ≠ none

/-- What holds of an opening. -/
structure OpeningInv (s : Coalescer κ θ) (swept : Prop) (o : ℕ) (op : Opening κ θ) : Prop where
  waiters : ∀ t ∈ op.waiters, s.Of o op t fun p => p.guards = true
  handles : ∀ t ∈ op.handles, s.Of o op t fun p => p.holdsOpening = true
  opening : s.cancelled op = false → op.outcome = none → s.registry op.key = some (.Opening o) ∧ op.waiters ≠ []
  live : s.cancelled op = false → op.outcome = some .Ready → s.registry op.key = some (.Live o)
  failed : s.cancelled op = false → op.outcome = some .Failed → op.fanout = none
  ready : op.outcome = some .Ready → op.fanout ≠ none
  driver : DriverInv op
  fanout : ∀ f, op.fanout = some f → s.FanoutInv swept o op f

/-- The stream of its fan-out was handed to the first subscriber. -/
def Started (op : Opening κ θ) : Prop := ∃ f, op.fanout = some f ∧ f.pendingStream = false

/-- What holds where these openings are swept. -/
structure InvWith (s : Coalescer κ θ) (swept : ℕ → Prop) : Prop where
  gone : s.gone = true → s.shutdown = true
  fresh : ∀ o, s.next ≤ o → s.openings o = none
  calls : ∀ t call o, s.calls t = some call → call.phase.opening? = some o →
    ∃ op, s.openings o = some op ∧ op.key = call.key ∧ (call.phase = .evicting o → s.cancelled op = true) ∧
      (call.phase.attached?.isSome = true → Started op)
  registry : ∀ key e, s.registry key = some e → ∃ op, s.openings e.id = some op ∧ op.key = key
  openings : ∀ o op, s.openings o = some op → s.OpeningInv (swept o) o op

/-- What every step keeps. -/
def Inv (s : Coalescer κ θ) : Prop := s.InvWith fun _ => True

/-! ### What a step leaves alone -/

variable {s s' : Coalescer κ θ} {o : ℕ} {op op' : Opening κ θ} {f f' : Fanout θ} {t : θ} {call : Call κ}
  {swept swept' : Prop}

theorem Of.later {p : Phase → Prop} (h : s.Of o op t p) (hkey : op'.key = op.key)
    (hcalls : ∀ call, s.calls t = some call → call.phase.opening? = some o → p call.phase → s'.calls t = some call) :
    s'.Of o op' t p := by
  obtain ⟨call, hcall, hk, ho, hp⟩ := h
  exact ⟨call, hcalls call hcall ho hp, hk.trans hkey.symm, ho, hp⟩

theorem holdsFanout_congr (h : s'.registry op.key = s.registry op.key) :
    s'.holdsFanout o op f = s.holdsFanout o op f := by
  unfold holdsFanout holdsOutcome
  rw [h]

/-- Tokens stay cancelled. -/
theorem cancelled_later (hshut : s.shutdown = true → s'.shutdown = true)
    (hcancel : op.cancel = true → op'.cancel = true) (h : s.cancelled op = true) : s'.cancelled op' = true := by
  unfold cancelled at h ⊢
  rw [Bool.or_eq_true] at h ⊢
  exact h.imp hcancel hshut

theorem live_before (hshut : s.shutdown = true → s'.shutdown = true) (hcancel : op.cancel = true → op'.cancel = true)
    (h : s'.cancelled op' = false) : s.cancelled op = false := by
  by_contra hc
  rw [Bool.not_eq_false] at hc
  rw [cancelled_later hshut hcancel hc] at h
  cases h

/-- An opening that a step is not about. -/
theorem OpeningInv.frame (h : s.OpeningInv swept o op) (hsub : swept' → swept)
    (hcalls : ∀ t call, s.calls t = some call → call.phase.opening? = some o → s'.calls t = some call)
    (hshut : s.shutdown = true → s'.shutdown = true)
    (hreg : s'.registry op.key = s.registry op.key ∨ s.cancelled op = true ∨ op.outcome = some .Failed) :
    s'.OpeningInv swept' o op := by
  have hof : ∀ {t p}, s.Of o op t p → s'.Of o op t p :=
    fun h => h.later rfl fun call hcall ho _ => hcalls _ call hcall ho
  have hlive : s'.cancelled op = false → s.cancelled op = false := live_before hshut id
  have hkept : s'.cancelled op = false → op.outcome ≠ some .Failed → s'.registry op.key = s.registry op.key := by
    intro hc hne
    rcases hreg with hsame | hcancelled | hfailed
    · exact hsame
    · exact absurd (hcancelled.symm.trans (hlive hc)) Bool.noConfusion
    · exact absurd hfailed hne
  refine ⟨fun t ht => hof (h.waiters t ht), fun t ht => hof (h.handles t ht), fun hc hnone => ?_, fun hc hready => ?_,
    fun hc => h.failed (hlive hc), h.ready, h.driver, fun f hf => ?_⟩
  · rw [hkept hc (by rw [hnone]; exact nofun)]
    exact h.opening (hlive hc) hnone
  · rw [hkept hc (by rw [hready]; exact nofun)]
    exact h.live (hlive hc) hready
  · have hfan := h.fanout f hf
    refine ⟨fun t ht => hof (hfan.handles t ht), hfan.byDriver, hfan.dispatcher, fun hswept hc => ?_,
      fun hc => hfan.consumed (hlive hc), fun hc id hid => ?_, hfan.nodup, hfan.ids⟩
    · have hne : op.outcome ≠ some .Failed := fun hfailed => by
        rw [h.failed (hlive hc) hfailed] at hf
        cases hf
      rw [holdsFanout_congr (hkept hc hne)]
      exact hfan.held (hsub hswept) (hlive hc)
    · exact (hfan.consumer (hlive hc) id hid).imp_right (Or.imp_right fun ⟨t, ht⟩ => ⟨t, hof ht⟩)

/-- An opening that the registry does not name is cancelled or has failed. -/
theorem OpeningInv.settled (h : s.OpeningInv swept o op) (hreg : ∀ e, s.registry op.key = some e → e.id ≠ o) :
    s.cancelled op = true ∨ op.outcome = some .Failed := by
  rw [or_iff_not_imp_left, Bool.not_eq_true]
  intro hc
  rcases hout : op.outcome with _ | _ | _
  · exact absurd rfl (hreg _ (h.opening hc hout).1)
  · exact absurd rfl (hreg _ (h.live hc hout))
  · rfl

/-- A step is about one opening, one call and their key. -/
structure Touched (s s' : Coalescer κ θ) (o : ℕ) (op op' : Opening κ θ) : Prop where
  openings : s'.openings = Function.update s.openings o (some op')
  key : op'.key = op.key
  next : s'.next = s.next
  shutdown : s.shutdown = true → s'.shutdown = true
  gone : s'.gone = s.gone
  cancel : op.cancel = true → op'.cancel = true
  started : Started op → Started op'
  calls : ∀ t, s'.calls t = s.calls t ∨
    (∀ call, s.calls t = some call → call.phase.opening? = some o ∨ call.phase.opening? = none) ∧
    ∀ call, s'.calls t = some call → (call.phase.opening? = some o ∧ call.key = op.key ∧
      (call.phase = .evicting o → s'.cancelled op' = true) ∧ (call.phase.attached?.isSome = true → Started op')) ∨
      call.phase.opening? = none
  registry : ∀ key e, s'.registry key = some e → s.registry key = some e ∨ key = op.key ∧ e.id = o
  others : ∀ o₁ op₁, o₁ ≠ o → s.openings o₁ = some op₁ → s'.registry op₁.key = s.registry op₁.key ∨
    s.cancelled op₁ = true ∨ op₁.outcome = some .Failed

variable {P Q : ℕ → Prop}

/-- What a step leaves, if it leaves its own opening well. -/
theorem Touched.inv (h : s.InvWith Q) (hP : ∀ o₁ ≠ o, P o₁ → Q o₁) (ho : s.openings o = some op)
    (T : Touched s s' o op op') (hop : s'.OpeningInv (P o) o op') : s'.InvWith P := by
  have hsame : ∀ {o₁}, o₁ ≠ o → s'.openings o₁ = s.openings o₁ := fun hne => by
    rw [T.openings, Function.update_of_ne hne]
  have hself : s'.openings o = some op' := by rw [T.openings, Function.update_self]
  refine ⟨fun hgone => T.shutdown (h.gone (T.gone ▸ hgone)), fun o₁ hle => ?_, fun t call o₁ hcall hphase => ?_,
    fun key e he => ?_,
    fun o₁ op₁ ho₁ => ?_⟩
  · have hne : o₁ ≠ o := by
      rintro rfl
      have hnone := h.fresh o₁ (T.next ▸ hle)
      rw [ho] at hnone
      cases hnone
    rw [hsame hne]
    exact h.fresh o₁ (T.next ▸ hle)
  · rcases T.calls t with heq | ⟨-, hnew⟩
    · obtain ⟨op₁, ho₁, hkey, hevict, hatt⟩ := h.calls t call o₁ (heq ▸ hcall) hphase
      by_cases hne : o₁ = o
      · subst hne
        obtain rfl : op = op₁ := Option.some.inj (ho.symm.trans ho₁)
        exact ⟨op', hself, T.key.trans hkey, fun hp => cancelled_later T.shutdown T.cancel (hevict hp),
          fun ha => T.started (hatt ha)⟩
      · exact ⟨op₁, (hsame hne).trans ho₁, hkey, fun hp => cancelled_later T.shutdown id (hevict hp), hatt⟩
    · rcases hnew call hcall with ⟨hphase', hkey, hevict, hatt⟩ | hnone
      · obtain rfl : o = o₁ := Option.some.inj (hphase'.symm.trans hphase)
        exact ⟨op', hself, T.key.trans hkey.symm, hevict, hatt⟩
      · rw [hnone] at hphase
        cases hphase
  · rcases T.registry key e he with hold | ⟨rfl, rfl⟩
    · obtain ⟨op₁, ho₁, hkey⟩ := h.registry key e hold
      by_cases hne : e.id = o
      · rw [hne] at ho₁ ⊢
        obtain rfl : op = op₁ := Option.some.inj (ho.symm.trans ho₁)
        exact ⟨op', hself, T.key.trans hkey⟩
      · exact ⟨op₁, (hsame hne).trans ho₁, hkey⟩
    · exact ⟨op', hself, T.key⟩
  · by_cases hne : o₁ = o
    · subst hne
      obtain rfl : op' = op₁ := Option.some.inj (hself.symm.trans ho₁)
      exact hop
    · have hold := (hsame hne).symm.trans ho₁
      refine (h.openings o₁ op₁ hold).frame (hP o₁ hne) (fun t call hcall hphase => ?_) T.shutdown
        (T.others o₁ op₁ hne hold)
      rcases T.calls t with heq | ⟨habout, -⟩
      · exact heq.trans hcall
      · rcases habout call hcall with hown | hnone
        · exact absurd (Option.some.inj (hphase.symm.trans hown)) hne
        · rw [hnone] at hphase
          cases hphase

theorem touched_setOpening (s : Coalescer κ θ) (o : ℕ) (op op' : Opening κ θ) (hkey : op'.key = op.key)
    (hcancel : op.cancel = true → op'.cancel = true) (hstarted : Started op → Started op') :
    Touched s (s.setOpening o op') o op op' where
  openings := rfl
  key := hkey
  next := rfl
  shutdown := id
  gone := rfl
  cancel := hcancel
  started := hstarted
  calls _ := .inl rfl
  registry _ _ he := .inl he
  others _ _ _ _ := .inl rfl

theorem InvWith.weaken (h : s.InvWith Q) (hP : ∀ o₁, P o₁ → Q o₁) : s.InvWith P :=
  ⟨h.gone, h.fresh, h.calls, h.registry, fun o₁ op₁ ho₁ =>
    (h.openings o₁ op₁ ho₁).frame (hP o₁) (fun _ _ hcall _ => hcall) id (.inl rfl)⟩

theorem setOpening_setOpening : (s.setOpening o op).setOpening o op' = s.setOpening o op' := by
  simp [setOpening]

theorem setOpening_self (ho : s.openings o = some op) : s.setOpening o op = s := by
  rw [setOpening, ← ho, Function.update_eq_self]

theorem sweep_setCall [DecidableEq θ] (c : Option (Call κ)) : (s.sweep o).setCall t c = (s.setCall t c).sweep o := by
  unfold Coalescer.sweep
  have hopenings : (s.setCall t c).openings = s.openings := rfl
  rw [hopenings]
  split
  next op ho =>
    have hholds : ∀ f, (s.setCall t c).holdsFanout o op f = s.holdsFanout o op f := fun _ => rfl
    simp only [hholds]
    split_ifs <;> rfl
  next => rfl

/-- A fan-out that nobody holds is dropped. -/
theorem InvWith.sweep (h : s.InvWith (· ≠ o)) : (s.sweep o).Inv := by
  unfold Coalescer.sweep
  split
  next op ho =>
    split_ifs with hany
    · refine (touched_setOpening s o op { op with cancel := true } rfl (fun _ => rfl) id).inv h
        (fun _ hne _ => hne) ho ?_
      have hcancelled : (s.setOpening o { op with cancel := true }).cancelled { op with cancel := true } ≠ false :=
        nofun
      have hop := h.openings o op ho
      refine ⟨hop.waiters, hop.handles, fun hc => absurd hc hcancelled, fun hc => absurd hc hcancelled,
        fun hc => absurd hc hcancelled, hop.ready, hop.driver, fun f hf => ?_⟩
      have hfan := hop.fanout f hf
      exact ⟨hfan.handles, hfan.byDriver, hfan.dispatcher, fun _ hc => absurd hc hcancelled,
        fun hc => absurd hc hcancelled,
        fun hc => absurd hc hcancelled, hfan.nodup, hfan.ids⟩
    · refine ⟨h.gone, h.fresh, h.calls, h.registry, fun o₁ op₁ ho₁ => ?_⟩
      have hop := h.openings o₁ op₁ ho₁
      refine ⟨hop.waiters, hop.handles, hop.opening, hop.live, hop.failed, hop.ready, hop.driver, fun f hf => ?_⟩
      have hfan := hop.fanout f hf
      refine ⟨hfan.handles, hfan.byDriver, hfan.dispatcher, fun _ hc => ?_, hfan.consumed, hfan.consumer,
        hfan.nodup, hfan.ids⟩
      by_cases hne : o₁ = o
      · subst hne
        obtain rfl : op = op₁ := Option.some.inj (ho.symm.trans ho₁)
        rw [hf, Option.any_some] at hany
        simpa using hany
      · exact hfan.held hne hc
  next hnone =>
    refine ⟨h.gone, h.fresh, h.calls, h.registry, fun o₁ op₁ ho₁ => ?_⟩
    have hne : o₁ ≠ o := by
      rintro rfl
      rw [hnone] at ho₁
      cases ho₁
    exact (h.openings o₁ op₁ ho₁).frame (fun _ => hne) (fun _ _ hcall _ => hcall) id (.inl rfl)

/-! ### Dispatchers and receivers -/

/-- A step that changes the fan-out, and may cancel its token. -/
theorem inv_setFanout (h : s.Inv) (ho : s.openings o = some op) (hf : op.fanout = some f) (c : Bool)
    (hc : op.cancel = true → c = true) (hp : f.pendingStream = false → f'.pendingStream = false)
    (hf' : (s.setOpening o { op with cancel := c, fanout := some f' }).FanoutInv (P o) o
      { op with cancel := c, fanout := some f' } f') :
    (s.setOpening o { op with cancel := c, fanout := some f' }).InvWith P := by
  refine (touched_setOpening s o op { op with cancel := c, fanout := some f' } rfl hc ?_).inv h
    (fun _ _ _ => trivial) ho ?_
  · rintro ⟨g, hg, hpending⟩
    cases hf.symm.trans hg
    exact ⟨f', rfl, hp hpending⟩
  have hop := h.openings o op ho
  have hlive : (s.setOpening o { op with cancel := c, fanout := some f' }).cancelled
        { op with cancel := c, fanout := some f' } = false →
      s.cancelled op = false := live_before id hc
  refine ⟨hop.waiters, hop.handles, fun hc => hop.opening (hlive hc), fun hc => hop.live (hlive hc), fun hc hout => ?_,
    fun _ => nofun, ?_, fun g hg => ?_⟩
  · rw [hop.failed (hlive hc) hout] at hf
    cases hf
  · have hdriver := hop.driver
    unfold DriverInv at hdriver ⊢
    dsimp only
    split at hdriver
    all_goals first | exact hdriver | (rw [hf] at hdriver; exact absurd hdriver.2 nofun)
  · cases hg
    exact hf'

/-- Where its dispatcher is does not bear on the rest. -/
theorem FanoutInv.dispatch {p : Prop} (hfan : s.FanoutInv True o op f) (hstarted : f.dispatcher ≠ .absent) (c : Bool)
    (hc : op.cancel = true → c = true) (watchers : List ℕ) (dispatcher : Dispatcher) (hd : dispatcher ≠ .absent)
    (hheld : p → dispatcher ≠ .gone) :
    (s.setOpening o { op with cancel := c, fanout := some { f with watchers, dispatcher } }).FanoutInv p o
      { op with cancel := c, fanout := some { f with watchers, dispatcher } } { f with watchers, dispatcher } where
  handles := hfan.handles
  byDriver := hfan.byDriver
  dispatcher _ := hfan.dispatcher hstarted
  held hswept _ := by
    have hrunning : (dispatcher != .absent && dispatcher != .gone) = true := by simp [hd, hheld hswept]
    simp [holdsFanout, hrunning]
  consumed hlive := hfan.consumed (live_before id hc hlive)
  consumer hlive := hfan.consumer (live_before id hc hlive)
  nodup := hfan.nodup
  ids := hfan.ids

variable {l : Label κ θ}

theorem inv_stepDispatcher (h : s.Inv) (ho : s.openings o = some op) (hf : op.fanout = some f)
    (hl : s.stepDispatcher o op f f.dispatcher l = some s') : s'.Inv := by
  have hfan := (h.openings o op ho).fanout f hf
  have hgo : ∀ (c : Bool) (watchers : List ℕ) (dispatcher : Dispatcher), f.dispatcher ≠ .absent →
        (op.cancel = true → c = true) →
      dispatcher ≠ .absent → dispatcher ≠ .gone →
      (s.setOpening o { op with cancel := c, fanout := some { f with watchers, dispatcher } }).Inv :=
    fun c watchers dispatcher hstarted hc hd hheld =>
      inv_setFanout h ho hf c hc id (hfan.dispatch hstarted c hc watchers dispatcher hd fun _ => hheld)
  unfold stepDispatcher at hl
  split at hl <;> first | (cases hl; done) | cases hl
  next hd => exact hgo op.cancel f.watchers .pulled (by rw [hd]; exact nofun) id nofun nofun
  next hd => exact hgo op.cancel f.watchers .erring (by rw [hd]; exact nofun) id nofun nofun
  next hd => exact hgo op.cancel f.watchers .tearingDown (by rw [hd]; exact nofun) id nofun nofun
  next hd => exact hgo op.cancel _ _ (by rw [hd]; exact nofun) id nofun nofun
  next ok hd =>
    refine hgo op.cancel f.watchers _ (by rw [hd]; exact nofun) id ?_ ?_
    all_goals split_ifs <;> exact nofun
  next hd => exact hgo true [] .tearingDown (by rw [hd]; exact nofun) (fun _ => rfl) nofun nofun
  next hd => exact hgo true [] .exiting (by rw [hd]; exact nofun) (fun _ => rfl) nofun nofun
  next hd =>
    have hlast :=
      hfan.dispatch (p := False) (by rw [hd]; exact nofun) op.cancel id f.watchers .gone nofun fun h => h.elim
    exact InvWith.sweep (inv_setFanout h ho hf op.cancel id id ⟨hlast.handles, hlast.byDriver, hlast.dispatcher,
      fun hne => absurd rfl hne, hlast.consumed, hlast.consumer, hlast.nodup, hlast.ids⟩)

theorem upgrades_eq (ho : s.openings o = some op) (hf : op.fanout = some f) : s.upgrades o = s.holdsFanout o op f := by
  simp [upgrades, ho, hf]

theorem inv_stepReceiver (h : s.Inv) (ho : s.openings o = some op) (hf : op.fanout = some f)
    (hl : s.stepReceiver o op f l = some s') : s'.Inv := by
  have hfan := (h.openings o op ho).fanout f hf
  unfold stepReceiver at hl
  split at hl <;> first | (cases hl) | (obtain ⟨hmem, heq⟩ := Option.ite_none_right_eq_some.mp hl; cases heq)
  next id' =>
    -- a receiver that cannot upgrade belongs to a fan-out that was dropped
    have hup : s.cancelled op = false → s.upgrades o = true :=
      fun hc => (upgrades_eq ho hf).trans (hfan.held trivial hc)
    refine inv_setFanout h ho hf op.cancel id id
      ⟨hfan.handles, hfan.byDriver, hfan.dispatcher, fun _ hc => ?_, hfan.consumed,
      fun hc id hid => ?_, hfan.nodup, hfan.ids⟩
    · have hc : s.cancelled op = false := hc
      rw [hup hc, if_pos rfl]
      simp [holdsFanout]
    · have hc : s.cancelled op = false := hc
      rw [hup hc, if_pos rfl]
      by_cases heq : id = id'
      · exact .inr (.inl (heq ▸ List.mem_cons_self))
      · rcases hfan.consumer hc id hid with hin | hin | hcall
        · exact .inl ((List.mem_erase_of_ne heq).mpr hin)
        · exact .inr (.inl (List.mem_cons_of_mem _ hin))
        · exact .inr (.inr hcall)
  next id' =>
    have hcount : f.activeConsumers ≠ [] → f.activeConsumers.length ≠ 1 →
        f.activeConsumers.filter (fun id => decide (id ≠ id')) ≠ [] := by
      intro hne hlen hnil
      have hall : ∀ id ∈ f.activeConsumers, id = id' := fun id hid => by
        simpa using List.filter_eq_nil_iff.mp hnil id hid
      rcases hlist : f.activeConsumers with _ | ⟨a, _ | ⟨b, rest⟩⟩
      · exact hne hlist
      · exact hlen (by rw [hlist]; rfl)
      · have hnodup := hfan.nodup
        rw [hlist] at hall hnodup
        have hab : a = b := (hall a List.mem_cons_self).trans (hall b (by simp)).symm
        exact (List.nodup_cons.mp hnodup).1 (by simp [hab])
    have hlive : ∀ {c : Bool}, (c || f.activeConsumers.length == 1) = false → c = false ∧
        f.activeConsumers.length ≠ 1 := by
      intro c hc
      simpa using hc
    refine inv_setFanout h ho hf (op.cancel || f.activeConsumers.length == 1) (fun hc => by rw [hc]; rfl) id
      ⟨hfan.handles, hfan.byDriver, hfan.dispatcher,
        fun _ _ => by simp [holdsFanout], fun hc hp => ?_, fun hc id hid => ?_,
        hfan.nodup.filter _, fun id hid => hfan.ids id (List.mem_filter.mp hid).1⟩
    · have hc' := Bool.or_eq_false_iff.mp hc
      have hold : s.cancelled op = false := Bool.or_eq_false_iff.mpr ⟨(hlive hc'.1).1, hc'.2⟩
      exact hcount (hfan.consumed hold hp) (hlive hc'.1).2
    · have hc' := Bool.or_eq_false_iff.mp hc
      have hold : s.cancelled op = false := Bool.or_eq_false_iff.mpr ⟨(hlive hc'.1).1, hc'.2⟩
      obtain ⟨hid, hne⟩ := List.mem_filter.mp hid
      rcases hfan.consumer hold id hid with hin | hin | hcall
      · exact .inl hin
      · exact .inr (.inl ((List.mem_erase_of_ne (of_decide_eq_true hne)).mpr hin))
      · exact .inr (.inr hcall)
  next id' =>
    exact InvWith.sweep (inv_setFanout h ho hf op.cancel id id ⟨hfan.handles, hfan.byDriver, hfan.dispatcher,
      fun hne => absurd rfl hne, hfan.consumed, hfan.consumer, hfan.nodup, hfan.ids⟩)

/-! ### Drivers -/

/-- A step of the driver that leaves the fan-out alone. -/
theorem inv_drive (h : s.InvWith P) (ho : s.openings o = some op) (frozen done : Bool) (driver : Driver)
    (hd : DriverInv { op with frozen, done, driver })
    (hby : ∀ f, op.fanout = some f → f.byDriver = true → driver = .opened ∨ driver = .discarding)
    (hheld : P o → op.fanout ≠ none → driver ≠ .gone) :
    (s.setOpening o { op with frozen, done, driver }).InvWith P := by
  refine (touched_setOpening s o op { op with frozen, done, driver } rfl id id).inv h (fun _ _ => id) ho ?_
  have hop := h.openings o op ho
  refine ⟨hop.waiters, hop.handles, hop.opening, hop.live, hop.failed, hop.ready, hd, fun f hf => ?_⟩
  have hfan := hop.fanout f hf
  refine ⟨hfan.handles, hby f hf, hfan.dispatcher, fun hswept hc => ?_, hfan.consumed, hfan.consumer,
    hfan.nodup, hfan.ids⟩
  have hgoing : driver ≠ .gone := hheld hswept (by rw [hf]; exact nofun)
  have hheld : s.holdsFanout o op f = true := hfan.held hswept hc
  simp only [holdsFanout, holdsOutcome, Bool.or_eq_true, Bool.and_eq_true, bne_iff_ne, ne_eq] at hheld ⊢
  exact hheld.imp_right fun hout => ⟨hout.1, .inl (.inr hgoing)⟩

theorem inv_stepDriver (h : s.Inv) (ho : s.openings o = some op) (hl : s.stepDriver o op op.driver l = some s') :
    s'.Inv := by
  have hop := h.openings o op ho
  have hdriver := hop.driver
  unfold stepDriver at hl
  split at hl <;> first | cases hl
  next hd =>
    simp only [DriverInv, hd] at hdriver
    exact inv_drive h ho true op.done (.opening op.minCadence) hdriver
      (fun f hf => by rw [hdriver.2] at hf; cases hf) fun _ _ => nofun
  next hd =>
    simp only [DriverInv, hd] at hdriver
    refine (touched_setOpening s o op { op with driver := .opened, fanout := some .new } rfl id ?_).inv h
      (fun _ _ _ => trivial) ho ?_
    · rintro ⟨f, hf, -⟩
      rw [hdriver.2] at hf
      cases hf
    · refine ⟨hop.waiters, hop.handles, hop.opening, hop.live, fun hc hout => ?_, fun _ => nofun,
        hdriver.1, fun f hf => ?_⟩
      · rw [hdriver.1] at hout
        cases hout
      · cases hf
        exact ⟨nofun, fun _ => .inl rfl, fun hne => absurd rfl hne, fun _ _ => rfl, fun _ => nofun,
          fun _ => nofun, .nil, nofun⟩
  next hd =>
    simp only [DriverInv, hd] at hdriver
    exact inv_drive h ho op.frozen op.done .failed hdriver
      (fun f hf => by rw [hdriver.2] at hf; cases hf) fun _ _ => nofun
  next hd =>
    simp only [DriverInv, hd] at hdriver
    refine InvWith.sweep ?_
    rcases hf : op.fanout with _ | f
    · have hmid := inv_drive (P := (· ≠ o)) (h.weaken fun _ _ => trivial) ho op.frozen op.done
          .published (hdriver ▸ nofun)
        (fun f hf' => by rw [hf] at hf'; cases hf') fun _ _ => nofun
      have hsame : op = { op with fanout := none } := by rw [← hf]
      rw [hsame] at hmid
      exact hmid
    · have hfan := hop.fanout f hf
      have hdropped : (s.setOpening o { op with fanout := some { f with byDriver := false } }).InvWith (· ≠ o) :=
        inv_setFanout h ho hf op.cancel id id
          ⟨hfan.handles, nofun, hfan.dispatcher, fun hne => absurd rfl hne, hfan.consumed,
          hfan.consumer, hfan.nodup, hfan.ids⟩
      have hmid := inv_drive hdropped (Function.update_self ..) op.frozen op.done .published (hdriver ▸ nofun)
        (fun g hg hby => by cases hg; cases hby) fun _ _ => nofun
      rw [setOpening_setOpening] at hmid
      exact hmid
  next hd =>
    simp only [DriverInv, hd] at hdriver
    exact inv_drive h ho op.frozen true .ending hdriver (fun f hf hby => by
      have := (hop.fanout f hf).byDriver hby
      rw [hd] at this
      exact absurd this (by simp)) fun _ _ => nofun
  next hd =>
    simp only [DriverInv, hd] at hdriver
    exact InvWith.sweep (inv_drive (h.weaken fun _ _ => trivial) ho op.frozen op.done .gone hdriver (fun f hf hby => by
      have := (hop.fanout f hf).byDriver hby
      rw [hd] at this
      exact absurd this (by simp)) fun hne => absurd rfl hne)

/-- The other openings of the key that the registry names one of. -/
theorem InvWith.settled (h : s.InvWith P) {key : κ} {e : KeyState} (he : s.registry key = some e) {o₁ : ℕ}
    {op₁ : Opening κ θ} (hne : o₁ ≠ e.id) (ho₁ : s.openings o₁ = some op₁) (hkey : op₁.key = key) :
    s.cancelled op₁ = true ∨ op₁.outcome = some .Failed := by
  refine (h.openings o₁ op₁ ho₁).settled fun e' he' hid => hne ?_
  rw [hkey, he] at he'
  rw [Option.some.inj he', hid]

section

variable [DecidableEq κ]

@[simp]
theorem setEntry_registry_self (key : κ) (entry : Option KeyState) : (s.setEntry key entry).registry key = entry :=
  Function.update_self ..

theorem setEntry_registry_of_ne {key key' : κ} (entry : Option KeyState) (hne : key' ≠ key) :
    (s.setEntry key entry).registry key' = s.registry key' := Function.update_of_ne hne ..

/-- The entry of the key is replaced, where no other opening needs it. -/
theorem touched_setEntry (s : Coalescer κ θ) (o : ℕ) (op op' : Opening κ θ) (hkey : op'.key = op.key)
    (hcancel : op.cancel = true → op'.cancel = true) (hstarted : Started op → Started op') (entry : Option KeyState)
    (hentry : entry = none ∨ entry = some (.Live o))
    (hothers : ∀ o₁ op₁, o₁ ≠ o → s.openings o₁ = some op₁ → op₁.key = op.key → s.cancelled op₁ = true ∨
      op₁.outcome = some .Failed) :
    Touched s ((s.setOpening o op').setEntry op.key entry) o op op' where
  openings := rfl
  key := hkey
  next := rfl
  shutdown := id
  gone := rfl
  cancel := hcancel
  started := hstarted
  calls _ := .inl rfl
  registry key e he := by
    by_cases heq : key = op.key
    · subst heq
      rw [setEntry_registry_self] at he
      rcases hentry with hentry | hentry <;> rw [hentry] at he <;> cases he
      exact .inr ⟨rfl, rfl⟩
    · exact .inl (by rwa [setEntry_registry_of_ne _ heq] at he)
  others o₁ op₁ hne ho₁ := by
    by_cases heq : op₁.key = op.key
    · exact .inr (hothers o₁ op₁ hne ho₁ heq)
    · exact .inl (setEntry_registry_of_ne _ heq)

end

/-- The driver publishes a stream that is wanted, or that nobody is left to ask for. -/
theorem OpeningInv.published (hop : s.OpeningInv True o op) (hf : op.fanout = some f) (hcalls : s'.calls = s.calls)
    (hshut : s.shutdown = true → s'.shutdown = true)
    (hlive : s.cancelled op = false → s'.registry op.key = some (.Live o)) :
    s'.OpeningInv True o { op with
      outcome := some .Ready, driver := .published, fanout := some { f with byDriver := false } } := by
  have hfan := hop.fanout f hf
  have hof : ∀ {t p} (op' : Opening κ θ), op'.key = op.key → s.Of o op t p → s'.Of o op' t p :=
    fun _ hkey hof => hof.later hkey fun call hcall _ _ => by rw [hcalls, hcall]
  have hold : s'.cancelled op = false → s.cancelled op = false := live_before hshut id
  refine ⟨fun t ht => hof _ rfl (hop.waiters t ht), fun t ht => hof _ rfl (hop.handles t ht), fun _ => nofun,
    fun hc _ => hlive (hold hc), fun _ => nofun, fun _ => nofun, nofun, fun g hg => ?_⟩
  cases hg
  refine ⟨fun t ht => hof _ rfl (hfan.handles t ht), nofun, hfan.dispatcher,
    fun _ _ => by simp [holdsFanout, holdsOutcome],
    fun hc => hfan.consumed (hold hc), fun hc id hid => ?_, hfan.nodup, hfan.ids⟩
  exact (hfan.consumer (hold hc) id hid).imp_right (Or.imp_right fun ⟨t, ht⟩ => ⟨t, hof _ rfl ht⟩)

/-- The driver publishes a failure. -/
theorem OpeningInv.refused (hop : s.OpeningInv True o op) (s' : Coalescer κ θ) (hcalls : s'.calls = s.calls) (c : Bool)
    (driver : Driver) (hc : op.fanout = none ∨ c = true)
    (hd : driver = .published ∧ op.fanout = none ∨ driver = .discarding) :
    s'.OpeningInv True o { op with cancel := c, outcome := some .Failed, driver } := by
  have hof : ∀ {t p} (op' : Opening κ θ), op'.key = op.key → s.Of o op t p → s'.Of o op' t p :=
    fun _ hkey hof => hof.later hkey fun call hcall _ _ => by rw [hcalls, hcall]
  refine ⟨fun t ht => hof _ rfl (hop.waiters t ht), fun t ht => hof _ rfl (hop.handles t ht),
    fun _ => nofun, fun _ => nofun,
    fun hlive _ => hc.resolve_right fun hc => ?_, nofun, ?_, fun f hf => ?_⟩
  · simp [cancelled, hc] at hlive
  · rcases hd with ⟨rfl, -⟩ | rfl
    · exact nofun
    · rfl
  · have hf : op.fanout = some f := hf
    have hc : c = true := hc.resolve_left (by rw [hf]; exact nofun)
    have hdead : ∀ {p : Prop}, s'.cancelled { op with cancel := c, outcome := some .Failed, driver } = false → p :=
      fun hlive => by simp [cancelled, hc] at hlive
    have hfan := hop.fanout f hf
    refine ⟨fun t ht => hof _ rfl (hfan.handles t ht), fun _ => .inr ?_, hfan.dispatcher, fun _ hl => hdead hl,
      fun hl => hdead hl,
      fun hl => hdead hl, hfan.nodup, hfan.ids⟩
    rcases hd with ⟨-, hnone⟩ | rfl
    · rw [hf] at hnone
      cases hnone
    · rfl

theorem inv_publish [DecidableEq κ] (h : s.Inv) (ho : s.openings o = some op) (hl : s.publish o op = some s') :
    s'.Inv := by
  have hop := h.openings o op ho
  have hdriver := hop.driver
  unfold publish at hl
  split at hl
  next f hd hf =>
    simp only [DriverInv, hd] at hdriver
    have hstarted : Started op → ∃ g, some { f with byDriver := false } = some g ∧ g.pendingStream = false := by
      rintro ⟨g, hg, hpending⟩
      cases hf.symm.trans hg
      exact ⟨_, rfl, hpending⟩
    have hopened : s.registry op.key = some (.Opening o) → ∀ o₁ op₁, o₁ ≠ o → s.openings o₁ = some op₁ →
          op₁.key = op.key →
        s.cancelled op₁ = true ∨ op₁.outcome = some .Failed :=
          fun hours o₁ op₁ hne ho₁ hkey => h.settled hours hne ho₁ hkey
    split_ifs at hl with hgone hours hwaiters
    all_goals cases hl
    · have hdead : s.cancelled op = true := by simp [cancelled, h.gone hgone]
      exact (touched_setOpening s o op
        { op with outcome := some .Ready, driver := .published, fanout := some { f with byDriver := false } } rfl id
        hstarted).inv h (fun _ _ _ => trivial) ho
          (hop.published hf rfl id fun hc => absurd (hdead.symm.trans hc) Bool.noConfusion)
    · refine (touched_setOpening s o op { op with cancel := true, outcome := some .Failed, driver := .discarding } rfl
        (fun _ => rfl) id).inv h
        (fun _ _ _ => trivial) ho ?_
      exact hop.refused _ (by rfl) true .discarding (.inr rfl) (.inr rfl)
    · refine (touched_setEntry s o op { op with cancel := true, outcome := some .Failed, driver := .discarding } rfl
        (fun _ => rfl) id none
        (.inl rfl) (hopened (not_not.mp hours))).inv h (fun _ _ _ => trivial) ho ?_
      exact hop.refused _ (by rfl) true .discarding (.inr rfl) (.inr rfl)
    · exact (touched_setEntry s o op
        { op with outcome := some .Ready, driver := .published, fanout := some { f with byDriver := false } } rfl id
        hstarted _ (.inr rfl) (hopened (not_not.mp hours))).inv h (fun _ _ _ => trivial) ho
        (hop.published hf rfl id fun _ => setEntry_registry_self ..)
  next hd =>
    simp only [DriverInv, hd] at hdriver
    cases hl
    have hfailed : ∀ {s' : Coalescer κ θ}, s'.calls = s.calls →
        s'.OpeningInv True o { op with outcome := some .Failed, driver := .published } := fun hcalls =>
      hop.refused _ hcalls op.cancel .published (.inl hdriver.2) (.inl ⟨rfl, hdriver.2⟩)
    split_ifs with hours
    · rw [Bool.and_eq_true, beq_iff_eq] at hours
      exact (touched_setEntry s o op { op with outcome := some .Failed, driver := .published } rfl id id none (.inl rfl)
        fun o₁ op₁ hne ho₁ hkey => h.settled hours.2 hne ho₁ hkey).inv h (fun _ _ _ => trivial) ho (hfailed rfl)
    · exact (touched_setOpening s o op { op with outcome := some .Failed, driver := .published } rfl id id).inv h
        (fun _ _ _ => trivial) ho (hfailed rfl)
  · cases hl

end Coalescer

end OvStorage.Watch
