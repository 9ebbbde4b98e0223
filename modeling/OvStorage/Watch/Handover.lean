import OvStorage.Watch.Upstream

/-!
# Who is left with an upstream

The steps of a `subscribe` call, from its look at the registry to the receiver that it returns, keep
an upstream in the hands of whom the invariant names.

## What is proved

* `one_upstream`: of the upstreams of a key, at most one is not cancelled; with no call and no
  receiver of the key left, only one whose driver has not ended yet.
-/

namespace OvStorage.Watch

open Option

variable {κ θ : Type}

namespace Coalescer

variable [DecidableEq θ]

variable {s s' : Coalescer κ θ} {o : ℕ} {op op' : Opening κ θ} {f f' : Fanout θ} {t : θ} {call : Call κ}

/-! ### Calls -/

section

@[simp]
theorem setCall_calls_self (c : Option (Call κ)) : (s.setCall t c).calls t = c := Function.update_self ..

theorem setCall_calls_of_ne (c : Option (Call κ)) {t' : θ} (hne : t' ≠ t) : (s.setCall t c).calls t' = s.calls t' :=
  Function.update_of_ne hne ..

/-- The call goes on, with the opening or without one. -/
theorem Touched.setCall (T : Touched s s' o op op') (hcalls : s'.calls = s.calls) (hcall : s.calls t = some call)
    (habout : call.phase.opening? = some o ∨ call.phase.opening? = none) (c : Option (Call κ))
    (hc : ∀ call', c = some call' → (call'.phase.opening? = some o ∧ call'.key = op.key ∧
      (call'.phase = .evicting o → s'.cancelled op' = true) ∧ (call'.phase.attached?.isSome = true → Started op')) ∨
      call'.phase.opening? = none) :
    Touched s (s'.setCall t c) o op op' where
  openings := T.openings
  key := T.key
  next := T.next
  shutdown := T.shutdown
  gone := T.gone
  cancel := T.cancel
  started := T.started
  registry := T.registry
  others := T.others
  calls t' := by
    by_cases heq : t' = t
    · subst heq
      refine .inr ⟨fun call' hcall' => ?_, fun call' hcall' => ?_⟩
      · cases hcall.symm.trans hcall'
        exact habout
      · exact hc call' ((setCall_calls_self c).symm.trans hcall')
    · exact .inl ((setCall_calls_of_ne c heq).trans (congrFun hcalls t'))

end

/-- A step of the call, as far as its opening is concerned. -/
structure Going (s s' : Coalescer κ θ) (t : θ) (call : Call κ) (op op' : Opening κ θ) : Prop where
  was : s.calls t = some call
  others : ∀ t', t' ≠ t → s'.calls t' = s.calls t'
  shutdown : s.shutdown = true → s'.shutdown = true
  key : op'.key = op.key
  cancel : op.cancel = true → op'.cancel = true
  outcome : op'.outcome = op.outcome
  driver : op'.driver = op.driver
  registry : s'.cancelled op' = false → s'.registry op.key = s.registry op.key

variable {p : Phase → Prop}

theorem Of.moved {t' : θ} (h : s.Of o op t' p) (G : Going s s' t call op op')
    (hown : t' = t → p call.phase → s'.Of o op' t p) : s'.Of o op' t' p := by
  by_cases heq : t' = t
  · obtain ⟨call', hcall', -, -, hp⟩ := h
    rw [heq, G.was] at hcall'
    cases hcall'
    rw [heq]
    exact hown heq hp
  · exact h.later G.key fun call' hcall' _ _ => (G.others t' heq).trans hcall'

omit [DecidableEq θ] in
theorem Going.live (G : Going s s' t call op op') (h : s'.cancelled op' = false) : s.cancelled op = false :=
  live_before G.shutdown G.cancel h

omit [DecidableEq θ] in
theorem Going.opening {p : Prop} (G : Going s s' t call op op') (hop : s.OpeningInv True o op)
    (hwaiters : ∀ t' ∈ op'.waiters, s'.Of o op' t' fun p => p.guards = true)
    (hhandles : ∀ t' ∈ op'.handles, s'.Of o op' t' fun p => p.holdsOpening = true)
    (hwanted : s'.cancelled op' = false → op.outcome = none → op.waiters ≠ [] → op'.waiters ≠ [])
    (hnone : op'.fanout = none ↔ op.fanout = none) (hfan : ∀ f', op'.fanout = some f' → s'.FanoutInv p o op' f') :
    s'.OpeningInv p o op' where
  waiters := hwaiters
  handles := hhandles
  opening hc hout := by
    obtain ⟨hreg, hne⟩ := hop.opening (G.live hc) (G.outcome ▸ hout)
    exact ⟨by rw [G.key, G.registry hc, hreg], hwanted hc (G.outcome ▸ hout) hne⟩
  live hc hout := by rw [G.key, G.registry hc, hop.live (G.live hc) (G.outcome ▸ hout)]
  failed hc hout := hnone.mpr (hop.failed (G.live hc) (G.outcome ▸ hout))
  ready hout hf := hop.ready (G.outcome ▸ hout) (hnone.mp hf)
  driver := by
    have hdriver := hop.driver
    unfold DriverInv at hdriver ⊢
    rw [G.driver, G.outcome]
    split at hdriver <;> first | exact hdriver | exact ⟨hdriver.1, hnone.mpr hdriver.2⟩
  fanout := hfan

/-- A call that is not attached goes on. -/
theorem Going.fanout {p : Prop} (G : Going s s' t call op op') (hfan : s.FanoutInv True o op f)
    (hatt : call.phase.attached? = none) (handles : List θ)
    (hhandles : ∀ t' ∈ handles, s'.Of o op' t' fun p => p.holdsFanout = true)
    (hheld : p → s'.cancelled op' = false → s'.holdsFanout o op' { f with handles } = true) :
    s'.FanoutInv p o op' { f with handles } where
  handles := hhandles
  byDriver := G.driver ▸ hfan.byDriver
  dispatcher := hfan.dispatcher
  held := hheld
  consumed hc := hfan.consumed (G.live hc)
  consumer hc id hid := (hfan.consumer (G.live hc) id hid).imp_right (Or.imp_right fun ⟨t', ht'⟩ =>
    ⟨t', ht'.moved G fun _ h => by rw [hatt] at h; cases h⟩)
  nodup := hfan.nodup
  ids := hfan.ids

omit [DecidableEq θ] in
/-- As long as the call keeps what it holds, so does everybody. -/
theorem Going.held (G : Going s s' t call op op') (hheld : s.holdsFanout o op f = true) (hc : s'.cancelled op' = false)
    {handles : List θ} (hhandles : f.handles ≠ [] → handles ≠ []) (hopening : op.handles ≠ [] → op'.handles ≠ []) :
    s'.holdsFanout o op' { f with handles } = true := by
  simp only [holdsFanout, holdsOutcome, Bool.or_eq_true, Bool.and_eq_true, bne_iff_ne, ne_eq, Bool.not_eq_true',
    List.isEmpty_eq_false_iff,
    G.outcome, G.driver, G.key, G.registry hc] at hheld ⊢
  grind

/-- An opening is started where none of the key is left. -/
theorem inv_startOpening [DecidableEq κ] (h : s.Inv) (hcall : s.calls t = some call) (hlooking : call.phase = .looking)
    (hdead : ∀ o₁ op₁, s.openings o₁ = some op₁ → op₁.key = call.key → s.cancelled op₁ = true ∨
      op₁.outcome = some .Failed) :
    (s.startOpening t call).Inv := by
  have hnew : ∀ {o₁ op₁}, s.openings o₁ = some op₁ → o₁ ≠ s.next := by
    rintro _ op₁ ho₁ rfl
    rw [h.fresh s.next (Nat.le_refl _)] at ho₁
    cases ho₁
  let opening : Opening κ θ :=
    { key := call.key, cancel := false, done := false, waiters := [t], minCadence := call.cadence, frozen := false,
      outcome := none, driver := .spawned, handles := [t], fanout := none }
  let s₁ := ((s.setOpening s.next opening).setEntry call.key (some (.Opening s.next))).goesOn t call (.waiting s.next)
  let s₂ := { s₁ with next := s.next + 1 }
  have hinserted : s₂.Inv := by
    have hopenings : ∀ {o₁}, o₁ ≠ s.next → s₂.openings o₁ = s.openings o₁ := fun hne => Function.update_of_ne hne ..
    have hself : s₂.openings s.next = some opening := Function.update_self ..
    have hcalls : ∀ {t'}, t' ≠ t → s₂.calls t' = s.calls t' := fun hne => setCall_calls_of_ne _ hne
    have hown : s₂.calls t = some { call with phase := .waiting s.next } := setCall_calls_self _
    refine ⟨h.gone, fun o₁ hle => ?_, fun t' call' o₁ hcall' hphase => ?_, fun key e he => ?_, fun o₁ op₁ ho₁ => ?_⟩
    · rw [hopenings (Nat.ne_of_gt hle)]
      exact h.fresh o₁ (Nat.le_of_succ_le hle)
    · by_cases heq : t' = t
      · subst heq
        cases hown.symm.trans hcall'
        obtain rfl : s.next = o₁ := Option.some.inj hphase
        exact ⟨opening, hself, rfl, nofun, nofun⟩
      · obtain ⟨op₁, ho₁, hkey, hrest⟩ := h.calls t' call' o₁ ((hcalls heq).symm.trans hcall') hphase
        exact ⟨op₁, (hopenings (hnew ho₁)).trans ho₁, hkey, hrest⟩
    · by_cases heq : key = call.key
      · subst heq
        cases (setEntry_registry_self _ _).symm.trans he
        exact ⟨opening, hself, rfl⟩
      · obtain ⟨op₁, ho₁, hkey⟩ := h.registry key e ((setEntry_registry_of_ne _ heq).symm.trans he)
        exact ⟨op₁, (hopenings (hnew ho₁)).trans ho₁, hkey⟩
    · by_cases heq : o₁ = s.next
      · subst heq
        cases hself.symm.trans ho₁
        have hof : ∀ {p : Phase → Prop} {t'}, p (.waiting s.next) → t' ∈ [t] → s₂.Of s.next opening t' p := by
          rintro p t' hp ht
          obtain rfl := List.mem_singleton.mp ht
          exact ⟨_, hown, rfl, rfl, hp⟩
        refine ⟨fun t' ht => hof rfl ht, fun t' ht => hof rfl ht, fun _ _ => ⟨setEntry_registry_self .., nofun⟩,
          fun _ => nofun, fun _ => nofun, nofun,
          ⟨rfl, rfl⟩, nofun⟩
      · have hold := (hopenings heq).symm.trans ho₁
        refine (h.openings o₁ op₁ hold).frame id (fun t' call' hcall' hphase => ?_) id ?_
        · have hne : t' ≠ t := by
            rintro rfl
            cases hcall.symm.trans hcall'
            rw [hlooking] at hphase
            cases hphase
          exact (hcalls hne).trans hcall'
        · by_cases hkey : op₁.key = call.key
          · exact .inr (hdead o₁ op₁ hold hkey)
          · exact .inl (setEntry_registry_of_ne _ hkey)
  unfold startOpening
  dsimp only
  split
  · exact (hinserted.weaken fun _ _ => trivial).sweep
  · exact hinserted

variable {key : κ}

omit [DecidableEq θ] in
/-- The entry of the key names no opening that could still be joined, nor a fan-out that could. -/
theorem dead_of_entry (h : s.Inv) {e : KeyState} (he : s.registry key = some e)
    (hentry : (∃ op, e = .Opening e.id ∧ s.openings e.id = some op ∧ s.cancelled op = true) ∨ e = .Live e.id ∧
      s.upgrades e.id = false)
    (o₁ : ℕ) (op₁ : Opening κ θ) (ho₁ : s.openings o₁ = some op₁) (hkey : op₁.key = key) :
    s.cancelled op₁ = true ∨ op₁.outcome = some .Failed := by
  by_cases hne : o₁ = e.id
  · subst hne
    rcases hentry with ⟨op, -, ho, hc⟩ | ⟨hlive, hup⟩
    · cases ho.symm.trans ho₁
      exact .inl hc
    · have hop := h.openings e.id op₁ ho₁
      rw [or_iff_not_imp_left, Bool.not_eq_true]
      intro hc
      rcases hout : op₁.outcome with _ | _ | _
      · have hreg := (hop.opening hc hout).1
        rw [hkey, he, hlive] at hreg
        cases hreg
      · obtain ⟨f, hf⟩ := ne_none_iff_exists'.mp (hop.ready hout)
        rw [upgrades_eq ho₁ hf, (hop.fanout f hf).held trivial hc] at hup
        cases hup
      · rfl
  · exact h.settled he hne ho₁ hkey

theorem going_setCall (hcall : s.calls t = some call) (o : ℕ) (op op' : Opening κ θ) (hkey : op'.key = op.key)
    (hcancel : op.cancel = true → op'.cancel = true) (hout : op'.outcome = op.outcome)
    (hdriver : op'.driver = op.driver) (c : Option (Call κ)) :
    Going s ((s.setOpening o op').setCall t c) t call op op' :=
  ⟨hcall, fun _ hne => setCall_calls_of_ne c hne, id, hkey, hcancel, hout, hdriver, fun _ => rfl⟩

/-- The opening is in the hands of the call as it goes on. -/
def Goes (c : Option (Call κ)) (o : ℕ) (op : Opening κ θ) (p : Phase → Prop) : Prop :=
  ∃ call, c = some call ∧ call.key = op.key ∧ call.phase.opening? = some o ∧ p call.phase

variable {P : ℕ → Prop}

/-- A step of a call that takes or drops an opening or a fan-out. -/
theorem inv_hands (h : s.Inv) (ho : s.openings o = some op) (hcall : s.calls t = some call)
    (habout : call.phase.opening? = some o ∨ call.phase.opening? = none) (hatt : call.phase.attached? = none)
    (waiters handles : List θ) (minCadence : ℕ) (g : List θ → List θ) (c : Option (Call κ))
    (hc : ∀ call', c = some call' → call'.phase.attached? = none ∧ call'.phase ≠ .evicting o ∧
      (call'.phase.opening? = some o ∧ call'.key = op.key ∨ call'.phase.opening? = none))
    (hwaiters : ∀ t' ∈ waiters, t' = t ∧ Goes c o op (fun p => p.guards = true) ∨ t' ≠ t ∧ t' ∈ op.waiters)
    (hhandles : ∀ t' ∈ handles, t' = t ∧ Goes c o op (fun p => p.holdsOpening = true) ∨ t' ≠ t ∧ t' ∈ op.handles)
    (hg : ∀ f, op.fanout = some f → ∀ t' ∈ g f.handles, t' = t ∧
      Goes c o op (fun p => p.holdsFanout = true) ∨ t' ≠ t ∧ t' ∈ f.handles)
    (hwanted : s.cancelled op = false → op.outcome = none → op.waiters ≠ [] → waiters ≠ [])
    (hheld : ∀ f, op.fanout = some f → P o → (f.handles ≠ [] → g f.handles ≠ []) ∧ (op.handles ≠ [] → handles ≠ [])) :
    ((s.setOpening o { op with waiters, handles, minCadence, fanout := op.fanout.map fun f =>
      { f with handles := g f.handles } }).setCall
      t c).InvWith P := by
  have hop := h.openings o op ho
  set op' : Opening κ θ :=
    { op with waiters, handles, minCadence, fanout := op.fanout.map fun f =>
      { f with handles := g f.handles } } with hop'
  have G : Going s ((s.setOpening o op').setCall t c) t call op op' := going_setCall hcall o op op' rfl id rfl rfl c
  have hof : ∀ {p : Phase → Prop} {t' : θ}, (t' = t ∧ Goes c o op p ∨ t' ≠ t ∧ s.Of o op t' p) →
      ((s.setOpening o op').setCall t c).Of o op' t' p := by
    rintro p t' (⟨rfl, hgoes⟩ | ⟨hne, hold⟩)
    · obtain ⟨call', hcall', hkey, hrest⟩ := hgoes
      exact ⟨call', (setCall_calls_self c).trans hcall', hkey, hrest⟩
    · exact hold.moved G fun heq => absurd heq hne
  refine ((touched_setOpening s o op op' rfl id ?_).setCall rfl hcall habout c fun call' hcall' => ?_).inv h
    (fun _ _ _ => trivial) ho ?_
  · rintro ⟨f, hf, hpending⟩
    exact ⟨{ f with handles := g f.handles }, by rw [hop', hf]; rfl, hpending⟩
  · obtain ⟨hatt', hev, hrest⟩ := hc call' hcall'
    exact hrest.imp_left fun ⟨ho', hkey⟩ =>
      ⟨ho', hkey, fun heq => absurd heq hev, fun hsome => by rw [hatt'] at hsome; cases hsome⟩
  · refine G.opening hop (fun t' ht => hof ((hwaiters t' ht).imp_right fun hold => ⟨hold.1, hop.waiters t' hold.2⟩))
      (fun t' ht => hof ((hhandles t' ht).imp_right fun hold => ⟨hold.1, hop.handles t' hold.2⟩))
        (fun hc => hwanted (G.live hc))
      map_eq_none_iff fun f' hf' => ?_
    obtain ⟨f, hf, rfl⟩ := map_eq_some_iff.mp hf'
    have hfan := hop.fanout f hf
    refine G.fanout hfan hatt (g f.handles)
      (fun t' ht => hof ((hg f hf t' ht).imp_right fun hold => ⟨hold.1, hfan.handles t' hold.2⟩))
      fun hswept hc => ?_
    exact G.held (hfan.held trivial (G.live hc)) hc (hheld f hf hswept).1 (hheld f hf hswept).2

/-- Everybody but the call keeps what it has. -/
theorem kept_or {l : List θ} {q : Prop} (hq : t ∈ l → q) : ∀ t' ∈ l, t' = t ∧ q ∨ t' ≠ t ∧ t' ∈ l := by
  intro t' ht
  by_cases heq : t' = t
  · exact .inl ⟨heq, hq (heq ▸ ht)⟩
  · exact .inr ⟨heq, ht⟩

omit [DecidableEq θ] in
/-- Who is in a list is in that phase. -/
theorem Of.now (h : s.Of o op t p) (hcall : s.calls t = some call) : p call.phase := by
  obtain ⟨call', hcall', -, -, hp⟩ := h
  cases hcall.symm.trans hcall'
  exact hp

/-- The call takes the fan-out of its opening. -/
theorem inv_takes (h : s.Inv) (hcall : s.calls t = some call)
    (habout : call.phase.opening? = some o ∨ call.phase.opening? = none) (hatt : call.phase.attached? = none)
    (ho : s.openings o = some op) (hf : op.fanout = some f) (hkey : call.key = op.key) (phase : Phase)
    (ho' : phase.opening? = some o) (hatt' : phase.attached? = none) (hev : phase ≠ .evicting o)
    (hguards : call.phase.guards = true → phase.guards = true)
    (hopening : call.phase.holdsOpening = true → phase.holdsOpening = true) (hfanout : phase.holdsFanout = true) :
    ((s.setOpening o { op with fanout := some { f with handles := t :: f.handles } }).goesOn t call phase).Inv := by
  have hop := h.openings o op ho
  have hgoes : ∀ {p : Phase → Prop}, p phase → Goes (some { call with phase }) o op p :=
    fun hp => ⟨_, rfl, hkey, ho', hp⟩
  have hmid := inv_hands (P := fun _ => True) h ho hcall habout hatt op.waiters op.handles op.minCadence (t :: ·)
      (some { call with phase })
    (by rintro _ ⟨⟩; exact ⟨hatt', hev, .inl ⟨ho', hkey⟩⟩)
      (kept_or fun ht => hgoes (hguards ((hop.waiters t ht).now hcall)))
    (kept_or fun ht => hgoes (hopening ((hop.handles t ht).now hcall))) (fun f _ t' ht => ?_) (fun _ _ => id)
      fun _ _ _ => ⟨fun _ => nofun, id⟩
  · rw [hf] at hmid
    exact hmid
  · by_cases heq : t' = t
    · exact .inl ⟨heq, hgoes hfanout⟩
    · exact .inr ⟨heq, List.mem_of_ne_of_mem heq ht⟩

theorem inv_look [DecidableEq κ] (h : s.Inv) (hcall : s.calls t = some call) (hlooking : call.phase = .looking)
    (hl : s.look t call = some s') : s'.Inv := by
  have hnone : call.phase.opening? = none := by rw [hlooking]; rfl
  have hatt : call.phase.attached? = none := by rw [hlooking]; rfl
  unfold look at hl
  split at hl
  next o he =>
    obtain ⟨op, ho, hkey⟩ := h.registry _ _ he
    have ho : s.openings o = some op := ho
    have hop := h.openings o op ho
    split_ifs at hl with hup
    · obtain ⟨op₁, ho₁, hl⟩ := bind_eq_some_iff.mp hl
      cases ho.symm.trans ho₁
      obtain ⟨f, hf, hl⟩ := bind_eq_some_iff.mp hl
      cases hl
      exact inv_takes h hcall (.inr hnone) hatt ho hf hkey.symm (.attaching o) rfl rfl nofun
        (fun hg => by rw [hlooking] at hg; cases hg) (fun hg => by rw [hlooking] at hg; cases hg) rfl
    · cases hl
      exact inv_startOpening h hcall hlooking (dead_of_entry h he (.inr ⟨rfl, Bool.eq_false_iff.mpr hup⟩))
  next o he =>
    obtain ⟨op, ho, hkey⟩ := h.registry _ _ he
    have ho : s.openings o = some op := ho
    have hop := h.openings o op ho
    obtain ⟨op₁, ho₁, hl⟩ := bind_eq_some_iff.mp hl
    cases ho.symm.trans ho₁
    by_cases hc : s.cancelled op = true
    · rw [if_pos hc] at hl
      cases hl
      exact inv_startOpening h hcall hlooking (dead_of_entry h he (.inl ⟨op, rfl, ho, hc⟩))
    · rw [if_neg hc] at hl
      cases hl
      have hmid := inv_hands (P := fun _ => True) h ho hcall (.inr hnone) hatt (t :: op.waiters) (t :: op.handles)
        (if op.frozen then op.minCadence else min op.minCadence call.cadence) id
        (some { call with phase := .waiting o }) (by rintro _ ⟨⟩; exact ⟨rfl, nofun, .inl ⟨rfl, hkey.symm⟩⟩)
        (fun t' ht => ?_) (fun t' ht => ?_)
        (fun f hf => kept_or fun ht =>
          by have := ((hop.fanout f hf).handles t ht).now hcall; rw [hlooking] at this; cases this)
        (fun _ _ _ => nofun) fun _ _ _ => ⟨id, fun _ => nofun⟩
      · have hsame : (op.fanout.map fun f => { f with handles := id f.handles }) = op.fanout := map_id' ..
        rw [hsame] at hmid
        exact hmid
      all_goals
        by_cases heq : t' = t
        · exact .inl ⟨heq, _, rfl, hkey.symm, rfl, rfl⟩
        · exact .inr ⟨heq, List.mem_of_ne_of_mem heq ht⟩
  next he =>
    cases hl
    exact inv_startOpening h hcall hlooking fun o₁ op₁ ho₁ hkey => (h.openings o₁ op₁ ho₁).settled fun e he' => by
      rw [hkey, he] at he'
      cases he'

/-- The call goes on with what it has. -/
theorem inv_goesOn (h : s.Inv) (hcall : s.calls t = some call) (habout : call.phase.opening? = some o)
    (hatt : call.phase.attached? = none) (phase : Phase) (ho' : phase.opening? = some o)
    (hatt' : phase.attached? = none) (hev : phase ≠ .evicting o)
    (hguards : call.phase.guards = true → phase.guards = true)
    (hopening : call.phase.holdsOpening = true → phase.holdsOpening = true)
    (hfanout : call.phase.holdsFanout = true → phase.holdsFanout = true) : (s.goesOn t call phase).Inv := by
  obtain ⟨op, ho, hkey, -⟩ := h.calls t call o hcall habout
  have hop := h.openings o op ho
  have hgoes : ∀ {p : Phase → Prop}, p phase → Goes (some { call with phase }) o op p :=
    fun hp => ⟨_, rfl, hkey.symm, ho', hp⟩
  have hmid := inv_hands (P := fun _ => True) h ho hcall (.inl habout) hatt op.waiters op.handles op.minCadence id
      (some { call with phase })
    (by rintro _ ⟨⟩; exact ⟨hatt', hev, .inl ⟨ho', hkey.symm⟩⟩)
      (kept_or fun ht => hgoes (hguards ((hop.waiters t ht).now hcall)))
    (kept_or fun ht => hgoes (hopening ((hop.handles t ht).now hcall)))
    (fun f hf => kept_or fun ht => hgoes (hfanout (((hop.fanout f hf).handles t ht).now hcall))) (fun _ _ => id)
      fun _ _ _ => ⟨id, id⟩
  have hsame : (op.fanout.map fun f => { f with handles := id f.handles }) = op.fanout := map_id' ..
  rw [hsame, setOpening_self ho] at hmid
  exact hmid

/-- The guard of the call is dropped, and with the last one the opening. -/
theorem inv_dropGuard [DecidableEq κ] (h : s.Inv) (hcall : s.calls t = some call) {ready : Bool}
    (hphase : call.phase = .leaving o ready) (ho : s.openings o = some op) :
    ((s.dropGuard t o op).goesOn t call (.released o ready)).Inv := by
  have hop := h.openings o op ho
  have habout : call.phase.opening? = some o := by rw [hphase]; rfl
  have hatt : call.phase.attached? = none := by rw [hphase]; rfl
  have hkey : op.key = call.key := by
    obtain ⟨op₁, ho₁, hkey, -⟩ := h.calls t call o hcall habout
    cases ho.symm.trans ho₁
    exact hkey
  set waiters := op.waiters.filter fun t' => decide (t' ≠ t)
  have hwaiters : ∀ t' ∈ waiters, t' ≠ t ∧ t' ∈ op.waiters := fun t' ht => by
    obtain ⟨hin, hne⟩ := List.mem_filter.mp ht
    exact ⟨of_decide_eq_true hne, hin⟩
  have hgoes : ∀ {p : Phase → Prop}, p (.released o ready) →
      Goes (some { call with phase := .released o ready }) o op p :=
    fun hp => ⟨_, rfl, hkey.symm, rfl, hp⟩
  have hready : ∀ f, op.fanout = some f → t ∈ f.handles → ready = true := fun f hf ht => by
    have hholds := ((hop.fanout f hf).handles t ht).now hcall
    rw [hphase] at hholds
    cases ready with
    | true => rfl
    | false => cases hholds
  have hnext : ∀ call', some { call with phase := Phase.released o ready } = some call' →
        (call'.phase.opening? = some o ∧ call'.key = op.key ∧
      (call'.phase = .evicting o → true = true) ∧
        (call'.phase.attached?.isSome = true → Started { op with waiters, cancel := true })) ∨
      call'.phase.opening? = none := by
    rintro _ ⟨⟩
    exact .inl ⟨rfl, hkey.symm, by rintro ⟨⟩, by rintro ⟨⟩⟩
  have hown : ∀ {s' : Coalescer κ θ} {p : Prop}, Going s s' t call op { op with waiters, cancel := true } →
      s'.calls t = some { call with phase := .released o ready } →
        s'.OpeningInv p o { op with waiters, cancel := true } := by
    intro s' p G hself
    have hcancelled : ∀ {q : Prop}, s'.cancelled { op with waiters, cancel := true } = false → q := fun hc => by
      simp [cancelled] at hc
    refine G.opening hop (fun t' ht => (hop.waiters t' (hwaiters t' ht).2).moved G fun heq =>
      absurd heq (hwaiters t' ht).1)
      (fun t' ht => (hop.handles t' ht).moved G fun _ _ => ⟨_, hself, hkey.symm, rfl, rfl⟩)
        hcancelled Iff.rfl fun f hf => ?_
    refine G.fanout (hop.fanout f hf) hatt f.handles (fun t' ht => ?_) fun _ => hcancelled
    refine ((hop.fanout f hf).handles t' ht).moved G fun heq _ => ⟨_, hself, hkey.symm, rfl, ?_⟩
    rw [hready f hf (heq ▸ ht)]
    rfl
  unfold dropGuard
  dsimp only
  split_ifs with htear hgone
  · refine ((touched_setOpening s o op { op with waiters, cancel := true } rfl (fun _ => rfl) id).setCall rfl hcall
      (.inl habout) _ hnext).inv h
      (fun _ _ _ => trivial) ho ?_
    exact hown ⟨hcall, fun _ hne => setCall_calls_of_ne _ hne, id, rfl, fun _ => rfl, rfl, rfl, by rintro ⟨⟩⟩
      (setCall_calls_self _)
  · rw [goesOn, sweep_setCall]
    have hours : s.registry op.key = some (.Opening o) := by
      have := (Bool.and_eq_true_iff.mp htear).2
      rw [Bool.eq_false_iff.mpr hgone] at this
      simpa using this
    refine InvWith.sweep (((touched_setEntry s o op { op with waiters, cancel := true } rfl
      (fun _ => rfl) id none (.inl rfl)
      fun o₁ op₁ hne ho₁ hkey => h.settled hours hne ho₁ hkey).setCall rfl hcall (.inl habout) _ hnext).inv h
        (fun _ _ _ => trivial) ho ?_)
    exact hown ⟨hcall, fun _ hne => setCall_calls_of_ne _ hne, id, rfl, fun _ => rfl, rfl, rfl, by rintro ⟨⟩⟩
      (setCall_calls_self _)
  · have hmid := inv_hands (P := fun _ => True) h ho hcall (.inl habout) hatt waiters op.handles op.minCadence id
      (some { call with phase := .released o ready }) (by rintro _ ⟨⟩; exact ⟨rfl, by rintro ⟨⟩, .inl ⟨rfl, hkey.symm⟩⟩)
      (fun t' ht => .inr (hwaiters t' ht)) (kept_or fun _ => hgoes rfl)
      (fun f hf => kept_or fun ht => hgoes (by rw [hready f hf ht]; rfl))
        (fun hc hnone _ hempty => ?_) fun _ _ _ => ⟨id, id⟩
    · have hsame : (op.fanout.map fun f => { f with handles := id f.handles }) = op.fanout := map_id' ..
      rw [hsame] at hmid
      exact hmid
    · refine htear ?_
      have hempty : (op.waiters.filter fun t' => decide (t' ≠ t)) = [] := hempty
      rw [hempty, hnone, (hop.opening hc hnone).1]
      simp

section

/-- A step of a call that has the fan-out alone. -/
theorem inv_withFanout (h : s.Inv) (hcall : s.calls t = some call) (habout : call.phase.opening? = some o)
    (ho : s.openings o = some op) (hf : op.fanout = some f) (hguards : call.phase.guards = false)
    (hholds : call.phase.holdsOpening = false) (f' : Fanout θ)
    (hpending : f.pendingStream = false → f'.pendingStream = false) (c : Option (Call κ))
    (hc : ∀ call', c = some call' →
      (call'.phase.opening? = some o ∧ call'.key = op.key ∧ (call'.phase = .evicting o → s.cancelled op = true) ∧
      (call'.phase.attached?.isSome = true → f'.pendingStream = false)) ∨ call'.phase.opening? = none)
    (hfan : Going s ((s.setOpening o { op with fanout := some f' }).setCall t c) t call op
      { op with fanout := some f' } →
      ((s.setOpening o { op with fanout := some f' }).setCall t c).FanoutInv (P o) o { op with fanout := some f' } f') :
    ((s.setOpening o { op with fanout := some f' }).setCall t c).InvWith P := by
  have hop := h.openings o op ho
  have G : Going s ((s.setOpening o { op with fanout := some f' }).setCall t c) t call op
      { op with fanout := some f' } :=
    going_setCall hcall o op { op with fanout := some f' } rfl id rfl rfl c
  refine ((touched_setOpening s o op { op with fanout := some f' } rfl id ?_).setCall rfl hcall (.inl habout) c
    fun call' hcall' => ?_).inv h
    (fun _ _ _ => trivial) ho ?_
  · rintro ⟨g, hg, hstarted⟩
    cases hf.symm.trans hg
    exact ⟨f', rfl, hpending hstarted⟩
  · exact (hc call' hcall').imp_left fun ⟨ho', hkey, hev, hatt⟩ => ⟨ho', hkey, hev, fun ha => ⟨f', rfl, hatt ha⟩⟩
  · refine G.opening hop (fun t' ht => (hop.waiters t' ht).moved G fun _ hg => ?_)
      (fun t' ht => (hop.handles t' ht).moved G fun _ hg => ?_)
      (fun _ _ => id) ⟨nofun, fun hnone => ?_⟩ fun g hg => ?_
    · rw [hguards] at hg
      cases hg
    · rw [hholds] at hg
      cases hg
    · rw [hf] at hnone
      cases hnone
    · cases hg
      exact hfan G

/-- The call is registered with the fan-out, or finds it cancelled. -/
theorem inv_attach (h : s.Inv) (hcall : s.calls t = some call) (hphase : call.phase = .attaching o)
    (ho : s.openings o = some op) (hf : op.fanout = some f) (hkey : call.key = op.key) :
    (s.attach t call o op f).Inv := by
  have hfan := (h.openings o op ho).fanout f hf
  have habout : call.phase.opening? = some o := by rw [hphase]; rfl
  have hguards : call.phase.guards = false := by rw [hphase]; rfl
  have hholds : call.phase.holdsOpening = false := by rw [hphase]; rfl
  have hatt : ∀ {id : ℕ} {q : Prop}, call.phase.attached? = some id → q := fun hatt => by
    rw [hphase] at hatt; cases hatt
  unfold attach
  dsimp only
  by_cases hc : s.cancelled op = true
  · rw [if_pos hc]
    refine inv_withFanout h hcall habout ho hf hguards hholds { f with nextId := f.nextId + 1 } id
      (some { call with phase := .evicting o })
      (by rintro _ ⟨⟩; exact .inl ⟨rfl, hkey, fun _ => hc, nofun⟩) fun G => ?_
    have hdead : ∀ {q : Prop}, s.cancelled op = false → q := fun hl => by rw [hc] at hl; cases hl
    exact ⟨fun t' ht => (hfan.handles t' ht).moved G fun _ _ => ⟨_, setCall_calls_self _, hkey, rfl, rfl⟩,
      hfan.byDriver, hfan.dispatcher,
      fun _ hl => hdead hl, fun hl => hdead hl, fun hl => hdead hl, hfan.nodup, fun id hid =>
        Nat.lt_succ_of_lt (hfan.ids id hid)⟩
  · rw [if_neg hc]
    -- the first consumer takes the stream
    obtain ⟨phase, hp, ho', hh, ha⟩ :
          ∃ phase, (if f.pendingStream = true then Phase.spawning o f.nextId else .returning o f.nextId) = phase ∧
        phase.opening? = some o ∧ phase.holdsFanout = true ∧ phase.attached? = some f.nextId := by
      split_ifs <;> exact ⟨_, rfl, rfl, rfl, rfl⟩
    rw [hp]
    have hev : phase ≠ .evicting o := fun hev => by rw [hev] at ha; cases ha
    refine inv_withFanout h hcall habout ho hf hguards hholds
      { f with
        pendingStream := false
        watchers := f.watchers ++ [f.nextId]
        activeConsumers := f.nextId :: f.activeConsumers
        nextId := f.nextId + 1 }
      (fun _ => rfl) (some { call with phase })
        (by rintro _ ⟨⟩; exact .inl ⟨ho', hkey, fun h => absurd h hev, fun _ => rfl⟩) fun G => ?_
    refine ⟨fun t' ht => (hfan.handles t' ht).moved G fun _ _ => ⟨_, setCall_calls_self _, hkey, ho', hh⟩,
      hfan.byDriver, fun _ => rfl,
      fun _ hl => G.held (hfan.held trivial (G.live hl)) hl id id, fun _ _ => nofun, fun hl id hid => ?_,
      List.nodup_cons.mpr ⟨fun hin => Nat.lt_irrefl _ (hfan.ids _ hin), hfan.nodup⟩, fun id hid => ?_⟩
    · rcases List.mem_cons.mp hid with rfl | hid
      · exact .inr (.inr ⟨t, _, setCall_calls_self _, hkey, ho', ha⟩)
      · exact (hfan.consumer (G.live hl) id hid).imp_right
          (Or.imp_right fun ⟨t', ht'⟩ => ⟨t', ht'.moved G fun _ => hatt⟩)
    · rcases List.mem_cons.mp hid with rfl | hid
      · exact Nat.lt_succ_self _
      · exact Nat.lt_succ_of_lt (hfan.ids id hid)

/-- The dispatcher is started. -/
theorem inv_spawn (h : s.Inv) (hcall : s.calls t = some call) {id : ℕ} (hphase : call.phase = .spawning o id)
    (ho : s.openings o = some op) (hf : op.fanout = some f) (hkey : call.key = op.key) :
    ((s.setOpening o { op with fanout := some { f with dispatcher := .running } }).goesOn t call
      (.returning o id)).Inv := by
  have hfan := (h.openings o op ho).fanout f hf
  have habout : call.phase.opening? = some o := by rw [hphase]; rfl
  have hstarted : f.pendingStream = false := by
    obtain ⟨op₁, ho₁, -, -, hatt⟩ := h.calls t call o hcall habout
    cases ho.symm.trans ho₁
    obtain ⟨g, hg, hg'⟩ := hatt (by rw [hphase]; rfl)
    cases hf.symm.trans hg
    exact hg'
  refine inv_withFanout h hcall habout ho hf (by rw [hphase]; rfl) (by rw [hphase]; rfl)
    { f with dispatcher := .running }
    (fun _ => hstarted) (some { call with phase := .returning o id })
      (by rintro _ ⟨⟩; exact .inl ⟨rfl, hkey, by rintro ⟨⟩, fun _ => hstarted⟩) fun G => ?_
  refine ⟨fun t' ht => (hfan.handles t' ht).moved G fun _ _ => ⟨_, setCall_calls_self _, hkey, rfl, rfl⟩, hfan.byDriver,
    fun _ => hstarted,
    fun _ _ => by simp [holdsFanout], fun hl => hfan.consumed (G.live hl), fun hl id' hid => ?_, hfan.nodup, hfan.ids⟩
  refine (hfan.consumer (G.live hl) id' hid).imp_right
    (Or.imp_right (Exists.imp fun t' ht' => ht'.moved G fun _ hatt => ?_))
  rw [hphase] at hatt
  exact ⟨_, setCall_calls_self _, hkey, rfl, hatt⟩

/-- The receiver is returned. -/
theorem inv_receive (h : s.Inv) (hcall : s.calls t = some call) {id : ℕ} (hphase : call.phase = .returning o id)
    (ho : s.openings o = some op) (hf : op.fanout = some f) :
    ((s.setOpening o { op with fanout := some { f with
      receivers := id :: f.receivers
      handles := f.handles.filter fun t' => decide (t' ≠ t) } }).setCall t none).InvWith (· ≠ o) := by
  have hfan := (h.openings o op ho).fanout f hf
  refine inv_withFanout h hcall (by rw [hphase]; rfl) ho hf (by rw [hphase]; rfl) (by rw [hphase]; rfl)
    { f with receivers := id :: f.receivers, handles := f.handles.filter fun t' => decide (t' ≠ t) }
      (fun hp => hp) none nofun fun G => ?_
  refine ⟨fun t' ht => ?_, hfan.byDriver, hfan.dispatcher, fun hne => absurd rfl hne,
    fun hl => hfan.consumed (G.live hl), fun hl id' hid => ?_,
    hfan.nodup, hfan.ids⟩
  · obtain ⟨hin, hne⟩ := List.mem_filter.mp ht
    exact (hfan.handles t' hin).moved G fun heq => absurd heq (of_decide_eq_true hne)
  · rcases hfan.consumer (G.live hl) id' hid with hin | hin | ⟨t', ht'⟩
    · exact .inl (List.mem_cons_of_mem _ hin)
    · exact .inr (.inl hin)
    · by_cases heq : t' = t
      · have hatt := (heq ▸ ht').now hcall
        rw [hphase] at hatt
        exact .inl (Option.some.inj hatt ▸ List.mem_cons_self)
      · exact .inr (.inr ⟨t', ht'.moved G fun h => absurd h heq⟩)

end

/-- The entry of a corpse is removed. -/
theorem inv_evict [DecidableEq κ] (h : s.Inv) (hcall : s.calls t = some call) (hphase : call.phase = .evicting o)
    {o' : ℕ} (he : s.registry call.key = some (.Live o')) (hcorpse : s.upgrades o' = false ∨ o' = o) :
    ((s.goesOn t call (.retrying o)).setEntry call.key none).Inv := by
  have habout : call.phase.opening? = some o := by rw [hphase]; rfl
  have hatt : call.phase.attached? = none := by rw [hphase]; rfl
  obtain ⟨op, ho, hkey, hev, -⟩ := h.calls t call o hcall habout
  have hop := h.openings o op ho
  have hc : s.cancelled op = true := hev hphase
  have hothers : ∀ o₁ op₁, o₁ ≠ o → s.openings o₁ = some op₁ → op₁.key = op.key → s.cancelled op₁ = true ∨
      op₁.outcome = some .Failed := by
    intro o₁ op₁ hne ho₁ hk
    rcases hcorpse with hup | rfl
    · exact dead_of_entry h he (.inr ⟨rfl, hup⟩) o₁ op₁ ho₁ (hk.trans hkey)
    · exact h.settled he hne ho₁ (hk.trans hkey)
  have T := (touched_setEntry s o op op rfl id id none (.inl rfl) hothers).setCall rfl hcall (.inl habout)
    (some { call with phase := .retrying o }) (by rintro _ ⟨⟩; exact .inl ⟨rfl, hkey.symm, nofun, nofun⟩)
  rw [setOpening_self ho, hkey] at T
  refine T.inv h (fun _ _ _ => trivial) ho ?_
  have hdead : ∀ {q : Prop}, ((s.setEntry call.key none).setCall t
      (some { call with phase := .retrying o })).cancelled op = false → q :=
    fun hl => absurd (hc.symm.trans hl) Bool.noConfusion
  have G : Going s ((s.setEntry call.key none).setCall t (some { call with phase := .retrying o })) t call op op :=
    ⟨hcall, fun _ hne => setCall_calls_of_ne _ hne, id, rfl, id, rfl, rfl, fun hl => hdead hl⟩
  have hself : ((s.setEntry call.key none).setCall t (some { call with phase := .retrying o })).calls t =
      some { call with phase := .retrying o } :=
    setCall_calls_self _
  refine G.opening hop (fun t' ht => (hop.waiters t' ht).moved G fun _ hg => ?_)
    (fun t' ht => (hop.handles t' ht).moved G fun _ hg => ?_)
    hdead Iff.rfl fun f hf => ?_
  · rw [hphase] at hg
    cases hg
  · rw [hphase] at hg
    cases hg
  · exact G.fanout (hop.fanout f hf) hatt f.handles
      (fun t' ht => ((hop.fanout f hf).handles t' ht).moved G fun _ _ => ⟨_, hself, hkey.symm, rfl, rfl⟩) fun _ => hdead

omit [DecidableEq θ] in
theorem InvWith.key_eq (h : s.InvWith P) (hcall : s.calls t = some call) (habout : call.phase.opening? = some o)
    (ho : s.openings o = some op) : call.key = op.key := by
  obtain ⟨op₁, ho₁, hkey, -⟩ := h.calls t call o hcall habout
  cases ho.symm.trans ho₁
  exact hkey.symm

/-- The call lets go of its opening. -/
theorem inv_dropOpening (h : s.Inv) (hcall : s.calls t = some call) {ready : Bool}
    (hphase : call.phase = .released o ready) (ho : s.openings o = some op) :
    ((if ready then
        (s.setOpening o { op with handles := op.handles.filter fun t' => decide (t' ≠ t) }).goesOn t call
          (.attaching o)
      else
        (s.setOpening o { op with handles := op.handles.filter fun t' => decide (t' ≠ t) }).setCall t none).sweep
      o).Inv := by
  have hop := h.openings o op ho
  have habout : call.phase.opening? = some o := by rw [hphase]; rfl
  have hkey : call.key = op.key := h.key_eq hcall habout ho
  have hmid := inv_hands (P := (· ≠ o)) h ho hcall (.inl habout) (by rw [hphase]; rfl) op.waiters
      (op.handles.filter fun t' => decide (t' ≠ t))
    op.minCadence id (if ready then some { call with phase := .attaching o } else none)
    (fun call' hcall' => ?_) (kept_or fun ht => ?_) (fun t' ht => .inr ?_)
      (fun f hf => kept_or fun ht => ?_) (fun _ _ => id)
    fun _ _ hne => absurd rfl hne
  · have hsame : (op.fanout.map fun f => { f with handles := id f.handles }) = op.fanout := map_id' ..
    rw [hsame] at hmid
    refine InvWith.sweep ?_
    cases ready <;> exact hmid
  · cases ready <;> cases hcall'
    exact ⟨rfl, nofun, .inl ⟨rfl, hkey⟩⟩
  · have hguards := (hop.waiters t ht).now hcall
    rw [hphase] at hguards
    cases hguards
  · obtain ⟨hin, hne⟩ := List.mem_filter.mp ht
    exact ⟨of_decide_eq_true hne, hin⟩
  · have hholds := ((hop.fanout f hf).handles t ht).now hcall
    rw [hphase] at hholds
    cases ready with
    | true => exact ⟨_, rfl, hkey, rfl, rfl⟩
    | false => cases hholds

/-- The call lets go of a corpse. -/
theorem inv_retry (h : s.Inv) (hcall : s.calls t = some call) (hphase : call.phase = .retrying o)
    (ho : s.openings o = some op) (hf : op.fanout = some f) :
    (((s.setOpening o { op with fanout := some { f with handles := f.handles.filter fun t' => decide (t' ≠ t) }
      }).goesOn t call .looking).sweep
      o).Inv := by
  refine InvWith.sweep (inv_withFanout h hcall (by rw [hphase]; rfl) ho hf (by rw [hphase]; rfl) (by rw [hphase]; rfl)
    { f with handles := f.handles.filter fun t' => decide (t' ≠ t) } (fun hp => hp)
      (some { call with phase := .looking })
    (by rintro _ ⟨⟩; exact .inr rfl) fun G => ?_)
  refine G.fanout ((h.openings o op ho).fanout f hf) (by rw [hphase]; rfl) _ (fun t' ht => ?_) fun hne => absurd rfl hne
  obtain ⟨hin, hne⟩ := List.mem_filter.mp ht
  exact (((h.openings o op ho).fanout f hf).handles t' hin).moved G fun heq => absurd heq (of_decide_eq_true hne)

theorem inv_stepCall [DecidableEq κ] (h : s.Inv) (hcall : s.calls t = some call) {l : Label κ θ}
    (hl : s.stepCall t call call.phase l = some s') : s'.Inv := by
  unfold stepCall at hl
  split at hl
  next hphase => exact inv_look h hcall hphase hl
  next o _ hphase =>
    have habout : call.phase.opening? = some o := by rw [hphase]; rfl
    have hatt : call.phase.attached? = none := by rw [hphase]; rfl
    obtain ⟨op, ho, hl⟩ := bind_eq_some_iff.mp hl
    split at hl
    next hout =>
      obtain ⟨op₁, ho₁, hl⟩ := bind_eq_some_iff.mp hl
      cases ho.symm.trans ho₁
      obtain ⟨f, hf, hl⟩ := bind_eq_some_iff.mp hl
      cases hl
      have hkey : call.key = op.key := by
        obtain ⟨op₁, ho₁, hkey, -⟩ := h.calls t call o hcall habout
        cases ho.symm.trans ho₁
        exact hkey.symm
      exact inv_takes h hcall (.inl habout) hatt ho hf hkey (.leaving o true) rfl rfl nofun (fun _ => rfl)
        (fun _ => rfl) rfl
    next hout =>
      cases hl
      exact inv_goesOn h hcall habout hatt (.leaving o false) rfl rfl nofun (fun _ => rfl) (fun _ => rfl) fun hh => by
        rw [hphase] at hh; cases hh
    next hout =>
      cases hl
      exact inv_goesOn h hcall habout hatt (.parked o) rfl rfl nofun (fun _ => rfl) (fun _ => rfl) fun hh => by
        rw [hphase] at hh; cases hh
  next o _ hphase =>
    cases hl
    exact inv_goesOn h hcall (by rw [hphase]; rfl) (by rw [hphase]; rfl) (.leaving o false) rfl rfl nofun
      (fun _ => rfl) (fun _ => rfl)
      fun hh => by rw [hphase] at hh; cases hh
  next o _ hphase =>
    obtain ⟨op, ho, hl⟩ := bind_eq_some_iff.mp hl
    split_ifs at hl
    cases hl
    exact inv_goesOn h hcall (by rw [hphase]; rfl) (by rw [hphase]; rfl) (.waiting o) rfl rfl nofun
      (fun _ => rfl) (fun _ => rfl)
      fun hh => by rw [hphase] at hh; cases hh
  next o ready _ hphase =>
    obtain ⟨op, ho, hl⟩ := bind_eq_some_iff.mp hl
    cases hl
    exact inv_dropGuard h hcall hphase ho
  next o ready _ hphase =>
    obtain ⟨op, ho, hl⟩ := bind_eq_some_iff.mp hl
    cases hl
    exact inv_dropOpening h hcall hphase ho
  next o _ hphase =>
    obtain ⟨op, ho, hl⟩ := bind_eq_some_iff.mp hl
    obtain ⟨f, hf, hl⟩ := bind_eq_some_iff.mp hl
    cases hl
    exact inv_attach h hcall hphase ho hf (h.key_eq hcall (by rw [hphase]; rfl) ho)
  next o id _ hphase =>
    obtain ⟨op, ho, hl⟩ := bind_eq_some_iff.mp hl
    obtain ⟨f, hf, hl⟩ := bind_eq_some_iff.mp hl
    cases hl
    exact inv_spawn h hcall hphase ho hf (h.key_eq hcall (by rw [hphase]; rfl) ho)
  next o id _ hphase =>
    obtain ⟨op, ho, hl⟩ := bind_eq_some_iff.mp hl
    obtain ⟨f, hf, hl⟩ := bind_eq_some_iff.mp hl
    cases hl
    exact InvWith.sweep (inv_receive h hcall hphase ho hf)
  next o _ hphase =>
    have hretrying : (s.goesOn t call (.retrying o)).Inv :=
        inv_goesOn h hcall (by rw [hphase]; rfl) (by rw [hphase]; rfl) (.retrying o) rfl rfl
      nofun (fun hh => by rw [hphase] at hh; cases hh) (fun hh => by rw [hphase] at hh; cases hh) fun _ => rfl
    split at hl
    next o' he =>
      cases hl
      split_ifs with hcorpse
      · exact inv_evict h hcall hphase he (by simpa using hcorpse)
      · exact hretrying
    next =>
      cases hl
      exact hretrying
  next o _ hphase =>
    obtain ⟨op, ho, hl⟩ := bind_eq_some_iff.mp hl
    obtain ⟨f, hf, hl⟩ := bind_eq_some_iff.mp hl
    cases hl
    exact inv_retry h hcall hphase ho hf
  · cases hl

/-! ### Every step -/

omit [DecidableEq θ] in
/-- A call begins, or the owner shuts down. -/
theorem inv_owner (h : s.Inv) (hopenings : s'.openings = s.openings) (hnext : s'.next = s.next)
    (hcalls : ∀ t call o, call.phase.opening? = some o → (s'.calls t = some call ↔ s.calls t = some call))
    (hshut : s.shutdown = true → s'.shutdown = true) (hgone : s'.gone = true → s'.shutdown = true)
    (hreg : s'.registry = s.registry ∨ s.shutdown = true ∧ s'.registry = fun _ => none) : s'.Inv := by
  refine ⟨hgone, fun o hle => hopenings ▸ h.fresh o (hnext ▸ hle), fun t call o hcall hphase => ?_, fun key e he => ?_,
    fun o op ho => ?_⟩
  · obtain ⟨op, ho, hkey, hev, hatt⟩ := h.calls t call o ((hcalls t call o hphase).mp hcall) hphase
    exact ⟨op, hopenings ▸ ho, hkey, fun hp => cancelled_later hshut id (hev hp), hatt⟩
  · rcases hreg with hreg | ⟨-, hreg⟩
    · rw [hopenings]
      exact h.registry key e (hreg ▸ he)
    · rw [hreg] at he
      cases he
  · refine (h.openings o op (hopenings ▸ ho)).frame id
      (fun t call hcall hphase => (hcalls t call o hphase).mpr hcall) hshut ?_
    rcases hreg with hreg | ⟨hdown, -⟩
    · exact .inl (congrFun hreg _)
    · exact .inr (.inl (by simp [cancelled, hdown]))

theorem inv_step [DecidableEq κ] {l : Label κ θ} (h : s.Inv) (hl : s.step l = some s') : s'.Inv := by
  have hdown : ({ s with shutdown := true } : Coalescer κ θ).Inv :=
    inv_owner h rfl rfl (fun _ _ _ _ => Iff.rfl) (fun _ => rfl) (fun _ => rfl) (.inl rfl)
  unfold step at hl
  split at hl
  next t key cadence =>
    split_ifs at hl with hnew
    cases hl
    rw [Bool.and_eq_true, isNone_iff_eq_none] at hnew
    refine inv_owner h rfl rfl (fun t' call o hphase => ?_) id h.gone (.inl rfl)
    by_cases heq : t' = t
    · subst heq
      rw [setCall_calls_self, hnew.1]
      refine ⟨?_, nofun⟩
      rintro ⟨⟩
      cases hphase
    · rw [setCall_calls_of_ne _ heq]
  next =>
    cases hl
    exact hdown
  next =>
    cases hl
    exact inv_owner hdown rfl rfl (fun _ _ _ _ => Iff.rfl) (fun _ => rfl) (fun _ => rfl) (.inr ⟨rfl, rfl⟩)
  case h_15 o =>
    obtain ⟨op, ho, hl⟩ := bind_eq_some_iff.mp hl
    exact inv_publish h ho hl
  case h_4 | h_5 | h_6 | h_7 | h_8 | h_9 | h_10 | h_11 | h_12 | h_13 | h_14 =>
    obtain ⟨call, hcall, hl⟩ := bind_eq_some_iff.mp hl
    exact inv_stepCall h hcall hl
  case h_16 | h_17 | h_18 | h_19 | h_20 | h_21 =>
    obtain ⟨op, ho, hl⟩ := bind_eq_some_iff.mp hl
    exact inv_stepDriver h ho hl
  case h_22 | h_23 | h_24 | h_25 | h_26 | h_27 =>
    obtain ⟨op, ho, hl⟩ := bind_eq_some_iff.mp hl
    obtain ⟨f, hf, hl⟩ := bind_eq_some_iff.mp hl
    exact inv_stepDispatcher h ho hf hl
  case h_28 | h_29 | h_30 =>
    obtain ⟨op, ho, hl⟩ := bind_eq_some_iff.mp hl
    obtain ⟨f, hf, hl⟩ := bind_eq_some_iff.mp hl
    exact inv_stepReceiver h ho hf hl

omit [DecidableEq θ] in
theorem inv_new : (Coalescer.new : Coalescer κ θ).Inv := by
  refine ⟨fun h => ?_, fun _ _ => rfl, fun _ _ _ h => ?_, fun _ _ h => ?_, fun _ _ h => ?_⟩ <;> cases h

/-- An upstream that was opened for the key, and is not cancelled. -/
def Upstream (s : Coalescer κ θ) (key : κ) (o : ℕ) (op : Opening κ θ) : Prop :=
  s.openings o = some op ∧ op.key = key ∧ op.fanout ≠ none ∧ s.cancelled op = false

/-- No `subscribe` of the key is in progress. -/
def Quiet (s : Coalescer κ θ) (key : κ) : Prop := ∀ t call, s.calls t = some call → call.key ≠ key

/-- No receiver of the key exists, not even one that is being dropped. -/
def Deserted (s : Coalescer κ θ) (key : κ) : Prop :=
  ∀ o op f, s.openings o = some op → op.key = key → op.fanout = some f → f.receivers = [] ∧ f.dropping = [] ∧
    f.unregistered = []

theorem inv_of_coalesces [DecidableEq κ] {trace : List (Label κ θ)} (h : Coalesces trace s) : s.Inv :=
  h.stateInvariant (I := Coalescer.Inv) (fun s (hs : s = Coalescer.new) => hs ▸ inv_new) fun _ _ _ => inv_step

omit [DecidableEq θ] in
/-- The registry names the opening of an upstream. -/
theorem Upstream.named (h : s.Inv) (hup : s.Upstream key o op) : ∃ e, s.registry key = some e ∧ e.id = o := by
  obtain ⟨ho, rfl, hf, hc⟩ := hup
  have hop := h.openings o op ho
  rcases hout : op.outcome with _ | _ | _
  · exact ⟨_, (hop.opening hc hout).1, rfl⟩
  · exact ⟨_, hop.live hc hout, rfl⟩
  · exact absurd (hop.failed hc hout) hf

omit [DecidableEq θ] in
/-- Without calls and receivers, only the driver is left to hold it. -/
theorem Upstream.driver_of_quiet (h : s.Inv) (hquiet : s.Quiet key) (hdeserted : s.Deserted key)
    (hup : s.Upstream key o op) :
    op.driver = .published ∨ op.driver = .ending := by
  obtain ⟨ho, rfl, hf, hc⟩ := hup
  have hop := h.openings o op ho
  obtain ⟨f, hf⟩ := ne_none_iff_exists'.mp hf
  have hfan := hop.fanout f hf
  have hnobody : ∀ {t p}, ¬s.Of o op t p := fun ⟨call, hcall, hkey, _⟩ => hquiet _ call hcall hkey
  have hnil : ∀ {l : List θ}, (∀ t ∈ l, ∃ p, s.Of o op t p) → l = [] := fun hl =>
    List.eq_nil_iff_forall_not_mem.mpr fun t ht => hnobody (hl t ht).choose_spec
  obtain ⟨hreceivers, hdropping, hunregistered⟩ := hdeserted o op f ho rfl hf
  have hready : op.outcome = some .Ready := by
    rcases hout : op.outcome with _ | _ | _
    · exact absurd (hnil fun t ht => ⟨_, hop.waiters t ht⟩) (hop.opening hc hout).2
    · rfl
    · rw [hop.failed hc hout] at hf
      cases hf
  have hidle : f.dispatcher = .absent := by
    by_contra hne
    obtain ⟨id, hid⟩ := List.exists_mem_of_ne_nil _ (hfan.consumed hc (hfan.dispatcher hne))
    rcases hfan.consumer hc id hid with hin | hin | ⟨t, ht⟩
    · rw [hreceivers] at hin
      cases hin
    · rw [hdropping] at hin
      cases hin
    · exact hnobody ht
  have hdriver := hop.driver
  unfold DriverInv at hdriver
  rw [hready] at hdriver
  have hheld := hfan.held trivial hc
  have hby : f.byDriver = false := by
    rw [Bool.eq_false_iff]
    intro hby
    rcases hfan.byDriver hby with hd | hd <;> rw [hd] at hdriver <;> cases hdriver
  rw [holdsFanout, holdsOutcome, hnil fun t ht => ⟨_, hfan.handles t ht⟩, hnil fun t ht => ⟨_, hop.handles t ht⟩, hby,
    hidle, hdropping, hunregistered,
    hready, hop.live hc hready] at hheld
  have hgoing : op.driver ≠ .gone := by
    intro hd
    rw [hd] at hheld
    cases hheld
  clear hheld hfan hop
  split at hdriver
  next => cases hdriver.1
  next => cases hdriver.1
  next => cases hdriver.1
  next => cases hdriver
  next => cases hdriver
  next hd => exact .inl hd
  next hd => exact .inr hd
  next hd => exact absurd hd hgoing

end Coalescer

/-- Of the upstreams of a key one at most is not cancelled; with no call and no receiver left, only one that its driver
has just published. -/
theorem one_upstream [DecidableEq κ] [DecidableEq θ] {trace : List (Label κ θ)} {s : Coalescer κ θ}
    (h : Coalesces trace s) (key : κ) :
    (∀ o₁ op₁ o₂ op₂, s.Upstream key o₁ op₁ → s.Upstream key o₂ op₂ → o₁ = o₂) ∧
      (s.Quiet key → s.Deserted key → ∀ o op, s.Upstream key o op → op.driver = .published ∨ op.driver = .ending) := by
  have hinv := Coalescer.inv_of_coalesces h
  refine ⟨fun o₁ op₁ o₂ op₂ h₁ h₂ => ?_, fun hquiet hdeserted o op hup => hup.driver_of_quiet hinv hquiet hdeserted⟩
  obtain ⟨e₁, he₁, hid₁⟩ := h₁.named hinv
  obtain ⟨e₂, he₂, hid₂⟩ := h₂.named hinv
  rw [← hid₁, ← hid₂, Option.some.inj (he₁.symm.trans he₂)]

/-- A subscriber that leaves right after the publication. -/
def leavesEarly : List (Label Unit Unit) :=
  [.subscribe () () 0, .look (), .freeze 0, .openOk 0, .poll (), .publish 0, .leave (), .dropGuard (), .dropOpening ()]

/-- Nobody is left, and one upstream. -/
def Coalescer.leftOver (s : Coalescer Unit Unit) : Bool :=
  (s.calls ()).isNone && s.next == 1 && (s.openings 0).any fun op => !s.cancelled op &&
    op.fanout.any fun f => f.receivers.isEmpty && f.dropping.isEmpty && f.unregistered.isEmpty

private theorem leavesEarly_runs :
    ∃ s, Coalesces leavesEarly s ∧ s.Quiet () ∧ s.Deserted () ∧ ∃ op, s.Upstream () 0 op := by
  have hexec : (leavesEarly.foldlM Coalescer.step Coalescer.new).any Coalescer.leftOver = true := by decide +kernel
  obtain ⟨s, hs, htest⟩ : ∃ s, Coalesces leavesEarly s ∧ s.leftOver = true := by
    refine Run.of_any ?_ ?_ hexec
    · exact fun _ _ _ hl => hl
    · rfl
  unfold Coalescer.leftOver at htest
  rw [Bool.and_eq_true, Bool.and_eq_true, isNone_iff_eq_none, beq_iff_eq] at htest
  obtain ⟨⟨hcalls, hnext⟩, hopening⟩ := htest
  obtain ⟨op, ho, hop⟩ := (any_eq_true _ _).mp hopening
  rw [Bool.and_eq_true, Bool.not_eq_true'] at hop
  obtain ⟨f, hf, hempty⟩ := (any_eq_true _ _).mp hop.2
  refine ⟨s, hs, fun t call hcall => ?_, fun o op' f' ho' _ hf' => ?_, op, ho, rfl, by rw [hf]; exact nofun, hop.1⟩
  · rw [hcalls] at hcall
    cases hcall
  · have hzero : o = 0 := by
      by_contra hne
      rw [(Coalescer.inv_of_coalesces hs).fresh o (by omega)] at ho'
      cases ho'
    subst hzero
    cases ho.symm.trans ho'
    cases hf.symm.trans hf'
    simpa [and_assoc] using hempty

theorem one_upstream_early :
    ∃ s op, Coalesces leavesEarly s ∧ s.Upstream () 0 op ∧ (op.driver = .published ∨ op.driver = .ending) := by
  obtain ⟨s, hs, hquiet, hdeserted, op, hup⟩ := leavesEarly_runs
  exact ⟨s, op, hs, hup, (one_upstream hs ()).2 hquiet hdeserted 0 op hup⟩

/-- Nobody is left, and the driver still holds the outcome. -/
theorem upstream_of_driver : ∃ s op, Coalesces leavesEarly s ∧ s.Quiet () ∧ s.Deserted () ∧ s.Upstream () 0 op := by
  obtain ⟨s, hs, hquiet, hdeserted, op, hup⟩ := leavesEarly_runs
  exact ⟨s, op, hs, hquiet, hdeserted, hup⟩

end OvStorage.Watch
