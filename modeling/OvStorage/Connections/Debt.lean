import OvStorage.Connections.Rotation

/-!
# Persist-debt

One connection that stays registered, over a store whose writes may fail: no grant is given a
refresh token that an earlier grant has consumed, as long as the add does not begin to validate an
entry that another operation has left persist-debted.
-/

namespace OvStorage.Connections.Debt

open Interleave Contract ConnectionSet

/-- What the grants of the entry go by. -/
structure View where
  entry : ConnEntry
  /-- What is stored. -/
  head : Option SecretBundle
  tokens : Tokens

namespace View

variable (v : View)

/-- What a grant is given, by a caller who has the bundle. -/
def base (credentials : SecretBundle) : SecretBundle :=
  if v.entry.persistDebt then credentials else v.head.getD credentials

/-- A caller with the bundle will grant a fresh one. -/
def Offers (credentials : SecretBundle) : Prop := v.tokens.Fresh (v.base credentials)

/-- The one in memory will do. -/
def Ready : Prop := v.Offers v.entry.credentials

/-- A grant has a fresh bundle at hand, and the entry is at its generations. -/
def Granting (credGen identityGen : ℕ) (bundle : SecretBundle) : Prop :=
  v.tokens.Fresh bundle ∧ v.entry.credGen = credGen ∧ v.entry.identityGen = identityGen

/-- A fresh bundle is in memory. -/
def Memory (bundle : SecretBundle) : Prop := v.tokens.Fresh bundle ∧ v.entry.credentials = bundle

/-- A fresh bundle is where the next grant finds it. -/
def Done (bundle : SecretBundle) : Prop := v.tokens.Fresh bundle ∧ v.Ready

variable {v} {credentials head : SecretBundle}

theorem Offers.of_debt (hdebt : v.entry.persistDebt = true) (h : v.tokens.Fresh credentials) :
    v.Offers credentials := by
  simpa [Offers, base, hdebt] using h

theorem Offers.of_head (hdebt : v.entry.persistDebt = false) (hhead : v.head = some head) (h : v.tokens.Fresh head) :
    v.Offers credentials := by
  simpa [Offers, base, hdebt, hhead] using h

theorem Ready.fresh_memory (h : v.Ready) (hdebt : v.entry.persistDebt = true) : v.tokens.Fresh v.entry.credentials := by
  simpa [Ready, Offers, base, hdebt] using h

theorem Ready.fresh_head (h : v.Ready) (hdebt : v.entry.persistDebt = false) (hhead : v.head = some head) :
    v.tokens.Fresh head := by
  simpa [Ready, Offers, base, hdebt, hhead] using h

/-- A caller whose own bundle is fresh, or who will not come to use it. -/
theorem Ready.offers (h : v.Ready)
    (hown : v.entry.persistDebt = true ∨ v.head = none → v.tokens.Fresh credentials) : v.Offers credentials := by
  cases hdebt : v.entry.persistDebt with
  | true => exact Offers.of_debt hdebt (hown (.inl hdebt))
  | false =>
    cases hhead : v.head with
    | none => simpa [Offers, base, hdebt, hhead] using hown (.inr hhead)
    | some head => exact Offers.of_head hdebt hhead (h.fresh_head hdebt hhead)

theorem Ready.of_eq {v' : View} (h : v.Ready) (hdebt : v'.entry.persistDebt = v.entry.persistDebt)
    (hhead : v'.head = v.head) (htokens : v'.tokens = v.tokens) (hmemory : v'.entry.credentials = v.entry.credentials) :
    v'.Ready := by
  simpa only [Ready, Offers, base, hdebt, hhead, htokens, hmemory] using h

/-- A fresh bundle comes into memory. -/
theorem Done.swap {v' : View} (h : v.Done credentials) (hdebt : v'.entry.persistDebt = v.entry.persistDebt)
    (hhead : v'.head = v.head) (htokens : v'.tokens = v.tokens) (hmemory : v'.entry.credentials = credentials) :
    v'.Ready := by
  obtain ⟨hfresh, hready⟩ := h
  have hoffers := hready.offers fun _ => hfresh
  simpa only [Ready, Offers, base, hdebt, hhead, htokens, hmemory] using hoffers

end View

section Contract

variable {ι : Type} [DecidableEq ι]

/-- What the grants of the first entry go by. -/
def view (stable : ConnectionId) (s : ConnectionSet ι) : View := ⟨s.vault.heap 0, s.vault.secrets stable, s.past.tokens⟩

/-- Nobody is in the single-flight lock of the connection. -/
def Free (id : ConnectionId) (s : ConnectionSet ι) : Prop :=
  ∀ made, s.vault.bringupLocks.get id = some made → s.vault.held (.bringup made) = none

/-- Nothing is registered yet, and what is stored is fresh. -/
structure Blank (stable : ConnectionId) (s : ConnectionSet ι) : Prop where
  entries : ∀ id, s.vault.entries.get id = none
  next : s.vault.nextEntry = 0
  held : ∀ made, s.vault.held (.bringup made) = none
  head : HeadFresh stable s

/-- While nobody is in the single-flight lock, the next grant is given a fresh bundle. -/
structure Inv (id stable : ConnectionId) (s : ConnectionSet ι) : Prop where
  spent : s.past.tokens.Spent
  registry : Blank stable s ∨ Registered id stable s ∧ (Free id s → (view stable s).Ready)

/-- Who is in the single-flight lock keeps it, and nobody else changes what grants go by. -/
structure Rely (id stable : ConnectionId) (t : ι) (s s' : ConnectionSet ι) : Prop where
  locks : ∀ made, s.vault.bringupLocks.get id = some made → s'.vault.bringupLocks.get id = some made
  held : ∀ made, s'.vault.held (.bringup made) = some t ↔ s.vault.held (.bringup made) = some t
  next : s.vault.nextEntry = 1 → s'.vault.nextEntry = 1
  stored : (s.vault.secrets stable).isSome → (s'.vault.secrets stable).isSome
  validating : s'.past.validating t = s.past.validating t
  view : ∀ made, s.vault.bringupLocks.get id = some made → s.vault.held (.bringup made) = some t →
    view stable s' = view stable s

/-- The thread is in no single-flight lock. -/
def Outside (t : ι) (s : ConnectionSet ι) : Prop := ∀ made, s.vault.held (.bringup made) ≠ some t

/-- The connection is the only one, and stays registered. -/
def Stays (s : ConnectionSet ι) : Action → Bool
  | .insert _ _ _ => s.vault.nextEntry == 0
  | .change _ .rollback => false
  | _ => true

/-- An add with a refresh token begins to validate no persist-debted entry. -/
def Undebted (t : ι) (s : ConnectionSet ι) : Action → Bool
  | .lock (.bringup _) => !s.past.validating t || !(s.vault.heap 0).persistDebt
  | _ => true

def contract (C : Config) (id stable : ConnectionId) : Contract (Action.exec (ι := ι) C) where
  allowed t a r s := (Rotates s a r && Stays s a && Undebted t s a) = true
  inv := Inv id stable
  guar t _ s s' := ∀ t' ≠ t, Rely id stable t' s s'
  rely := Rely id stable
  quiet := Outside
  rely_refl _ _ := ⟨fun _ h => h, fun _ => Iff.rfl, fun h => h, fun h => h, rfl, fun _ _ _ => rfl⟩
  rely_trans h₁ h₂ := {
    locks := fun made h => h₂.locks made (h₁.locks made h)
    held := fun made => (h₂.held made).trans (h₁.held made)
    next := fun h => h₂.next (h₁.next h)
    stored := fun h => h₂.stored (h₁.stored h)
    validating := h₂.validating.trans h₁.validating
    view := fun made hmade hheld =>
      (h₂.view made (h₁.locks made hmade) ((h₁.held made).mpr hheld)).trans (h₁.view made hmade hheld) }
  rely_of_guar ht h := h _ ht
  quiet_of_rely h hs made hheld := hs made ((h.held made).mp hheld)

end Contract

section Steps

variable {ι : Type} [DecidableEq ι] {C : Config} {id stable : ConnectionId} {t : ι} {a : Action} {r : Answer a}
  {s s' : ConnectionSet ι} {made : ℕ} {P : View → Prop}

/-- The thread is in the single-flight lock, where it knows what grants go by. -/
structure Within (id stable : ConnectionId) (made : ℕ) (t : ι) (P : View → Prop) (s : ConnectionSet ι) : Prop where
  lock : s.vault.bringupLocks.get id = some made
  held : ∀ made', s.vault.held (.bringup made') = some t ↔ made' = made
  next : s.vault.nextEntry = 1
  seen : P (view stable s)

/-- The program keeps the contract, from within the single-flight lock on. -/
abbrev Staged (C : Config) (id stable : ConnectionId) (made : ℕ) (t : ι) (P : View → Prop) (p : Program) : Prop :=
  (contract C id stable).Valid t (Within id stable made t P) p

/-- The program keeps the contract, from between the calls on. -/
abbrev Idle (C : Config) (id stable : ConnectionId) (t : ι) (p : Program) : Prop :=
  (contract C id stable).Valid t (Outside t) p

omit [DecidableEq ι] in
theorem Within.mono {P' : View → Prop} (hs : Within id stable made t P s) (hP : ∀ v, P v → P' v) :
    Within id stable made t P' s :=
  { hs with seen := hP _ hs.seen }


/-- A bundle that an add has loaded, and is yet to validate. -/
def Claims (stable : ConnectionId) (t : ι) (credentials : SecretBundle) (s : ConnectionSet ι) : Prop :=
  credentials.oauth = none ∨ s.past.validating t = true ∧ (s.vault.secrets stable).isSome = true

/-- The connection is registered, and the thread is in no single-flight lock. -/
structure Known (stable : ConnectionId) (t : ι) (credentials : SecretBundle) (s : ConnectionSet ι) : Prop where
  outside : Outside t s
  next : s.vault.nextEntry = 1
  claims : Claims stable t credentials s

/-- The thread knows the single-flight lock too. -/
structure Named (id stable : ConnectionId) (made : ℕ) (t : ι) (credentials : SecretBundle) (s : ConnectionSet ι) :
    Prop extends
    Known stable t credentials s where
  lock : s.vault.bringupLocks.get id = some made

theorem stable_outside : (contract C id stable).Stable t (Outside t) := (contract C id stable).quiet_of_rely

variable {credentials : SecretBundle}

omit [DecidableEq ι] in
theorem Rely.claims (h : Rely id stable t s s') (hs : Claims stable t credentials s) :
    Claims stable t credentials s' := by
  rcases hs with hnone | ⟨hvalidating, hstored⟩
  · exact .inl hnone
  · exact .inr ⟨h.validating.trans hvalidating, h.stored hstored⟩

theorem stable_known : (contract C id stable).Stable t (Known stable t credentials) := fun hrely hs =>
  ⟨stable_outside hrely hs.outside, hrely.next hs.next, hrely.claims hs.claims⟩

theorem stable_named : (contract C id stable).Stable t (Named id stable made t credentials) :=
  fun hrely hs => ⟨stable_known hrely hs.toKnown, hrely.locks made hs.lock⟩

theorem stable_within : (contract C id stable).Stable t (Within id stable made t P) := by
  intro s s' hrely hs
  refine ⟨hrely.locks made hs.lock, fun made' => (hrely.held made').trans (hs.held made'), hrely.next hs.next, ?_⟩
  rw [hrely.view made hs.lock ((hs.held made).mpr rfl)]
  exact hs.seen

/-- What the actions aside from registry, entries and single-flight locks keep. -/
theorem calm_of_aside (ha : a.aside = true) : (contract (ι := ι) C id stable).Calm a := by
  intro t r s s' h hs
  have haside := a.exec_aside h ha
  have hview : view stable s' = view stable s := by
    simp only [view, haside.heap, haside.secrets, haside.tokens]
  have hrely : ∀ t', Rely id stable t' s s' := fun t' => {
    locks := fun made => by rw [haside.bringupLocks]; exact fun hlock => hlock
    held := fun made => by rw [haside.held]
    next := fun hnext => haside.nextEntry.trans hnext
    stored := fun hstored => by rw [haside.secrets]; exact hstored
    validating := by rw [haside.validating]
    view := fun _ _ _ => hview }
  refine ⟨⟨haside.tokens ▸ hs.spent, ?_⟩, fun t' _ => hrely t', hrely t⟩
  rcases hs.registry with hblank | ⟨hreg, hready⟩
  · refine .inl ⟨fun id => by rw [haside.entries]; exact hblank.entries id, haside.nextEntry.trans hblank.next,
      fun made => by rw [haside.held]; exact hblank.held made, ?_⟩
    intro head hhead
    rw [haside.secrets] at hhead
    exact haside.tokens ▸ hblank.head head hhead
  · refine .inr ⟨⟨fun id' e => by rw [haside.entries]; exact hreg.entries id' e, haside.nextEntry.trans hreg.next,
      by rw [haside.heap]; exact hreg.id, by rw [haside.heap]; exact hreg.stableId⟩, fun hfree => ?_⟩
    rw [hview]
    exact hready fun made hlock => (haside.held made).symm.trans (hfree made (by rw [haside.bringupLocks]; exact hlock))

theorem silent : Silent (contract (ι := ι) C id stable) where
  asks _ _ := calm_of_aside rfl
  tells _ _ := calm_of_aside rfl
  entries _ := calm_of_aside rfl
  wakes _ := calm_of_aside rfl
  loads _ := calm_of_aside rfl
  locks _ := calm_of_aside rfl
  unlocks _ := calm_of_aside rfl

omit [DecidableEq ι] in
/-- Once the entry is registered, it stays so. -/
theorem Inv.registered (hs : Inv id stable s) (hnext : s.vault.nextEntry = 1) : Registered id stable s := by
  rcases hs.registry with hblank | ⟨hreg, -⟩
  · exact absurd (hblank.next.symm.trans hnext) Nat.zero_ne_one
  · exact hreg

/-- A change by the thread in the single-flight lock. -/
theorem Within.change {made' : Change} {r : made'.Answer} (hs : Within id stable made t P s) (hinv : Inv id stable s)
    (h : (Action.change 0 made').exec C t r s = some s') (hrollback : made' ≠ .rollback)
    (hdelete : ∀ other, made' ≠ .delete other) (hspent : s'.past.tokens.Spent) :
    Inv id stable s' ∧ (∀ t' ≠ t, Rely id stable t' s s') ∧
    Within id stable made t (fun v => v = view stable s') s' := by
  have hreg := hinv.registered hs.next
  have hleaves := Change.exec_leaves h
  have hentries := hleaves.entries hrollback
  have hheld := hleaves.held
  have hmine : s.vault.held (.bringup made) = some t := (hs.held made).mpr rfl
  refine ⟨⟨hspent, .inr ⟨⟨fun id' e => by rw [hentries]; exact hreg.entries id' e, hleaves.nextEntry.trans hreg.next,
    (hleaves.id 0).trans hreg.id, (hleaves.stableId 0).trans hreg.stableId⟩, fun hfree => ?_⟩⟩, fun t' ht => ?_,
    ⟨by rw [hleaves.bringupLocks]; exact hs.lock, fun made'' => by rw [hheld]; exact hs.held made'',
      hleaves.nextEntry.trans hs.next, rfl⟩⟩
  · have hnone := hfree made (by rw [hleaves.bringupLocks]; exact hs.lock)
    rw [hheld, hmine] at hnone
    cases hnone
  · refine ⟨fun made'' hlock => by rw [hleaves.bringupLocks]; exact hlock, fun made'' => by rw [hheld],
      fun _ => hleaves.nextEntry.trans hs.next, ?_, by rw [hleaves.validating], fun made'' hlock hheld' => ?_⟩
    · exact hleaves.stored hdelete _
    · obtain rfl : made'' = made := Option.some.inj (hlock.symm.trans hs.lock)
      exact absurd (Option.some.inj (hheld'.symm.trans hmine)) ht

end Steps

section Programs

variable {ι : Type} [DecidableEq ι] {C : Config} {id stable : ConnectionId} {t : ι} {made : ℕ} {P : View → Prop}
  {credentials base : SecretBundle} {credGen identityGen : ℕ}

/-- A change by the thread in the single-flight lock, with what it knows after it. -/
theorem valid_change {made' : Change} {k : made'.Answer → Program} {Q : made'.Answer → View → Prop}
    (hrollback : made' ≠ .rollback) (hdelete : ∀ other, made' ≠ .delete other)
    (h : ∀ s r s', P (view stable s) → Inv id stable s → Registered id stable s → Rotates s (.change 0 made') r = true →
      (Action.change 0 made').exec C t r s = some s' → s'.past.tokens.Spent ∧ Q r (view stable s'))
    (hk : ∀ r, Staged C id stable made t (Q r) (k r)) :
    Staged C id stable made t P (change 0 made' k) := by
  refine Valid.act (Q := fun r => Within id stable made t (Q r)) stable_within ?_ hk
  intro s r s' hs hinv hallowed hexec
  have hrotates := (Bool.and_eq_true_iff.mp (Bool.and_eq_true_iff.mp hallowed).1).1
  obtain ⟨hspent, hQ⟩ := h s r s' hs.seen hinv (hinv.registered hs.next) hrotates hexec
  obtain ⟨hinv', hguar, hwithin⟩ := hs.change hinv hexec hrollback hdelete hspent
  exact ⟨hinv', hguar, hwithin.mono fun v hv => hv ▸ hQ⟩

theorem valid_look {k : ConnEntry × ConnectionAuthState → Program}
    (hk : ∀ r, r.1.stableId = some stable → Staged C id stable made t (fun v => P v ∧ v.entry = r.1) (k r)) :
    Staged C id stable made t P (ask 0 .state k) := by
  refine Valid.act (Q := fun r s => r.1.stableId = some stable ∧
    Within id stable made t (fun v => P v ∧ v.entry = r.1) s)
    stable_within ?_ fun r s hs => hk r hs.1 s hs.2
  intro s r s' hs hinv _ h
  obtain ⟨hinv', hguar, -⟩ := silent.asks 0 .state h hinv
  obtain ⟨rfl, rfl⟩ := Action.exec_state.mp h
  exact ⟨hinv', hguar, (hinv.registered hs.next).stableId, { hs with seen := ⟨hs.seen, rfl⟩ }⟩

/-- The connection is found to be registered. -/
theorem valid_registered {k : Bool → Program} (hk : Staged C id stable made t P (k true)) :
    Staged C id stable made t P (ask 0 .isRegistered k) := by
  refine Valid.answered (Q := Within id stable made t P) stable_within ?_ hk
  intro s r s' hs hinv _ h
  obtain ⟨hinv', hguar, -⟩ := silent.asks 0 .isRegistered h hinv
  obtain ⟨hanswer, rfl⟩ := Action.exec_ask.mp h
  exact ⟨hinv', hguar, (beq_iff_eq.mp hanswer).trans (hinv.registered hs.next).isRegistered, hs⟩

theorem valid_persistAttempts {k : Program} (hk : Staged C id stable made t (View.Done · credentials) k) (n : ℕ) :
    Staged C id stable made t (View.Memory · credentials) (persistAttempts 0 credentials k n) := by
  induction n with
  | zero =>
    refine valid_change (Q := fun _ v => v.Done credentials) (by simp) (by simp) ?_ fun _ => hk
    rintro s ⟨⟩ s' ⟨hfresh, hmemory⟩ hinv - - h
    cases h
    refine ⟨hinv.spent, hfresh, View.Offers.of_debt (by simp [view, owing, Vault.modify]) ?_⟩
    simpa [view, owing, Vault.modify, show (s.vault.heap 0).credentials = credentials from hmemory] using hfresh
  | succ n ih =>
    refine valid_change (Q := fun written v => v.Memory credentials ∧ (written = true → v.head = some credentials))
      (by simp) (by simp) ?_ fun written => ?_
    · intro s written s' hmemory hinv hreg _ h
      cases written with
      | false =>
        cases h
        exact ⟨hinv.spent, hmemory, fun h => by cases h⟩
      | true =>
        cases h
        exact ⟨hinv.spent, hmemory, fun _ => by simp [view, owing, stores, Vault.store, hreg.stableId]⟩
    · cases written with
      | false => exact ih.weaken fun s hs => hs.mono fun v hv => hv.1
      | true =>
        refine valid_change (Q := fun _ v => v.Done credentials) (by simp) (by simp) ?_ fun _ => hk
        rintro s ⟨⟩ s' ⟨⟨hfresh, -⟩, hhead⟩ hinv - - h
        cases h
        exact ⟨hinv.spent, hfresh, View.Offers.of_head (by simp [view, owing, Vault.modify]) (hhead rfl) hfresh⟩

/-- The purge after a persist finds the connection registered, and deletes nothing. -/
theorem valid_purge {k : Bool → Program} (hk : Staged C id stable made t P (k true)) :
    Staged C id stable made t P (purgeDurableCredential 0 0 (some stable) .unregistered k) := by
  have hdone : Staged C id stable made t P (unlockPurge (some stable) (k true)) :=
    silent.valid_unlockPurge stable_within hk
  have horphaned : Staged C id stable made t P
      (ask 0 .isRegistered fun registered => if !registered then change 0 (.delete 0) fun purged =>
        unlockPurge (some stable) (k purged)
        else unlockPurge (some stable) (k true)) := valid_registered hdone
  unfold purgeDurableCredential
  refine silent.valid_lockPurge stable_within (silent.valid_ask stable_within fun shared => ?_)
  split_ifs
  · exact hdone
  · exact horphaned

theorem valid_commitAndPersist {k : Bool → Program}
    (hk : Staged C id stable made t (View.Done · credentials) (k true)) :
    Staged C id stable made t (View.Granting · credGen identityGen credentials)
      (Grant.commitAndPersist ⟨0, some stable, credGen, identityGen⟩ credentials k) := by
  refine valid_change (Q := fun superseded v => superseded = false ∧ v.Memory credentials) (by simp)
    (by simp) ?_ fun superseded => ?_
  · rintro s superseded s' ⟨hfresh, hgens⟩ hinv - - h
    rcases Action.exec_commitGrant h with ⟨rfl, hmoved, -⟩ | ⟨rfl, -, rfl⟩
    · exact absurd hgens hmoved
    · exact ⟨hinv.spent, rfl, hfresh, by simp [view, owing, Vault.modify]⟩
  · cases superseded with
    | true => exact Valid.absurd fun _ hs => Bool.noConfusion hs.seen.1
    | false =>
      have hpurge : Staged C id stable made t (View.Done · credentials)
          (purgeDurableCredential 0 0 (some stable) .unregistered fun _ => k true) := valid_purge hk
      have hpersist : Staged C id stable made t (View.Memory · credentials)
          (ask 0 .isRegistered fun registered => if registered then persistWithDebtPolicy 0 credentials <|
            purgeDurableCredential 0 0 (some stable) .unregistered fun _ => k true else k false) :=
        valid_registered (valid_persistAttempts hpurge 3)
      exact hpersist.weaken fun _ hs => hs.mono fun _ hv => hv.2

variable {lineage : Lineage}

theorem valid_obtain {k : Except ErrorCode Obtained → Program}
    (hk : ∀ credentials, Staged C id stable made t (View.Done · credentials) (k (.ok (.Bearer credentials)))) :
    Staged C id stable made t (View.Granting · credGen identityGen base)
      (Grant.obtain ⟨0, some stable, credGen, identityGen⟩ lineage base k) := by
  refine valid_change (Q := fun r v => ∃ credentials, r = .ok (.Bearer credentials) ∧
    v.Granting credGen identityGen credentials)
    (by simp) (by simp) ?_ fun r => ?_
  · rintro s r s' ⟨hfresh, hgens⟩ hinv - hrotates h
    match r, hrotates with
    | .ok (.Bearer credentials), hrotates =>
      cases h
      exact ⟨hinv.spent.grant hfresh, credentials, rfl, hinv.spent.fresh_next hfresh (beq_iff_eq.mp hrotates), hgens⟩
  · match r with
    | .ok (.Bearer credentials) =>
      refine (valid_commitAndPersist (hk credentials)).weaken fun s hs => hs.mono ?_
      rintro v ⟨_, ⟨rfl⟩, hv⟩
      exact hv
    | .ok .Anonymous | .ok (.AwaitingInteractive _) | .ok .WouldConsume | .error _ =>
      refine Valid.absurd fun s hs => ?_
      obtain ⟨_, ⟨⟩, _⟩ := hs.seen

variable {k : Except ErrorCode SecretBundle → Program}

theorem valid_refresh
    (hk : ∀ refreshed, Staged C id stable made t (View.Granting · credGen identityGen refreshed)
      (k (.ok refreshed))) :
    Staged C id stable made t (View.Granting · credGen identityGen base) (change 0 (.refresh base) k) := by
  refine valid_change (Q := fun r v => ∃ refreshed, r = .ok refreshed ∧ v.Granting credGen identityGen refreshed)
    (by simp) (by simp) ?_ fun r => ?_
  · rintro s r s' ⟨hfresh, hgens⟩ hinv - hrotates h
    match r, hrotates with
    | .ok refreshed, hrotates =>
      cases h
      exact ⟨hinv.spent.grant hfresh, refreshed, rfl, hinv.spent.fresh_next hfresh (beq_iff_eq.mp hrotates), hgens⟩
  · match r with
    | .ok refreshed =>
      refine (hk refreshed).weaken fun s hs => hs.mono ?_
      rintro v ⟨_, ⟨rfl⟩, hv⟩
      exact hv
    | .error _ =>
      refine Valid.absurd fun s hs => ?_
      obtain ⟨_, ⟨⟩, _⟩ := hs.seen

/-- A reload answers the head. -/
theorem valid_load {k : Except ErrorCode (Option SecretBundle) → Program}
    (hk : ∀ head, Staged C id stable made t (fun v => P v ∧ v.head = head) (k (.ok head))) :
    Staged C id stable made t P (.act (.load (some stable)) k) := by
  refine Valid.act (Q := fun r s => ∃ head, r = .ok head ∧ Within id stable made t (fun v => P v ∧ v.head = head) s)
    stable_within ?_ fun r => ?_
  · intro s r s' hs hinv hallowed h
    have hrotates := (Bool.and_eq_true_iff.mp (Bool.and_eq_true_iff.mp hallowed).1).1
    obtain ⟨hinv', hguar, -⟩ := silent.loads (some stable) h hinv
    cases r with
    | error error => cases hrotates
    | ok head =>
      obtain ⟨hhead, rfl⟩ := Option.of_guard h
      exact ⟨hinv', hguar, head, rfl, { hs with seen := ⟨hs.seen, hhead.symm⟩ }⟩
  · cases r with
    | ok head =>
      refine (hk head).weaken ?_
      rintro s ⟨_, ⟨rfl⟩, hs⟩
      exact hs
    | error error =>
      refine Valid.absurd ?_
      rintro s ⟨_, ⟨⟩, _⟩

/-- Where there is no persist-debt, a reload comes to a fresh bundle. -/
theorem valid_reload
    (hP : ∀ v, P v → v.entry.persistDebt = false ∧ v.Offers credentials ∧ v.entry.credGen = credGen ∧
      v.entry.identityGen = identityGen)
    (hk : ∀ base, Staged C id stable made t (View.Granting · credGen identityGen base) (k (.ok base))) :
    Staged C id stable made t P (reload (some stable) credentials k) := by
  refine valid_load fun head => ?_
  cases head with
  | none =>
    refine (hk credentials).weaken fun s hs => hs.mono fun v hv => ?_
    obtain ⟨hdebt, hoffers, hgens⟩ := hP v hv.1
    exact ⟨by simpa [View.Offers, View.base, hdebt, hv.2] using hoffers, hgens⟩
  | some head =>
    refine (hk head).weaken fun s hs => hs.mono fun v hv => ?_
    obtain ⟨hdebt, hoffers, hgens⟩ := hP v hv.1
    exact ⟨by simpa [View.Offers, View.base, hdebt, hv.2] using hoffers, hgens⟩

/-- The actions that this is not about. -/
theorem valid_aside {a : Action} {k : Answer a → Program} (ha : a.aside = true)
    (hk : ∀ r, Staged C id stable made t P (k r)) :
    Staged C id stable made t P (.act a k) :=
  Valid.calm (calm_of_aside ha) stable_within hk

/-- What a grant begins with. -/
structure View.Begins (v : View) (credentials : SecretBundle) (credGen identityGen : ℕ) : Prop where
  ready : v.Ready
  offers : v.Offers credentials
  gens : v.entry.credGen = credGen ∧ v.entry.identityGen = identityGen

theorem valid_obtainAndPersist {k : Except ErrorCode Obtained → Program}
    (hfresh : lineage = .Fresh → credentials.oauth = none)
    (hk : ∀ credentials, Staged C id stable made t (View.Done · credentials) (k (.ok (.Bearer credentials)))) :
    Staged C id stable made t (View.Begins · credentials credGen identityGen)
      (Grant.obtainAndPersist ⟨0, some stable, credGen, identityGen⟩ credentials lineage k) := by
  cases lineage with
  | Fresh =>
    refine (valid_obtain hk).weaken fun s hs => hs.mono fun v hv => ?_
    exact ⟨Tokens.fresh_of_none (hfresh rfl), hv.gens⟩
  | Stored =>
    refine valid_look fun state _ => ?_
    cases hdebt : state.1.persistDebt with
    | true =>
      rw [if_pos rfl]
      refine (valid_obtain hk).weaken fun s hs => hs.mono ?_
      rintro v ⟨hv, hentry⟩
      refine ⟨?_, hv.gens⟩
      simpa [View.Offers, View.base, hentry, hdebt] using hv.offers
    | false =>
      rw [if_neg Bool.false_ne_true]
      refine valid_reload (fun v hv => ?_) fun base => valid_obtain hk
      exact ⟨hv.2 ▸ hdebt, hv.1.offers, hv.1.gens⟩

theorem valid_obtainLocked {k : Except ErrorCode Obtained → Program}
    (hfresh : lineage = .Fresh → credentials.oauth = none)
    (herror : ∀ error, Staged C id stable made t View.Ready (k (.error error)))
    (hk : ∀ credentials, Staged C id stable made t (View.Done · credentials) (k (.ok (.Bearer credentials)))) :
    Staged C id stable made t (View.Begins · credentials credGen identityGen)
      (Grant.obtainLocked ⟨0, some stable, credGen, identityGen⟩ C credentials lineage k) := by
  have hplain : Staged C id stable made t (View.Begins · credentials credGen identityGen)
      (Grant.obtainAndPersist ⟨0, some stable, credGen, identityGen⟩ credentials lineage k) :=
        valid_obtainAndPersist hfresh hk
  cases hlocked : C.locked with
  | false => simpa only [Grant.obtainLocked, hlocked] using hplain
  | true =>
    simp only [Grant.obtainLocked, hlocked]
    refine valid_aside rfl fun answer => ?_
    cases answer with
    | Failed error => exact (herror error).weaken fun s hs => hs.mono fun v hv => hv.ready
    | Skipped => exact hplain
    | Locked =>
      refine valid_obtainAndPersist hfresh fun credentials => valid_aside rfl fun r => ?_
      cases r with
      | some error => exact (herror error).weaken fun s hs => hs.mono fun v hv => hv.2
      | none => exact hk credentials

theorem valid_refreshBase
    (hk : ∀ base, Staged C id stable made t (View.Granting · credGen identityGen base) (k (.ok base))) :
    Staged C id stable made t (View.Begins · credentials credGen identityGen)
      (Grant.refreshBase ⟨0, some stable, credGen, identityGen⟩ credentials k) := by
  refine valid_look fun state _ => ?_
  cases hdebt : state.1.persistDebt with
  | true =>
    rw [if_pos rfl]
    refine (hk state.1.credentials).weaken fun s hs => hs.mono ?_
    rintro v ⟨hv, hentry⟩
    refine ⟨?_, hv.gens⟩
    have hmemory := hv.ready.fresh_memory (hentry ▸ hdebt)
    rwa [hentry] at hmemory
  | false =>
    rw [if_neg Bool.false_ne_true]
    refine valid_reload (fun v hv => ?_) hk
    exact ⟨hv.2 ▸ hdebt, hv.1.offers, hv.1.gens⟩

theorem valid_lockedRefresh {zeroWindow : Bool} {k : Option (Except ErrorCode (SecretBundle × Bool)) → Program}
    (hskipped : Staged C id stable made t (View.Begins · credentials credGen identityGen) (k none))
    (herror : ∀ error, Staged C id stable made t View.Ready (k (some (.error error))))
    (hk : ∀ refreshed, Staged C id stable made t (View.Done · refreshed) (k (some (.ok (refreshed, true))))) :
    Staged C id stable made t (View.Begins · credentials credGen identityGen)
      (Grant.lockedRefresh ⟨0, some stable, credGen, identityGen⟩ stable zeroWindow credentials k) := by
  refine valid_aside rfl fun answer => ?_
  cases answer with
  | Failed error => exact (herror error).weaken fun s hs => hs.mono fun v hv => hv.ready
  | Skipped => exact hskipped
  | Locked =>
    refine valid_refreshBase fun base => valid_refresh fun refreshed => ?_
    refine valid_commitAndPersist (valid_aside rfl fun r => ?_)
    cases r with
    | some error => exact (herror error).weaken fun s hs => hs.mono fun v hv => hv.2
    | none => exact hk refreshed

/-- A refresh leaves its bundle to be recorded, in memory and in the store already or not. -/
theorem valid_coalescedRefresh {k : Except ErrorCode (SecretBundle × Bool) → Program}
    (herror : ∀ error, Staged C id stable made t View.Ready (k (.error error)))
    (hk : ∀ refreshed, Staged C id stable made t (View.Done · refreshed) (k (.ok (refreshed, true))))
    (hunpersisted : ∀ refreshed,
      Staged C id stable made t (View.Granting · credGen identityGen refreshed) (k (.ok (refreshed, false)))) :
    Staged C id stable made t (View.Begins · credentials credGen identityGen)
      (Grant.coalescedRefresh ⟨0, some stable, credGen, identityGen⟩ C credentials k) := by
  have hplain : Staged C id stable made t (View.Begins · credentials credGen identityGen)
      (Grant.refreshFromHead ⟨0, some stable, credGen, identityGen⟩ credentials k) :=
    valid_refreshBase fun base => valid_refresh fun refreshed => hunpersisted refreshed
  cases hlocked : C.locked with
  | false => simpa only [Grant.coalescedRefresh, hlocked] using hplain
  | true =>
    simp only [Grant.coalescedRefresh, hlocked]
    exact valid_lockedRefresh (valid_lockedRefresh hplain herror hk) herror hk

/-! ### What becomes of a grant -/

theorem valid_commitAuthenticated {k : Program} (hk : Staged C id stable made t View.Ready k) :
    Staged C id stable made t (View.Done · credentials)
      (Grant.commitAuthenticated ⟨0, some stable, credGen, identityGen⟩ credentials lineage k) := by
  have hdone : Staged C id stable made t (View.Done · credentials) k :=
    hk.weaken fun s hs => hs.mono fun v hv => hv.2
  refine valid_aside rfl fun registered => ?_
  split_ifs
  · exact hdone
  refine valid_aside rfl fun state => ?_
  split_ifs
  · exact hdone
  refine valid_change (Q := fun _ v => v.Done credentials) (by simp) (by simp) ?_ fun activated => ?_
  · intro s activated s' hs hinv _ _ h
    rcases Action.exec_activate h with ⟨-, rfl⟩ | ⟨-, -, ⟨-, rfl⟩ | ⟨-, rfl⟩⟩
    · exact ⟨hinv.spent, hs⟩
    · exact ⟨hinv.spent, hs⟩
    · exact ⟨hinv.spent, hs.1, hs.2.of_eq (by simp [view, Vault.modify]) rfl rfl (by simp [view, Vault.modify])⟩
  split_ifs
  · exact hdone
  refine valid_change (Q := fun _ => View.Ready) (by simp) (by simp) ?_ fun committed => ?_
  · intro s committed s' hs hinv _ _ h
    obtain ⟨-, rfl⟩ := Action.exec_commitAuthenticated h
    split_ifs
    · exact ⟨hinv.spent, hs.swap (by simp [view, swap, Vault.modify]) rfl rfl
        (by simp [view, swap, Vault.modify])⟩
    · exact ⟨hinv.spent, hs.2⟩
  split_ifs
  · exact silent.valid_runOnAuthenticated stable_within fun _ => hk
  · exact hk

theorem valid_applyGrant {effective : SecretBundle} {k : Option ErrorCode → Program}
    (hk : ∀ failure, Staged C id stable made t View.Ready (k failure)) :
    Staged C id stable made t (View.Done · effective)
      (Grant.applyGrant ⟨0, some stable, credGen, identityGen⟩ credentials (.Bearer effective) lineage k) := by
  refine valid_aside rfl fun failure => ?_
  cases failure with
  | none => exact valid_commitAuthenticated (hk none)
  | some error => exact (hk _).weaken fun s hs => hs.mono fun v hv => hv.2

/-- What `record_refreshed` does once its bundle is in memory and in the store. -/
theorem valid_established {k : Program} (hk : Staged C id stable made t P k) :
    Staged C id stable made t P
      (runOnAuthenticated 0 fun succeeded => if succeeded then tell 0 .emitUpdatedIfLive k else k) := by
  refine silent.valid_runOnAuthenticated stable_within fun succeeded => ?_
  split_ifs
  · exact silent.valid_tell stable_within hk
  · exact hk

/-- The refreshed bundle was committed and persisted within the cross-process lock. -/
theorem valid_recordRefreshed_persisted {k : Program} (hk : Staged C id stable made t View.Ready k) :
    Staged C id stable made t (View.Done · credentials)
      (Grant.recordRefreshed ⟨0, some stable, credGen, identityGen⟩ credentials true k) := by
  refine valid_registered ?_
  refine valid_change (Q := fun _ => View.Ready) (by simp) (by simp) ?_ fun committed => ?_
  · intro s committed s' hs hinv _ _ h
    obtain ⟨-, rfl⟩ := Action.exec_commitRefreshed h
    cases committed with
    | false => exact ⟨hinv.spent, hs.2⟩
    | true => exact ⟨hinv.spent, hs.swap (by simp [view, swap, Vault.modify]) rfl rfl
        (by simp [view, swap, Vault.modify])⟩
  cases committed with
  | false => exact hk
  | true => exact valid_established hk

/-- The refreshed bundle is committed here, where nothing can have superseded it, and persisted. -/
theorem valid_recordRefreshed {k : Program} (hk : Staged C id stable made t View.Ready k) :
    Staged C id stable made t (View.Granting · credGen identityGen credentials)
      (Grant.recordRefreshed ⟨0, some stable, credGen, identityGen⟩ credentials false k) := by
  refine valid_registered ?_
  refine valid_change (Q := fun committed v => committed = true ∧ v.Memory credentials) (by simp)
    (by simp) ?_ fun committed => ?_
  · intro s committed s' hs hinv _ _ h
    obtain ⟨rfl, rfl⟩ := Action.exec_commitRefreshed h
    have hcommitted :=
      decide_eq_true (show (s.vault.heap 0).credGen = credGen ∧ (s.vault.heap 0).identityGen = identityGen from hs.2)
    rw [hcommitted]
    exact ⟨hinv.spent, rfl, hs.1, by simp [view, owing, swap, Vault.modify]⟩
  cases committed with
  | false => exact Valid.absurd fun _ hs => Bool.noConfusion hs.seen.1
  | true =>
    have hestablished : Staged C id stable made t (View.Done · credentials)
        (ask 0 .isRegistered fun registered => if registered then
          runOnAuthenticated 0 fun succeeded => if succeeded then tell 0 .emitUpdatedIfLive k else k
        else purgeDurableCredential 0 0 (some stable) .unregistered fun _ => k) :=
      valid_registered ((valid_established hk).weaken fun s hs => hs.mono fun v hv => hv.2)
    exact (valid_persistAttempts hestablished 3).weaken fun s hs => hs.mono fun v hv => hv.2

theorem valid_obtainAndApply {k : Option ErrorCode → Program} (hfresh : lineage = .Fresh → credentials.oauth = none)
    (hk : ∀ failure, Staged C id stable made t View.Ready (k failure)) :
    Staged C id stable made t (fun v => v.Ready ∧ v.Offers credentials)
      (obtainAndApply C 0 credentials lineage k) := by
  refine valid_look fun first hstable => valid_look fun second _ => ?_
  rw [hstable]
  refine Valid.weaken (valid_obtainLocked hfresh (fun error => hk _) fun effective =>
    valid_applyGrant hk) fun s hs => hs.mono ?_
  rintro v ⟨⟨⟨hready, hoffers⟩, hfirst⟩, hsecond⟩
  exact ⟨hready, hoffers, hfirst ▸ rfl, hsecond ▸ rfl⟩

/-! ### The single-flight lock -/

theorem valid_ret : Idle C id stable t .ret := Valid.ret fun _ hs => hs

/-- The lock is given back with a fresh bundle for the next grant. -/
theorem valid_unlock {k : Program} (hk : Idle C id stable t k) :
    Staged C id stable made t View.Ready (unlock (.bringup made) k) := by
  refine Valid.act (Q := fun _ => Outside t) stable_within ?_ fun _ => hk
  intro s r s' hs hinv _ h
  have hreg := hinv.registered hs.next
  obtain ⟨hheld, rfl⟩ := Option.of_guard h
  refine ⟨⟨hinv.spent, .inr ⟨⟨hreg.entries, hreg.next, hreg.id, hreg.stableId⟩, fun _ => hs.seen⟩⟩, fun t' ht => ?_,
    fun made' hmade' => ?_⟩
  · have hfrees : ∀ made', (s.hold (.bringup made) none).vault.held (.bringup made') = some t' ↔
        s.vault.held (.bringup made') = some t' :=
      fun made' => Action.exec_held_of_ne (C := C) (a := .unlock (.bringup made)) (r := ()) (if_pos hheld) ht _
    exact ⟨fun _ h => h, hfrees, fun h => h, fun h => h, rfl, fun _ _ _ => rfl⟩
  · by_cases hmade : made' = made
    · simp [hold, hmade] at hmade'
    · have hother : s.vault.held (.bringup made') = some t := by
        simpa [hold, Function.update_of_ne (show Lock.bringup made' ≠ .bringup made by simpa using hmade)] using hmade'
      exact hmade ((hs.held made').mp hother)

/-- Who comes into the single-flight lock will grant a fresh bundle. -/
theorem valid_singleFlight {body : Lock → Program}
    (hbody : ∀ made, Staged C id stable made t (fun v => v.Ready ∧ v.Offers credentials) (body (.bringup made))) :
    (contract C id stable).Valid t (Known stable t credentials) (singleFlight id body) := by
  refine Valid.act (Q := fun made => Named id stable made t credentials) stable_known ?_ fun made => ?_
  · intro s made s' hs hinv _ h
    have hreg := hinv.registered hs.next
    simp only [Action.exec] at h
    split at h
    next known hlock =>
      split_ifs at h with hmade
      cases h
      exact ⟨hinv, fun t' _ => (contract C id stable).rely_refl t' s, hs, hmade ▸ hlock⟩
    next hnone =>
      split_ifs at h with hmade
      cases h
      have hlocks : ∀ made', s.vault.bringupLocks.get id = some made' →
          (s.vault.bringupLocks.insert id made).get id = some made' := by
        intro made' hmade'
        rw [hnone] at hmade'
        cases hmade'
      have hready : (view stable s).Ready := by
        rcases hinv.registry with hblank | ⟨-, hready⟩
        · exact absurd (hblank.next.symm.trans hs.next) Nat.zero_ne_one
        · exact hready fun made' hmade' => by rw [hnone] at hmade'; cases hmade'
      exact ⟨⟨hinv.spent, .inr ⟨⟨hreg.entries, hreg.next, hreg.id, hreg.stableId⟩, fun _ => hready⟩⟩,
        fun t' _ => ⟨hlocks, fun _ => Iff.rfl, fun h => h, fun h => h, rfl, fun _ _ _ => rfl⟩,
        ⟨⟨hs.outside, hs.next, hs.claims⟩, by simp⟩⟩
  · refine Valid.act (Q := fun _ => Within id stable made t fun v => v.Ready ∧ v.Offers credentials) stable_named ?_
      fun _ => hbody made
    intro s r s' hs hinv hallowed h
    have hreg := hinv.registered hs.next
    have hundebted : s.past.validating t = true → (s.vault.heap 0).persistDebt = false := by
      intro hvalidating
      simpa [Undebted, hvalidating] using (Bool.and_eq_true_iff.mp hallowed).2
    have hheld : ∀ t' ≠ t, ∀ made', s'.vault.held (.bringup made') = some t' ↔
        s.vault.held (.bringup made') = some t' :=
      fun t' ht made' => Action.exec_held_of_ne h ht _
    obtain ⟨hfree, rfl⟩ := Option.of_guard h
    have hready : (view stable s).Ready := by
      rcases hinv.registry with hblank | ⟨-, hready⟩
      · exact absurd (hblank.next.symm.trans hs.next) Nat.zero_ne_one
      · refine hready fun made' hmade' => ?_
        obtain rfl : made' = made := Option.some.inj (hmade'.symm.trans hs.lock)
        exact hfree
    refine ⟨⟨hinv.spent, .inr ⟨⟨hreg.entries, hreg.next, hreg.id, hreg.stableId⟩, fun hfree' => ?_⟩⟩, fun t' ht => ?_,
      ⟨hs.lock, fun made' => ?_, hs.next, hready, hready.offers ?_⟩⟩
    · have hnone := hfree' made hs.lock
      simp [hold] at hnone
    · exact ⟨fun _ h => h, hheld t' ht, fun h => h, fun h => h, Function.update_of_ne ht _ _, fun _ _ _ => rfl⟩
    · by_cases hmade : made' = made
      · simp [hold, hmade]
      · have hother : Lock.bringup made' ≠ .bringup made := by simpa using hmade
        simpa [hold, Function.update_of_ne hother, hmade] using hs.outside made'
    · intro hown
      rcases hs.claims with hnone | ⟨hvalidating, hstored⟩
      · exact Tokens.fresh_of_none hnone
      rcases hown with hdebt | hhead
      · exact absurd ((hundebted hvalidating).symm.trans hdebt) Bool.false_ne_true
      · rw [show s.vault.secrets stable = none from hhead] at hstored
        cases hstored

/-! ### The operations -/

theorem valid_outside {a : Action} {k : Answer a → Program} (ha : a.aside = true)
    (hk : ∀ r, Idle C id stable t (k r)) : Idle C id stable t (.act a k) :=
  Valid.calm (calm_of_aside ha) stable_outside hk

variable {id' : ConnectionId}

/-- The entry of the connection is found under its id only. -/
theorem valid_withEntry {k : EntryRef → Program}
    (hk : id' = id → (contract C id stable).Valid t (Known stable t ⟨none, []⟩) (k 0)) :
    Idle C id stable t (withEntry id' k) := by
  refine Valid.act (Q := fun r s => r.elim (Outside t s) fun e => id' = id ∧ e = 0 ∧ Known stable t ⟨none, []⟩ s)
    stable_outside ?_ fun r => ?_
  · intro s r s' hs hinv _ h
    obtain ⟨hinv', hguar, -⟩ := silent.entries id' h hinv
    obtain ⟨hr, rfl⟩ := Option.of_guard h
    refine ⟨hinv', hguar, ?_⟩
    cases r with
    | none => exact hs
    | some e =>
      rcases hinv.registry with hblank | ⟨hreg, -⟩
      · rw [hblank.entries id'] at hr
        cases hr
      · obtain ⟨hid, he⟩ := (hreg.entries id' e).mp hr.symm
        exact ⟨hid, he, hs, hreg.next, .inl rfl⟩
  · cases r with
    | none => exact valid_ret
    | some e =>
      rintro s ⟨hid, rfl, hs⟩
      exact hk hid s hs

variable {connection : Connection}

/-- The add registers its entry, with a bundle that it has loaded or one without a refresh token. -/
theorem valid_insert {k : EntryRef → Program} (hid : connection.id = id)
    (hk : (contract C id stable).Valid t (Known stable t credentials) (k 0)) :
    (contract C id stable).Valid t (fun s => Outside t s ∧ (credentials.oauth = none ∨ (s.vault.secrets stable).isSome))
      (.act (.insert connection (some stable) credentials) k) := by
  have hstable : (contract C id stable).Stable t fun s => Outside t s ∧
      (credentials.oauth = none ∨ (s.vault.secrets stable).isSome) :=
    fun hrely hs => ⟨stable_outside hrely hs.1, hs.2.imp_right hrely.stored⟩
  refine Valid.act (Q := fun e s => e = 0 ∧ Known stable t credentials s) hstable ?_ fun e => ?_
  · rintro s e s' ⟨hs, hcredentials⟩ hinv hallowed h
    have hfirst : s.vault.nextEntry = 0 :=
      beq_iff_eq.mp (Bool.and_eq_true_iff.mp (Bool.and_eq_true_iff.mp hallowed).1).2
    have hblank : Blank stable s := by
      rcases hinv.registry with hblank | ⟨hreg, -⟩
      · exact hblank
      · exact absurd (hreg.next.symm.trans hfirst) Nat.one_ne_zero
    obtain ⟨he, rfl⟩ := Option.of_guard h
    have hready : (view stable (s.register t connection (some stable) credentials)).Ready := by
      cases hhead : s.vault.secrets stable with
      | none =>
        have hnone : credentials.oauth = none := by simpa [hhead] using hcredentials
        simpa [View.Ready, View.Offers, View.base, view, register, hfirst, hhead] using Tokens.fresh_of_none hnone
      | some head =>
        exact View.Offers.of_head (by simp [view, register, hfirst]) hhead (hblank.head head hhead)
    have hentries : ∀ id' e, (s.vault.entries.insert connection.id s.vault.nextEntry).get id' = some e ↔
        id' = id ∧ e = 0 := by
      intro id' e
      by_cases hid' : id' = id
      · simp [hid, hid', hfirst, eq_comm]
      · simp [Table.get_insert_of_ne, hid, hid', hblank.entries id']
    refine ⟨⟨hinv.spent, .inr ⟨⟨hentries, ?_, ?_, ?_⟩, fun _ => hready⟩⟩, fun t' ht => ?_, he.trans hfirst,
      ⟨hs, ?_, ?_⟩⟩
    · simp [register, hfirst]
    · simp [register, hfirst, hid]
    · simp [register, hfirst]
    · refine ⟨fun _ h => h, fun _ => Iff.rfl, fun hnext => ?_, fun h => h, Function.update_of_ne ht _ _,
        fun made _ hheld => ?_⟩
      · exact absurd (hfirst.symm.trans hnext) Nat.zero_ne_one
      · rw [hblank.held made] at hheld
        cases hheld
    · simp [register, hfirst]
    · rcases hcredentials with hnone | hstored
      · exact .inl hnone
      · cases hoauth : credentials.oauth with
        | none => exact .inl hoauth
        | some token => exact .inr ⟨by simp [register, hoauth], hstored⟩
  · rintro s ⟨rfl, hs⟩
    exact hk s hs

/-- The connection stays: no add undoes itself. -/
theorem valid_rollback {k : Unit → Program} : Staged C id stable made t P (change 0 .rollback k) := by
  refine Valid.act (Q := fun _ _ => False) stable_within ?_ fun _ => Valid.absurd fun _ h => h
  intro s r s' _ _ hallowed _
  simp [contract, Stays] at hallowed

theorem valid_addConnectionDeferred {fields : List (String × String)} {k : EntryRef → Program}
    (hid : connection.id = id) (hk : ∀ e, Idle C id stable t (k e)) :
    Idle C id stable t (addConnectionDeferred C connection (some stable) ⟨none, fields⟩ k) := by
  have hregister : ∀ credentials lineage, (lineage = .Fresh → credentials.oauth = none) →
      (contract C id stable).Valid t
        (fun s => Outside t s ∧ (credentials.oauth = none ∨ (s.vault.secrets stable).isSome))
        (registration C connection (some stable) credentials lineage k) := by
    intro credentials lineage hfresh
    refine valid_insert hid ?_
    refine silent.valid_unlockPurge stable_known ?_
    rw [hid]
    refine valid_singleFlight fun made => ?_
    have hnone : Staged C id stable made t View.Ready (unlock (.bringup made) (k 0)) :=
      valid_unlock (hk 0)
    refine valid_obtainAndApply hfresh fun failure => ?_
    cases failure with
    | none => exact hnone
    | some error =>
      dsimp only
      split_ifs
      · exact valid_rollback
      all_goals exact valid_aside rfl fun _ => valid_aside rfl fun _ => hnone
  have hfresh : Idle C id stable t (registration C connection (some stable) ⟨none, fields⟩ .Fresh k) :=
    (hregister ⟨none, fields⟩ .Fresh fun _ => rfl).weaken fun s hs => ⟨hs, .inl rfl⟩
  unfold addConnectionDeferred
  refine silent.valid_lockPurge stable_outside ?_
  split_ifs
  · refine Valid.act (Q := fun r s => Outside t s ∧ ∀ head, r = .ok (some head) → (s.vault.secrets stable).isSome)
      stable_outside ?_ fun loaded => ?_
    · intro s r s' hs hinv _ h
      obtain ⟨hinv', hguar, -⟩ := silent.loads (some stable) h hinv
      refine ⟨hinv', hguar, ?_⟩
      cases r with
      | error error =>
        cases h
        exact ⟨hs, fun head hr => by cases hr⟩
      | ok loaded =>
        obtain ⟨hloaded, rfl⟩ := Option.of_guard h
        refine ⟨hs, ?_⟩
        rintro head ⟨⟩
        rw [show s.vault.secrets stable = some head from hloaded.symm]
        rfl
    · rcases loaded with error | _ | head
      · exact hfresh.weaken fun s hs => hs.1
      · exact hfresh.weaken fun s hs => hs.1
      · exact (hregister head .Stored fun h => by cases h).weaken fun s hs => ⟨hs.1, .inr (hs.2 head rfl)⟩
  · exact hfresh

theorem valid_bringUp {force : Bool} : Idle C id stable t (bringUp C id' force) := by
  refine valid_withEntry ?_
  rintro rfl
  have hret : (contract C id' stable).Valid t (Known stable t ⟨none, []⟩) .ret := Valid.ret fun _ hs => hs.outside
  refine silent.valid_bringUpEntry stable_known hret fun genBefore => valid_singleFlight fun made => ?_
  have hunlock : Staged C id' stable made t View.Ready (unlock (.bringup made) .ret) :=
    valid_unlock valid_ret
  have htail := silent.valid_bringUpTail (C := C) (e := 0) stable_within hunlock
  have hready : Staged C id' stable made t View.Ready (bringUpLocked C 0 (.bringup made) genBefore) := by
    refine valid_aside rfl fun again => ?_
    split_ifs
    · exact hunlock
    refine valid_aside rfl fun generation => ?_
    split_ifs
    · exact hunlock
    refine valid_look fun state hstable => ?_
    split_ifs with hdebt
    · refine (valid_obtainAndApply (fun h => by cases h) htail).weaken fun s hs => hs.mono ?_
      rintro v ⟨hready, hentry⟩
      exact ⟨hready, by rw [← hentry]; exact hready⟩
    rw [hstable]
    refine valid_load fun head => ?_
    cases head with
    | some head =>
      refine (valid_obtainAndApply (fun h => by cases h) htail).weaken fun s hs => hs.mono ?_
      rintro v ⟨⟨hready, hentry⟩, hhead⟩
      have hundebted : v.entry.persistDebt = false := by simpa [hentry] using hdebt
      exact ⟨hready, View.Offers.of_head hundebted hhead (hready.fresh_head hundebted hhead)⟩
    | none =>
      refine valid_look fun again _ => ?_
      refine (valid_obtainAndApply (fun h => by cases h) htail).weaken fun s hs => hs.mono ?_
      rintro v ⟨⟨⟨hready, -⟩, -⟩, hentry⟩
      exact ⟨hready, by rw [← hentry]; exact hready⟩
  exact hready.weaken fun s hs => hs.mono fun v hv => hv.1

theorem valid_retry : Idle C id stable t (retry id') :=
  valid_outside rfl fun _ => valid_outside rfl fun _ => valid_ret

theorem valid_recover : Idle C id stable t (recover C id') := by
  refine valid_outside rfl fun _ => valid_outside rfl fun failure => ?_
  cases failure with
  | none => exact valid_ret
  | some error =>
    refine valid_withEntry ?_
    rintro rfl
    have hret : (contract C id' stable).Valid t (Known stable t ⟨none, []⟩) .ret := Valid.ret fun _ hs => hs.outside
    split_ifs
    · exact hret
    refine Valid.calm (calm_of_aside rfl) stable_known fun genBefore => ?_
    refine silent.valid_ask stable_known fun refreshGenBefore => valid_singleFlight fun made => ?_
    have hunlock : ∀ {k}, Idle C id' stable t k →
        Staged C id' stable made t View.Ready (unlock (.bringup made) k) := valid_unlock
    have hlocked : Staged C id' stable made t View.Ready
        (recoverLocked C id' 0 (.bringup made) genBefore refreshGenBefore) := by
      refine valid_look fun now _ => ?_
      split_ifs with hmoved
      · exact (hunlock valid_retry).weaken fun s hs => hs.mono fun v hv => hv.1
      refine valid_aside rfl fun refreshGen => ?_
      split_ifs
      · exact (hunlock valid_ret).weaken fun s hs => hs.mono fun v hv => hv.1
      refine valid_look fun first hstable => valid_look fun second _ => ?_
      rw [hstable]
      refine Valid.imp (Within id' stable made t (View.Begins · first.1.credentials genBefore second.1.identityGen))
        (fun s hs => hs.mono ?_) ?_
      · rintro v ⟨⟨⟨hready, hnow⟩, hfirst⟩, hsecond⟩
        exact ⟨hready, by rw [← hfirst]; exact hready, by rw [hnow]; exact not_not.mp hmoved, by rw [hsecond]⟩
      refine valid_coalescedRefresh (fun error => valid_aside rfl fun _ => ?_)
        (fun refreshed => valid_aside rfl fun _ => valid_recordRefreshed_persisted (hunlock valid_retry))
        fun refreshed => valid_aside rfl fun _ => valid_recordRefreshed (hunlock valid_retry)
      dsimp only
      split_ifs
      · exact silent.valid_parkRefreshFailure stable_within (hunlock valid_ret)
      · exact hunlock valid_ret
    exact hlocked.weaken fun s hs => hs.mono fun v hv => hv.1

theorem valid_backgroundRefresh {e : EntryRef} : Idle C id stable t (backgroundRefresh C e) := by
  refine Valid.act (Q := fun _ s => e = 0 ∧ Known stable t ⟨none, []⟩ s) stable_outside ?_ fun _ => ?_
  · intro s r s' hs hinv _ h
    obtain ⟨hinv', hguar, -⟩ := silent.wakes e h hinv
    obtain ⟨he, rfl⟩ := Option.of_guard h
    rcases hinv.registry with hblank | ⟨hreg, -⟩
    · rw [hblank.next] at he
      exact absurd he (Nat.not_lt_zero _)
    · exact ⟨hinv', hguar, Nat.lt_one_iff.mp (hreg.next ▸ he), hs, hreg.next, .inl rfl⟩
  rintro s₀ ⟨rfl, hs₀⟩
  refine Valid.act (K := Known stable t ⟨none, []⟩)
    (Q := fun r s => r.1.id = id ∧ Known stable t ⟨none, []⟩ s) stable_known ?_
    (fun before => ?_) s₀ hs₀
  · intro s r s' hs hinv _ h
    obtain ⟨hinv', hguar, -⟩ := silent.asks 0 .state h hinv
    obtain ⟨rfl, rfl⟩ := Action.exec_state.mp h
    exact ⟨hinv', hguar, (hinv.registered hs.next).id, hs⟩
  rintro s₁ ⟨hid, hs₁⟩
  refine (?_ : (contract C id stable).Valid t (Known stable t ⟨none, []⟩) _) s₁ hs₁
  split_ifs
  · exact Valid.ret fun _ hs => hs.outside
  rw [hid]
  refine valid_singleFlight fun made => ?_
  have hunlock : ∀ {k}, Idle C id stable t k →
      Staged C id stable made t View.Ready (unlock (.bringup made) k) := valid_unlock
  refine valid_look fun now hstable => ?_
  split_ifs
  · exact (hunlock valid_ret).weaken fun s hs => hs.mono fun v hv => hv.1.1
  refine valid_look fun second _ => ?_
  rw [hstable]
  refine Valid.imp (Within id stable made t (View.Begins · now.1.credentials now.1.credGen second.1.identityGen))
    (fun s hs => hs.mono ?_) ?_
  · rintro v ⟨⟨⟨hready, -⟩, hnow⟩, hsecond⟩
    exact ⟨hready, by rw [← hnow]; exact hready, by rw [hnow], by rw [hsecond]⟩
  refine valid_coalescedRefresh (fun error => valid_aside rfl fun _ => hunlock ?_)
    (fun refreshed => valid_aside rfl fun _ => valid_recordRefreshed_persisted (hunlock valid_ret))
    fun refreshed => valid_aside rfl fun _ => valid_recordRefreshed (hunlock valid_ret)
  split_ifs
  · exact valid_ret
  · exact silent.valid_parkRefreshFailure stable_outside valid_ret

end Programs

/-! ### The runs -/

/-- What is done with one connection that stays. -/
inductive Operation
  /-- It continues from what is stored, or begins with a bundle that has no refresh token. -/
  | addConnection (fields : List (String × String))
  | addConnectionDeferred (fields : List (String × String))
  | announceConnection (id : ConnectionId)
  | bringUp (id : ConnectionId) (force : Bool)
  | withRecovery (id : ConnectionId)
  | backgroundRefresh (e : EntryRef)

def Operation.program (C : Config) (connection : Connection) (stable : ConnectionId) : Operation → Program
  | .addConnection fields => Connections.addConnection C connection (some stable) ⟨none, fields⟩
  | .addConnectionDeferred fields =>
    Connections.addConnectionDeferred C connection (some stable) ⟨none, fields⟩ fun _ => .ret
  | .announceConnection id => Connections.announceConnection id
  | .bringUp id force => Connections.bringUp C id force
  | .withRecovery id => recover C id
  | .backgroundRefresh e => Connections.backgroundRefresh C e

section Runs

variable {ι : Type} [DecidableEq ι]

/-- No operation is in progress, and nothing is registered. -/
structure Start (stable : ConnectionId) (s : Threads ι (ConnectionSet ι) Answer) : Prop where
  idle : ∀ t, s.progs t = .ret
  spent : s.shared.past.tokens.Spent
  blank : Blank stable s.shared

/-- The runs whose actions meet a condition. -/
def Runs (C : Config) (connection : Connection) (stable : ConnectionId)
    (Q : ι → (a : Action) → Answer a → ConnectionSet ι → Prop) :
    List (Event ι Operation Answer) → Threads ι (ConnectionSet ι) Answer → Prop :=
  Run (Start stable) fun s l s' =>
    s.step (Action.exec C) (Operation.program C connection stable) l = some s' ∧ s.Meets Q l

variable {C : Config} {connection : Connection} {stable : ConnectionId}

theorem valid_program (t : ι) (op : Operation) :
    Idle C connection.id stable t (op.program C connection stable) := by
  cases op with
  | addConnection fields => exact valid_addConnectionDeferred rfl fun e => valid_outside rfl fun _ => valid_ret
  | addConnectionDeferred fields => exact valid_addConnectionDeferred rfl fun e => valid_ret
  | announceConnection id => exact valid_outside rfl fun _ => valid_ret
  | bringUp id force => exact valid_bringUp
  | withRecovery id => exact valid_recover
  | backgroundRefresh e => exact valid_backgroundRefresh

theorem kept_of_start {id : ConnectionId} {s : Threads ι (ConnectionSet ι) Answer} (hs : Start stable s) :
    (contract C id stable).Kept s where
  inv := ⟨hs.spent, .inl hs.blank⟩
  safe t := by
    rw [hs.idle t]
    intro made hheld
    rw [hs.blank.held made] at hheld
    cases hheld

/-- As long as the add validates no persist-debted entry with a refresh token that it has loaded, no
grant is given a refresh token that an earlier one consumed, whatever writes fail. -/
theorem debt_safe {trace : List (Event ι Operation Answer)} {s : Threads ι (ConnectionSet ι) Answer}
    (h : Runs C connection stable (fun t a r s => (Rotates s a r && Stays s a && Undebted t s a) = true) trace s) :
    s.shared.past.tokens.consumed.Nodup := by
  have hkept : (contract C connection.id stable).Kept s := run valid_program (fun _ => kept_of_start) h
  exact hkept.inv.spent.nodup

end Runs

/-! ### An add that begins to validate too late -/

theorem start_blank : Start "s" (Threads.idle Rotation.blank) where
  idle _ := rfl
  spent := Rotation.start_blank.inv.spent
  blank := ⟨fun _ => rfl, rfl, fun _ => rfl, Rotation.start_blank.inv.head rfl⟩

/-- Three attempts, the default classes of errors, and no cross-process lock. -/
def unlockedConfig : Config := ⟨3, defaultClassify, false⟩

/-- What an operation sees of an entry that is persist-debted, or not. -/
def sees (credentials : Token) (credGen : ℕ) (persistDebt : Bool) (state : ConnectionAuthState) :
    ConnEntry × ConnectionAuthState :=
  (⟨"a", some "s", ⟨some credentials, []⟩, credGen, persistDebt, false, 0⟩, state)

/-- A new connection. -/
def unauthenticated : ConnectionAuthState := .AwaitingAuth .NeverAuthenticated

/-- The first thread adds the connection, up to the single-flight lock. -/
def registers : List (Event Bool Operation Answer) :=
  [.call false (.addConnection []), .act false (.lock (.purge "s")) (),
    .act false (.load (some "s")) (.ok (some ⟨some 0, []⟩)),
    .act false (.insert (Rotation.connectionOf "a") (some "s") ⟨some 0, []⟩) 0, .act false (.unlock (.purge "s")) (),
    .act false (.bringupLockFor "a") 0]

/-- A thread grants the token `0`, and no write of its bundle succeeds. -/
def grantsUnpersisted (t : Bool) : List (Event Bool Operation Answer) :=
  let look := sees 0 0 false unauthenticated
  [.act t (.ask 0 .state) look, .act t (.ask 0 .state) look, .act t (.ask 0 .state) look,
    .act t (.load (some "s")) (.ok (some ⟨some 0, []⟩)),
    .act t (.change 0 (.obtain ⟨some 0, []⟩)) (.ok (.Bearer ⟨some 1, []⟩)),
    .act t (.change 0 (.commitGrant ⟨some 1, []⟩ 0 0)) false, .act t (.ask 0 .isRegistered) true,
    .act t (.change 0 (.persist ⟨some 1, []⟩)) false, .act t (.change 0 (.persist ⟨some 1, []⟩)) false,
    .act t (.change 0 (.persist ⟨some 1, []⟩)) false, .act t (.change 0 (.setDebt true)) (),
    .act t (.lock (.purge "s")) (), .act t (.ask 0 (.sharedByOther 0)) false, .act t (.ask 0 .isRegistered) true,
    .act t (.unlock (.purge "s")) (), .act t (.ask 0 (.verify ⟨some 1, []⟩)) none, .act t (.ask 0 .isRegistered) true,
    .act t (.ask 0 .state) (sees 1 0 true unauthenticated), .act t (.change 0 (.activate ⟨some 1, []⟩ .Stored 0)) true,
    .act t (.change 0 (.commitAuthenticated ⟨some 1, []⟩ 0 0 .Stored)) true, .act t (.ask 0 .onAuthenticated) none]

/-- The add validates at once, and then a refresh in the background grants what is in memory. -/
def refreshesDebted : List (Event Bool Operation Answer) :=
  let look := sees 1 1 true .Authenticated
  registers ++ [.act false (.lock (.bringup 0)) ()] ++ grantsUnpersisted false ++
    [.act false (.unlock (.bringup 0)) (), .act false (.tell 0 .announce) (), .call true (.backgroundRefresh 0),
      .act true (.wake 0) (),
      .act true (.ask 0 .state) look, .act true (.bringupLockFor "a") 0, .act true (.lock (.bringup 0)) (),
      .act true (.ask 0 .state) look, .act true (.ask 0 .state) look, .act true (.ask 0 .state) look,
      .act true (.change 0 (.refresh ⟨some 1, []⟩)) (.ok ⟨some 2, []⟩)]

theorem debt_safe_refresh : ∃ trace s,
    Runs unlockedConfig (Rotation.connectionOf "a") "s"
      (fun (t : Bool) a r s => (Rotates s a r && Stays s a && Undebted t s a) = true) trace s ∧
      s.shared.past.tokens.consumed = [1, 0] ∧ s.shared.past.tokens.consumed.Nodup := by
  obtain ⟨s, hrun, hs⟩ : ∃ s, Runs unlockedConfig (Rotation.connectionOf "a") "s"
      (fun (t : Bool) a r s => (Rotates s a r && Stays s a && Undebted t s a) = true) refreshesDebted s ∧
        (s.shared.past.tokens.consumed == [1, 0]) = true :=
    Threads.run_of_any start_blank (by decide +kernel)
  exact ⟨_, s, hrun, beq_iff_eq.mp hs, debt_safe hrun⟩

/-- A bring-up wins the single-flight lock, and grants the token that the add has loaded. -/
def bringsUpFirst : List (Event Bool Operation Answer) :=
  let look := sees 0 0 false unauthenticated
  registers ++
    [.call true (.bringUp "a" false), .act true (.entry "a") (some 0), .act true (.ask 0 .state) look,
      .act true (.ask 0 .inCooldown) false, .act true (.ask 0 .bringupGen) 0, .act true (.bringupLockFor "a") 0,
      .act true (.lock (.bringup 0)) (), .act true (.ask 0 .state) look, .act true (.ask 0 .bringupGen) 0,
      .act true (.ask 0 .state) look,
      .act true (.load (some "s")) (.ok (some ⟨some 0, []⟩))] ++ grantsUnpersisted true ++
    [.act true (.ask 0 .state) (sees 1 1 true .Authenticated), .act true (.tell 0 (.recordBringupOutcome none)) (),
      .act true (.tell 0 .clearCooldown) (), .act true (.tell 0 .emitUpdatedIfLive) (),
      .act true (.unlock (.bringup 0)) (),
      .act false (.lock (.bringup 0)) (), .act false (.ask 0 .state) (sees 1 1 true .Authenticated),
      .act false (.ask 0 .state) (sees 1 1 true .Authenticated),
      .act false (.ask 0 .state) (sees 1 1 true .Authenticated),
      .act false (.change 0 (.obtain ⟨some 0, []⟩)) (.ok (.Bearer ⟨some 2, []⟩))]

/-- The add then grants it once more. -/
theorem replay_by_validation : ¬∀ (C : Config) (connection : Connection) (stable : ConnectionId) trace s,
    Runs C connection stable (fun (_ : Bool) a r s => (Rotates s a r && Stays s a) = true) trace s →
      s.shared.past.tokens.consumed.Nodup := by
  intro h
  obtain ⟨s, hrun, hs⟩ : ∃ s, Runs unlockedConfig (Rotation.connectionOf "a") "s"
      (fun (_ : Bool) a r s => (Rotates s a r && Stays s a) = true) bringsUpFirst s ∧
        (s.shared.past.tokens.consumed == [0, 0]) = true :=
    Threads.run_of_any start_blank (by decide +kernel)
  have hnodup := h unlockedConfig (Rotation.connectionOf "a") "s" _ s hrun
  rw [beq_iff_eq.mp hs] at hnodup
  simp at hnodup

end OvStorage.Connections.Debt
