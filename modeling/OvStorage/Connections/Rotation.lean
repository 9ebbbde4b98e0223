import OvStorage.Connections.Frames

/-!
# Rotation across connections

Connections that share one stable id, under a cross-process lock, over a store that always works:
no grant is given a refresh token that an earlier grant has consumed, as long as each grant's
successor gets into the store.
-/

namespace OvStorage.Connections

open Interleave Contract ConnectionSet

namespace Tokens

variable {tokens : Tokens} {base bundle : SecretBundle}

/-- The bundle's refresh token has been handed out, and no grant was given it. -/
def Fresh (tokens : Tokens) (bundle : SecretBundle) : Prop :=
  ∀ token ∈ bundle.oauth, token < tokens.next ∧ token ∉ tokens.consumed

/-- The tokens that were consumed had been handed out, and each was consumed once. -/
structure Spent (tokens : Tokens) : Prop where
  nodup : tokens.consumed.Nodup
  known : ∀ token ∈ tokens.consumed, token < tokens.next

theorem Spent.grant (h : tokens.Spent) (hbase : tokens.Fresh base) : (tokens.grant base).Spent where
  nodup := by
    cases hoauth : base.oauth with
    | none => simpa [Tokens.grant, hoauth] using h.nodup
    | some token => simpa [Tokens.grant, hoauth] using ⟨(hbase token hoauth).2, h.nodup⟩
  known token htoken := by
    rcases List.mem_append.mp htoken with hmem | hmem
    · exact Nat.lt_succ_of_lt (hbase token (Option.mem_toList.mp hmem)).1
    · exact Nat.lt_succ_of_lt (h.known token hmem)

/-- The token that a grant hands out is fresh after it. -/
theorem Spent.fresh_next (h : tokens.Spent) (hbase : tokens.Fresh base) (hbundle : bundle.oauth = some tokens.next) :
    (tokens.grant base).Fresh bundle := by
  intro token htoken
  obtain rfl : tokens.next = token := Option.some.inj (hbundle.symm.trans htoken)
  refine ⟨Nat.lt_succ_self _, fun hmem => ?_⟩
  rcases List.mem_append.mp hmem with hmem | hmem
  · exact absurd (hbase _ (Option.mem_toList.mp hmem)).1 (lt_irrefl _)
  · exact absurd (h.known _ hmem) (lt_irrefl _)

/-- A bundle without a refresh token is fresh. -/
theorem fresh_of_none (h : bundle.oauth = none) : tokens.Fresh bundle := fun token htoken => by simp [h] at htoken

end Tokens

/-- What is stored under the stable id is fresh. -/
def HeadFresh {ι : Type} (stable : ConnectionId) (s : ConnectionSet ι) : Prop :=
  ∀ head ∈ s.vault.secrets stable, s.past.tokens.Fresh head

/-- Loads succeed, and so do grants, each with the next refresh token. -/
def Rotates {ι : Type} (s : ConnectionSet ι) : (a : Action) → Answer a → Bool
  | .load _, loaded => loaded.isOk
  | .change _ (.obtain _), .ok (.Bearer credentials) => credentials.oauth == some s.past.tokens.next
  | .change _ (.obtain _), _ => false
  | .change _ (.refresh _), .ok credentials => credentials.oauth == some s.past.tokens.next
  | .change _ (.refresh _), .error _ => false
  | _, _ => true

/-- Writes to the store succeed. -/
def Writes : (a : Action) → Answer a → Bool
  | .change _ (.persist _), written => written
  | .change _ (.delete _), deleted => deleted
  | _, _ => true

namespace Rotation

section Contract

variable {ι : Type} [DecidableEq ι]

/-- The successor of a grant gets into the store: nothing has superseded the grant when it is
committed, its id is registered when that is checked before the persist, and a stored head is there
when one is loaded under the cross-process lock. -/
def Persists (stable : ConnectionId) (t : ι) (s : ConnectionSet ι) : Action → Bool
  | .change e (.commitGrant _ credGen identityGen) =>
    (s.vault.heap e).credGen == credGen && (s.vault.heap e).identityGen == identityGen
  | .ask e .isRegistered => (s.past.owes t).isNone || s.vault.isRegistered (s.vault.heap e).id
  | .load stableId => s.vault.held (.authRefresh stable) != some t || (s.vault.stored stableId).isSome
  | _ => true

/-- The connections share the stable id, none is persist-debted, and the head is fresh unless a
thread is at it. -/
structure Inv (stable : ConnectionId) (s : ConnectionSet ι) : Prop where
  spent : s.past.tokens.Spent
  shared : ∀ e, (s.vault.heap e).stableId = some stable
  undebted : ∀ e, (s.vault.heap e).persistDebt = false
  head : s.vault.held (.authRefresh stable) = none → HeadFresh stable s

/-- Who holds the cross-process lock keeps it, and only the head may go away meanwhile. -/
structure Rely (stable : ConnectionId) (t : ι) (s s' : ConnectionSet ι) : Prop where
  held : s'.vault.held (.authRefresh stable) = some t ↔ s.vault.held (.authRefresh stable) = some t
  owes : s'.past.owes t = s.past.owes t
  tokens : s.vault.held (.authRefresh stable) = some t →
    s'.past.tokens = s.past.tokens ∧ (s'.vault.secrets stable = s.vault.secrets stable ∨ s'.vault.secrets stable = none)

/-- The thread is out of the cross-process lock, with nothing to persist. -/
structure Outside (stable : ConnectionId) (t : ι) (s : ConnectionSet ι) : Prop where
  held : s.vault.held (.authRefresh stable) ≠ some t
  owes : s.past.owes t = none

variable {stable : ConnectionId}

omit [DecidableEq ι] in
theorem Rely.outside {t : ι} {s s' : ConnectionSet ι} (h : Rely stable t s s')
    (hs : Outside stable t s) : Outside stable t s' where
  held := fun hheld => hs.held (h.held.mp hheld)
  owes := h.owes.trans hs.owes

omit [DecidableEq ι] in
theorem Rely.trans {t : ι} {s₁ s₂ s₃ : ConnectionSet ι} (h₁ : Rely stable t s₁ s₂)
    (h₂ : Rely stable t s₂ s₃) : Rely stable t s₁ s₃ where
  held := h₂.held.trans h₁.held
  owes := h₂.owes.trans h₁.owes
  tokens hheld := by
    obtain ⟨htokens₁, hhead₁⟩ := h₁.tokens hheld
    obtain ⟨htokens₂, hhead₂⟩ := h₂.tokens (h₁.held.mpr hheld)
    refine ⟨htokens₂.trans htokens₁, ?_⟩
    rcases hhead₂ with hhead₂ | hhead₂
    · rcases hhead₁ with hhead₁ | hhead₁
      · exact .inl (hhead₂.trans hhead₁)
      · exact .inr (hhead₂.trans hhead₁)
    · exact .inr hhead₂

/-- What the runs keep to, and the promise of each step. -/
def contract (C : Config) (stable : ConnectionId) : Contract (Action.exec (ι := ι) C) where
  allowed t a r s := (Rotates s a r && Writes a r && Persists stable t s a) = true
  inv := Inv stable
  guar t _ s s' := ∀ t' ≠ t, Rely stable t' s s'
  rely := Rely stable
  quiet := Outside stable
  rely_refl _ _ := ⟨Iff.rfl, rfl, fun _ => ⟨rfl, .inl rfl⟩⟩
  rely_trans := Rely.trans
  rely_of_guar ht h := h _ ht
  quiet_of_rely := Rely.outside

/-- The program keeps the contract, from between the calls on. -/
abbrev Idle (C : Config) (stable : ConnectionId) (t : ι) (p : Program) : Prop :=
  (contract C stable).Valid t (Outside stable t) p

end Contract

section Steps

variable {ι : Type} [DecidableEq ι] {C : Config} {stable : ConnectionId} {t : ι} {a : Action} {r : Answer a}
  {s s' : ConnectionSet ι}

/-- A step of the holder of the cross-process lock. -/
theorem guar_of_holder (h : a.exec C t r s = some s') (hheld : s.vault.held (.authRefresh stable) = some t) :
    ∀ t' ≠ t, Rely stable t' s s' := fun _ ht =>
  ⟨a.exec_held_of_ne h ht _, a.exec_owes_of_ne h ht,
    fun hheld' => absurd (Option.some.inj (hheld'.symm.trans hheld)) ht⟩

/-- A step that neither grants nor writes to the store. -/
theorem guar_of_plain (h : a.exec C t r s = some s') (hgrants : a.changes Change.grants = false)
    (hwrites : a.changes Change.writes = false) : ∀ t' ≠ t, Rely stable t' s s' := fun _ ht =>
  ⟨a.exec_held_of_ne h ht _, a.exec_owes_of_ne h ht,
    fun _ => ⟨a.exec_tokens h hgrants, .inl (congrFun (a.exec_secrets h hwrites) _)⟩⟩

/-- The steps that no thread's knowledge is about. -/
def Plain (stable : ConnectionId) : Action → Bool
  | .change _ made => !made.grants && !made.owing
  | .insert _ stableId _ => stableId == some stable
  | .lock l | .unlock l => l != .authRefresh stable
  | .lockRefresh _ _ | .unlockRefresh _ => false
  | _ => true

theorem entries_of_plain (h : a.exec C t r s = some s') (ha : Plain stable a) (hs : Inv stable s) (e : EntryRef) :
    (s'.vault.heap e).stableId = some stable ∧ (s'.vault.heap e).persistDebt = false := by
  cases a with
  | change e' made =>
    have hdebt : ∀ debt, made ≠ .setDebt debt := by
      rintro debt rfl
      simp [Plain, Change.grants, Change.owing] at ha
    exact ⟨((Change.exec_leaves h).stableId e).trans (hs.shared e),
      ((Change.exec_leaves h).persistDebt hdebt e).trans (hs.undebted e)⟩
  | insert connection stableId credentials =>
    obtain ⟨-, rfl⟩ := Option.of_guard h
    by_cases he : e = s.vault.nextEntry
    · subst he
      simpa [register, Plain] using ha
    · simp [register, Function.update_of_ne he, hs.shared e, hs.undebted e]
  | _ =>
    have hparts :=
      Action.exec_heap (fun entry => (entry.stableId, entry.persistDebt)) (fun _ _ => rfl) h (by simp) (by simp) e
    simpa [hs.shared e, hs.undebted e] using hparts

omit [DecidableEq ι] in
private theorem store_none (v : Vault ι) (stableId : Option ConnectionId) (stable : ConnectionId) :
    (v.store stableId none).secrets stable = v.secrets stable ∨ (v.store stableId none).secrets stable = none := by
  cases stableId with
  | none => exact .inl rfl
  | some other =>
    by_cases hother : stable = other
    · exact .inr (by simp [Vault.store, hother])
    · exact .inl (by simp [Vault.store, Function.update_of_ne hother])

theorem secrets_of_plain (h : a.exec C t r s = some s') (ha : Plain stable a) :
    s'.vault.secrets stable = s.vault.secrets stable ∨ s'.vault.secrets stable = none := by
  by_cases hwrites : a.changes Change.writes = false
  · exact .inl (congrFun (a.exec_secrets h hwrites) stable)
  obtain ⟨e, other, rfl⟩ : ∃ e other, a = .change e (.delete other) := by
    cases a with
    | change e made => cases made <;> simp_all [Action.changes, Change.writes, Plain, Change.owing]
    | _ => simp [Action.changes] at hwrites
  cases r with
  | false =>
    cases h
    exact .inl rfl
  | true =>
    cases h
    exact store_none _ _ _

theorem calm_of_plain (ha : Plain stable a) : (contract (ι := ι) C stable).Calm a := by
  intro t r s s' h hs
  have hgrants : a.changes Change.grants = false := by
    cases a <;> simp_all [Plain, Action.changes]
  have howing : a.changes Change.owing = false := by
    cases a <;> simp_all [Plain, Action.changes]
  have hlocks : a.locks ≠ some (.authRefresh stable) := by
    cases a <;> simp_all [Plain, Action.locks]
  have htokens := a.exec_tokens h hgrants
  have hheld := a.exec_held h hlocks
  have hsecrets := secrets_of_plain h ha
  have hrely : ∀ t', Rely stable t' s s' :=
    fun t' => ⟨by rw [hheld], by rw [a.exec_owes h howing], fun _ => ⟨htokens, hsecrets⟩⟩
  refine ⟨⟨htokens ▸ hs.spent, fun e => (entries_of_plain h ha hs e).1, fun e => (entries_of_plain h ha hs e).2, ?_⟩,
    fun t' _ => hrely t', hrely t⟩
  intro hfree head hhead
  rcases hsecrets with hsecrets | hsecrets
  · exact htokens ▸ hs.head (hheld ▸ hfree) head (hsecrets ▸ hhead)
  · simp [hsecrets] at hhead

end Steps

section Programs

variable {ι : Type} [DecidableEq ι] {C : Config} {stable : ConnectionId} {t : ι} {s s' : ConnectionSet ι}
  {K : ConnectionSet ι → Prop}

/-- The thread is in the cross-process lock, and has the bundle to persist. -/
structure Holds (stable : ConnectionId) (t : ι) (owed : Option SecretBundle) (s : ConnectionSet ι) : Prop where
  held : s.vault.held (.authRefresh stable) = some t
  owes : s.past.owes t = owed

/-- The thread is in the cross-process lock, with nothing to persist. -/
def Inside (stable : ConnectionId) (t : ι) (s : ConnectionSet ι) : Prop := Holds stable t none s ∧ HeadFresh stable s

/-- The thread is in the cross-process lock, and knows of a fresh bundle. -/
def Knows (stable : ConnectionId) (t : ι) (owed : Option SecretBundle) (bundle : SecretBundle) (s : ConnectionSet ι) :
    Prop :=
  Holds stable t owed s ∧ s.past.tokens.Fresh bundle

theorem silent : Silent (contract (ι := ι) C stable) where
  asks _ _ := calm_of_plain rfl
  tells _ _ := calm_of_plain rfl
  entries _ := calm_of_plain rfl
  wakes _ := calm_of_plain rfl
  loads _ := calm_of_plain rfl
  locks _ := calm_of_plain rfl
  unlocks _ := calm_of_plain rfl

theorem stable_outside : (contract C stable).Stable t (Outside stable t) := Rely.outside

variable {bundle : SecretBundle}

theorem stable_knows {owed : Option SecretBundle} : (contract C stable).Stable t (Knows stable t owed bundle) := by
  rintro s s' hrely ⟨hs, hfresh⟩
  obtain ⟨htokens, -⟩ := hrely.tokens hs.held
  exact ⟨⟨hrely.held.mpr hs.held, hrely.owes.trans hs.owes⟩, htokens ▸ hfresh⟩

theorem stable_inside : (contract C stable).Stable t (Inside stable t) := by
  rintro s s' hrely ⟨hs, hhead⟩
  obtain ⟨htokens, hsecrets⟩ := hrely.tokens hs.held
  refine ⟨⟨hrely.held.mpr hs.held, hrely.owes.trans hs.owes⟩, fun head hmem => ?_⟩
  rcases hsecrets with hsecrets | hsecrets
  · exact htokens ▸ hhead head (hsecrets ▸ hmem)
  · simp [hsecrets] at hmem

theorem valid_plain {a : Action} {k : Answer a → Program} (ha : Plain stable a = true)
    (hK : (contract C stable).Stable t K) (hk : ∀ r, (contract C stable).Valid t K (k r)) :
    (contract C stable).Valid t K (.act a k) :=
  Valid.calm (calm_of_plain ha) hK hk

variable {e : EntryRef}

theorem valid_state {k : ConnEntry × ConnectionAuthState → Program} (hK : (contract C stable).Stable t K)
    (hk : ∀ r, r.1.stableId = some stable → r.1.persistDebt = false → (contract C stable).Valid t K (k r)) :
    (contract C stable).Valid t K (ask e .state k) := by
  refine Valid.act (Q := fun r s => K s ∧ r.1.stableId = some stable ∧ r.1.persistDebt = false) hK ?_
    fun r s hs => hk r hs.2.1 hs.2.2 s hs.1
  intro s r s' hs hinv _ h
  obtain ⟨hinv', hguar, hrely⟩ := silent.asks e .state h hinv
  obtain ⟨rfl, rfl⟩ := Action.exec_state.mp h
  exact ⟨hinv', hguar, hs, hinv.shared e, hinv.undebted e⟩

/-- A change that the holder of the cross-process lock makes, but one that sets a persist-debt. -/
theorem inv_of_holder {made : Change} {r : made.Answer} (h : (Action.change e made).exec C t r s = some s')
    (hs : Inv stable s) (hheld : s.vault.held (.authRefresh stable) = some t) (hdebt : made ≠ .setDebt true)
    (hspent : s'.past.tokens.Spent) : Inv stable s' where
  spent := hspent
  shared e' := ((Change.exec_leaves h).stableId e').trans (hs.shared e')
  undebted e' := by
    by_cases hmade : made = .setDebt false
    · subst hmade
      cases h
      by_cases he : e' = e
      · simp [owing, Vault.modify, he]
      · simp [owing, Vault.modify, Function.update_of_ne he, hs.undebted e']
    · refine ((Change.exec_leaves h).persistDebt (fun debt hset => ?_) e').trans (hs.undebted e')
      cases debt with
      | true => exact hdebt hset
      | false => exact hmade hset
  head hfree := by
    rw [(Change.exec_leaves h).held, hheld] at hfree
    cases hfree

theorem valid_persistAttempt {n : ℕ} {k : Program} (hk : (contract C stable).Valid t (Inside stable t) k) :
    (contract C stable).Valid t (Knows stable t (some bundle) bundle) (persistAttempts e bundle k (n + 1)) := by
  refine Valid.act (Q := fun written s => written = true ∧ Inside stable t s) stable_knows ?_ fun written => ?_
  · rintro s written s' ⟨hs, hfresh⟩ hinv hallowed h
    have hwrites := (Bool.and_eq_true_iff.mp (Bool.and_eq_true_iff.mp hallowed).1).2
    obtain rfl : written = true := hwrites
    have hguar := guar_of_holder h hs.held
    obtain rfl := Option.some.inj h
    refine ⟨inv_of_holder h hinv hs.held (by simp) hinv.spent, hguar, rfl,
      ⟨hs.held, by simp [owing]⟩, ?_⟩
    intro head hhead
    obtain rfl : bundle = head := by
      simpa [owing, stores, Vault.store, hinv.shared e] using hhead
    exact hfresh
  · cases written with
    | false => exact Valid.absurd fun _ hs => Bool.false_ne_true hs.1
    | true =>
      refine Valid.act (Q := fun _ => Inside stable t) (fun hrely hs => ⟨hs.1, stable_inside hrely hs.2⟩) ?_ fun _ => hk
      rintro s ⟨⟩ s' ⟨-, hs, hhead⟩ hinv - h
      have hguar := guar_of_holder h hs.held
      obtain rfl := Option.some.inj h
      exact ⟨inv_of_holder h hinv hs.held (by simp) hinv.spent, hguar,
        ⟨hs.held, by simp [owing]⟩, hhead⟩

variable {G : Grant} {credentials base : SecretBundle} {lineage : Lineage}

theorem valid_commitAndPersist {k : Bool → Program} (hk : (contract C stable).Valid t (Inside stable t) (k true)) :
    (contract C stable).Valid t (Knows stable t none credentials) (G.commitAndPersist credentials k) := by
  refine Valid.act (Q := fun superseded s => superseded = false ∧ Knows stable t (some credentials) credentials s)
    stable_knows ?_ fun superseded => ?_
  · rintro s superseded s' ⟨hs, hfresh⟩ hinv hallowed h
    have hpersists := (Bool.and_eq_true_iff.mp hallowed).2
    have hguar := guar_of_holder h hs.held
    have hinv' := inv_of_holder h hinv hs.held (by simp)
    rcases Action.exec_commitGrant h with ⟨rfl, hgens, -⟩ | ⟨rfl, -, rfl⟩
    · exact absurd (by simpa [Persists] using hpersists) hgens
    · exact ⟨hinv' hinv.spent, hguar, rfl, ⟨hs.held, by simp [owing]⟩, hfresh⟩
  cases superseded with
  | true => exact Valid.absurd fun _ hs => Bool.noConfusion hs.1
  | false =>
    refine Valid.act (Q := fun registered s => registered = true ∧ Knows stable t (some credentials) credentials s)
      (fun hrely hs => ⟨hs.1, stable_knows hrely hs.2⟩) ?_ fun registered => ?_
    · rintro s registered s' ⟨-, hs, hfresh⟩ hinv hallowed h
      have hpersists := (Bool.and_eq_true_iff.mp hallowed).2
      obtain ⟨hinv', hguar, hrely⟩ := silent.asks G.e .isRegistered h hinv
      obtain ⟨hanswer, rfl⟩ := Action.exec_ask.mp h
      have hregistered : s.vault.isRegistered (s.vault.heap G.e).id = true := by
        simpa [Persists, hs.owes] using hpersists
      exact ⟨hinv', hguar, (beq_iff_eq.mp hanswer).trans hregistered, hs, hfresh⟩
    cases registered with
    | false => exact Valid.absurd fun _ hs => Bool.noConfusion hs.1
    | true =>
      have hpurge : (contract C stable).Valid t (Inside stable t)
          (purgeDurableCredential G.e G.e G.stableId .unregistered fun _ => k true) :=
        silent.valid_purge stable_inside (calm_of_plain rfl) fun _ => hk
      exact (valid_persistAttempt hpurge).weaken fun _ hs => hs.2

theorem valid_obtain {k : Except ErrorCode Obtained → Program}
    (hk : ∀ outcome, (contract C stable).Valid t (Inside stable t) (k outcome)) :
    (contract C stable).Valid t (Knows stable t none base) (G.obtain lineage base k) := by
  refine Valid.act
    (Q := fun r s => ∃ credentials, r = .ok (.Bearer credentials) ∧ Knows stable t none credentials s)
      stable_knows ?_ fun r => ?_
  · rintro s r s' ⟨hs, hfresh⟩ hinv hallowed h
    have hrotates := (Bool.and_eq_true_iff.mp (Bool.and_eq_true_iff.mp hallowed).1).1
    have hguar := guar_of_holder h hs.held
    have hinv' := inv_of_holder h hinv hs.held (by simp)
    match r, hrotates with
    | .ok (.Bearer credentials), hrotates =>
      cases h
      exact ⟨hinv' (hinv.spent.grant hfresh), hguar, credentials, rfl, ⟨hs.held, hs.owes⟩,
        hinv.spent.fresh_next hfresh (beq_iff_eq.mp hrotates)⟩
  · match r with
    | .ok (.Bearer credentials) =>
      refine (valid_commitAndPersist (hk _)).weaken ?_
      rintro s ⟨_, ⟨rfl⟩, hs⟩
      exact hs
    | .ok .Anonymous | .ok (.AwaitingInteractive _) | .ok .WouldConsume | .error _ =>
      refine Valid.absurd ?_
      rintro s ⟨_, ⟨⟩, _⟩

variable {k : Except ErrorCode SecretBundle → Program}

theorem valid_refresh
    (hk : ∀ refreshed, (contract C stable).Valid t (Knows stable t none refreshed) (k (.ok refreshed))) :
    (contract C stable).Valid t (Knows stable t none base) (change G.e (.refresh base) k) := by
  refine Valid.act (Q := fun r s => ∃ refreshed, r = .ok refreshed ∧ Knows stable t none refreshed s)
    stable_knows ?_ fun r => ?_
  · rintro s r s' ⟨hs, hfresh⟩ hinv hallowed h
    have hrotates := (Bool.and_eq_true_iff.mp (Bool.and_eq_true_iff.mp hallowed).1).1
    have hguar := guar_of_holder h hs.held
    have hinv' := inv_of_holder h hinv hs.held (by simp)
    match r, hrotates with
    | .ok refreshed, hrotates =>
      cases h
      have hspent := hinv.spent.grant hfresh
      have hnext := hinv.spent.fresh_next hfresh (beq_iff_eq.mp hrotates)
      exact ⟨hinv' hspent, hguar, refreshed, rfl, ⟨hs.held, hs.owes⟩, hnext⟩
  · match r with
    | .ok refreshed =>
      refine (hk refreshed).weaken ?_
      rintro s ⟨_, ⟨rfl⟩, hs⟩
      exact hs
    | .error _ =>
      refine Valid.absurd ?_
      rintro s ⟨_, ⟨⟩, _⟩

/-- Under the cross-process lock a reload finds the head, which is fresh. -/
theorem valid_reload (hk : ∀ head, (contract C stable).Valid t (Knows stable t none head) (k (.ok head))) :
    (contract C stable).Valid t (Inside stable t) (reload (some stable) credentials k) := by
  refine Valid.act (Q := fun r s => ∃ head, r = .ok (some head) ∧ Knows stable t none head s)
    stable_inside ?_ fun r => ?_
  · rintro s r s' ⟨hs, hhead⟩ hinv hallowed h
    obtain ⟨hworks, hpersists⟩ := Bool.and_eq_true_iff.mp hallowed
    have hrotates := (Bool.and_eq_true_iff.mp hworks).1
    obtain ⟨hinv', hguar, -⟩ := calm_of_plain rfl h hinv
    cases r with
    | error error => cases hrotates
    | ok loaded =>
      obtain ⟨hloaded, rfl⟩ := Option.of_guard h
      obtain ⟨head, hstored⟩ := Option.isSome_iff_exists.mp (by simpa [Persists, hs.held] using hpersists)
      obtain rfl := hloaded.trans hstored
      exact ⟨hinv', hguar, head, rfl, hs, hhead head hstored⟩
  · match r with
    | .ok (some head) =>
      refine (hk head).weaken ?_
      rintro s ⟨_, ⟨rfl⟩, hs⟩
      exact hs
    | .ok none | .error _ =>
      refine Valid.absurd ?_
      rintro s ⟨_, ⟨⟩, _⟩

theorem valid_obtainAndPersist {k : Except ErrorCode Obtained → Program} (hG : G.stableId = some stable)
    (hfresh : lineage = .Fresh → credentials.oauth = none)
    (hk : ∀ outcome, (contract C stable).Valid t (Inside stable t) (k outcome)) :
    (contract C stable).Valid t (Inside stable t) (G.obtainAndPersist credentials lineage k) := by
  cases lineage with
  | Fresh =>
    exact (valid_obtain hk).weaken fun s hs => ⟨hs.1, Tokens.fresh_of_none (hfresh rfl)⟩
  | Stored =>
    refine valid_state stable_inside fun r _ hdebt => ?_
    rw [hdebt, hG, if_neg Bool.false_ne_true]
    refine valid_reload fun head => ?_
    exact valid_obtain hk

theorem valid_refreshBase (hG : G.stableId = some stable)
    (hk : ∀ head, (contract C stable).Valid t (Knows stable t none head) (k (.ok head))) :
    (contract C stable).Valid t (Inside stable t) (G.refreshBase credentials k) := by
  refine valid_state stable_inside fun r _ hdebt => ?_
  rw [hdebt, hG, if_neg Bool.false_ne_true]
  exact valid_reload hk

/-- A step on the cross-process lock, which leaves the head fresh if it leaves the lock free. -/
theorem inv_of_lock {a : Action} {r : Answer a} (h : a.exec C t r s = some s') (hs : Inv stable s)
    (ha : a.locks = some (.authRefresh stable))
    (hhead : s'.vault.held (.authRefresh stable) = none → HeadFresh stable s) :
    Inv stable s' ∧ ∀ t' ≠ t, Rely stable t' s s' := by
  have hchange : ∀ e made, a ≠ .change e made := by
    rintro e made rfl
    cases ha
  have hinsert : ∀ connection stableId credentials, a ≠ .insert connection stableId credentials := by
    rintro connection stableId credentials rfl
    cases ha
  have hgrants : a.changes Change.grants = false := by cases a <;> simp_all [Action.changes]
  have hwrites : a.changes Change.writes = false := by cases a <;> simp_all [Action.changes]
  have htokens := a.exec_tokens h hgrants
  refine ⟨⟨htokens ▸ hs.spent, fun e => ?_, fun e => ?_, fun hfree head hmem => ?_⟩, guar_of_plain h hgrants hwrites⟩
  · exact (Action.exec_heap ConnEntry.stableId (fun _ _ => rfl) h hchange hinsert e).trans (hs.shared e)
  · exact (Action.exec_heap ConnEntry.persistDebt (fun _ _ => rfl) h hchange hinsert e).trans (hs.undebted e)
  · rw [a.exec_secrets h hwrites] at hmem
    exact htokens ▸ hhead hfree head hmem

variable {zeroWindow : Bool}

/-- What the lock's answer leaves the thread with. -/
def Answered (stable : ConnectionId) (t : ι) (zeroWindow : Bool) (s : ConnectionSet ι) : LockAnswer → Prop
  | .Locked => Inside stable t s
  | .Skipped => zeroWindow = false ∧ Outside stable t s
  | .Failed _ => Outside stable t s

/-- The cross-process lock is taken with a fresh head. -/
theorem valid_lockRefresh {k : LockAnswer → Program}
    (hlocked : (contract C stable).Valid t (Inside stable t) (k .Locked))
    (hskipped : zeroWindow = false → Idle C stable t (k .Skipped))
    (hfailed : ∀ error, Idle C stable t (k (.Failed error))) :
    Idle C stable t (.act (.lockRefresh stable zeroWindow) k) := by
  refine Valid.act (Q := fun r s => Answered stable t zeroWindow s r) stable_outside ?_ fun r => ?_
  · intro s r s' hs hinv _ h
    cases r with
    | Locked =>
      obtain ⟨hfree, rfl⟩ := Option.of_guard h
      have hstep : (Action.lockRefresh stable zeroWindow).exec C t .Locked s = _ := if_pos hfree
      obtain ⟨hinv', hguar⟩ := inv_of_lock hstep hinv rfl fun _ => hinv.head hfree
      exact ⟨hinv', hguar, ⟨by simp [hold], hs.owes⟩, hinv.head hfree⟩
    | Skipped =>
      cases zeroWindow with
      | true => cases h
      | false =>
        cases h
        exact ⟨hinv, fun t' _ => (contract C stable).rely_refl t' s, rfl, hs⟩
    | Failed error =>
      cases h
      exact ⟨hinv, fun t' _ => (contract C stable).rely_refl t' s, hs⟩
  · cases r with
    | Locked => exact hlocked
    | Skipped => exact fun s hs => hskipped hs.1 s hs.2
    | Failed error => exact hfailed error

/-- The cross-process lock is given back with a fresh head. -/
theorem valid_unlockRefresh {k : Option ErrorCode → Program} (hk : ∀ r, Idle C stable t (k r)) :
    (contract C stable).Valid t (Inside stable t) (.act (.unlockRefresh stable) k) := by
  refine Valid.act (Q := fun _ => Outside stable t) stable_inside ?_ hk
  rintro s r s' ⟨hs, hhead⟩ hinv - h
  obtain ⟨hinv', hguar⟩ := inv_of_lock h hinv rfl fun _ => hhead
  obtain ⟨-, rfl⟩ := Option.of_guard h
  exact ⟨hinv', hguar, by simp [hold], hs.owes⟩

theorem valid_obtainLocked {k : Except ErrorCode Obtained → Program} (hC : C.locked = true)
    (hG : G.stableId = some stable) (hfresh : lineage = .Fresh → credentials.oauth = none)
    (hk : ∀ outcome, Idle C stable t (k outcome)) :
    Idle C stable t (G.obtainLocked C credentials lineage k) := by
  simp only [Grant.obtainLocked, hC, hG]
  refine valid_lockRefresh ?_ (fun hwindow => by cases hwindow) fun error => hk _
  refine valid_obtainAndPersist hG hfresh fun outcome => valid_unlockRefresh fun r => ?_
  cases r with
  | none => exact hk _
  | some error => exact hk _

theorem valid_lockedRefresh {k : Option (Except ErrorCode (SecretBundle × Bool)) → Program}
    (hG : G.stableId = some stable) (hskipped : zeroWindow = false → Idle C stable t (k none))
    (herror : ∀ error, Idle C stable t (k (some (.error error))))
    (hok : ∀ refreshed, Idle C stable t (k (some (.ok (refreshed, true))))) :
    Idle C stable t (G.lockedRefresh stable zeroWindow credentials k) := by
  refine valid_lockRefresh ?_ hskipped fun error => herror _
  refine valid_refreshBase hG fun head => ?_
  refine valid_refresh fun refreshed => ?_
  refine valid_commitAndPersist (valid_unlockRefresh fun r => ?_)
  cases r with
  | none => exact hok _
  | some error => exact herror _

theorem valid_coalescedRefresh {k : Except ErrorCode (SecretBundle × Bool) → Program} (hC : C.locked = true)
    (hG : G.stableId = some stable) (herror : ∀ error, Idle C stable t (k (.error error)))
    (hok : ∀ refreshed, Idle C stable t (k (.ok (refreshed, true)))) :
    Idle C stable t (G.coalescedRefresh C credentials k) := by
  simp only [Grant.coalescedRefresh, hC, hG]
  refine valid_lockedRefresh hG (fun _ => ?_) herror hok
  exact valid_lockedRefresh hG (fun hwindow => by cases hwindow) herror hok

/-! ### The operations -/

theorem valid_ret : Idle C stable t .ret := Valid.ret fun _ hs => hs

theorem valid_unlock {l : Lock} {k : Program} (hl : l ≠ .authRefresh stable) (hk : Idle C stable t k) :
    Idle C stable t (unlock l k) :=
  valid_plain (by simpa [Plain] using hl) stable_outside fun _ => hk

variable {id : ConnectionId}

theorem valid_singleFlight {body : Lock → Program}
    (hbody : ∀ made, Idle C stable t (body (.bringup made))) :
    Idle C stable t (singleFlight id body) :=
  valid_plain rfl stable_outside fun made => valid_plain rfl stable_outside fun _ => hbody made

theorem valid_commitAuthenticated {k : Program} (hk : Idle C stable t k) :
    Idle C stable t (G.commitAuthenticated credentials lineage k) := by
  refine silent.valid_ask stable_outside fun registered => ?_
  split_ifs
  · exact hk
  refine silent.valid_ask stable_outside fun state => ?_
  split_ifs
  · exact hk
  refine valid_plain rfl stable_outside fun activated => ?_
  split_ifs
  · exact hk
  refine valid_plain rfl stable_outside fun committed => ?_
  split_ifs
  · exact silent.valid_runOnAuthenticated stable_outside fun _ => hk
  · exact hk

theorem valid_applyGrant {outcome : Obtained} {k : Option ErrorCode → Program}
    (hk : ∀ failure, Idle C stable t (k failure)) :
    Idle C stable t (G.applyGrant credentials outcome lineage k) := by
  cases outcome with
  | Bearer effective =>
    refine silent.valid_ask stable_outside fun r => ?_
    cases r with
    | none => exact valid_commitAuthenticated (hk none)
    | some error => exact hk _
  | Anonymous => exact valid_plain rfl stable_outside fun _ => hk none
  | AwaitingInteractive reason => exact silent.valid_tell stable_outside (hk none)
  | WouldConsume => exact silent.valid_tell stable_outside (hk none)

theorem valid_recordRefreshed {k : Program} (hk : Idle C stable t k) :
    Idle C stable t (G.recordRefreshed credentials true k) := by
  have hestablished : Idle C stable t
      (runOnAuthenticated G.e fun succeeded => if succeeded then tell G.e .emitUpdatedIfLive k else k) := by
    refine silent.valid_runOnAuthenticated stable_outside fun succeeded => ?_
    split_ifs
    · exact silent.valid_tell stable_outside hk
    · exact hk
  refine silent.valid_ask stable_outside fun registered => ?_
  cases registered with
  | false => exact hk
  | true =>
    refine valid_plain rfl stable_outside fun committed => ?_
    cases committed with
    | false => exact hk
    | true => exact hestablished

theorem valid_obtainAndApply {k : Option ErrorCode → Program} (hC : C.locked = true)
    (hfresh : lineage = .Fresh → credentials.oauth = none) (hk : ∀ failure, Idle C stable t (k failure)) :
    Idle C stable t (obtainAndApply C e credentials lineage k) := by
  refine valid_state stable_outside fun first hstable _ => ?_
  refine silent.valid_ask stable_outside fun second => ?_
  refine valid_obtainLocked hC hstable hfresh fun outcome => ?_
  cases outcome with
  | error error => exact hk _
  | ok outcome => exact valid_applyGrant hk

theorem valid_addConnectionDeferred {connection : Connection} {k : EntryRef → Program} (hC : C.locked = true)
    (hk : ∀ e, Idle C stable t (k e)) :
    Idle C stable t (addConnectionDeferred C connection (some stable) ⟨none, []⟩ k) := by
  have hregister : ∀ credentials lineage, (lineage = .Fresh → credentials.oauth = none) →
      Idle C stable t (registration C connection (some stable) credentials lineage k) := by
    intro credentials lineage hfresh
    refine valid_plain (by simp [Plain]) stable_outside fun e => ?_
    refine silent.valid_unlockPurge stable_outside (valid_singleFlight fun made => ?_)
    have hnone : Idle C stable t (unlock (.bringup made) (k e)) := valid_unlock (by simp) (hk e)
    refine valid_obtainAndApply hC hfresh fun failure => ?_
    cases failure with
    | none => exact hnone
    | some error =>
      dsimp only
      split_ifs
      · exact valid_plain rfl stable_outside fun _ => valid_unlock (by simp) valid_ret
      all_goals exact silent.valid_tell stable_outside (silent.valid_tell stable_outside hnone)
  unfold addConnectionDeferred
  refine silent.valid_lockPurge stable_outside ?_
  refine valid_plain rfl stable_outside fun loaded => ?_
  rcases loaded with error | _ | head
  · exact hregister ⟨none, []⟩ .Fresh fun _ => rfl
  · exact hregister ⟨none, []⟩ .Fresh fun _ => rfl
  · exact hregister head .Stored fun h => by cases h

theorem valid_removeInner {purgeSecret : Bool} :
    Idle C stable t (removeInner id purgeSecret) := by
  refine valid_plain rfl stable_outside fun r => ?_
  cases r with
  | none => exact valid_ret
  | some e =>
    dsimp only
    split_ifs
    · exact silent.valid_ask stable_outside fun state =>
        silent.valid_purge stable_outside (calm_of_plain rfl) fun _ => valid_ret
    · exact valid_ret

theorem valid_bringUp {force : Bool} (hC : C.locked = true) :
    Idle C stable t (bringUp C id force) := by
  refine silent.valid_bringUp stable_outside valid_ret fun e genBefore => valid_singleFlight fun made => ?_
  have hunlock : Idle C stable t (unlock (.bringup made) .ret) := valid_unlock (by simp) valid_ret
  refine silent.valid_bringUpLocked stable_outside hunlock fun credentials => ?_
  exact valid_obtainAndApply hC (fun h => by cases h) (silent.valid_bringUpTail stable_outside hunlock)

theorem valid_retry : Idle C stable t (retry id) :=
  valid_plain rfl stable_outside fun _ => valid_plain rfl stable_outside fun _ => valid_ret

theorem valid_recover (hC : C.locked = true) : Idle C stable t (recover C id) := by
  refine valid_plain rfl stable_outside fun _ => valid_plain rfl stable_outside fun failure => ?_
  cases failure with
  | none => exact valid_ret
  | some error =>
    refine silent.valid_withEntry stable_outside valid_ret fun e => ?_
    split_ifs
    · exact valid_ret
    refine valid_plain rfl stable_outside fun genBefore => silent.valid_ask stable_outside fun refreshGenBefore => ?_
    refine valid_singleFlight fun made => ?_
    have hunlock : ∀ {k}, Idle C stable t k →
        Idle C stable t (unlock (.bringup made) k) := valid_unlock (by simp)
    refine silent.valid_ask stable_outside fun now => ?_
    split_ifs
    · exact hunlock valid_retry
    refine silent.valid_ask stable_outside fun refreshGen => ?_
    split_ifs
    · exact hunlock valid_ret
    refine valid_state stable_outside fun first hstable _ => ?_
    refine silent.valid_ask stable_outside fun second => ?_
    refine valid_coalescedRefresh hC hstable (fun error => ?_) fun refreshed => ?_
    · refine silent.valid_tell stable_outside ?_
      dsimp only
      split_ifs
      · exact silent.valid_parkRefreshFailure stable_outside (hunlock valid_ret)
      · exact hunlock valid_ret
    · exact silent.valid_tell stable_outside (valid_recordRefreshed (hunlock valid_retry))

theorem valid_backgroundRefresh (hC : C.locked = true) :
    Idle C stable t (backgroundRefresh C e) := by
  refine valid_plain rfl stable_outside fun _ => silent.valid_ask stable_outside fun before => ?_
  split_ifs
  · exact valid_ret
  refine valid_singleFlight fun made => ?_
  have hunlock : ∀ {k}, Idle C stable t k →
      Idle C stable t (unlock (.bringup made) k) := valid_unlock (by simp)
  refine valid_state stable_outside fun now hstable _ => ?_
  split_ifs
  · exact hunlock valid_ret
  refine silent.valid_ask stable_outside fun second => ?_
  refine valid_coalescedRefresh hC hstable (fun error => ?_) fun refreshed => ?_
  · refine silent.valid_tell stable_outside (hunlock ?_)
    split_ifs
    · exact valid_ret
    · exact silent.valid_parkRefreshFailure stable_outside valid_ret
  · exact silent.valid_tell stable_outside (valid_recordRefreshed (hunlock valid_ret))

end Programs

/-! ### The runs -/

/-- What is done with connections that share a stable id and continue from its stored head. -/
inductive Operation
  | addConnection (connection : Connection)
  | addConnectionDeferred (connection : Connection)
  | announceConnection (id : ConnectionId)
  | bringUp (id : ConnectionId) (force : Bool)
  | withRecovery (id : ConnectionId)
  | backgroundRefresh (e : EntryRef)
  | removeConnection (id : ConnectionId)
  | unregisterConnection (id : ConnectionId)

def Operation.program (C : Config) (stable : ConnectionId) : Operation → Program
  | .addConnection connection => Connections.addConnection C connection (some stable) ⟨none, []⟩
  | .addConnectionDeferred connection =>
    Connections.addConnectionDeferred C connection (some stable) ⟨none, []⟩ fun _ => .ret
  | .announceConnection id => Connections.announceConnection id
  | .bringUp id force => Connections.bringUp C id force
  | .withRecovery id => recover C id
  | .backgroundRefresh e => Connections.backgroundRefresh C e
  | .removeConnection id => removeInner id true
  | .unregisterConnection id => removeInner id false

section Runs

variable {ι : Type} [DecidableEq ι]

/-- No operation is in progress, and the stored head is fresh. -/
structure Start (stable : ConnectionId) (s : Threads ι (ConnectionSet ι) Answer) : Prop where
  idle : ∀ t, s.progs t = .ret
  inv : Inv stable s.shared
  held : s.shared.vault.held (.authRefresh stable) = none
  owes : ∀ t, s.shared.past.owes t = none

/-- The runs whose actions meet a condition. -/
def Runs (C : Config) (stable : ConnectionId) (Q : ι → (a : Action) → Answer a → ConnectionSet ι → Prop) :
    List (Event ι Operation Answer) → Threads ι (ConnectionSet ι) Answer → Prop :=
  Run (Start stable) fun s l s' => s.step (Action.exec C) (Operation.program C stable) l = some s' ∧ s.Meets Q l

variable {C : Config} {stable : ConnectionId}

theorem valid_program (hC : C.locked = true) (t : ι) (op : Operation) :
    Idle C stable t (op.program C stable) := by
  cases op with
  | addConnection connection =>
    exact valid_addConnectionDeferred hC fun e => silent.valid_tell stable_outside valid_ret
  | addConnectionDeferred connection => exact valid_addConnectionDeferred hC fun e => valid_ret
  | announceConnection id => exact valid_plain rfl stable_outside fun _ => valid_ret
  | bringUp id force => exact valid_bringUp hC
  | withRecovery id => exact valid_recover hC
  | backgroundRefresh e => exact valid_backgroundRefresh hC
  | removeConnection id => exact valid_removeInner
  | unregisterConnection id => exact valid_removeInner

theorem kept_of_start {s : Threads ι (ConnectionSet ι) Answer} (hs : Start stable s) : (contract C stable).Kept s where
  inv := hs.inv
  safe t := by
    rw [hs.idle t]
    exact ⟨by simp [hs.held], hs.owes t⟩

/-- As long as each grant's successor gets into the store, no grant is given a refresh token that
an earlier one consumed. -/
theorem rotation_safe (hC : C.locked = true) {trace : List (Event ι Operation Answer)}
    {s : Threads ι (ConnectionSet ι) Answer}
    (h : Runs C stable (fun t a r s => (Rotates s a r && Writes a r && Persists stable t s a) = true) trace s) :
    s.shared.past.tokens.consumed.Nodup := by
  have hkept : (contract C stable).Kept s := run (valid_program hC) (fun _ => kept_of_start) h
  exact hkept.inv.spent.nodup

end Runs

/-! ### A removal inside a grant -/

/-- Nothing is registered, and the refresh token `0` is stored for `s`. -/
def blank : ConnectionSet Bool where
  vault := {
    entries := Table.empty
    heap := fun _ => ⟨"", some "s", ⟨none, []⟩, 0, false, false, 0⟩
    nextEntry := 0
    bringupLocks := Table.empty
    nextLock := 0
    held := fun _ => none
    secrets := fun stable => if stable = "s" then some ⟨some 0, []⟩ else none }
  face := ⟨fun _ => ⟨⟨"", "", [], [], .Anonymous⟩, 0, false⟩, Table.empty, Table.empty, Table.empty, []⟩
  past := ⟨⟨[], 1⟩, fun _ => none, fun _ => false, fun _ => 0, [], fun _ => [], []⟩

theorem start_blank : Start "s" (Threads.idle blank) where
  idle _ := rfl
  inv := {
    spent := ⟨List.nodup_nil, fun _ h => by cases h⟩
    shared := fun _ => rfl
    undebted := fun _ => rfl
    head := fun _ head hhead => by
      obtain rfl : (⟨some 0, []⟩ : SecretBundle) = head := Option.some.inj hhead
      intro token htoken
      obtain rfl : 0 = token := Option.some.inj htoken
      exact ⟨Nat.one_pos, List.not_mem_nil⟩ }
  held := rfl
  owes _ := rfl

/-- Three attempts, the default classes of errors, and a cross-process lock. -/
def lockedConfig : Config := ⟨3, defaultClassify, true⟩

/-- What a new connection of the id shows. -/
def connectionOf (id : ConnectionId) : Connection := ⟨id, "", [], [], .AwaitingAuth .NeverAuthenticated⟩

/-- What an operation sees of an entry of `s`. -/
def looks (credentials : Token) (credGen : ℕ) (state : ConnectionAuthState) : ConnEntry × ConnectionAuthState :=
  (⟨"a", some "s", ⟨some credentials, []⟩, credGen, false, false, 0⟩, state)

/-- The thread adds the connection `a`, up to its grant. -/
def grantOfAdd (t : Bool) (e : EntryRef) (made : ℕ) (head next : Token) : List (Event Bool Operation Answer) :=
  let look := looks head 0 (.AwaitingAuth .NeverAuthenticated)
  [.call t (.addConnection (connectionOf "a")), .act t (.lock (.purge "s")) (),
    .act t (.load (some "s")) (.ok (some ⟨some head, []⟩)),
    .act t (.insert (connectionOf "a") (some "s") ⟨some head, []⟩) e, .act t (.unlock (.purge "s")) (),
    .act t (.bringupLockFor "a") made, .act t (.lock (.bringup made)) (), .act t (.ask e .state) look,
    .act t (.ask e .state) look,
    .act t (.lockRefresh "s" true) .Locked, .act t (.ask e .state) look,
    .act t (.load (some "s")) (.ok (some ⟨some head, []⟩)),
    .act t (.change e (.obtain ⟨some head, []⟩)) (.ok (.Bearer ⟨some next, []⟩))]

/-- The rest of the add. -/
def restOfAdd (t : Bool) (e : EntryRef) (made : ℕ) (next : Token) : List (Event Bool Operation Answer) :=
  [.act t (.change e (.commitGrant ⟨some next, []⟩ 0 0)) false, .act t (.ask e .isRegistered) true,
    .act t (.change e (.persist ⟨some next, []⟩)) true, .act t (.change e (.setDebt false)) (),
    .act t (.lock (.purge "s")) (), .act t (.ask e (.sharedByOther e)) false, .act t (.ask e .isRegistered) true,
    .act t (.unlock (.purge "s")) (), .act t (.unlockRefresh "s") none, .act t (.ask e (.verify ⟨some next, []⟩)) none,
    .act t (.ask e .isRegistered) true, .act t (.ask e .state) (looks next 0 (.AwaitingAuth .NeverAuthenticated)),
    .act t (.change e (.activate ⟨some next, []⟩ .Stored 0)) true,
    .act t (.change e (.commitAuthenticated ⟨some next, []⟩ 0 0 .Stored)) true, .act t (.ask e .onAuthenticated) none,
    .act t (.unlock (.bringup made)) (), .act t (.tell e .announce) ()]

/-- The thread refreshes the entry in the background, up to its grant. -/
def grantOfRefresh (t : Bool) (e : EntryRef) (made : ℕ) (head next : Token) : List (Event Bool Operation Answer) :=
  let look := looks head 1 .Authenticated
  [.call t (.backgroundRefresh e), .act t (.wake e) (), .act t (.ask e .state) look, .act t (.bringupLockFor "a") made,
    .act t (.lock (.bringup made)) (), .act t (.ask e .state) look, .act t (.ask e .state) look,
    .act t (.lockRefresh "s" false) .Locked, .act t (.ask e .state) look,
    .act t (.load (some "s")) (.ok (some ⟨some head, []⟩)),
    .act t (.change e (.refresh ⟨some head, []⟩)) (.ok ⟨some next, []⟩)]

/-- An add, and then a refresh in the background. -/
theorem rotation_safe_refresh : ∃ trace s,
    Runs lockedConfig "s" (fun (t : Bool) a r s => (Rotates s a r && Writes a r && Persists "s" t s a) = true) trace s ∧
      s.shared.past.tokens.consumed = [1, 0] ∧ s.shared.past.tokens.consumed.Nodup := by
  obtain ⟨s, hrun, hs⟩ : ∃ s, Runs lockedConfig "s"
        (fun (t : Bool) a r s => (Rotates s a r && Writes a r && Persists "s" t s a) = true)
      (grantOfAdd false 0 0 0 1 ++ restOfAdd false 0 0 1 ++ grantOfRefresh true 0 0 1 2) s ∧
        (s.shared.past.tokens.consumed == [1, 0]) = true :=
    Threads.run_of_any start_blank (by decide +kernel)
  exact ⟨_, s, hrun, beq_iff_eq.mp hs, rotation_safe rfl hrun⟩

/-- The connection is unregistered before its grant is persisted, and added again. -/
def unregisteredMidGrant : List (Event Bool Operation Answer) :=
  grantOfAdd false 0 0 0 1 ++
    [.act false (.change 0 (.commitGrant ⟨some 1, []⟩ 0 0)) false, .call true (.unregisterConnection "a"),
      .act true (.unregister "a" false) (some 0), .act false (.ask 0 .isRegistered) false,
      .act false (.unlockRefresh "s") none] ++ grantOfAdd true 1 1 0 2

theorem replay_after_unregister : ¬∀ (C : Config) (stable : ConnectionId), C.locked = true → ∀ trace s,
    Runs C stable (fun (_ : Bool) a r s => (Rotates s a r && Writes a r) = true) trace s →
    s.shared.past.tokens.consumed.Nodup := by
  intro h
  obtain ⟨s, hrun, hs⟩ : ∃ s, Runs lockedConfig "s" (fun (_ : Bool) a r s => (Rotates s a r && Writes a r) = true)
      unregisteredMidGrant s ∧ (s.shared.past.tokens.consumed == [0, 0]) = true :=
    Threads.run_of_any start_blank (by decide +kernel)
  have hnodup := h lockedConfig "s" rfl _ s hrun
  rw [beq_iff_eq.mp hs] at hnodup
  simp at hnodup

end Rotation

end OvStorage.Connections
