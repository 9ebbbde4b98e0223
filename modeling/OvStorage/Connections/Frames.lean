import OvStorage.Connections.Operations
import OvStorage.Lib.Contract

/-!
# What the actions of a connection set leave

For each part of the state, which actions change it, and that the others leave it.
-/

namespace OvStorage.Connections

open Interleave

variable {ι : Type} [DecidableEq ι]

/-! ### Kinds of steps -/

/-- A grant of the driver. -/
def Change.grants : Change → Bool
  | .obtain _ | .refresh _ => true
  | _ => false

/-- A step that leaves a thread with a bundle to persist, or relieves it of one. -/
def Change.owing : Change → Bool
  | .commitGrant _ _ _ | .persist _ | .setDebt _ | .commitRefreshed _ _ _ false | .commitInteractive _ _ => true
  | _ => false

/-- A write to the secret store. -/
def Change.writes : Change → Bool
  | .persist _ | .delete _ => true
  | _ => false

/-- A commit that moves the generation of the credentials. -/
def Change.bumps : Change → Bool
  | .commitAuthenticated _ _ _ _ | .setState _ | .commitRefreshed _ _ _ _ | .commitInteractive _ _ => true
  | _ => false

/-- The step is on a lock. -/
def Action.locks : Action → Option Lock
  | .lock l | .unlock l => some l
  | .lockRefresh stable _ | .unlockRefresh stable => some (.authRefresh stable)
  | _ => none

/-- The step is a change of a kind. -/
def Action.changes (kind : Change → Bool) : Action → Bool
  | .change _ made => kind made
  | _ => false

/-! ### What a change leaves -/

variable {entry : ConnEntry}

/-- What a change of an entry leaves of it, it leaves of every entry. -/
theorem update_leaves {α : Type} (heap : EntryRef → ConnEntry) (e : EntryRef) (part : ConnEntry → α)
    (h : part entry = part (heap e)) (e' : EntryRef) : part (Function.update heap e entry e') = part (heap e') := by
  by_cases he : e' = e
  · subst he
    simpa using h
  · rw [Function.update_of_ne he]

/-- What a change of an entry raises, it raises for every entry. -/
theorem update_raises (heap : EntryRef → ConnEntry) (e : EntryRef) (part : ConnEntry → ℕ) (e' : EntryRef)
    (h : part (heap e) ≤ part entry) : part (heap e') ≤ part (Function.update heap e entry e') := by
  by_cases he : e' = e
  · subst he
    simpa using h
  · rw [Function.update_of_ne he]

section Change

variable {t : ι} {e : EntryRef} {made : Change} {r : made.Answer} {s s' : ConnectionSet ι}

omit [DecidableEq ι] in
private theorem store_some (v : Vault ι) (stableId : Option ConnectionId) (bundle : SecretBundle)
    {stable : ConnectionId} (h : (v.secrets stable).isSome) :
    ((v.store stableId (some bundle)).secrets stable).isSome := by
  cases stableId with
  | none => exact h
  | some other =>
    by_cases hother : stable = other
    · simp [Vault.store, hother]
    · simpa [Vault.store, Function.update_of_ne hother] using h

/-- What a change of an entry leaves. -/
structure Change.Leaves (t : ι) (made : Change) (s s' : ConnectionSet ι) : Prop where
  tokens : made.grants = false → s'.past.tokens = s.past.tokens
  secrets : made.writes = false → s'.vault.secrets = s.vault.secrets
  /-- Only a delete takes away what is stored. -/
  stored : (∀ other, made ≠ .delete other) →
    ∀ stable, (s.vault.secrets stable).isSome → (s'.vault.secrets stable).isSome
  owes : made.owing = false → s'.past.owes = s.past.owes
  owes_of_ne : ∀ t' ≠ t, s'.past.owes t' = s.past.owes t'
  held : s'.vault.held = s.vault.held
  stableId : ∀ e', (s'.vault.heap e').stableId = (s.vault.heap e').stableId
  id : ∀ e', (s'.vault.heap e').id = (s.vault.heap e').id
  entries : made ≠ .rollback → s'.vault.entries = s.vault.entries
  nextEntry : s'.vault.nextEntry = s.vault.nextEntry
  bringupLocks : s'.vault.bringupLocks = s.vault.bringupLocks
  validating : s'.past.validating = s.past.validating
  persistDebt : (∀ debt, made ≠ .setDebt debt) → ∀ e', (s'.vault.heap e').persistDebt = (s.vault.heap e').persistDebt
  credGen : made.bumps = false → ∀ e', (s'.vault.heap e').credGen = (s.vault.heap e').credGen
  /-- The generations of an entry only go up. -/
  credGen_le : ∀ e', (s.vault.heap e').credGen ≤ (s'.vault.heap e').credGen
  identityGen_le : ∀ e', (s.vault.heap e').identityGen ≤ (s'.vault.heap e').identityGen

theorem Change.exec_leaves (h : made.exec t e s r = some s') : Change.Leaves t made s s' := by
  revert h
  fun_cases Change.exec t e s made r <;> rintro ⟨⟩
  all_goals exact
    { tokens := fun hmade => by first | rfl | cases hmade
      secrets := fun hmade => by first | rfl | cases hmade
      stored := fun hmade _ hstored => by
        first | exact hstored | exact absurd rfl (hmade _) | exact store_some _ _ _ hstored
      owes := fun hmade => by first | rfl | simp_all [Change.owing]
      owes_of_ne := fun _ ht => by first | rfl | exact Function.update_of_ne ht _ _
      held := rfl
      stableId := fun e' => by first | rfl | exact update_leaves s.vault.heap _ ConnEntry.stableId (by rfl) e'
      id := fun e' => by first | rfl | exact update_leaves s.vault.heap _ ConnEntry.id (by rfl) e'
      entries := fun hmade => by first | rfl | exact absurd rfl hmade
      nextEntry := rfl
      bringupLocks := rfl
      validating := rfl
      persistDebt := fun hmade e' => by
        first | rfl | exact update_leaves s.vault.heap _ ConnEntry.persistDebt (by rfl) e' | exact absurd rfl (hmade _)
      credGen := fun hmade e' => by
        first | rfl | exact update_leaves s.vault.heap _ ConnEntry.credGen (by rfl) e' | cases hmade
      credGen_le := fun e' => by
        first
          | exact le_rfl
          | exact update_raises s.vault.heap _ ConnEntry.credGen e' (by first | exact le_rfl | exact Nat.le_succ _)
      identityGen_le := fun e' => by
        first
          | exact le_rfl
          | exact update_raises s.vault.heap _ ConnEntry.identityGen e'
              (by first | exact le_rfl | exact Nat.le_succ _ | grind) }

end Change

/-! ### What an action leaves -/

section Action

variable {C : Config} {t : ι} {a : Action} {r : Answer a} {s s' : ConnectionSet ι}

/-- What is asked changes nothing. -/
theorem Action.exec_ask {e : EntryRef} {question : Question} {r : question.Answer} :
    (Action.ask e question).exec C t r s = some s' ↔ question.answers e s r = true ∧ s = s' := by
  simp [Action.exec]

theorem Action.exec_state {e : EntryRef} {r : ConnEntry × ConnectionAuthState} :
    (Action.ask e .state).exec C t r s = some s' ↔
      r = (s.vault.heap e, (s.face.shown e).connection.authState) ∧ s = s' := by
  simp [Action.exec, Question.answers]

theorem Action.exec_tokens (h : a.exec C t r s = some s') (ha : a.changes Change.grants = false) :
    s'.past.tokens = s.past.tokens := by
  revert h ha
  fun_cases Action.exec C t a r s
  case case4 => exact fun h => (Change.exec_leaves h).tokens
  all_goals rintro ⟨⟩ -
  all_goals rfl

theorem Action.exec_secrets (h : a.exec C t r s = some s') (ha : a.changes Change.writes = false) :
    s'.vault.secrets = s.vault.secrets := by
  revert h ha
  fun_cases Action.exec C t a r s
  case case4 => exact fun h => (Change.exec_leaves h).secrets
  all_goals rintro ⟨⟩ -
  all_goals rfl

theorem Action.exec_owes (h : a.exec C t r s = some s') (ha : a.changes Change.owing = false) :
    s'.past.owes = s.past.owes := by
  revert h ha
  fun_cases Action.exec C t a r s
  case case4 => exact fun h => (Change.exec_leaves h).owes
  all_goals rintro ⟨⟩ -
  all_goals rfl

variable {t' : ι}

theorem Action.exec_owes_of_ne (h : a.exec C t r s = some s') (ht : t' ≠ t) : s'.past.owes t' = s.past.owes t' := by
  revert h
  fun_cases Action.exec C t a r s
  case case4 => exact fun h => (Change.exec_leaves h).owes_of_ne t' ht
  all_goals rintro ⟨⟩
  all_goals rfl

theorem Action.exec_held (h : a.exec C t r s = some s') {l : Lock} (hl : a.locks ≠ some l) :
    s'.vault.held l = s.vault.held l := by
  revert h hl
  fun_cases Action.exec C t a r s
  case case4 => exact fun h _ => congrFun (Change.exec_leaves h).held l
  all_goals rintro ⟨⟩ hl
  all_goals first | rfl | exact Function.update_of_ne (fun h => hl (congrArg some h.symm)) _ _

omit [DecidableEq ι] in
private theorem hold_of_ne {l : Lock} {holder : Option ι} (hl : s.vault.held l ≠ some t') (hholder : holder ≠ some t')
    (l' : Lock) : (s.hold l holder).vault.held l' = some t' ↔ s.vault.held l' = some t' := by
  by_cases h : l' = l
  · subst h
    simp [ConnectionSet.hold, hl, hholder]
  · simp [ConnectionSet.hold, Function.update_of_ne h]

/-- An action of another thread neither takes nor gives back what a thread holds. -/
theorem Action.exec_held_of_ne (h : a.exec C t r s = some s') (ht : t' ≠ t) (l : Lock) :
    s'.vault.held l = some t' ↔ s.vault.held l = some t' := by
  have hsome : some t ≠ some t' := fun h => ht (Option.some.inj h).symm
  revert h
  fun_cases Action.exec C t a r s
  case case4 => exact fun h => by rw [(Change.exec_leaves h).held]
  all_goals rintro ⟨⟩
  all_goals first | rfl | exact hold_of_ne (by simp_all) (by simp_all) l

/-- The actions that are no change and register no entry leave all entries, up to the intent to purge. -/
theorem Action.exec_heap {α : Type} (part : ConnEntry → α)
    (hpart : ∀ entry purge, part { entry with purgeOnRemoval := purge } = part entry) (h : a.exec C t r s = some s')
    (hchange : ∀ e made, a ≠ .change e made)
    (hinsert : ∀ connection stableId credentials, a ≠ .insert connection stableId credentials) (e : EntryRef) :
    part (s'.vault.heap e) = part (s.vault.heap e) := by
  revert h hchange hinsert
  fun_cases Action.exec C t a r s
  case case4 => exact fun _ hchange => absurd rfl (hchange _ _)
  all_goals rintro ⟨⟩ - hinsert
  all_goals first | rfl | exact absurd rfl (hinsert _ _ _) | exact update_leaves s.vault.heap _ part (hpart _ _) e

/-- The actions on neither the registry, an entry nor the single-flight locks. -/
def Action.aside : Action → Bool
  | .change _ .captureGen => true
  | .change _ _ | .insert _ _ _ | .unregister _ _ | .bringupLockFor _
  | .lock (.bringup _) | .unlock (.bringup _) => false
  | _ => true

/-- What such an action leaves. -/
structure Aside (s s' : ConnectionSet ι) : Prop where
  entries : s'.vault.entries = s.vault.entries
  heap : s'.vault.heap = s.vault.heap
  nextEntry : s'.vault.nextEntry = s.vault.nextEntry
  bringupLocks : s'.vault.bringupLocks = s.vault.bringupLocks
  secrets : s'.vault.secrets = s.vault.secrets
  tokens : s'.past.tokens = s.past.tokens
  owes : s'.past.owes = s.past.owes
  validating : s'.past.validating = s.past.validating
  held : ∀ made, s'.vault.held (.bringup made) = s.vault.held (.bringup made)

theorem Action.exec_aside (h : a.exec C t r s = some s') (ha : a.aside = true) : Aside s s' := by
  have hheld : ∀ made, a.locks ≠ some (.bringup made) := by
    intro made hlocks
    cases a <;> simp_all [Action.locks, Action.aside]
  have hheld := fun made => a.exec_held h (hheld made)
  revert h ha hheld
  fun_cases Action.exec C t a r s
  case case4 e made r =>
    intro h ha hheld
    obtain rfl : made = .captureGen := by cases made <;> simp_all [Action.aside]
    obtain ⟨-, rfl⟩ := Option.of_guard h
    exact ⟨rfl, rfl, rfl, rfl, rfl, rfl, rfl, rfl, hheld⟩
  all_goals rintro ⟨⟩ ha hheld
  all_goals first | exact ⟨rfl, rfl, rfl, rfl, rfl, rfl, rfl, rfl, hheld⟩ | cases ha

end Action

/-! ### What the fenced commits do -/

section Commits

variable {C : Config} {t : ι} {e : EntryRef} {s s' : ConnectionSet ι} {credentials : SecretBundle}
  {credGen identityGen : ℕ}

theorem Action.exec_commitGrant {superseded : Bool}
    (h : (Action.change e (.commitGrant credentials credGen identityGen)).exec C t superseded s = some s') :
    superseded = true ∧ ¬((s.vault.heap e).credGen = credGen ∧ (s.vault.heap e).identityGen = identityGen) ∧ s' = s ∨
      superseded = false ∧ ((s.vault.heap e).credGen = credGen ∧ (s.vault.heap e).identityGen = identityGen) ∧
        s' = { s with vault := s.vault.modify e fun entry => { entry with credentials } }.owing t
          (some credentials) := by
  simp only [Action.exec, Change.exec] at h
  split_ifs at h with hgens hsuperseded
  · have hmoved := of_decide_eq_true (hgens.symm.trans hsuperseded)
    exact .inl ⟨hsuperseded, by tauto, (Option.some.inj h).symm⟩
  · have hkept := of_decide_eq_false (hgens.symm.trans (Bool.eq_false_of_not_eq_true hsuperseded))
    exact .inr ⟨by simpa using hsuperseded, by tauto, (Option.some.inj h).symm⟩

variable {lineage : Lineage}

theorem Action.exec_activate {activated : Bool}
    (h : (Action.change e (.activate credentials lineage identityGen)).exec C t activated s = some s') :
    activated = false ∧ s' = s ∨
      activated = true ∧ (s.vault.heap e).identityGen = identityGen ∧ (lineage = .Stored ∧ s' = s ∨
        lineage = .Fresh ∧ s' = { s with vault := s.vault.modify e fun entry =>
          { entry with identityGen := entry.identityGen + 1 } }) := by
  cases activated with
  | false => exact .inl ⟨rfl, (Option.some.inj h).symm⟩
  | true =>
    simp only [Action.exec, Change.exec] at h
    split_ifs at h with hgen hlineage
    · exact .inr ⟨rfl, not_not.mp hgen, .inr ⟨hlineage, (Option.some.inj h).symm⟩⟩
    · refine .inr ⟨rfl, not_not.mp hgen, .inl ⟨?_, (Option.some.inj h).symm⟩⟩
      cases lineage with
      | Fresh => exact absurd rfl hlineage
      | Stored => rfl

variable {committed : Bool}

theorem Action.exec_commitAuthenticated
    (h : (Action.change e (.commitAuthenticated credentials credGen identityGen lineage)).exec C t committed
      s = some s') :
    committed = decide ((s.vault.heap e).credGen = credGen ∧
      (lineage = .Stored → (s.vault.heap e).identityGen = identityGen)) ∧
      s' = if committed then s.swap e credentials .Authenticated else s := by
  simp only [Action.exec, Change.exec] at h
  split_ifs at h with hgens hcommitted
  · exact ⟨hgens, by rw [if_pos hcommitted, Option.some.inj h]⟩
  · exact ⟨hgens, by rw [if_neg hcommitted, Option.some.inj h]⟩

theorem Action.exec_commitRefreshed {persisted : Bool}
    (h : (Action.change e (.commitRefreshed credentials credGen identityGen persisted)).exec C t committed
      s = some s') :
    committed = decide ((s.vault.heap e).credGen = credGen ∧ (s.vault.heap e).identityGen = identityGen) ∧
      s' = if !committed then s
        else if persisted then s.swap e credentials .Authenticated
        else (s.swap e credentials .Authenticated).owing t (some credentials) := by
  simp only [Action.exec, Change.exec] at h
  split_ifs at h with hgens hcommitted hpersisted
  · exact ⟨hgens, by rw [if_pos hcommitted, Option.some.inj h]⟩
  · exact ⟨hgens, by rw [if_neg hcommitted, if_pos hpersisted, Option.some.inj h]⟩
  · exact ⟨hgens, by rw [if_neg hcommitted, if_neg hpersisted, Option.some.inj h]⟩

theorem Action.exec_commitInteractive {installed : ℕ}
    (h : (Action.change e (.commitInteractive credentials installed)).exec C t committed s = some s') :
    committed = decide ((s.vault.heap e).identityGen = installed) ∧
      s' = if committed then (s.swap e credentials .Authenticated).owing t (some credentials) else s := by
  simp only [Action.exec, Change.exec] at h
  split_ifs at h with hgens hcommitted
  · exact ⟨hgens, by rw [if_pos hcommitted, Option.some.inj h]⟩
  · exact ⟨hgens, by rw [if_neg hcommitted, Option.some.inj h]⟩

end Commits

/-! ### One connection that stays -/

section Registered

variable {C : Config} {t : ι} {a : Action} {r : Answer a} {s s' : ConnectionSet ι} {id stable : ConnectionId}

/-- The step is on the registry. -/
def Action.registers : Action → Bool
  | .insert _ _ _ | .unregister _ _ | .change _ .rollback => true
  | _ => false

/-- The entry of the connection is registered, and no other. -/
structure Registered (id stable : ConnectionId) (s : ConnectionSet ι) : Prop where
  entries : ∀ id' e, s.vault.entries.get id' = some e ↔ id' = id ∧ e = 0
  next : s.vault.nextEntry = 1
  id : (s.vault.heap 0).id = id
  stableId : (s.vault.heap 0).stableId = some stable

omit [DecidableEq ι] in
theorem Registered.isRegistered (hs : Registered id stable s) : s.vault.isRegistered (s.vault.heap 0).id = true := by
  have hentry := (hs.entries id 0).mpr ⟨rfl, rfl⟩
  simp [Vault.isRegistered, hs.id, hentry]

omit [DecidableEq ι] in
theorem Registered.not_shared (hs : Registered id stable s) : s.vault.stableIdSharedByOther 0 = false := by
  simp only [Vault.stableIdSharedByOther, hs.stableId, List.any_eq_false]
  rintro ⟨id', e⟩ hrow
  have he := ((hs.entries id' e).mp (Table.mem_rows_iff.mp hrow)).2
  simp [he]

theorem Registered.step (hs : Registered id stable s) (h : a.exec C t r s = some s') (ha : a.registers = false) :
    Registered id stable s' := by
  revert h ha
  fun_cases Action.exec C t a r s
  case case4 e made r =>
    intro h ha
    have hrollback : made ≠ .rollback := by
      rintro rfl
      cases ha
    refine ⟨fun id' e' => ?_, (Change.exec_leaves h).nextEntry.trans hs.next, ((Change.exec_leaves h).id 0).trans hs.id,
      ((Change.exec_leaves h).stableId 0).trans hs.stableId⟩
    rw [(Change.exec_leaves h).entries hrollback]
    exact hs.entries id' e'
  all_goals rintro ⟨⟩ ha
  all_goals first | exact ⟨hs.entries, hs.next, hs.id, hs.stableId⟩ | cases ha

end Registered

/-! ### What a contract passes over -/

section Silent

variable {C : Config}

/-- The contract is about neither what the connections show nor what is asked or loaded. -/
structure Hushed (D : Contract (Action.exec (ι := ι) C)) : Prop where
  asks : ∀ e question, D.Calm (.ask e question)
  tells : ∀ e notice, D.Calm (.tell e notice)
  entries : ∀ id, D.Calm (.entry id)
  wakes : ∀ e, D.Calm (.wake e)
  loads : ∀ stableId, D.Calm (.load stableId)

/-- Nor is it about the purge locks. -/
structure Silent (D : Contract (Action.exec (ι := ι) C)) : Prop extends Hushed D where
  locks : ∀ stable, D.Calm (.lock (.purge stable))
  unlocks : ∀ stable, D.Calm (.unlock (.purge stable))

variable {D : Contract (Action.exec (ι := ι) C)} {t : ι} {K : ConnectionSet ι → Prop} {e : EntryRef} {k : Program}

theorem Hushed.valid_ask (hD : Hushed D) (hK : D.Stable t K) {question : Question} {k : question.Answer → Program}
    (hk : ∀ r, D.Valid t K (k r)) : D.Valid t K (ask e question k) :=
  Contract.Valid.calm (hD.asks e question) hK hk

theorem Hushed.valid_tell (hD : Hushed D) (hK : D.Stable t K) {notice : Notice} (hk : D.Valid t K k) :
    D.Valid t K (tell e notice k) :=
  Contract.Valid.calm (hD.tells e notice) hK fun _ => hk

variable {id : ConnectionId}

theorem Hushed.valid_withEntry (hD : Hushed D) (hK : D.Stable t K) (hret : D.Valid t K .ret)
    {k : EntryRef → Program} (hk : ∀ e, D.Valid t K (k e)) : D.Valid t K (withEntry id k) := by
  refine Contract.Valid.calm (hD.entries id) hK fun r => ?_
  cases r with
  | none => exact hret
  | some e => exact hk e

theorem Hushed.valid_runOnAuthenticated (hD : Hushed D) (hK : D.Stable t K) {k : Bool → Program}
    (hk : ∀ succeeded, D.Valid t K (k succeeded)) : D.Valid t K (runOnAuthenticated e k) := by
  refine hD.valid_ask hK fun r => ?_
  cases r with
  | none => exact hk true
  | some error => exact hD.valid_tell hK (hk false)

variable {stableId : Option ConnectionId}

/-- The lock of a purge, around the rest. -/
theorem Silent.valid_lockPurge (hD : Silent D) (hK : D.Stable t K) (hk : D.Valid t K k) :
    D.Valid t K (lockPurge stableId k) := by
  cases stableId with
  | none => exact hk
  | some stable => exact Contract.Valid.calm (hD.locks stable) hK fun _ => hk

theorem Silent.valid_unlockPurge (hD : Silent D) (hK : D.Stable t K) (hk : D.Valid t K k) :
    D.Valid t K (unlockPurge stableId k) := by
  cases stableId with
  | none => exact hk
  | some stable => exact Contract.Valid.calm (hD.unlocks stable) hK fun _ => hk

theorem Hushed.valid_stillOrphaned (hD : Hushed D) (hK : D.Stable t K) {orphan : Orphan} {k : Bool → Program}
    (hk : ∀ orphaned, D.Valid t K (k orphaned)) : D.Valid t K (stillOrphaned e orphan k) := by
  cases orphan with
  | always => exact hk true
  | unregistered => exact hD.valid_ask hK fun registered => hk _
  | purged =>
    refine hD.valid_ask hK fun registered => ?_
    split_ifs
    · exact hk false
    · exact hD.valid_ask hK fun state => hk _

theorem Silent.valid_purge (hD : Silent D) (hK : D.Stable t K) {other : EntryRef} {orphan : Orphan} {k : Bool → Program}
    (hdelete : D.Calm (.change e (.delete other))) (hk : ∀ purged, D.Valid t K (k purged)) :
    D.Valid t K (purgeDurableCredential e other stableId orphan k) := by
  have hdone : ∀ purged, D.Valid t K (unlockPurge stableId (k purged)) :=
    fun purged => hD.valid_unlockPurge hK (hk purged)
  refine hD.valid_lockPurge hK (hD.valid_ask hK fun shared => ?_)
  split_ifs
  · exact hdone true
  · refine hD.valid_stillOrphaned hK fun orphaned => ?_
    split_ifs
    · exact Contract.Valid.calm hdelete hK hdone
    · exact hdone true

theorem Hushed.valid_parkRefreshFailure (hD : Hushed D) (hK : D.Stable t K) {error : ErrorCode} (hk : D.Valid t K k) :
    D.Valid t K (parkRefreshFailure C e error k) :=
  hD.valid_tell hK (hD.valid_tell hK hk)

theorem Hushed.valid_bringUpTail (hD : Hushed D) (hK : D.Stable t K) {l : Lock} (hk : D.Valid t K (unlock l .ret))
    (failure : Option ErrorCode) : D.Valid t K (bringUpTail C e l failure) := by
  cases failure with
  | none =>
    refine hD.valid_ask hK fun state => ?_
    split_ifs
    · exact hD.valid_tell hK (hD.valid_tell hK (hD.valid_tell hK hk))
    · exact hD.valid_tell hK (hD.valid_tell hK (hD.valid_tell hK hk))
  | some error =>
    simp only [bringUpTail]
    split_ifs
    · exact hk
    all_goals exact hD.valid_tell hK (hD.valid_tell hK (hD.valid_tell hK (hD.valid_tell hK hk)))

theorem Hushed.valid_bringUpLocked (hD : Hushed D) (hK : D.Stable t K) {l : Lock} {genBefore : ℕ}
    (hunlock : D.Valid t K (unlock l .ret))
    (hgrant : ∀ credentials, D.Valid t K (obtainAndApply C e credentials .Stored (bringUpTail C e l))) :
    D.Valid t K (bringUpLocked C e l genBefore) := by
  refine hD.valid_ask hK fun again => ?_
  split_ifs
  · exact hunlock
  refine hD.valid_ask hK fun generation => ?_
  split_ifs
  · exact hunlock
  refine hD.valid_ask hK fun state => ?_
  split_ifs
  · exact hgrant _
  refine Contract.Valid.calm (hD.loads _) hK fun loaded => ?_
  match loaded with
  | .ok (some head) => exact hgrant head
  | .ok none => exact hD.valid_ask hK fun state => hgrant _
  | .error _ => exact hunlock

/-- What comes before the single-flight lock of a bring-up, once its entry is found. -/
theorem Hushed.valid_bringUpEntry (hD : Hushed D) (hK : D.Stable t K) (hret : D.Valid t K .ret) {force : Bool}
    (hlocked : ∀ genBefore, D.Valid t K (singleFlight id fun l => bringUpLocked C e l genBefore)) :
    D.Valid t K (ask e .state fun state =>
      if state.2.ready then .ret
      else
        let queue := ask e .bringupGen fun genBefore => singleFlight id fun l => bringUpLocked C e l genBefore
        if force then queue else ask e .inCooldown fun cooling => if cooling then .ret else queue) := by
  refine hD.valid_ask hK fun state => ?_
  have hqueue : D.Valid t K (ask e .bringupGen fun genBefore => singleFlight id fun l =>
      bringUpLocked C e l genBefore) :=
    hD.valid_ask hK hlocked
  split_ifs
  · exact hret
  · exact hqueue
  refine hD.valid_ask hK fun cooling => ?_
  split_ifs
  · exact hret
  · exact hqueue

theorem Hushed.valid_bringUp (hD : Hushed D) (hK : D.Stable t K) (hret : D.Valid t K .ret) {force : Bool}
    (hlocked : ∀ e genBefore, D.Valid t K (singleFlight id fun l => bringUpLocked C e l genBefore)) :
    D.Valid t K (bringUp C id force) :=
  hD.valid_withEntry hK hret fun e => hD.valid_bringUpEntry hK hret (hlocked e)

end Silent

/-- The registration in `add_connection_deferred`. -/
def registration (C : Config) (connection : Connection) (stableId : Option ConnectionId) (credentials : SecretBundle)
    (lineage : Lineage) (k : EntryRef → Program) : Program :=
  .act (.insert connection stableId credentials) fun e => unlockPurge stableId <| singleFlight connection.id fun l =>
    runValidation C e credentials lineage .NeverAuthenticated fun
      | none => unlock l (k e)
      | some _ => change e .rollback fun _ => unlock l .ret

end OvStorage.Connections
