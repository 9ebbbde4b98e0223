import OvStorage.Connections.Changes

/-!
# The successor of a connection

An entry is removed while its operations are in progress, and another is registered under its id.

## The fences

An operation works on its own entry by reference, tells subscribers only while that entry is the
registered one, and deletes from the store under the purge lock, where no other entry shares the
stable id. So far its steps leave the successor alone. What they write under the id itself is
fenced on the id at most, and so is the persist: `Fenced` says when such a step finds no
successor in its way.
-/

namespace OvStorage.Connections.Successor

open Interleave Function Contract

section Statement

variable {ι : Type}

/-- Another entry is registered under the id of the entry. -/
def successor (s : ConnectionSet ι) (e : EntryRef) : Option EntryRef :=
  (s.vault.entries.get (s.vault.heap e).id).filter (· != e)

/-- The step is one that the operations of the entry take. The rest of the interface acts on an id. -/
def belongsTo (e : EntryRef) : Action → Bool
  | .ask e' _ | .tell e' _ | .change e' _ | .wake e' => e' == e
  | .insert _ _ _ | .unregister _ _ | .announce _ | .setAddresses _ _ | .updateAttributes _ _ _ => false
  | _ => true

/-- A step that writes under the id, or to the store, finds no successor there. -/
def Fenced (s : ConnectionSet ι) : Action → Bool
  | .tell e notice =>
    match notice with
    | .recordBringupOutcome _ | .setCooldown | .clearCooldown | .bumpRefreshGen | .announce => (successor s e).isNone
    | _ => true
  | .change e made =>
    match made with
    | .rollback => (successor s e).isNone
    | .persist _ =>
      (s.vault.heap e).stableId.all fun stable => (successor s e).all fun other =>
        (s.vault.heap other).stableId != some stable
    | .delete other | .forgetOauth other => successor s e != some other
    | _ => true
  | _ => true

/-- What belongs to the entry that is registered under the id is as it was. -/
structure Untouched (s s' : ConnectionSet ι) (id : ConnectionId) (e : EntryRef) : Prop where
  heap : s'.vault.heap e = s.vault.heap e
  shown : s'.face.shown e = s.face.shown e
  registered : s'.vault.entries.get id = s.vault.entries.get id
  cooldown : s'.face.cooldowns.get id = s.face.cooldowns.get id
  bringupGen : s'.face.bringupGens.get id = s.face.bringupGens.get id
  refreshGen : s'.face.refreshGens.get id = s.face.refreshGens.get id
  stored : s'.vault.stored (s.vault.heap e).stableId = s.vault.stored (s.vault.heap e).stableId

/-- The step leaves the successor of the entry whose operation takes it. -/
def Spares (s : ConnectionSet ι) (a : Action) (s' : ConnectionSet ι) : Prop :=
  ∀ e e', belongsTo e a = true → successor s e = some e' → Untouched s s' (s.vault.heap e).id e'

theorem successor_eq_some {s : ConnectionSet ι} {e e' : EntryRef} :
    successor s e = some e' ↔ s.vault.entries.get (s.vault.heap e).id = some e' ∧ e' ≠ e := by
  simp [successor, Option.filter_eq_some_iff]

/-- A step that changes neither entries, nor what is registered, shown, told or stored. -/
theorem Untouched.of_eq {s s' : ConnectionSet ι} {id : ConnectionId} {e : EntryRef}
    (hheap : s'.vault.heap = s.vault.heap) (hentries : s'.vault.entries = s.vault.entries)
    (hsecrets : s'.vault.secrets = s.vault.secrets) (hface : s'.face = s.face) :
    Untouched s s' id e := by
  constructor <;> simp only [hheap, hentries, hsecrets, hface, Vault.stored]

end Statement

section Contract

variable {ι : Type} [DecidableEq ι]

/-- What is registered is in the heap, under its id. -/
def Inv (s : ConnectionSet ι) : Prop :=
  ∀ id e, s.vault.entries.get id = some e → e < s.vault.nextEntry ∧ (s.vault.heap e).id = id

/-- No other entry with the stable id is registered. -/
def Clear (stable : ConnectionId) (other : EntryRef) (s : ConnectionSet ι) : Prop :=
  ∀ id e, s.vault.entries.get id = some e → e ≠ other → (s.vault.heap e).stableId ≠ some stable

/-- Entries keep their stable ids. -/
structure Ages (s s' : ConnectionSet ι) : Prop where
  next : s.vault.nextEntry ≤ s'.vault.nextEntry
  stableId : ∀ e < s.vault.nextEntry, (s'.vault.heap e).stableId = (s.vault.heap e).stableId

/-- Who holds a purge lock keeps it, and nothing is registered with its stable id meanwhile. -/
structure Rely (t : ι) (s s' : ConnectionSet ι) : Prop extends Ages s s' where
  held : ∀ stable, s.vault.held (.purge stable) = some t → s'.vault.held (.purge stable) = some t
  clear : ∀ stable other, s.vault.held (.purge stable) = some t → Clear stable other s → Clear stable other s'

omit [DecidableEq ι] in
theorem Ages.trans {s₁ s₂ s₃ : ConnectionSet ι} (h₁ : Ages s₁ s₂) (h₂ : Ages s₂ s₃) : Ages s₁ s₃ :=
  ⟨h₁.next.trans h₂.next, fun e he => (h₂.stableId e (he.trans_le h₁.next)).trans (h₁.stableId e he)⟩

def contract (C : Config) : Contract (Action.exec (ι := ι) C) where
  allowed _ _ _ _ := True
  inv := Inv
  guar t a s s' := (∀ t' ≠ t, Rely t' s s') ∧ (Fenced s a = true → Spares s a s')
  rely := Rely
  quiet _ _ := True
  rely_refl _ _ := { next := le_rfl, stableId := fun _ _ => rfl, held := fun _ h => h, clear := fun _ _ _ h => h }
  rely_trans h₁ h₂ := {
    toAges := h₁.toAges.trans h₂.toAges
    held := fun stable h => h₂.held stable (h₁.held stable h)
    clear := fun stable other hheld h => h₂.clear stable other (h₁.held stable hheld) (h₁.clear stable other hheld h) }
  rely_of_guar ht h := h.1 _ ht
  quiet_of_rely _ h := h

end Contract

/-! ### What a step leaves -/

section Steps

variable {ι : Type} [DecidableEq ι] {C : Config} {t : ι} {a : Action} {r : Answer a} {s s' : ConnectionSet ι}

/-- Nothing is registered anew, and entries keep their ids. -/
structure Still (s s' : ConnectionSet ι) : Prop where
  entries : ∀ id e, s'.vault.entries.get id = some e → s.vault.entries.get id = some e
  next : s'.vault.nextEntry = s.vault.nextEntry
  id : ∀ e, (s'.vault.heap e).id = (s.vault.heap e).id
  stableId : ∀ e, (s'.vault.heap e).stableId = (s.vault.heap e).stableId

variable {e : EntryRef}

omit [DecidableEq ι] in
theorem get_of_erase {id id' : ConnectionId} (h : (s.vault.entries.erase id).get id' = some e) :
    s.vault.entries.get id' = some e := by
  by_cases hid : id' = id
  · simp [hid] at h
  · rwa [Table.get_erase_of_ne _ hid] at h

/-- Only an add registers an entry. -/
theorem still_of_exec (h : a.exec C t r s = some s')
    (ha : ∀ connection stableId credentials, a ≠ .insert connection stableId credentials) :
    Still s s' := by
  revert h ha
  fun_cases Action.exec C t a r s
  case case4 e made r =>
    intro h _
    refine ⟨fun id e' he' => ?_, (Change.exec_leaves h).nextEntry, (Change.exec_leaves h).id,
      (Change.exec_leaves h).stableId⟩
    by_cases hrollback : made = .rollback
    · subst hrollback
      cases h
      exact get_of_erase he'
    · rwa [(Change.exec_leaves h).entries hrollback] at he'
  all_goals rintro ⟨⟩ ha
  all_goals first
    | exact ⟨fun _ _ h => h, rfl, fun _ => rfl, fun _ => rfl⟩
    | exact absurd rfl (ha _ _ _)
    | exact ⟨fun _ _ h => get_of_erase h, rfl, update_leaves s.vault.heap _ ConnEntry.id (by rfl),
      update_leaves s.vault.heap _ ConnEntry.stableId (by rfl)⟩

section

omit [DecidableEq ι]

theorem Still.inv (h : Still s s') (hs : Inv s) : Inv s' := by
  intro id e he
  obtain ⟨hlt, hid⟩ := hs id e (h.entries id e he)
  exact ⟨h.next ▸ hlt, (h.id e).trans hid⟩

theorem Still.ages (h : Still s s') : Ages s s' := ⟨h.next.ge, fun e _ => h.stableId e⟩

theorem Still.rely (h : Still s s')
    (hheld : ∀ stable, s.vault.held (.purge stable) = some t → s'.vault.held (.purge stable) = some t) :
    Rely t s s' where
  toAges := h.ages
  held := hheld
  clear stable other _ hclear id e he hne := by
    rw [h.stableId]
    exact hclear id e (h.entries id e he) hne

/-- What the notices do to the successor. -/
theorem spares_tell {notice : Notice} {r : notice.Answer} (hfenced : Fenced s (.tell e notice) = true) :
    Spares s (.tell e notice) { s with face := notice.apply C s.vault e s.face r } := by
  intro e₀ e' hby hsucc
  obtain rfl : e = e₀ := beq_iff_eq.mp hby
  have hne : e' ≠ e := (successor_eq_some.mp hsucc).2
  have hemit : ∀ f : Face, (f.emitUpdated e).shown = f.shown ∧ (f.emitUpdated e).cooldowns = f.cooldowns ∧
      (f.emitUpdated e).bringupGens = f.bringupGens ∧ (f.emitUpdated e).refreshGens = f.refreshGens := by
    intro f
    simp only [Face.emitUpdated]
    split_ifs <;> exact ⟨rfl, rfl, rfl, rfl⟩
  cases notice with
  | park reason error => exact ⟨rfl, update_of_ne hne _ _, rfl, rfl, rfl, rfl, rfl⟩
  | parkAwaiting reason => exact ⟨rfl, update_of_ne hne _ _, rfl, rfl, rfl, rfl, rfl⟩
  | parkAndEmitIfLive reason error =>
    obtain ⟨hs, hcooldowns, hbringup, hrefresh⟩ := hemit (s.face.park C e reason error)
    simp only [Notice.apply]
    split_ifs
    · exact ⟨rfl, (congrFun hs e').trans (update_of_ne hne _ _), rfl,
        by rw [hcooldowns]; rfl, by rw [hbringup]; rfl, by rw [hrefresh]; rfl, rfl⟩
    · exact .of_eq rfl rfl rfl rfl
  | emitUpdatedIfLive =>
    obtain ⟨hs, hcooldowns, hbringup, hrefresh⟩ := hemit s.face
    simp only [Notice.apply]
    split_ifs
    · exact ⟨rfl, congrFun hs e', rfl, by rw [hcooldowns], by rw [hbringup], by rw [hrefresh], rfl⟩
    · exact .of_eq rfl rfl rfl rfl
  | _ => simp [Fenced, hsucc] at hfenced

/-- A write to the store of an entry with another stable id. -/
theorem stored_store {e' : EntryRef} {bundle : Option SecretBundle}
    (h : ∀ stable, (s.vault.heap e).stableId = some stable → (s.vault.heap e').stableId ≠ some stable) :
    (s.stores e bundle).vault.stored (s.vault.heap e').stableId = s.vault.stored (s.vault.heap e').stableId := by
  cases hstable : (s.vault.heap e).stableId with
  | none => simp [ConnectionSet.stores, Vault.store, Vault.stored, hstable]
  | some stable =>
    have hne := h stable hstable
    cases hother : (s.vault.heap e').stableId with
    | none => rfl
    | some other =>
      rw [hother] at hne
      have hne' : other ≠ stable := fun h => hne (congrArg some h)
      simp [ConnectionSet.stores, Vault.store, Vault.stored, hstable, update_of_ne hne']

end

/-- What the changes do to the successor, but for a delete. -/
theorem spares_change {made : Change} {r : made.Answer} (h : made.exec t e s r = some s')
    (hfenced : Fenced s (.change e made) = true) (hdelete : ∀ other, made ≠ .delete other) :
    Spares s (.change e made) s' := by
  intro e₀ e' hby hsucc
  obtain rfl : e = e₀ := beq_iff_eq.mp hby
  have hne : e' ≠ e := (successor_eq_some.mp hsucc).2
  have hheap : ∀ entry, update s.vault.heap e entry e' = s.vault.heap e' := fun _ => update_of_ne hne _ _
  have hshown : ∀ shown, update s.face.shown e shown e' = s.face.shown e' := fun _ => update_of_ne hne _ _
  revert h hfenced hdelete
  fun_cases Change.exec t e s made r <;> rintro ⟨⟩ hfenced hdelete
  case case8 bundle =>
    refine ⟨rfl, rfl, rfl, rfl, rfl, rfl, stored_store fun stable hstable hother => ?_⟩
    simp [Fenced, hsucc, hstable, hother] at hfenced
  case case13 other _ =>
    have hother : e' ≠ other := by
      rintro rfl
      simp [Fenced, hsucc] at hfenced
    exact ⟨update_of_ne hother _ _, rfl, rfl, rfl, rfl, rfl, rfl⟩
  all_goals first
    | exact .of_eq rfl rfl rfl rfl
    | exact ⟨hheap _, rfl, rfl, rfl, rfl, rfl, rfl⟩
    | exact ⟨rfl, hshown _, rfl, rfl, rfl, rfl, rfl⟩
    | exact ⟨hheap _, hshown _, rfl, rfl, rfl, rfl, rfl⟩
    | exact absurd rfl (hdelete _)
    | simp [Fenced, hsucc] at hfenced

/-- The actions that the programs take without a thought. -/
def tame : Action → Bool
  | .insert _ _ _ | .lock (.purge _) | .unlock (.purge _) | .change _ (.delete _) => false
  | _ => true

/-- What the steps do to the successor, but for a delete. -/
theorem spares_of_exec (h : a.exec C t r s = some s') (hfenced : Fenced s a = true)
    (hdelete : ∀ e other, a ≠ .change e (.delete other)) : Spares s a s' := by
  revert h hfenced hdelete
  fun_cases Action.exec C t a r s
  case case4 e made r =>
    exact fun h hfenced hdelete => spares_change h hfenced fun other hmade => hdelete e other (by rw [hmade])
  all_goals rintro ⟨⟩ hfenced hdelete
  all_goals first
    | exact spares_tell hfenced
    | exact fun _ _ _ _ => .of_eq rfl rfl rfl rfl
    | exact fun _ _ hby => Bool.noConfusion hby

/-- Only an add and the purges are of interest. -/
theorem calm (ha : tame a = true) : (contract (ι := ι) C).Calm a := by
  intro t r s s' h hs
  have hinsert : ∀ connection stableId credentials, a ≠ .insert connection stableId credentials := by
    rintro _ _ _ rfl
    cases ha
  have hlocks : ∀ stable, a.locks ≠ some (.purge stable) := by
    intro stable hlocks
    cases a with
    | lock l | unlock l =>
      cases hlocks
      cases ha
    | _ => simp [Action.locks] at hlocks
  have hstill := still_of_exec h hinsert
  have hrely : ∀ t', Rely t' s s' := fun t' => hstill.rely fun stable hheld => by rwa [a.exec_held h (hlocks stable)]
  refine ⟨hstill.inv hs, ⟨fun t' _ => hrely t', fun hfenced => spares_of_exec h hfenced ?_⟩, hrely t⟩
  rintro e other rfl
  cases ha

theorem hushed : Hushed (contract (ι := ι) C) where
  asks _ _ := calm rfl
  tells _ _ := calm rfl
  entries _ := calm rfl
  wakes _ := calm rfl
  loads _ := calm rfl

end Steps

/-! ### Purges -/

section Programs

variable {ι : Type} [DecidableEq ι] {C : Config} {t : ι} {e other : EntryRef} {stableId : Option ConnectionId}
  {k : Program}
  {K : ConnectionSet ι → Prop}

/-- What is known of entries outlasts everything. -/
def Lasting (K : ConnectionSet ι → Prop) : Prop := ∀ s s', Ages s s' → K s → K s'

omit [DecidableEq ι] in
theorem lasting_true : Lasting fun _ : ConnectionSet ι => True := fun _ _ _ h => h

/-- The thread knows the entry. -/
def Allocated (e : EntryRef) (s : ConnectionSet ι) : Prop := e < s.vault.nextEntry

/-- And its stable id. -/
def Known (e : EntryRef) (stableId : Option ConnectionId) (s : ConnectionSet ι) : Prop :=
  e < s.vault.nextEntry ∧ (s.vault.heap e).stableId = stableId

section

omit [DecidableEq ι]

theorem lasting_allocated : Lasting (ι := ι) (Allocated e) := fun _ _ hages h => h.trans_le hages.next

theorem Lasting.known (hK : Lasting K) : Lasting fun s => K s ∧ Known e stableId s := fun s s' hages hs =>
  ⟨hK s s' hages hs.1, hs.2.1.trans_le hages.next, (hages.stableId e hs.2.1).trans hs.2.2⟩

theorem Lasting.and {K' : ConnectionSet ι → Prop} (hK : Lasting K) (hK' : Lasting K') : Lasting fun s => K s ∧ K' s :=
  fun s s' hages hs => ⟨hK s s' hages hs.1, hK' s s' hages hs.2⟩

end

theorem Lasting.stable (hK : Lasting K) : (contract C).Stable t K := fun hrely h => hK _ _ hrely.toAges h

theorem valid_ret : (contract C).Valid t K .ret := Valid.ret fun _ _ => trivial

theorem valid_tame {a : Action} {k : Answer a → Program} (ha : tame a = true) (hK : Lasting K)
    (hk : ∀ r, (contract C).Valid t K (k r)) : (contract C).Valid t K (.act a k) :=
  Valid.calm (calm ha) hK.stable hk

/-- A look at an entry tells its stable id. -/
theorem valid_look {k : ConnEntry × ConnectionAuthState → Program} (hK : Lasting K) (he : ∀ s, K s → Allocated e s)
    (hk : ∀ state, (contract C).Valid t (fun s => K s ∧ Known e state.1.stableId s) (k state)) :
    (contract C).Valid t K (ask e .state k) := by
  refine Valid.act (Q := fun state s => K s ∧ Known e state.1.stableId s) hK.stable ?_ hk
  intro s state s' hs hinv _ h
  obtain ⟨hinv', hguar, -⟩ := hushed.asks e .state h hinv
  obtain ⟨rfl, rfl⟩ := Action.exec_state.mp h
  exact ⟨hinv', hguar, hs, he s hs, rfl⟩

/-- The thread holds the purge lock. -/
def Held (t : ι) (stableId : Option ConnectionId) (s : ConnectionSet ι) : Prop :=
  ∀ stable, stableId = some stable → s.vault.held (.purge stable) = some t

/-- No other entry with the stable id is registered, and the thread sees to it. -/
def Cleared (t : ι) (other : EntryRef) (stableId : Option ConnectionId) (s : ConnectionSet ι) : Prop :=
  ∀ stable, stableId = some stable → s.vault.held (.purge stable) = some t ∧ Clear stable other s

theorem stable_held (hK : Lasting K) : (contract C).Stable t fun s => K s ∧ Held t stableId s := fun hrely hs =>
  ⟨hK _ _ hrely.toAges hs.1, fun stable hstable => hrely.held stable (hs.2 stable hstable)⟩

theorem stable_cleared (hK : Lasting K) : (contract C).Stable t fun s => K s ∧ Cleared t other stableId s := by
  refine fun hrely hs => ⟨hK _ _ hrely.toAges hs.1, fun stable hstable => ?_⟩
  obtain ⟨hheld, hclear⟩ := hs.2 stable hstable
  exact ⟨hrely.held stable hheld, hrely.clear stable other hheld hclear⟩

variable {id stable : ConnectionId}

/-- A step on a purge lock leaves the rest. -/
theorem exec_purge {a : Action} {r : Answer a} {s s' : ConnectionSet ι} (h : a.exec C t r s = some s')
    (ha : a = .lock (.purge stable) ∨ a = .unlock (.purge stable)) (hK : Lasting K) (hs : K s) (hinv : Inv s) :
    Inv s' ∧ (contract C).guar t a s s' ∧ K s' := by
  have hstill := still_of_exec h (by rcases ha with rfl | rfl <;> simp)
  refine ⟨hstill.inv hinv, ⟨fun t' ht => hstill.rely fun stable' => (a.exec_held_of_ne h ht _).mpr, fun hfenced =>
    spares_of_exec h hfenced (by rcases ha with rfl | rfl <;> simp)⟩, hK s s' hstill.ages hs⟩

theorem valid_lockPurge (hK : Lasting K) (hk : (contract C).Valid t (fun s => K s ∧ Held t stableId s) k) :
    (contract C).Valid t K (lockPurge stableId k) := by
  cases stableId with
  | none => exact hk.weaken fun _ hs => ⟨hs, fun _ hstable => by cases hstable⟩
  | some stable =>
    refine Valid.act (Q := fun _ s => K s ∧ Held t (some stable) s) hK.stable ?_ fun _ => hk
    intro s r s' hs hinv _ h
    obtain ⟨hinv', hguar, hs'⟩ := exec_purge h (.inl rfl) hK hs hinv
    refine ⟨hinv', hguar, hs', ?_⟩
    rintro _ ⟨⟩
    obtain ⟨-, rfl⟩ := Option.of_guard h
    simp [ConnectionSet.hold]

theorem valid_unlockPurge (hK : Lasting K) (hk : (contract C).Valid t K k) :
    (contract C).Valid t K (unlockPurge stableId k) := by
  cases stableId with
  | none => exact hk
  | some stable =>
    refine Valid.act (Q := fun _ => K) hK.stable ?_ fun _ => hk
    exact fun s r s' hs hinv _ h => exec_purge h (.inr rfl) hK hs hinv

/-- What is deleted is not the successor's. -/
theorem valid_delete {k : Bool → Program} (hK : Lasting K) (hknown : ∀ s, K s → Known other stableId s)
    (hk : ∀ deleted, (contract C).Valid t K (k deleted)) :
    (contract C).Valid t (fun s => K s ∧ Cleared t other stableId s) (change e (.delete other) k) := by
  refine Valid.act (Q := fun _ => K) (stable_cleared hK) ?_ hk
  rintro s deleted s' ⟨hs, hcleared⟩ hinv - h
  have hstill := still_of_exec h (by simp)
  refine ⟨hstill.inv hinv, ⟨fun t' ht => hstill.rely fun stable => (Action.exec_held_of_ne h ht _).mpr,
    fun hfenced => ?_⟩,
    hK s s' hstill.ages hs⟩
  cases deleted with
  | false =>
    cases h
    exact fun _ _ _ _ => .of_eq rfl rfl rfl rfl
  | true =>
    cases h
    intro e₀ e' hby hsucc
    obtain rfl : e = e₀ := beq_iff_eq.mp hby
    refine ⟨rfl, rfl, rfl, rfl, rfl, rfl, stored_store fun stable hstable => ?_⟩
    have hother : e' ≠ other := by
      rintro rfl
      simp [Fenced, hsucc] at hfenced
    exact (hcleared stable ((hknown s hs).2.symm.trans hstable)).2 _ e' (successor_eq_some.mp hsucc).1 hother

omit [DecidableEq ι] in
/-- What the registry says of other entries with the stable id. -/
theorem clear_of_not_shared {s : ConnectionSet ι} (hs : Known other stableId s)
    (h : s.vault.stableIdSharedByOther other = false) (hstable : stableId = some stable) : Clear stable other s := by
  intro id e' he' hne hother
  subst hstable
  simp only [Vault.stableIdSharedByOther, hs.2, List.any_eq_false] at h
  exact h (id, e') (Table.mem_rows_iff.mpr he') (by simp [hne, hother])

theorem valid_purge {k : Bool → Program} {orphan : Orphan} (hK : Lasting K) (hknown : ∀ s, K s → Known other stableId s)
    (hk : ∀ purged, (contract C).Valid t K (k purged)) :
    (contract C).Valid t K (purgeDurableCredential e other stableId orphan k) := by
  have hdone : ∀ purged, (contract C).Valid t K (unlockPurge stableId (k purged)) :=
    fun purged => valid_unlockPurge hK (hk purged)
  unfold purgeDurableCredential
  refine valid_lockPurge hK ?_
  refine Valid.act (Q := fun shared s => K s ∧ (shared = false → Cleared t other stableId s))
    (stable_held hK) ?_ fun shared => ?_
  · rintro s shared s' ⟨hs, hheld⟩ hinv - h
    obtain ⟨hinv', hguar, -⟩ := hushed.asks e (.sharedByOther other) h hinv
    obtain ⟨hanswer, rfl⟩ := Action.exec_ask.mp h
    refine ⟨hinv', hguar, hs, fun hshared stable hstable => ⟨hheld stable hstable, ?_⟩⟩
    exact clear_of_not_shared (hknown s hs) ((beq_iff_eq.mp hanswer).symm.trans hshared) hstable
  · cases shared with
    | true => exact (hdone true).weaken fun _ hs => hs.1
    | false =>
      have hcleared : (contract C).Valid t (fun s => K s ∧ Cleared t other stableId s)
            (stillOrphaned e orphan fun orphaned =>
          if orphaned then change e (.delete other) fun purged =>
            unlockPurge stableId (k purged) else unlockPurge stableId (k true)) := by
        refine hushed.valid_stillOrphaned (stable_cleared hK) fun orphaned => ?_
        split_ifs
        · exact valid_delete hK hknown hdone
        · exact (hdone true).weaken fun _ hs => hs.1
      exact hcleared.weaken fun _ hs => ⟨hs.1, hs.2 rfl⟩

theorem valid_purgePersisted (hK : Lasting K) (hk : (contract C).Valid t K k) :
    (contract C).Valid t K (purgePersistedCredentials e k) := by
  refine Valid.act (Q := fun r s => K s ∧ ∀ other, r = some other → Allocated other s) hK.stable ?_ fun r => ?_
  · intro s r s' hs hinv _ h
    obtain ⟨hinv', hguar, -⟩ := hushed.asks e .entry h hinv
    obtain ⟨hanswer, rfl⟩ := Action.exec_ask.mp h
    exact ⟨hinv', hguar, hs, fun other hother => (hinv _ other ((beq_iff_eq.mp hanswer).symm.trans hother)).1⟩
  · cases r with
    | none => exact hk.weaken fun _ hs => hs.1
    | some other =>
      have hlook : (contract C).Valid t (fun s => K s ∧ Allocated other s) (ask other .state fun state =>
          purgeDurableCredential e other state.1.stableId .always fun deleted =>
            if deleted then change e (.forgetOauth other) fun _ => k else k) := by
        refine valid_look (hK.and lasting_allocated) (fun _ hs => hs.2) fun state => ?_
        refine valid_purge (hK.and lasting_allocated).known (fun _ hs => hs.2) fun deleted => ?_
        have hrest : (contract C).Valid t (fun s => (K s ∧ Allocated other s) ∧ Known other state.1.stableId s) k :=
          hk.weaken fun _ hs => hs.1.1
        split_ifs
        · exact valid_tame rfl (hK.and lasting_allocated).known fun _ => hrest
        · exact hrest
      exact hlook.weaken fun _ hs => ⟨hs.1, hs.2 other rfl⟩

/-! ### Grants -/

theorem valid_persistAttempts {bundle : SecretBundle} (hK : Lasting K) (hk : (contract C).Valid t K k) (n : ℕ) :
    (contract C).Valid t K (persistAttempts e bundle k n) := by
  induction n with
  | zero => exact valid_tame rfl hK fun _ => hk
  | succ n ih =>
    refine valid_tame rfl hK fun written => ?_
    split_ifs
    · exact valid_tame rfl hK fun _ => hk
    · exact ih

variable {credentials : SecretBundle}

theorem valid_reload {k : Except ErrorCode SecretBundle → Program} (hK : Lasting K)
    (hk : ∀ r, (contract C).Valid t K (k r)) : (contract C).Valid t K (reload stableId credentials k) := by
  refine valid_tame rfl hK fun loaded => ?_
  match loaded with
  | .ok (some head) => exact hk _
  | .ok none => exact hk _
  | .error error => exact hk _

section Grants

variable {G : Grant}

variable {credentials : SecretBundle}

theorem valid_commitAndPersist {k : Bool → Program} (hK : Lasting K)
    (hG : ∀ s, K s → Known G.e G.stableId s) (hk : ∀ persisted, (contract C).Valid t K (k persisted)) :
    (contract C).Valid t K (G.commitAndPersist credentials k) := by
  refine valid_tame rfl hK fun superseded => ?_
  split_ifs
  · exact hk false
  refine valid_tame rfl hK fun registered => ?_
  split_ifs
  · exact valid_persistAttempts hK (valid_purge hK hG fun _ => hk true) 3
  · exact hk false

variable {lineage : Lineage}

theorem valid_obtain {base : SecretBundle} {k : Except ErrorCode Obtained → Program} (hK : Lasting K)
    (hG : ∀ s, K s → Known G.e G.stableId s) (hk : ∀ outcome, (contract C).Valid t K (k outcome)) :
    (contract C).Valid t K (G.obtain lineage base k) := by
  refine valid_tame rfl hK fun outcome => ?_
  match outcome with
  | .ok (.Bearer credentials) => exact valid_commitAndPersist hK hG fun _ => hk _
  | .ok .Anonymous | .ok (.AwaitingInteractive _) | .ok .WouldConsume => exact hk _
  | .error error =>
    dsimp only
    split_ifs
    · refine valid_tame rfl hK fun _ => valid_tame rfl hK fun state => ?_
      have hunlock : (contract C).Valid t K (.act (.unlock (.credentialMutation G.e)) fun _ => k (.error error)) :=
        valid_tame rfl hK fun _ => hk _
      split_ifs
      · exact valid_purgePersisted hK hunlock
      · exact hunlock
    · exact hk _

theorem valid_obtainAndPersist {k : Except ErrorCode Obtained → Program} (hK : Lasting K)
    (hG : ∀ s, K s → Known G.e G.stableId s) (hk : ∀ outcome, (contract C).Valid t K (k outcome)) :
    (contract C).Valid t K (G.obtainAndPersist credentials lineage k) := by
  cases lineage with
  | Fresh => exact valid_obtain hK hG hk
  | Stored =>
    refine valid_tame rfl hK fun state => ?_
    split_ifs
    · exact valid_obtain hK hG hk
    · refine valid_reload hK fun r => ?_
      cases r with
      | ok base => exact valid_obtain hK hG hk
      | error error => exact hk _

theorem valid_obtainLocked {k : Except ErrorCode Obtained → Program} (hK : Lasting K)
    (hG : ∀ s, K s → Known G.e G.stableId s) (hk : ∀ outcome, (contract C).Valid t K (k outcome)) :
    (contract C).Valid t K (G.obtainLocked C credentials lineage k) := by
  have hplain : (contract C).Valid t K (G.obtainAndPersist credentials lineage k) := valid_obtainAndPersist hK hG hk
  unfold Grant.obtainLocked
  split
  · refine valid_tame rfl hK fun answer => ?_
    cases answer with
    | Failed error => exact hk _
    | Skipped => exact hplain
    | Locked =>
      refine valid_obtainAndPersist hK hG fun outcome => valid_tame rfl hK fun r => ?_
      cases r with
      | some error => exact hk _
      | none => exact hk _
  · exact hplain

theorem valid_refreshBase {k : Except ErrorCode SecretBundle → Program} (hK : Lasting K)
    (hk : ∀ r, (contract C).Valid t K (k r)) : (contract C).Valid t K (G.refreshBase credentials k) := by
  refine valid_tame rfl hK fun state => ?_
  split_ifs
  · exact hk _
  · exact valid_reload hK hk

/-- The refresh that `refreshFromHead` and `refreshAndPersist` have alike. -/
theorem valid_refreshed {failed : ErrorCode → Program} {k : SecretBundle → Program} (hK : Lasting K)
    (hfailed : ∀ error, (contract C).Valid t K (failed error))
    (hk : ∀ refreshed, (contract C).Valid t K (k refreshed)) :
    (contract C).Valid t K (G.refreshBase credentials fun
      | .error error => failed error
      | .ok base => change G.e (.refresh base) fun
        | .error error => failed error
        | .ok refreshed => k refreshed) := by
  refine valid_refreshBase hK fun r => ?_
  cases r with
  | error error => exact hfailed error
  | ok base =>
    refine valid_tame rfl hK fun r => ?_
    cases r with
    | error error => exact hfailed error
    | ok refreshed => exact hk refreshed

theorem valid_lockedRefresh {zeroWindow : Bool} {k : Option (Except ErrorCode (SecretBundle × Bool)) → Program}
    (hK : Lasting K) (hG : ∀ s, K s → Known G.e G.stableId s) (hk : ∀ outcome, (contract C).Valid t K (k outcome)) :
    (contract C).Valid t K (G.lockedRefresh stable zeroWindow credentials k) := by
  refine valid_tame rfl hK fun answer => ?_
  cases answer with
  | Failed error => exact hk _
  | Skipped => exact hk none
  | Locked =>
    refine valid_refreshed hK (fun error => valid_tame rfl hK fun r => ?_) fun refreshed =>
      valid_commitAndPersist hK hG fun persisted => valid_tame rfl hK fun r => ?_
    · cases r <;> exact hk _
    · cases r <;> exact hk _

theorem valid_coalescedRefresh {k : Except ErrorCode (SecretBundle × Bool) → Program} (hK : Lasting K)
    (hG : ∀ s, K s → Known G.e G.stableId s) (hk : ∀ outcome, (contract C).Valid t K (k outcome)) :
    (contract C).Valid t K (G.coalescedRefresh C credentials k) := by
  have hplain : (contract C).Valid t K (G.refreshFromHead credentials k) :=
    valid_refreshed hK (fun error => hk (.error error)) fun refreshed => hk (.ok (refreshed, false))
  unfold Grant.coalescedRefresh
  split
  · refine valid_lockedRefresh hK hG fun outcome => ?_
    cases outcome with
    | some outcome => exact hk outcome
    | none =>
      refine valid_lockedRefresh hK hG fun outcome => ?_
      cases outcome with
      | some outcome => exact hk outcome
      | none => exact hplain
  · exact hplain

/-! ### What becomes of a grant -/

theorem valid_commitAuthenticated {effective : SecretBundle} (hK : Lasting K) (hk : (contract C).Valid t K k) :
    (contract C).Valid t K (G.commitAuthenticated effective lineage k) := by
  refine valid_tame rfl hK fun registered => ?_
  split_ifs
  · exact hk
  refine valid_tame rfl hK fun state => ?_
  split_ifs
  · exact hk
  refine valid_tame rfl hK fun activated => ?_
  split_ifs
  · exact hk
  refine valid_tame rfl hK fun committed => ?_
  split_ifs
  · exact hushed.valid_runOnAuthenticated hK.stable fun _ => hk
  · exact hk

theorem valid_applyGrant {outcome : Obtained} {k : Option ErrorCode → Program} (hK : Lasting K)
    (hk : ∀ failure, (contract C).Valid t K (k failure)) :
    (contract C).Valid t K (G.applyGrant credentials outcome lineage k) := by
  cases outcome with
  | Bearer effective =>
    refine valid_tame rfl hK fun failure => ?_
    cases failure with
    | some error => exact hk _
    | none => exact valid_commitAuthenticated hK (hk none)
  | Anonymous => exact valid_tame rfl hK fun _ => hk none
  | AwaitingInteractive reason => exact valid_tame rfl hK fun _ => hk none
  | WouldConsume => exact valid_tame rfl hK fun _ => hk none

theorem valid_recordRefreshed {refreshed : SecretBundle} {persisted : Bool} (hK : Lasting K)
    (hG : ∀ s, K s → Known G.e G.stableId s) (hk : (contract C).Valid t K k) :
    (contract C).Valid t K (G.recordRefreshed refreshed persisted k) := by
  have hestablished : (contract C).Valid t K (runOnAuthenticated G.e fun succeeded =>
      if succeeded then tell G.e .emitUpdatedIfLive k else k) := by
    refine hushed.valid_runOnAuthenticated hK.stable fun succeeded => ?_
    split_ifs
    · exact valid_tame rfl hK fun _ => hk
    · exact hk
  refine valid_tame rfl hK fun registered => ?_
  cases registered with
  | false => exact hk
  | true =>
    refine valid_tame rfl hK fun committed => ?_
    cases committed with
    | false => exact hk
    | true =>
      cases persisted with
      | true => exact hestablished
      | false =>
        refine valid_persistAttempts hK ?_ 3
        refine valid_tame rfl hK fun registered => ?_
        cases registered with
        | true => exact hestablished
        | false => exact valid_purge hK hG fun _ => hk

theorem valid_interactiveEstablished (hK : Lasting K) (hk : (contract C).Valid t K k) :
    (contract C).Valid t K (interactiveEstablished e k) := by
  refine hushed.valid_runOnAuthenticated hK.stable fun succeeded => ?_
  split_ifs
  · exact hk
  refine valid_tame rfl hK fun registered => ?_
  split_ifs
  · exact valid_tame rfl hK fun _ => hk
  · exact hk

theorem valid_completeInteractiveTransition {credentials : Option SecretBundle} {installed : ℕ} (hK : Lasting K)
    (hG : ∀ s, K s → Known G.e G.stableId s) :
    (contract C).Valid t K (completeInteractiveTransition G credentials installed) := by
  have hdone : (contract C).Valid t K (unlock (.credentialMutation G.e) .ret) := valid_tame rfl hK fun _ => valid_ret
  refine valid_tame rfl hK fun _ => valid_tame rfl hK fun registered => ?_
  split_ifs
  · exact hdone
  cases credentials with
  | none =>
    refine valid_tame rfl hK fun committed => ?_
    split_ifs
    · exact hdone
    · exact valid_tame rfl hK fun _ => valid_interactiveEstablished hK hdone
  | some bundle =>
    refine valid_tame rfl hK fun registered => ?_
    split_ifs
    · exact hdone
    refine valid_tame rfl hK fun committed => ?_
    split_ifs
    · exact hdone
    refine valid_tame rfl hK fun _ => valid_persistAttempts hK ?_ 3
    refine valid_tame rfl hK fun registered => ?_
    split_ifs
    · exact valid_interactiveEstablished hK hdone
    · exact valid_purge hK hG fun _ => hdone

end Grants

variable {lineage : Lineage}

theorem valid_obtainAndApply {k : Option ErrorCode → Program} (hK : Lasting K)
    (he : ∀ s, K s → Allocated e s) (hk : ∀ failure, (contract C).Valid t K (k failure)) :
    (contract C).Valid t K (obtainAndApply C e credentials lineage k) := by
  refine valid_look hK he fun first => ?_
  have hknown : Lasting fun s => K s ∧ Known e first.1.stableId s := hK.known
  refine valid_tame rfl hknown fun second => valid_obtainLocked hknown (fun _ hs => hs.2) fun outcome => ?_
  cases outcome with
  | error error => exact (hk _).weaken fun _ hs => hs.1
  | ok outcome => exact valid_applyGrant hknown fun failure => (hk failure).weaken fun _ hs => hs.1

/-! ### The operations -/

theorem valid_runValidation {parkReason : AuthReason} {k : Option ErrorCode → Program}
    (hK : Lasting K) (he : ∀ s, K s → Allocated e s) (hk : ∀ failure, (contract C).Valid t K (k failure)) :
    (contract C).Valid t K (runValidation C e credentials lineage parkReason k) := by
  refine valid_obtainAndApply hK he fun failure => ?_
  cases failure with
  | none => exact hk none
  | some error =>
    dsimp only
    split_ifs
    · exact hk _
    all_goals exact valid_tame rfl hK fun _ => valid_tame rfl hK fun _ => hk none

theorem valid_singleFlight {body : Lock → Program} (hK : Lasting K)
    (hbody : ∀ made, (contract C).Valid t K (body (.bringup made))) : (contract C).Valid t K (singleFlight id body) :=
  valid_tame rfl hK fun made => valid_tame rfl hK fun _ => hbody made

theorem valid_unlock {made : ℕ} (hK : Lasting K) (hk : (contract C).Valid t K k) :
    (contract C).Valid t K (unlock (.bringup made) k) :=
  valid_tame rfl hK fun _ => hk

variable {connection : Connection}

/-- The registration of an add, under the purge lock. -/
theorem valid_insert {k : EntryRef → Program} (hk : ∀ e, (contract C).Valid t (Allocated e) (k e)) :
    (contract C).Valid t (fun s => True ∧ Held t stableId s) (.act (.insert connection stableId credentials) k) := by
  refine Valid.act (Q := fun e => Allocated e) (stable_held lasting_true) ?_ hk
  rintro s e s' ⟨-, hheld⟩ hinv - h
  obtain ⟨he, rfl⟩ := Option.of_guard h
  subst he
  have hget : ∀ id e, (s.vault.entries.insert connection.id s.vault.nextEntry).get id = some e →
      id = connection.id ∧ e = s.vault.nextEntry ∨ s.vault.entries.get id = some e := by
    intro id e h
    by_cases hid : id = connection.id
    · simp_all
    · rw [Table.get_insert_of_ne _ _ hid] at h
      exact .inr h
  have hheap : ∀ e < s.vault.nextEntry, (s.register t connection stableId credentials).vault.heap e = s.vault.heap e :=
    fun e he => update_of_ne he.ne _ _
  refine ⟨fun id e hget' => ?_, ⟨fun t' ht => ⟨⟨Nat.le_succ _, fun e he => by rw [hheap e he]⟩, fun _ h => h,
    fun stable other hheld' hclear id e hget' hne => ?_⟩, fun _ _ _ hby => Bool.noConfusion hby⟩, Nat.lt_succ_self _⟩
  · rcases hget id e hget' with ⟨rfl, rfl⟩ | hget'
    · exact ⟨Nat.lt_succ_self _, by simp [ConnectionSet.register]⟩
    · obtain ⟨hlt, hid⟩ := hinv id e hget'
      exact ⟨Nat.lt_succ_of_lt hlt, by rw [hheap e hlt]; exact hid⟩
  · rcases hget id e hget' with ⟨-, rfl⟩ | hget'
    · intro hstable
      have hmine : stableId = some stable := by simpa [ConnectionSet.register] using hstable
      exact ht (Option.some.inj (hheld'.symm.trans (hheld stable hmine)))
    · rw [hheap e (hinv id e hget').1]
      exact hclear id e hget' hne

theorem valid_addConnectionDeferred {initial : SecretBundle} {k : EntryRef → Program}
    (hk : ∀ e, (contract C).Valid t (Allocated e) (k e)) :
    (contract C).Valid t (fun _ => True) (addConnectionDeferred C connection stableId initial k) := by
  have hregister : ∀ credentials lineage, (contract C).Valid t (fun s => True ∧ Held t stableId s)
      (registration C connection stableId credentials lineage k) := by
    intro credentials lineage
    refine valid_insert fun e =>
      valid_unlockPurge lasting_allocated (valid_singleFlight lasting_allocated fun made => ?_)
    refine valid_runValidation lasting_allocated (fun _ hs => hs) fun failure => ?_
    cases failure with
    | none => exact valid_unlock lasting_allocated (hk e)
    | some error => exact valid_tame rfl lasting_allocated fun _ => valid_unlock lasting_allocated valid_ret
  unfold addConnectionDeferred
  refine valid_lockPurge lasting_true ?_
  split_ifs
  · refine Valid.calm (calm rfl) (stable_held lasting_true) fun loaded => ?_
    rcases loaded with error | _ | loaded
    · exact hregister _ _
    · exact hregister _ _
    · exact hregister _ _
  · exact hregister _ _

theorem valid_removeInner {purgeSecret : Bool} : (contract C).Valid t (fun _ => True) (removeInner id purgeSecret) := by
  refine Valid.act (Q := fun r s => ∀ e, r = some e → Allocated e s) lasting_true.stable ?_ fun r => ?_
  · intro s r s' _ hinv _ h
    obtain ⟨hinv', hguar, -⟩ := calm rfl h hinv
    refine ⟨hinv', hguar, ?_⟩
    rintro e rfl
    obtain ⟨he, rfl⟩ := Option.of_guard h
    exact (hinv id e he.symm).1
  · cases r with
    | none => exact valid_ret
    | some e =>
      have hpurge : (contract C).Valid t (Allocated e) (if purgeSecret then
          ask e .state fun state => purgeDurableCredential e e state.1.stableId .always fun _ => .ret else .ret) := by
        split_ifs
        · refine valid_look lasting_allocated (fun _ hs => hs) fun state => ?_
          exact valid_purge lasting_allocated.known (fun _ hs => hs.2) fun _ => valid_ret
        · exact valid_ret
      exact hpurge.weaken fun _ hs => hs e rfl

theorem valid_withEntry {k : EntryRef → Program} (hk : ∀ e, (contract C).Valid t (Allocated e) (k e)) :
    (contract C).Valid t (fun _ => True) (withEntry id k) := by
  refine Valid.act (Q := fun r s => ∀ e, r = some e → Allocated e s) lasting_true.stable ?_ fun r => ?_
  · intro s r s' _ hinv _ h
    obtain ⟨hinv', hguar, -⟩ := hushed.entries id h hinv
    refine ⟨hinv', hguar, ?_⟩
    rintro e rfl
    obtain ⟨he, rfl⟩ := Option.of_guard h
    exact (hinv id e he.symm).1
  · cases r with
    | none => exact valid_ret
    | some e => exact (hk e).weaken fun _ hs => hs e rfl

theorem valid_updateCredentials : (contract C).Valid t (fun _ => True) (updateCredentials C id credentials) := by
  refine valid_withEntry fun e => valid_singleFlight lasting_allocated fun made => ?_
  refine valid_obtainAndApply lasting_allocated (fun _ hs => hs) fun failure => ?_
  have hunlock : (contract C).Valid t (Allocated e) (unlock (.bringup made) .ret) :=
    valid_unlock lasting_allocated valid_ret
  cases failure with
  | none => exact valid_tame rfl lasting_allocated fun _ => hunlock
  | some error =>
    dsimp only
    split_ifs
    · exact hunlock
    · exact valid_tame rfl lasting_allocated fun _ => valid_tame rfl lasting_allocated fun _ => hunlock

theorem valid_bringUp {force : Bool} : (contract C).Valid t (fun _ => True) (bringUp C id force) := by
  refine valid_withEntry fun e => ?_
  have hlocked : ∀ genBefore, (contract C).Valid t (Allocated e)
      (singleFlight id fun l => bringUpLocked C e l genBefore) := by
    intro genBefore
    refine valid_singleFlight lasting_allocated fun made => ?_
    have hunlock : (contract C).Valid t (Allocated e) (unlock (.bringup made) .ret) :=
      valid_unlock lasting_allocated valid_ret
    exact hushed.valid_bringUpLocked lasting_allocated.stable hunlock fun credentials =>
      valid_obtainAndApply lasting_allocated (fun _ hs => hs)
        (hushed.valid_bringUpTail lasting_allocated.stable hunlock)
  exact hushed.valid_bringUpEntry lasting_allocated.stable valid_ret hlocked

theorem valid_parkRefreshFailure {error : ErrorCode} (hK : Lasting K) (hk : (contract C).Valid t K k) :
    (contract C).Valid t K (parkRefreshFailure C e error k) :=
  hushed.valid_parkRefreshFailure hK.stable hk

theorem valid_retry (hK : Lasting K) : (contract C).Valid t K (retry id) :=
  valid_tame rfl hK fun _ => valid_tame rfl hK fun _ => valid_ret

theorem valid_recover : (contract C).Valid t (fun _ => True) (recover C id) := by
  refine valid_tame rfl lasting_true fun _ => valid_tame rfl lasting_true fun failure => ?_
  cases failure with
  | none => exact valid_ret
  | some error =>
    refine valid_withEntry fun e => ?_
    split_ifs
    · exact valid_ret
    refine valid_tame rfl lasting_allocated fun genBefore => valid_tame rfl lasting_allocated fun refreshGenBefore => ?_
    refine valid_singleFlight lasting_allocated fun made => valid_tame rfl lasting_allocated fun now => ?_
    split_ifs
    · exact valid_unlock lasting_allocated (valid_retry lasting_allocated)
    refine valid_tame rfl lasting_allocated fun refreshGen => ?_
    split_ifs
    · exact valid_unlock lasting_allocated valid_ret
    refine valid_look lasting_allocated (fun _ hs => hs) fun first => ?_
    refine valid_tame rfl lasting_allocated.known fun second => ?_
    refine valid_coalescedRefresh lasting_allocated.known (fun _ hs => hs.2) fun outcome =>
      valid_tame rfl lasting_allocated.known fun _ => ?_
    match outcome with
    | .ok (refreshed, persisted) =>
      exact valid_recordRefreshed lasting_allocated.known (fun _ hs => hs.2)
        (valid_unlock lasting_allocated.known (valid_retry lasting_allocated.known))
    | .error error =>
      dsimp only
      split_ifs
      · exact valid_parkRefreshFailure lasting_allocated.known (valid_unlock lasting_allocated.known valid_ret)
      · exact valid_unlock lasting_allocated.known valid_ret

theorem valid_backgroundRefresh : (contract C).Valid t (fun _ => True) (backgroundRefresh C e) := by
  refine Valid.act (Q := fun _ => Allocated e) lasting_true.stable ?_ fun _ => ?_
  · intro s r s' _ hinv _ h
    obtain ⟨hinv', hguar, -⟩ := hushed.wakes e h hinv
    refine ⟨hinv', hguar, ?_⟩
    obtain ⟨he, rfl⟩ := Option.of_guard h
    exact he
  refine valid_tame rfl lasting_allocated fun before => ?_
  split_ifs
  · exact valid_ret
  refine valid_singleFlight lasting_allocated fun made => ?_
  refine valid_look lasting_allocated (fun _ hs => hs) fun now => ?_
  split_ifs
  · exact valid_unlock lasting_allocated.known valid_ret
  refine valid_tame rfl lasting_allocated.known fun second => ?_
  refine valid_coalescedRefresh lasting_allocated.known (fun _ hs => hs.2) fun outcome =>
    valid_tame rfl lasting_allocated.known fun _ => ?_
  match outcome with
  | .ok (refreshed, persisted) =>
    exact valid_recordRefreshed lasting_allocated.known (fun _ hs => hs.2)
      (valid_unlock lasting_allocated.known valid_ret)
  | .error error =>
    refine valid_unlock lasting_allocated.known ?_
    split_ifs
    · exact valid_ret
    · exact valid_parkRefreshFailure lasting_allocated.known valid_ret

theorem valid_authenticate : (contract C).Valid t (fun _ => True) (authenticate id) := by
  refine valid_withEntry fun e => ?_
  refine valid_look lasting_allocated (fun _ hs => hs) fun first => ?_
  refine valid_tame rfl lasting_allocated.known fun second => Valid.alt valid_ret ?_
  refine valid_tame rfl lasting_allocated.known fun outcome => ?_
  match outcome with
  | .error error => exact valid_tame rfl lasting_allocated.known fun _ => valid_ret
  | .ok (credentials, installed) =>
    exact valid_completeInteractiveTransition lasting_allocated.known fun _ hs => hs.2

theorem valid_program (op : Changes.Operation) : (contract C).Valid t (fun _ => True) (op.program C) := by
  cases op with
  | addConnection connection stableId initial =>
    exact valid_addConnectionDeferred fun e => valid_tame rfl lasting_allocated fun _ => valid_ret
  | addConnectionDeferred connection stableId initial => exact valid_addConnectionDeferred fun _ => valid_ret
  | announceConnection id => exact valid_tame rfl lasting_true fun _ => valid_ret
  | setAddresses id addresses => exact valid_tame rfl lasting_true fun _ => valid_ret
  | updateAttributes id displayName userMetadata => exact valid_tame rfl lasting_true fun _ => valid_ret
  | removeConnection id => exact valid_removeInner
  | unregisterConnection id => exact valid_removeInner
  | bringUp id force => exact valid_bringUp
  | withRecovery id => exact valid_recover
  | backgroundRefresh e => exact valid_backgroundRefresh
  | updateCredentials id credentials => exact valid_updateCredentials
  | authenticate id => exact valid_authenticate

end Programs

/-! ### The runs -/

section Runs

variable {ι : Type} [DecidableEq ι] {C : Config}

open Changes

/-- No operation disturbs the successor of its entry in the step. -/
def Undisturbed (s : Threads ι (ConnectionSet ι) Answer) (l : Event ι Operation Answer)
    (s' : Threads ι (ConnectionSet ι) Answer) : Prop :=
  ∀ t a r, l = .act t a r → Spares s.shared a s'.shared

theorem kept_of_start {s : Threads ι (ConnectionSet ι) Answer} (hs : Start s) : (contract C).Kept s where
  inv id e h := by
    rw [hs.entries id] at h
    cases h
  safe t := by
    rw [hs.idle t]
    trivial

/-- As long as what operations write under an id, and what they persist, finds no successor in its
way, none of their steps disturbs one. -/
theorem successor_undisturbed {trace : List (Event ι Operation Answer)} {s s' : Threads ι (ConnectionSet ι) Answer}
    {l : Event ι Operation Answer} (h : Runs C (fun s l => s.meets (fun _ a _ s => Fenced s a) l) trace s)
    (hstep : s.step (Action.exec C) (Operation.program C) l = some s')
    (hl : s.meets (fun _ a _ s => Fenced s a) l = true) :
    Undisturbed s l s' := by
  have hkept : (contract C).Kept s := by
    refine run (fun _ op => valid_program op) (fun _ => kept_of_start) (h.imp fun s l s' _ hs => ⟨hs.1, ?_⟩)
    cases l <;> trivial
  rintro t a r rfl
  exact (hkept.acts trivial hstep).2.2 hl

end Runs

/-! ### A bring-up that outlives its connection -/

open Changes

/-- What is in the store. -/
def stored : SecretBundle := ⟨some 0, []⟩

/-- A connection that waits for a sign-in is brought up, and while the driver is at work it is
removed and added again. -/
def replaced : List (Event Bool Operation Answer) :=
  let look : ConnEntry × ConnectionAuthState :=
    (⟨"a", some "s", plain, 0, false, false, 0⟩, .AwaitingAuth .NeverAuthenticated)
  adds false 0 0 ++ announced false 0 0 ++
    [.call true (.bringUp "a" true), .act true (.entry "a") (some 0), .act true (.ask 0 .state) look,
      .act true (.ask 0 .bringupGen) 0,
      .act true (.bringupLockFor "a") 0, .act true (.lock (.bringup 0)) (), .act true (.ask 0 .state) look,
      .act true (.ask 0 .bringupGen) 0,
      .act true (.ask 0 .state) look, .act true (.load (some "s")) (.ok (some stored)), .act true (.ask 0 .state) look,
      .act true (.ask 0 .state) look, .act true (.ask 0 .state) look,
      .act true (.load (some "s")) (.ok (some stored))] ++
    [.call false (.unregisterConnection "a"), .act false (.unregister "a" false) (some 0)] ++ adds false 1 1

/-- The bring-up finds that the connection needs no credentials. -/
theorem successor_undisturbed_anonymous : ∃ trace s l s',
    Runs Debt.unlockedConfig (fun s l => s.meets (fun (_ : Bool) a _ s => Fenced s a) l) trace s ∧
      s.step (Action.exec Debt.unlockedConfig) (Operation.program Debt.unlockedConfig) l = some s' ∧
      successor s.shared 0 = some 1 ∧ Undisturbed s l s' := by
  let l : Event Bool Operation Answer := .act true (.change 0 (.setState stored)) ()
  obtain ⟨s, hrun, hs⟩ := exists_run (q := fun s l => s.meets (fun _ a _ s => Fenced s a) l)
    (p := fun s => successor s.shared 0 == some 1 &&
      (s.step (Action.exec Debt.unlockedConfig) (Operation.program Debt.unlockedConfig)
        (.act true (.change 0 (.setState stored)) ())).isSome)
    (replaced ++ [.act true (.change 0 (.obtain stored)) (.ok .Anonymous)]) (by decide +kernel)
  obtain ⟨hsuccessor, hstep⟩ := Bool.and_eq_true_iff.mp hs
  obtain ⟨s', hs'⟩ := Option.isSome_iff_exists.mp hstep
  exact ⟨_, s, l, s', hrun, hs', beq_iff_eq.mp hsuccessor, successor_undisturbed hrun hs' rfl⟩

/-- Where the driver fails, the bring-up records its failure for the waiters of the successor. -/
theorem successor_disturbed :
    ¬∀ (C : Config) trace s l s', Runs C (fun (_ : Threads Bool (ConnectionSet Bool) Answer) _ => true) trace s →
    s.step (Action.exec C) (Operation.program C) l = some s' → Undisturbed s l s' := by
  intro h
  let failure : Action := .tell 0 (.recordBringupOutcome (some .Transient))
  obtain ⟨s, hrun, hs⟩ := exists_run (q := fun _ _ => true)
    (p := fun s => successor s.shared 0 == some 1 && (s.shared.vault.heap 0).id == "a" &&
      (s.step (Action.exec Debt.unlockedConfig) (Operation.program Debt.unlockedConfig)
        (.act true (.tell 0 (.recordBringupOutcome (some .Transient))) ())).any fun s' =>
          s'.shared.face.bringupGens.get "a" != s.shared.face.bringupGens.get "a")
    (replaced ++ [.act true (.change 0 (.obtain stored)) (.error .Transient)]) (by decide +kernel)
  obtain ⟨hs, hstep⟩ := Bool.and_eq_true_iff.mp hs
  obtain ⟨hsuccessor, hid⟩ := Bool.and_eq_true_iff.mp hs
  obtain ⟨s', hs', hmoved⟩ := (Option.any_eq_true _ _).mp hstep
  have huntouched := h Debt.unlockedConfig _ s _ s' hrun hs' true failure () rfl 0 1 rfl (beq_iff_eq.mp hsuccessor)
  rw [beq_iff_eq.mp hid] at huntouched
  exact (bne_iff_ne.mp hmoved) huntouched.bringupGen

end OvStorage.Connections.Successor
