import OvStorage.Connections.Debt

/-!
# Connection events

What a subscriber makes of the events it is told, one after the other, is what the set lists, as
long as no entry that was announced is replaced by an add or taken away by one that undoes itself.
-/

namespace OvStorage.Connections.Changes

open Address Interleave

/-- What a subscriber who is told of the changes, the last of them first, knows to be there: nothing
where a change does not fit. -/
def follow : List ConnectionChange → Option (List ConnectionId)
  | [] => some []
  | .Added connection :: rest =>
    (follow rest).bind fun ids => if connection.id ∈ ids then none else some (connection.id :: ids)
  | .Updated connection :: rest => (follow rest).bind fun ids => if connection.id ∈ ids then some ids else none
  | .Removed id :: rest => (follow rest).bind fun ids => if id ∈ ids then some (ids.filter (· ≠ id)) else none

section Invariant

variable {ι : Type} {C : Config} {t : ι} {a : Action} {r : Answer a} {s s' : ConnectionSet ι} {id : ConnectionId}
  {e : EntryRef}

/-- An announced entry is registered under the id. -/
def Announced (s : ConnectionSet ι) (id : ConnectionId) : Prop :=
  ∃ e, s.vault.entries.get id = some e ∧ (s.face.shown e).announced = true

/-- Subscribers know what is announced. -/
def Follows (s : ConnectionSet ι) : Prop :=
  ∃ ids, follow s.face.events = some ids ∧ ∀ id, id ∈ ids ↔ Announced s id

/-- Every entry is registered under its own id. -/
def Keyed (s : ConnectionSet ι) : Prop :=
  ∀ id e, s.vault.entries.get id = some e → e < s.vault.nextEntry ∧ (s.vault.heap e).id = id ∧
    (s.face.shown e).connection.id = id

structure Inv (s : ConnectionSet ι) : Prop where
  keyed : Keyed s
  follows : Follows s

/-- Subscribers know what is listed. -/
def Mirrors (s : ConnectionSet ι) : Prop :=
  ∃ ids, follow s.face.events = some ids ∧ ∀ id, id ∈ ids ↔ id ∈ s.listConnections.map Connection.id

/-- What is listed is what is announced. -/
theorem mem_listConnections (hs : Keyed s) : id ∈ s.listConnections.map Connection.id ↔ Announced s id := by
  simp only [ConnectionSet.listConnections, List.map_map, List.mem_map, List.mem_filter, Function.comp_apply]
  constructor
  · rintro ⟨⟨id', e⟩, ⟨hrow, hannounced⟩, rfl⟩
    have hget := Table.mem_rows_iff.mp hrow
    rw [(hs id' e hget).2.2]
    exact ⟨e, hget, hannounced⟩
  · rintro ⟨e, hget, hannounced⟩
    exact ⟨(id, e), ⟨Table.mem_rows_iff.mpr hget, hannounced⟩, (hs id e hget).2.2⟩

theorem Inv.mirrors (hs : Inv s) : Mirrors s := by
  obtain ⟨ids, hfollow, hids⟩ := hs.follows
  exact ⟨ids, hfollow, fun id => (hids id).trans (mem_listConnections hs.keyed).symm⟩

/-! ### What may become of an entry -/

/-- What is shown keeps its id, and is announced or not as before. -/
def Keeps (f f' : Face) : Prop :=
  ∀ e, (f'.shown e).connection.id = (f.shown e).connection.id ∧ (f'.shown e).announced = (f.shown e).announced

theorem Keeps.refl (f : Face) : Keeps f f := fun _ => ⟨rfl, rfl⟩

variable {g : Shown → Shown}

theorem Keeps.modify (f : Face) (e : EntryRef) (hid : (g (f.shown e)).connection.id = (f.shown e).connection.id)
    (hannounced : (g (f.shown e)).announced = (f.shown e).announced) : Keeps f (f.modify e g) := by
  intro e'
  by_cases he : e' = e
  · subst he
    simp [Face.modify, hid, hannounced]
  · simp [Face.modify, Function.update_of_ne he]

theorem keeps_authenticated (f : Face) (e : EntryRef) (state : ConnectionAuthState) :
    Keeps f (f.authenticated e state) := by
  unfold Face.authenticated
  exact Keeps.modify f e rfl rfl

theorem keeps_park (f : Face) (e : EntryRef) (reason : AuthReason) (error : ErrorCode) :
    Keeps f (f.park C e reason error) := by
  unfold Face.park
  exact Keeps.modify f e rfl rfl

theorem keeps_parkAwaiting (f : Face) (e : EntryRef) (reason : AuthReason) : Keeps f (f.parkAwaiting e reason) := by
  unfold Face.parkAwaiting
  exact Keeps.modify f e rfl rfl

/-- A step that leaves the registry, and keeps what is shown and told. -/
theorem Inv.of_keeps (hs : Inv s) (hentries : s'.vault.entries = s.vault.entries)
    (hnext : s'.vault.nextEntry = s.vault.nextEntry) (hids : ∀ e, (s'.vault.heap e).id = (s.vault.heap e).id)
    (hkeeps : Keeps s.face s'.face) (hevents : s'.face.events = s.face.events) : Inv s' := by
  have hannounced : ∀ id, Announced s' id ↔ Announced s id := fun id => by simp only [Announced, hentries, (hkeeps _).2]
  refine ⟨fun id e h => ?_, ?_⟩
  · rw [hentries] at h
    rw [hnext, hids, (hkeeps e).1]
    exact hs.keyed id e h
  · obtain ⟨ids, hfollow, hmem⟩ := hs.follows
    exact ⟨ids, by rw [hevents]; exact hfollow, fun id => (hmem id).trans (hannounced id).symm⟩

/-- Subscribers are told of an update of an entry that is registered. -/
theorem Inv.emitUpdated (hs : Inv s) (he : s.vault.entries.get id = some e) :
    Inv { s with face := s.face.emitUpdated e } := by
  unfold Face.emitUpdated
  split_ifs with hannounced
  · refine ⟨hs.keyed, ?_⟩
    obtain ⟨ids, hfollow, hmem⟩ := hs.follows
    refine ⟨ids, ?_, hmem⟩
    have hid : (s.face.shown e).connection.id ∈ ids := by
      rw [(hs.keyed id e he).2.2]
      exact (hmem id).mpr ⟨e, he, hannounced⟩
    simp [Face.emit, follow, hfollow, hid]
  · exact hs

/-- What is shown of a registered entry is changed, and subscribers are told. -/
theorem Inv.shows (hs : Inv s) (he : s.vault.entries.get id = some e)
    (hid : (g (s.face.shown e)).connection.id = (s.face.shown e).connection.id)
    (hannounced : (g (s.face.shown e)).announced = (s.face.shown e).announced) :
    Inv { s with face := (s.face.modify e g).emitUpdated e } := by
  have hkept : Inv { s with face := s.face.modify e g } :=
    hs.of_keeps rfl rfl (fun _ => rfl) (Keeps.modify s.face e hid hannounced) rfl
  exact hkept.emitUpdated he

theorem Inv.setAddresses (hs : Inv s) (addresses : List Url) :
    Inv { s with face := s.face.setAddresses (s.vault.entries.get id) addresses } := by
  cases he : s.vault.entries.get id with
  | none => exact hs
  | some e => exact hs.shows he rfl rfl

theorem Inv.updateAttributes (hs : Inv s) (displayName : Option String) (metadata : List (String × Option String)) :
    Inv { s with face := s.face.updateAttributes (s.vault.entries.get id) displayName metadata } := by
  cases he : s.vault.entries.get id with
  | none => exact hs
  | some e => exact hs.shows he rfl rfl

/-- An entry that is registered is announced. -/
theorem Inv.announce (hs : Inv s) : Inv { s with face := s.face.announce (s.vault.entries.get id) } := by
  cases he : s.vault.entries.get id with
  | none => exact hs
  | some e =>
    unfold Face.announce
    dsimp only
    split_ifs with hannounced
    · exact hs
    obtain ⟨ids, hfollow, hmem⟩ := hs.follows
    have hkey := (hs.keyed id e he).2.2
    have hnew : id ∉ ids := fun hid => by
      obtain ⟨e', he', hannounced'⟩ := (hmem id).mp hid
      rw [he] at he'
      cases he'
      exact hannounced hannounced'
    refine ⟨fun id' e' he' => ?_, id :: ids, ?_, fun id' => ?_⟩
    · obtain ⟨hlt, hheap, hshown⟩ := hs.keyed id' e' he'
      refine ⟨hlt, hheap, ?_⟩
      by_cases h : e' = e
      · subst h
        simpa [Face.emit, Face.modify] using hshown
      · simpa [Face.emit, Face.modify, Function.update_of_ne h] using hshown
    · simp [Face.emit, Face.modify, follow, hfollow, hkey, hnew]
    · simp only [List.mem_cons, Announced, Face.emit, Face.modify]
      constructor
      · rintro (rfl | hid)
        · exact ⟨e, he, by simp⟩
        · obtain ⟨e', he', hannounced'⟩ := (hmem id').mp hid
          refine ⟨e', he', ?_⟩
          by_cases h : e' = e
          · simp [h]
          · simpa [Function.update_of_ne h] using hannounced'
      · rintro ⟨e', he', hannounced'⟩
        by_cases h : e' = e
        · subst h
          exact .inl ((hs.keyed id' e' he').2.2.symm.trans hkey)
        · exact .inr ((hmem id').mpr ⟨e', he', by simpa [Function.update_of_ne h] using hannounced'⟩)

/-! ### The steps -/

variable [DecidableEq ι]

theorem keeps_of_change {made : Change} {r : made.Answer} (h : made.exec t e s r = some s') :
    Keeps s.face s'.face ∧ s'.face.events = s.face.events := by
  revert h
  fun_cases Change.exec t e s made r <;> rintro ⟨⟩ <;>
    first | exact ⟨Keeps.refl _, rfl⟩ | exact ⟨keeps_authenticated _ _ _, rfl⟩

/-- A change of an entry, but the rollback of an add. -/
theorem Inv.change {made : Change} {r : made.Answer} (hs : Inv s) (h : made.exec t e s r = some s')
    (hrollback : made ≠ .rollback) : Inv s' :=
  hs.of_keeps ((Change.exec_leaves h).entries hrollback) (Change.exec_leaves h).nextEntry (Change.exec_leaves h).id
    (keeps_of_change h).1 (keeps_of_change h).2

omit [DecidableEq ι] in
/-- What the notices do to what subscribers are told. -/
theorem Inv.tell {notice : Notice} {r : notice.Answer} (hs : Inv s) :
    Inv { s with face := notice.apply C s.vault e s.face r } := by
  have hkept : ∀ f : Face, Keeps s.face f → f.events = s.face.events → Inv { s with face := f } :=
      fun f hkeeps hevents =>
    hs.of_keeps rfl rfl (fun _ => rfl) hkeeps hevents
  cases notice with
  | park reason error => exact hkept _ (keeps_park _ _ _ _) rfl
  | parkAwaiting reason => exact hkept _ (keeps_parkAwaiting _ _ _) rfl
  | parkAndEmitIfLive reason error =>
    simp only [Notice.apply]
    split_ifs with hlive
    · exact (hkept (s.face.park C e reason error) (keeps_park _ _ _ _) rfl).emitUpdated (beq_iff_eq.mp hlive)
    · exact hs
  | emitUpdatedIfLive =>
    simp only [Notice.apply]
    split_ifs with hlive
    · exact hs.emitUpdated (beq_iff_eq.mp hlive)
    · exact hs
  | recordBringupOutcome outcome => exact hkept _ (Keeps.refl _) rfl
  | setCooldown => exact hkept _ (Keeps.refl _) rfl
  | clearCooldown => exact hkept _ (Keeps.refl _) rfl
  | bumpRefreshGen => exact hkept _ (Keeps.refl _) rfl
  | announce => exact hs.announce

/-- What is registered anew is not announced. -/
theorem Inv.register {connection : Connection} {stableId : Option ConnectionId} {credentials : SecretBundle}
    (hs : Inv s) (hunannounced : ¬Announced s connection.id) : Inv (s.register t connection stableId credentials) := by
  have hget : ∀ id e, (s.vault.entries.insert connection.id s.vault.nextEntry).get id = some e ↔
      id = connection.id ∧ e = s.vault.nextEntry ∨ id ≠ connection.id ∧ s.vault.entries.get id = some e := by
    intro id e
    by_cases hid : id = connection.id
    · simp [hid, eq_comm]
    · simp [Table.get_insert_of_ne, hid]
  refine ⟨fun id e h => ?_, ?_⟩
  · rcases (hget id e).mp h with ⟨rfl, rfl⟩ | ⟨-, h⟩
    · simp [ConnectionSet.register]
    · obtain ⟨hlt, hheap, hshown⟩ := hs.keyed id e h
      have hne : e ≠ s.vault.nextEntry := hlt.ne
      simp [ConnectionSet.register, Function.update_of_ne hne, hheap, hshown, Nat.lt_succ_of_lt hlt]
  · obtain ⟨ids, hfollow, hmem⟩ := hs.follows
    refine ⟨ids, hfollow, fun id => (hmem id).trans ?_⟩
    constructor
    · rintro ⟨e, he, hannounced⟩
      have hid : id ≠ connection.id := by
        rintro rfl
        exact hunannounced ⟨e, he, hannounced⟩
      have hne : e ≠ s.vault.nextEntry := (hs.keyed id e he).1.ne
      exact ⟨e, (hget id e).mpr (.inr ⟨hid, he⟩),
        by simpa [ConnectionSet.register, Function.update_of_ne hne] using hannounced⟩
    · rintro ⟨e, he, hannounced⟩
      rcases (hget id e).mp he with ⟨-, rfl⟩ | ⟨-, he⟩
      · simp [ConnectionSet.register] at hannounced
      · have hne : e ≠ s.vault.nextEntry := (hs.keyed id e he).1.ne
        exact ⟨e, he, by simpa [ConnectionSet.register, Function.update_of_ne hne] using hannounced⟩

omit [DecidableEq ι] in
/-- What is taken away without a word is not announced. -/
theorem Inv.erase (hs : Inv s) (hunannounced : ¬Announced s id) :
    Inv { s with vault := { s.vault with entries := s.vault.entries.erase id } } := by
  have hget : ∀ id' e, (s.vault.entries.erase id).get id' = some e ↔ id' ≠ id ∧ s.vault.entries.get id' = some e := by
    intro id' e
    by_cases hid : id' = id
    · simp [hid]
    · simp [Table.get_erase_of_ne, hid]
  refine ⟨fun id' e h => hs.keyed id' e ((hget id' e).mp h).2, ?_⟩
  obtain ⟨ids, hfollow, hmem⟩ := hs.follows
  refine ⟨ids, hfollow, fun id' => (hmem id').trans ?_⟩
  constructor
  · rintro ⟨e, he, hannounced⟩
    have hid : id' ≠ id := by
      rintro rfl
      exact hunannounced ⟨e, he, hannounced⟩
    exact ⟨e, (hget id' e).mpr ⟨hid, he⟩, hannounced⟩
  · rintro ⟨e, he, hannounced⟩
    exact ⟨e, ((hget id' e).mp he).2, hannounced⟩

omit [DecidableEq ι] in
/-- A removal tells of what was announced. -/
theorem Inv.unregister {purgeSecret : Bool} (hs : Inv s) (he : s.vault.entries.get id = some e) :
    Inv (s.unregister id purgeSecret e) := by
  have hget : ∀ id' e', (s.vault.entries.erase id).get id' = some e' ↔
      id' ≠ id ∧ s.vault.entries.get id' = some e' := by
    intro id' e'
    by_cases hid : id' = id
    · simp [hid]
    · simp [Table.get_erase_of_ne, hid]
  have hannounced : ∀ id', Announced (s.unregister id purgeSecret e) id' ↔ id' ≠ id ∧ Announced s id' := by
    intro id'
    constructor
    · rintro ⟨e', he', hannounced⟩
      obtain ⟨hid, he'⟩ := (hget id' e').mp he'
      exact ⟨hid, e', he', hannounced⟩
    · rintro ⟨hid, e', he', hannounced⟩
      exact ⟨e', (hget id' e').mpr ⟨hid, he'⟩, hannounced⟩
  refine ⟨fun id' e' h => ?_, ?_⟩
  · obtain ⟨hlt, hheap, hshown⟩ := hs.keyed id' e' ((hget id' e').mp h).2
    exact ⟨hlt, (update_leaves s.vault.heap e ConnEntry.id (by rfl) e').trans hheap, hshown⟩
  · obtain ⟨ids, hfollow, hmem⟩ := hs.follows
    by_cases h : (s.face.shown e).announced = true
    · have hid : id ∈ ids := (hmem id).mpr ⟨e, he, h⟩
      refine ⟨ids.filter (· ≠ id),
        by simp [ConnectionSet.unregister, Face.retire, h, follow, hfollow, hid], fun id' => ?_⟩
      rw [hannounced id', List.mem_filter, hmem id', decide_eq_true_eq]
      exact and_comm
    · refine ⟨ids, by simpa [ConnectionSet.unregister, Face.retire, h] using hfollow, fun id' => ?_⟩
      rw [hannounced id', hmem id']
      refine ⟨fun hannounced' => ⟨?_, hannounced'⟩, And.right⟩
      rintro rfl
      obtain ⟨e', he', hannounced'⟩ := hannounced'
      rw [he] at he'
      cases he'
      exact h hannounced'

/-- Whether an announced entry is registered under the id. -/
def announces (s : ConnectionSet ι) (id : ConnectionId) : Bool :=
  (s.vault.entries.get id).any fun e => (s.face.shown e).announced

omit [DecidableEq ι] in
theorem announces_iff : announces s id = true ↔ Announced s id := by simp [announces, Announced, Option.any_eq_true]

/-- An add puts no entry in place of an announced one, nor takes one away. -/
def Unannounced (s : ConnectionSet ι) : Action → Bool
  | .insert connection _ _ => !announces s connection.id
  | .change e .rollback => !announces s (s.vault.heap e).id
  | _ => true

/-- Each step keeps what subscribers know. -/
theorem Inv.step (hs : Inv s) (h : a.exec C t r s = some s') (hunannounced : Unannounced s a = true) : Inv s' := by
  revert h hunannounced
  fun_cases Action.exec C t a r s
  case case4 e made r =>
    intro h hunannounced
    by_cases hrollback : made = .rollback
    · subst hrollback
      cases h
      exact hs.erase (announces_iff.not.mp (by simpa [Unannounced] using hunannounced))
    · exact hs.change h hrollback
  all_goals rintro ⟨⟩ hunannounced
  all_goals first
    | exact hs
    | exact hs.of_keeps rfl rfl (fun _ => rfl) (Keeps.refl _) rfl
    | exact hs.tell
    | exact hs.register (announces_iff.not.mp (by simpa [Unannounced] using hunannounced))
    | exact hs.unregister ‹_›
    | exact hs.announce
    | exact hs.setAddresses _
    | exact hs.updateAttributes _ _

end Invariant

/-! ### The runs -/

/-- What is done with the connections of a set. -/
inductive Operation
  | addConnection (connection : Connection) (stableId : Option ConnectionId) (initial : SecretBundle)
  | addConnectionDeferred (connection : Connection) (stableId : Option ConnectionId) (initial : SecretBundle)
  | announceConnection (id : ConnectionId)
  | setAddresses (id : ConnectionId) (addresses : List Url)
  | updateAttributes (id : ConnectionId) (displayName : Option String) (userMetadata : List (String × Option String))
  | removeConnection (id : ConnectionId)
  | unregisterConnection (id : ConnectionId)
  | bringUp (id : ConnectionId) (force : Bool)
  | withRecovery (id : ConnectionId)
  | backgroundRefresh (e : EntryRef)
  | updateCredentials (id : ConnectionId) (credentials : SecretBundle)
  | authenticate (id : ConnectionId)

def Operation.program (C : Config) : Operation → Program
  | .addConnection connection stableId initial => Connections.addConnection C connection stableId initial
  | .addConnectionDeferred connection stableId initial =>
    Connections.addConnectionDeferred C connection stableId initial fun _ => .ret
  | .announceConnection id => Connections.announceConnection id
  | .setAddresses id addresses => Connections.setAddresses id addresses
  | .updateAttributes id displayName userMetadata => Connections.updateAttributes id displayName userMetadata
  | .removeConnection id => removeInner id true
  | .unregisterConnection id => removeInner id false
  | .bringUp id force => Connections.bringUp C id force
  | .withRecovery id => recover C id
  | .backgroundRefresh e => Connections.backgroundRefresh C e
  | .updateCredentials id credentials => Connections.updateCredentials C id credentials
  | .authenticate id => Connections.authenticate id

/-- The id that an operation adds. -/
def Operation.adds : Operation → Option ConnectionId
  | .addConnection connection _ _ | .addConnectionDeferred connection _ _ => some connection.id
  | _ => none

section Runs

variable {ι : Type}

/-- No operation is in progress, nothing is registered, and subscribers were told nothing. -/
structure Start (s : Threads ι (ConnectionSet ι) Answer) : Prop where
  idle : ∀ t, s.progs t = .ret
  entries : ∀ id, s.shared.vault.entries.get id = none
  events : s.shared.face.events = []

/-- No add is started for an id that is registered at that moment. -/
def Unregistered (s : Threads ι (ConnectionSet ι) Answer) : Event ι Operation Answer → Bool
  | .call _ op => op.adds.all fun id => !s.shared.vault.isRegistered id
  | _ => true

/-- The runs whose steps meet a condition. -/
def Runs [DecidableEq ι] (C : Config) (q : Threads ι (ConnectionSet ι) Answer → Event ι Operation Answer → Bool) :
    List (Event ι Operation Answer) → Threads ι (ConnectionSet ι) Answer → Prop :=
  Run Start fun s l s' => s.step (Action.exec C) (Operation.program C) l = some s' ∧ q s l = true

theorem inv_of_start {s : Threads ι (ConnectionSet ι) Answer} (hs : Start s) : Inv s.shared where
  keyed id e h := by
    rw [hs.entries id] at h
    cases h
  follows := by
    refine ⟨[], by rw [hs.events]; rfl, fun id => ?_⟩
    simp [Announced, hs.entries]

variable [DecidableEq ι] {C : Config}

/-- As long as no add replaces or takes away an announced entry, subscribers know what is listed. -/
theorem events_mirror {trace : List (Event ι Operation Answer)} {s : Threads ι (ConnectionSet ι) Answer}
    (h : Runs C (fun s l => Unregistered s l && s.meets (fun _ a _ s => Unannounced s a) l) trace s) :
    Mirrors s.shared := by
  have hinv : Inv s.shared := by
    refine h.stateInvariant (I := fun s => Inv s.shared) (fun _ => inv_of_start) ?_
    rintro s l s' hs ⟨hstep, hl⟩
    rcases Threads.shared_of_step hstep with hshared | ⟨t, a, r, rfl, hexec⟩
    · rw [hshared]
      exact hs
    · exact hs.step hexec (Bool.and_eq_true_iff.mp hl).2
  exact hinv.mirrors

end Runs

/-! ### An add that undoes itself late -/

theorem start_blank : Start (Threads.idle Rotation.blank) := ⟨fun _ => rfl, fun _ => rfl, rfl⟩

/-- Executing a trace up to a state that passes a test. -/
theorem exists_run {q : Threads Bool (ConnectionSet Bool) Answer → Event Bool Operation Answer → Bool}
    (trace : List (Event Bool Operation Answer)) {p : Threads Bool (ConnectionSet Bool) Answer → Bool}
    (h : (trace.foldlM (fun (s : Threads Bool (ConnectionSet Bool) Answer) l => if q s l then
      s.step (Action.exec Debt.unlockedConfig) (Operation.program Debt.unlockedConfig) l else none)
        (Threads.idle Rotation.blank)).any p = true) :
    ∃ s, Runs Debt.unlockedConfig q trace s ∧ p s = true := by
  refine Run.of_any (fun s l s' hstep => ?_) start_blank h
  split_ifs at hstep with hq
  exact ⟨hstep, hq⟩

/-- A bundle without a refresh token. -/
def plain : SecretBundle := ⟨none, [("key", "value")]⟩

/-- The thread adds the connection `a`, up to its grant. -/
def adds (t : Bool) (e : EntryRef) (made : ℕ) : List (Event Bool Operation Answer) :=
  let look : ConnEntry × ConnectionAuthState :=
    (⟨"a", some "s", plain, 0, false, false, 0⟩, .AwaitingAuth .NeverAuthenticated)
  [.call t (.addConnection (Rotation.connectionOf "a") (some "s") plain), .act t (.lock (.purge "s")) (),
    .act t (.insert (Rotation.connectionOf "a") (some "s") plain) e, .act t (.unlock (.purge "s")) (),
    .act t (.bringupLockFor "a") made,
    .act t (.lock (.bringup made)) (), .act t (.ask e .state) look, .act t (.ask e .state) look]

/-- Its driver asks for a sign-in, and the connection is announced. -/
def announced (t : Bool) (e : EntryRef) (made : ℕ) : List (Event Bool Operation Answer) :=
  [.act t (.change e (.obtain plain)) (.ok (.AwaitingInteractive .NeverAuthenticated)),
    .act t (.tell e (.parkAwaiting .NeverAuthenticated)) (),
    .act t (.unlock (.bringup made)) (), .act t (.tell e .announce) ()]

/-- A connection is added, given an address, and removed. -/
theorem events_mirror_removal : ∃ trace s,
    Runs Debt.unlockedConfig (fun s l => Unregistered s l &&
      s.meets (fun (_ : Bool) a _ s => Unannounced s a) l) trace s ∧
      s.shared.face.events.length = 3 ∧ Mirrors s.shared := by
  obtain ⟨s, hrun, hs⟩ := exists_run (q := fun s l => Unregistered s l && s.meets (fun _ a _ s => Unannounced s a) l)
    (p := fun s => s.shared.face.events.length == 3) (adds false 0 0 ++ announced false 0 0 ++
      [.call true (.setAddresses "a" []), .act true (.setAddresses "a" []) (), .call true (.unregisterConnection "a"),
        .act true (.unregister "a" false) (some 0)]) (by decide +kernel)
  exact ⟨_, s, hrun, beq_iff_eq.mp hs, events_mirror hrun⟩

/-- An add is removed before it has validated its entry, the id is added again and announced, and
the first add, cancelled, takes the second's entry away. -/
theorem listing_lost :
    ¬∀ (C : Config) trace s, Runs C (fun (s : Threads Bool (ConnectionSet Bool) Answer) l => Unregistered s l) trace s →
    Mirrors s.shared := by
  intro h
  obtain ⟨s, hrun, hs⟩ := exists_run (q := fun s l => Unregistered s l)
    (p := fun s => follow s.shared.face.events == some ["a"] && s.shared.listConnections == []) (adds false 0 0 ++
      [.call true (.unregisterConnection "a"), .act true (.unregister "a" false) (some 0)] ++ adds true 1 1 ++
        announced true 1 1 ++
      [.act false (.change 0 (.obtain plain)) (.error .Cancelled), .act false (.change 0 .rollback) ()]) (by
        decide +kernel)
  obtain ⟨hfollow, hlisted⟩ := Bool.and_eq_true_iff.mp hs
  obtain ⟨ids, hids, hmem⟩ := h Debt.unlockedConfig _ s hrun
  rw [beq_iff_eq.mp hfollow] at hids
  cases hids
  rw [beq_iff_eq.mp hlisted] at hmem
  have ha := (hmem "a").mp (List.mem_singleton_self _)
  cases ha

end OvStorage.Connections.Changes
