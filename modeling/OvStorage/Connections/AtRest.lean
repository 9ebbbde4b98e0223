import OvStorage.Connections.Debt

/-!
# Stored and live credentials

One connection that stays registered, over a store whose writes succeed: when no operation is in
progress, the bundle that is stored is the one in memory, as long as bundles are written in the
order in which they came into memory.
-/

namespace OvStorage.Connections.AtRest

open Interleave Contract ConnectionSet Option

section Contract

variable {ι : Type} [DecidableEq ι]

/-- The thread is in the single-flight lock of the connection. -/
def Inside (id : ConnectionId) (t : ι) (s : ConnectionSet ι) : Prop :=
  ∃ made, s.vault.bringupLocks.get id = some made ∧ s.vault.held (.bringup made) = some t

/-- The thread is in the lock of credential mutations. -/
def Mutates (t : ι) (s : ConnectionSet ι) : Prop := s.vault.held (.credentialMutation 0) = some t

/-- What is stored is what is in memory. -/
def Agrees (stable : ConnectionId) (s : ConnectionSet ι) : Prop :=
  ∀ bundle ∈ s.vault.secrets stable, bundle = (s.vault.heap 0).credentials

/-- Who is yet to write a bundle is in a lock, and what is stored is in memory unless somebody is yet
to write what is. -/
structure Inv (id stable : ConnectionId) (s : ConnectionSet ι) : Prop where
  registered : Registered id stable s
  owner : ∀ t, (s.past.owes t).isSome → Inside id t s ∨ Mutates t s
  agrees : (∃ t, s.past.owes t = some (s.vault.heap 0).credentials) ∨ Agrees stable s

/-- Who is in the single-flight lock sees a new generation with any new credentials, and who is in
both locks sees no write to the store. -/
structure Rely (id stable : ConnectionId) (t : ι) (s s' : ConnectionSet ι) : Prop where
  locks : ∀ made, s.vault.bringupLocks.get id = some made → s'.vault.bringupLocks.get id = some made
  bringup : ∀ made, s'.vault.held (.bringup made) = some t ↔ s.vault.held (.bringup made) = some t
  mutation : Mutates t s' ↔ Mutates t s
  owes : s'.past.owes t = s.past.owes t
  gens : (s.vault.heap 0).credGen ≤ (s'.vault.heap 0).credGen ∧
    (s.vault.heap 0).identityGen ≤ (s'.vault.heap 0).identityGen
  memory : Inside id t s → (s'.vault.heap 0).credGen = (s.vault.heap 0).credGen →
    (s'.vault.heap 0).credentials = (s.vault.heap 0).credentials
  stored : Inside id t s → Mutates t s → s'.vault.secrets stable = s.vault.secrets stable

variable {id stable : ConnectionId} {s s' : ConnectionSet ι} {t : ι}

omit [DecidableEq ι] in
theorem Rely.inside (h : Rely id stable t s s') (hs : Inside id t s) : Inside id t s' := by
  obtain ⟨made, hlock, hheld⟩ := hs
  exact ⟨made, h.locks made hlock, (h.bringup made).mpr hheld⟩

omit [DecidableEq ι] in
theorem Rely.trans {s₁ s₂ s₃ : ConnectionSet ι} (h₁ : Rely id stable t s₁ s₂)
    (h₂ : Rely id stable t s₂ s₃) : Rely id stable t s₁ s₃ where
  locks made hlock := h₂.locks made (h₁.locks made hlock)
  bringup made := (h₂.bringup made).trans (h₁.bringup made)
  mutation := h₂.mutation.trans h₁.mutation
  owes := h₂.owes.trans h₁.owes
  gens := ⟨h₁.gens.1.trans h₂.gens.1, h₁.gens.2.trans h₂.gens.2⟩
  memory hinside hgen := by
    have hgen₁ := le_antisymm (hgen ▸ h₂.gens.1) h₁.gens.1
    exact (h₂.memory (h₁.inside hinside) (hgen.trans hgen₁.symm)).trans (h₁.memory hinside hgen₁)
  stored hinside hmutates :=
    (h₂.stored (h₁.inside hinside) (h₁.mutation.mpr hmutates)).trans (h₁.stored hinside hmutates)

/-- Where a thread is between two of its actions: the single-flight lock it is in, whether it is in
the lock of credential mutations, the bundle it is yet to write, and what it knows of the entry while
it is in the single-flight lock. -/
structure Stage (id : ConnectionId) (t : ι) (lock : Option ℕ) (mutating : Bool) (owed : Option SecretBundle)
    (P : ConnEntry → Prop) (s : ConnectionSet ι) : Prop where
  bringup : ∀ made, s.vault.held (.bringup made) = some t ↔ lock = some made
  known : ∀ made ∈ lock, s.vault.bringupLocks.get id = some made
  mutation : Mutates t s ↔ mutating = true
  owes : s.past.owes t = owed
  seen : lock.isSome → P (s.vault.heap 0)

/-- The thread is in no lock, with nothing to write. -/
abbrev Outside (id : ConnectionId) (t : ι) : ConnectionSet ι → Prop := Stage id t none false none fun _ => True

variable {owed : Option SecretBundle} {lock : Option ℕ}

omit [DecidableEq ι] in
theorem Stage.mono {mutating : Bool}
    {P P' : ConnEntry → Prop} (hs : Stage id t lock mutating owed P s) (hP : ∀ entry, P entry → P' entry) :
    Stage id t lock mutating owed P' s :=
  { hs with seen := fun hlock => hP _ (hs.seen hlock) }

/-- What is known of an entry while new credentials come with a new generation. -/
def Lasting (P : ConnEntry → Prop) : Prop :=
  ∀ entry entry', entry.credGen ≤ entry'.credGen → entry.identityGen ≤ entry'.identityGen →
    (entry'.credGen = entry.credGen → entry'.credentials = entry.credentials) → P entry → P entry'

omit [DecidableEq ι] in
theorem Stage.rely {mutating : Bool} {P : ConnEntry → Prop} (hP : Lasting P) (h : Rely id stable t s s')
    (hs : Stage id t lock mutating owed P s) : Stage id t lock mutating owed P s' where
  bringup made := (h.bringup made).trans (hs.bringup made)
  known made hmade := h.locks made (hs.known made hmade)
  mutation := h.mutation.trans hs.mutation
  owes := h.owes.trans hs.owes
  seen hlock := by
    obtain ⟨made, rfl⟩ := isSome_iff_exists.mp hlock
    have hinside : Inside id t s := ⟨made, hs.known made rfl, (hs.bringup made).mpr rfl⟩
    exact hP _ _ h.gens.1 h.gens.2 (h.memory hinside) (hs.seen hlock)

theorem lasting_true : Lasting fun _ => True := fun _ _ _ _ _ _ => trivial

/-- A bundle is written while it is in memory, or while another thread is yet to write what is; a
connection becomes anonymous on what is stored. -/
def Ordered (t : ι) (s : ConnectionSet ι) : Action → Prop
  | .change e (.persist bundle) =>
    bundle = (s.vault.heap e).credentials ∨ ∃ t' ≠ t, s.past.owes t' = some (s.vault.heap e).credentials
  | .change e (.setState credentials) => ∀ bundle ∈ s.vault.stored (s.vault.heap e).stableId, bundle = credentials
  | _ => True

def contract (C : Config) (id stable : ConnectionId) : Contract (Action.exec (ι := ι) C) where
  allowed t a r s := Writes a r = true ∧ Ordered t s a
  inv := Inv id stable
  guar t _ s s' := ∀ t' ≠ t, Rely id stable t' s s'
  rely := Rely id stable
  quiet := Outside id
  rely_refl _ _ := ⟨fun _ h => h, fun _ => Iff.rfl, Iff.rfl, rfl, ⟨le_rfl, le_rfl⟩, fun _ _ => rfl, fun _ _ => rfl⟩
  rely_trans := Rely.trans
  rely_of_guar ht h := h _ ht
  quiet_of_rely := Stage.rely lasting_true

/-- The program keeps the contract, from a thread at that stage on. -/
abbrev Staged (C : Config) (id stable : ConnectionId) (t : ι) (lock : Option ℕ) (mutating : Bool)
    (owed : Option SecretBundle) (P : ConnEntry → Prop) (p : Program) : Prop :=
  (contract C id stable).Valid t (Stage id t lock mutating owed P) p

/-- The program keeps the contract from the lock of the connection on, and asks nothing of the entry. -/
abbrev Free (C : Config) (id stable : ConnectionId) (t : ι) (lock : Option ℕ) (p : Program) : Prop :=
  Staged C id stable t lock false none (fun _ => True) p

/-- The program keeps the contract, from between the calls on. -/
abbrev Idle (C : Config) (id stable : ConnectionId) (t : ι) (p : Program) : Prop :=
  (contract C id stable).Valid t (Outside id t) p

end Contract

section Steps

variable {ι : Type} [DecidableEq ι] {C : Config} {id stable : ConnectionId} {t : ι} {a : Action} {r : Answer a}
  {s s' : ConnectionSet ι} {lock : Option ℕ} {mutating : Bool} {owed : Option SecretBundle} {P : ConnEntry → Prop}

theorem stable_stage (hP : Lasting P) : (contract C id stable).Stable t (Stage id t lock mutating owed P) :=
  Stage.rely hP

theorem stable_outside : (contract C id stable).Stable t (Outside id t) := stable_stage lasting_true

/-- The action stays aside from registry, entries and the two locks. -/
def Beside (a : Action) : Bool := a.aside && decide (a.locks ≠ some (.credentialMutation 0))

/-- What such actions keep. -/
theorem calm_of_aside (hcalm : Beside a = true) : (contract (ι := ι) C id stable).Calm a := by
  intro t r s s' h hs
  obtain ⟨ha, hlock⟩ := by simpa [Beside] using hcalm
  have haside := a.exec_aside h ha
  have hmutation : ∀ t', Mutates t' s' ↔ Mutates t' s := fun t' => by rw [Mutates, Mutates, a.exec_held h hlock]
  have hinside : ∀ t', Inside id t' s' ↔ Inside id t' s := fun t' => by
    simp only [Inside, haside.bringupLocks, haside.held]
  have hregisters : a.registers = false := by
    cases a with
    | change e made => cases made <;> simp_all [Action.aside, Action.registers]
    | _ => simp_all [Action.aside, Action.registers]
  have hrely : ∀ t', Rely id stable t' s s' := fun t' => {
    locks := fun made hmade => by rw [haside.bringupLocks]; exact hmade
    bringup := fun made => by rw [haside.held]
    mutation := hmutation t'
    owes := by rw [haside.owes]
    gens := by rw [haside.heap]; exact ⟨le_rfl, le_rfl⟩
    memory := fun _ _ => by rw [haside.heap]
    stored := fun _ _ => by rw [haside.secrets] }
  refine ⟨⟨hs.registered.step h hregisters, fun t' ht' => ?_, ?_⟩, fun t' _ => hrely t', hrely t⟩
  · rw [haside.owes] at ht'
    exact (hs.owner t' ht').imp (hinside t').mpr (hmutation t').mpr
  · simpa only [Agrees, haside.owes, haside.heap, haside.secrets] using hs.agrees

theorem silent : Silent (contract (ι := ι) C id stable) where
  asks _ _ := calm_of_aside rfl
  tells _ _ := calm_of_aside rfl
  entries _ := calm_of_aside rfl
  wakes _ := calm_of_aside rfl
  loads _ := calm_of_aside rfl
  locks _ := calm_of_aside rfl
  unlocks _ := calm_of_aside rfl

theorem valid_aside {k : Answer a → Program} (hP : Lasting P) (hcalm : Beside a = true)
    (hk : ∀ r, Staged C id stable t lock mutating owed P (k r)) :
    Staged C id stable t lock mutating owed P (.act a k) :=
  Valid.calm (calm_of_aside hcalm) (stable_stage hP) hk

theorem valid_outside {k : Answer a → Program} (hcalm : Beside a = true) (hk : ∀ r, Idle C id stable t (k r)) :
    Idle C id stable t (.act a k) :=
  valid_aside lasting_true hcalm hk

/-- The thread is in both locks, and nothing is stored. -/
structure Purged (id stable : ConnectionId) (t : ι) (lock : Option ℕ) (s : ConnectionSet ι) : Prop where
  stage : Stage id t lock true none (fun _ => True) s
  stored : s.vault.secrets stable = none

omit [DecidableEq ι] in
/-- Where the thread of a stage is. -/
theorem Stage.inside (hs : Stage id t lock mutating owed P s) (hlock : lock.isSome) : Inside id t s := by
  obtain ⟨made, rfl⟩ := isSome_iff_exists.mp hlock
  exact ⟨made, hs.known made rfl, (hs.bringup made).mpr rfl⟩

omit [DecidableEq ι] in
/-- Two threads are not in the single-flight lock. -/
theorem Inside.unique {t' : ι} (h : Inside id t s) (h' : Inside id t' s) : t' = t := by
  obtain ⟨made, hlock, hheld⟩ := h
  obtain ⟨made', hlock', hheld'⟩ := h'
  obtain rfl : made' = made := Option.some.inj (hlock'.symm.trans hlock)
  exact Option.some.inj (hheld'.symm.trans hheld)

/-- A change by a thread at its stage. -/
theorem Stage.change {made : Change} {r : made.Answer} (hs : Stage id t lock mutating owed P s) (hinv : Inv id stable s)
    (h : (Action.change 0 made).exec C t r s = some s') (hrollback : made ≠ .rollback)
    (howes : (s'.past.owes t).isSome → lock.isSome ∨ mutating = true)
    (hmemory : lock = none → (s'.vault.heap 0).credGen = (s.vault.heap 0).credGen →
      (s'.vault.heap 0).credentials = (s.vault.heap 0).credentials)
    (hstored : lock = none → mutating = false → s'.vault.secrets stable = s.vault.secrets stable)
    (hagrees : (∃ t, s'.past.owes t = some (s'.vault.heap 0).credentials) ∨ Agrees stable s') :
    Inv id stable s' ∧ (∀ t' ≠ t, Rely id stable t' s s') ∧
      Stage id t lock mutating (s'.past.owes t) (fun entry => entry = s'.vault.heap 0) s' := by
  have hleaves := Change.exec_leaves h
  have hheld := hleaves.held
  have hlocks := hleaves.bringupLocks
  have hinside : ∀ t', Inside id t' s' ↔ Inside id t' s := fun t' => by simp only [Inside, hlocks, hheld]
  have hmutates : ∀ t', Mutates t' s' ↔ Mutates t' s := fun t' => by rw [Mutates, Mutates, hheld]
  have hregisters : (Action.change 0 made).registers = false := by
    cases made <;> first | rfl | exact absurd rfl hrollback
  refine ⟨⟨hinv.registered.step h hregisters, fun t' ht' => ?_, hagrees⟩, fun t' ht => ?_, ?_⟩
  · by_cases ht : t' = t
    · subst ht
      refine (howes ht').imp (fun hlock => (hinside t').mpr (hs.inside hlock)) fun hmutating => ?_
      exact (hmutates t').mpr (hs.mutation.mpr hmutating)
    · rw [hleaves.owes_of_ne t' ht] at ht'
      exact (hinv.owner t' ht').imp (hinside t').mpr (hmutates t').mpr
  · have hout : Inside id t' s → lock = none := fun hinside' => by
      by_contra hlock
      exact ht ((hs.inside (isSome_iff_ne_none.mpr hlock)).unique hinside')
    refine ⟨fun made hmade => by rw [hlocks]; exact hmade, fun made => by rw [hheld], hmutates t',
      hleaves.owes_of_ne t' ht, ⟨hleaves.credGen_le 0, hleaves.identityGen_le 0⟩,
      fun hinside' => hmemory (hout hinside'), fun hinside' hmutates' => hstored (hout hinside') ?_⟩
    by_contra hmutating
    have hmine := hs.mutation.mpr (Bool.eq_true_of_not_eq_false hmutating)
    exact ht (Option.some.inj (hmutates'.symm.trans hmine))
  · exact ⟨fun made => by rw [hheld]; exact hs.bringup made,
      fun made hmade => by rw [hlocks]; exact hs.known made hmade, (hmutates t).trans hs.mutation, rfl, fun _ => rfl⟩

end Steps

section Programs

variable {ι : Type} [DecidableEq ι] {C : Config} {id stable : ConnectionId} {t : ι} {lock : Option ℕ} {mutating : Bool}
  {owed : Option SecretBundle} {P : ConnEntry → Prop} {credentials : SecretBundle} {credGen identityGen : ℕ}

/-- A change by a thread at its stage, and where it is after it. -/
theorem valid_change {made : Change} {k : made.Answer → Program} {O : made.Answer → Option SecretBundle}
    {Q : made.Answer → ConnEntry → Prop} (hP : Lasting P) (hrollback : made ≠ .rollback)
    (h : ∀ s r s', Stage id t lock mutating owed P s → Inv id stable s → Writes (.change 0 made) r = true →
      Ordered t s (.change 0 made) →
      (Action.change 0 made).exec C t r s = some s' →
      s'.past.owes t = O r ∧ (lock.isSome → Q r (s'.vault.heap 0)) ∧ ((O r).isSome → lock.isSome ∨ mutating = true) ∧
        (lock = none → (s'.vault.heap 0).credGen = (s.vault.heap 0).credGen →
          (s'.vault.heap 0).credentials = (s.vault.heap 0).credentials) ∧
        (lock = none → mutating = false → s'.vault.secrets stable = s.vault.secrets stable) ∧
        ((∃ t, s'.past.owes t = some (s'.vault.heap 0).credentials) ∨ Agrees stable s'))
    (hk : ∀ r, Writes (.change 0 made) r = true → Staged C id stable t lock mutating (O r) (Q r) (k r)) :
    Staged C id stable t lock mutating owed P (change 0 made k) := by
  refine Valid.act (Q := fun r s => Writes (.change 0 made) r = true ∧ Stage id t lock mutating (O r) (Q r) s)
    (stable_stage hP) ?_ fun r s hs => hk r hs.1 s hs.2
  rintro s r s' hs hinv ⟨hwrites, hordered⟩ hexec
  obtain ⟨howes, hQ, howner, hmemory, hstored, hagrees⟩ := h s r s' hs hinv hwrites hordered hexec
  rw [← howes] at howner
  obtain ⟨hinv', hguar, hstage⟩ := hs.change hinv hexec hrollback howner hmemory hstored hagrees
  exact ⟨hinv', hguar, hwrites, howes ▸ { hstage with seen := hQ }⟩

/-- A change in the lock of the connection. -/
theorem valid_change_inside {made : Change} {k : made.Answer → Program} {O : made.Answer → Option SecretBundle}
    {Q : made.Answer → ConnEntry → Prop} (hP : Lasting P) (hlock : lock.isSome) (hrollback : made ≠ .rollback)
    (h : ∀ s r s', Stage id t lock mutating owed P s → Inv id stable s → Ordered t s (.change 0 made) →
      (Action.change 0 made).exec C t r s = some s' →
      s'.past.owes t = O r ∧ Q r (s'.vault.heap 0) ∧
      ((∃ t, s'.past.owes t = some (s'.vault.heap 0).credentials) ∨ Agrees stable s'))
    (hk : ∀ r, Staged C id stable t lock mutating (O r) (Q r) (k r)) :
    Staged C id stable t lock mutating owed P (change 0 made k) := by
  have hnone : lock ≠ none := isSome_iff_ne_none.mp hlock
  refine valid_change hP hrollback (fun s r s' hs hinv _ hordered hexec => ?_) fun r _ => hk r
  obtain ⟨howes, hQ, hagrees⟩ := h s r s' hs hinv hordered hexec
  exact ⟨howes, fun _ => hQ, fun _ => .inl hlock, fun h => absurd h hnone, fun h => absurd h hnone, hagrees⟩

/-- A change that leaves the credentials, what is stored and what the thread is yet to write. -/
theorem valid_still {made : Change} {k : made.Answer → Program} (hP : Lasting P) (hrollback : made ≠ .rollback)
    (h : ∀ s r s', s.past.owes t = none → (Action.change 0 made).exec C t r s = some s' →
      s'.past.owes = s.past.owes ∧ s'.vault.secrets = s.vault.secrets ∧
        (s'.vault.heap 0).credentials = (s.vault.heap 0).credentials)
    (hk : ∀ r, Staged C id stable t lock mutating none P (k r)) :
    Staged C id stable t lock mutating none P (change 0 made k) := by
  refine valid_change hP hrollback (O := fun _ => none) (Q := fun _ => P)
    (fun s r s' hs hinv _ _ hexec => ?_) fun r _ => hk r
  obtain ⟨howes, hsecrets, hmemory⟩ := h s r s' hs.owes hexec
  have hcred := (Change.exec_leaves hexec).credGen_le 0
  have hidentity := (Change.exec_leaves hexec).identityGen_le 0
  refine ⟨(congrFun howes t).trans hs.owes,
    fun hlock => hP _ _ hcred hidentity (fun _ => hmemory) (hs.seen hlock), by simp,
    fun _ _ => hmemory, fun _ _ => congrFun hsecrets stable, ?_⟩
  simpa only [Agrees, howes, hsecrets, hmemory] using hinv.agrees

/-- The connection is found to be registered. -/
theorem valid_registered {k : Bool → Program} (hP : Lasting P)
    (hk : Staged C id stable t lock mutating owed P (k true)) :
    Staged C id stable t lock mutating owed P (ask 0 .isRegistered k) := by
  refine Valid.answered (Q := Stage id t lock mutating owed P) (stable_stage hP) ?_ hk
  intro s r s' hs hinv _ h
  obtain ⟨hinv', hguar, -⟩ := silent.asks 0 .isRegistered h hinv
  obtain ⟨hanswer, rfl⟩ := Action.exec_ask.mp h
  exact ⟨hinv', hguar, (beq_iff_eq.mp hanswer).trans hinv.registered.isRegistered, hs⟩

/-- What asks nothing of the entry. -/
theorem valid_any {p : Program} (h : Staged C id stable t lock mutating owed (fun _ => True) p) :
    Staged C id stable t lock mutating owed P p :=
  h.weaken fun _ hs => hs.mono fun _ _ => trivial

/-- A look at the entry. -/
theorem valid_look {k : ConnEntry × ConnectionAuthState → Program} (hP : Lasting P)
    (hk : ∀ r, r.1.stableId = some stable →
      Staged C id stable t lock mutating owed (fun entry => P entry ∧ r.1.credGen ≤ entry.credGen ∧
        r.1.identityGen ≤ entry.identityGen) (k r)) :
    Staged C id stable t lock mutating owed P (ask 0 .state k) := by
  refine Valid.act (Q := fun r s => r.1.stableId = some stable ∧
    Stage id t lock mutating owed (fun entry => P entry ∧ r.1.credGen ≤ entry.credGen ∧
      r.1.identityGen ≤ entry.identityGen) s)
    (stable_stage hP) ?_ fun r s hs => hk r hs.1 s hs.2
  intro s r s' hs hinv _ h
  obtain ⟨hinv', hguar, -⟩ := silent.asks 0 .state h hinv
  obtain ⟨rfl, rfl⟩ := Action.exec_state.mp h
  exact ⟨hinv', hguar, hinv.registered.stableId, { hs with seen := fun hlock => ⟨hs.seen hlock, le_rfl, le_rfl⟩ }⟩

variable {a : Action}

/-! ### Writing -/

variable {s s' : ConnectionSet ι}

omit [DecidableEq ι] in
/-- Somebody is yet to write what is in memory, if a thread that writes another bundle does not. -/
private theorem agrees_of_stores [DecidableEq ι] (hs : Registered id stable s)
    (hordered : Ordered t s (.change 0 (.persist credentials))) :
    (∃ t', ((s.stores 0 (some credentials)).owing t none).past.owes t' = some (s.vault.heap 0).credentials) ∨
      Agrees stable ((s.stores 0 (some credentials)).owing t none) := by
  rcases hordered with rfl | ⟨t', ht, howes⟩
  · refine .inr fun bundle hbundle => ?_
    simpa [owing, stores, Vault.store, hs.stableId, eq_comm] using hbundle
  · exact .inl ⟨t', by simpa [owing, stores, Function.update_of_ne ht] using howes⟩

/-- The thread writes the bundle that it has put in memory. -/
theorem valid_persist {k : Program} (hP : Lasting P) (hk : Staged C id stable t lock mutating none P k)
    (hlock : lock.isSome ∨ mutating = true) :
    Staged C id stable t lock mutating (some credentials) P (persistWithDebtPolicy 0 credentials k) := by
  refine valid_change hP (by simp) (O := fun _ => none) (Q := fun _ => P)
    (fun s written s' hs hinv hwrites hordered h => ?_)
    fun written hwrites => ?_
  · obtain rfl : written = true := hwrites
    cases h
    refine ⟨by simp [owing], hs.seen, by simp, fun _ _ => rfl, fun hnone hmutating => ?_,
      agrees_of_stores hinv.registered hordered⟩
    simp [hnone, hmutating] at hlock
  · obtain rfl : written = true := hwrites
    refine valid_still hP (by simp) (fun s r s' howes h => ?_) fun _ => hk
    cases h
    refine ⟨?_, rfl, by simp [owing, Vault.modify]⟩
    simp [owing, ← howes]

/-- The purge after a write finds the connection registered, and deletes nothing. -/
theorem valid_purge {k : Bool → Program} (hP : Lasting P) (hk : Staged C id stable t lock mutating owed P (k true)) :
    Staged C id stable t lock mutating owed P (purgeDurableCredential 0 0 (some stable) .unregistered k) := by
  have hdone : Staged C id stable t lock mutating owed P (unlockPurge (some stable) (k true)) :=
    silent.valid_unlockPurge (stable_stage hP) hk
  unfold purgeDurableCredential
  refine silent.valid_lockPurge (stable_stage hP) (silent.valid_ask (stable_stage hP) fun shared => ?_)
  split_ifs
  · exact hdone
  · exact valid_registered hP hdone

/-! ### A rejection -/

theorem stable_purged (hlock : lock.isSome) : (contract C id stable).Stable t (Purged id stable t lock) :=
  fun hrely hs =>
  ⟨stable_stage lasting_true hrely hs.stage,
    (hrely.stored (hs.stage.inside hlock) (hs.stage.mutation.mpr rfl)).trans hs.stored⟩

theorem valid_delete {k : Bool → Program} (hlock : lock.isSome)
    (hk : (contract C id stable).Valid t (Purged id stable t lock) (k true)) :
    Staged C id stable t lock true none (fun _ => True) (change 0 (.delete 0) k) := by
  refine Valid.answered (Q := Purged id stable t lock) (stable_stage lasting_true) ?_ hk
  rintro s deleted s' hs hinv ⟨hwrites, -⟩ h
  obtain rfl : deleted = true := hwrites
  have hnone : lock ≠ none := isSome_iff_ne_none.mp hlock
  have hstored : s'.vault.secrets stable = none := by
    cases h
    simp [stores, Vault.store, hinv.registered.stableId]
  have howes : s'.past.owes t = none := (congrFun (Action.exec_owes h rfl) t).trans hs.owes
  obtain ⟨hinv', hguar, hstage⟩ := hs.change hinv h (by simp) (fun _ => .inl hlock) (fun h => absurd h hnone)
    (fun h => absurd h hnone) (.inr fun bundle hbundle => by rw [hstored] at hbundle; cases hbundle)
  exact ⟨hinv', hguar, rfl, ⟨howes ▸ { hstage with seen := fun _ => trivial }, hstored⟩⟩

theorem valid_forgetOauth {k : Unit → Program} (hlock : lock.isSome)
    (hk : Staged C id stable t lock true none (fun _ => True) (k ())) :
    (contract C id stable).Valid t (Purged id stable t lock) (change 0 (.forgetOauth 0) k) := by
  refine Valid.act (Q := fun _ => Stage id t lock true none fun _ => True) (stable_purged hlock) ?_ fun _ => hk
  rintro s r s' ⟨hs, hstored⟩ hinv - h
  have hnone : lock ≠ none := isSome_iff_ne_none.mp hlock
  have hstored' : s'.vault.secrets stable = none := by
    rw [Action.exec_secrets h rfl]
    exact hstored
  have howes : s'.past.owes t = none := (congrFun (Action.exec_owes h rfl) t).trans hs.owes
  obtain ⟨hinv', hguar, hstage⟩ := hs.change hinv h (by simp) (fun _ => .inl hlock) (fun h => absurd h hnone)
    (fun h => absurd h hnone) (.inr fun bundle hbundle => by rw [hstored'] at hbundle; cases hbundle)
  exact ⟨hinv', hguar, howes ▸ { hstage with seen := fun _ => trivial }⟩

theorem valid_purgePersisted {k : Program} (hlock : lock.isSome)
    (hk : Staged C id stable t lock true none (fun _ => True) k) :
    Staged C id stable t lock true none (fun _ => True) (purgePersistedCredentials 0 k) := by
  refine Valid.answered (x := some 0) (Q := Stage id t lock true none fun _ => True) (stable_stage lasting_true)
    (fun s r s' hs hinv _ h => ?_) ?_
  · obtain ⟨hinv', hguar, -⟩ := silent.asks 0 .entry h hinv
    obtain ⟨hanswer, rfl⟩ := Action.exec_ask.mp h
    refine ⟨hinv', hguar, (beq_iff_eq.mp hanswer).trans ?_, hs⟩
    exact (hinv.registered.entries _ 0).mpr ⟨hinv.registered.id, rfl⟩
  · refine valid_look lasting_true fun state hstable => ?_
    rw [hstable]
    have hdelete : Staged C id stable t lock true none (fun _ => True)
        (change 0 (.delete 0) fun deleted => unlockPurge (some stable) <|
          if deleted then change 0 (.forgetOauth 0) fun _ => k else k) := by
      refine valid_delete hlock ?_
      exact silent.valid_unlockPurge (stable_purged hlock) (valid_forgetOauth hlock hk)
    have hasked : Staged C id stable t lock true none (fun _ => True)
        (purgeDurableCredential 0 0 (some stable) .always fun deleted =>
          if deleted then change 0 (.forgetOauth 0) fun _ => k else k) := by
      unfold purgeDurableCredential
      refine silent.valid_lockPurge (stable_stage lasting_true) ?_
      refine Valid.answered (x := false) (stable_stage lasting_true) (fun s r s' hs hinv _ h => ?_) hdelete
      obtain ⟨hinv', hguar, -⟩ := silent.asks 0 (.sharedByOther 0) h hinv
      obtain ⟨hanswer, rfl⟩ := Action.exec_ask.mp h
      exact ⟨hinv', hguar, (beq_iff_eq.mp hanswer).trans hinv.registered.not_shared, hs⟩
    exact valid_any hasked

/-! ### Grants -/

/-- The entry has come to the generations. -/
def Began (credGen identityGen : ℕ) (entry : ConnEntry) : Prop :=
  credGen ≤ entry.credGen ∧ identityGen ≤ entry.identityGen

/-- While it stays there, it has the bundle in memory. -/
def Granted (credGen identityGen : ℕ) (bundle : SecretBundle) (entry : ConnEntry) : Prop :=
  Began credGen identityGen entry ∧
    (entry.credGen = credGen → entry.identityGen = identityGen → entry.credentials = bundle)

/-- While it stays at the generation of credentials, it has the bundle in memory. -/
def Activated (credGen : ℕ) (bundle : SecretBundle) (entry : ConnEntry) : Prop :=
  credGen ≤ entry.credGen ∧ (entry.credGen = credGen → entry.credentials = bundle)

theorem lasting_began : Lasting (Began credGen identityGen) :=
  fun _ _ hcred hidentity _ h => ⟨h.1.trans hcred, h.2.trans hidentity⟩

theorem lasting_look (hP : Lasting P) :
    Lasting fun entry => P entry ∧ credGen ≤ entry.credGen ∧ identityGen ≤ entry.identityGen :=
      fun _ _ hcred hidentity hmemory h =>
  ⟨hP _ _ hcred hidentity hmemory h.1, h.2.1.trans hcred, h.2.2.trans hidentity⟩

theorem lasting_granted : Lasting (Granted credGen identityGen credentials) := by
  rintro entry entry' hcred hidentity hmemory ⟨hbegan, h⟩
  refine ⟨lasting_began entry entry' hcred hidentity hmemory hbegan, fun hcred' hidentity' => ?_⟩
  have hcred₀ := le_antisymm (hcred' ▸ hcred) hbegan.1
  have hidentity₀ := le_antisymm (hidentity' ▸ hidentity) hbegan.2
  exact (hmemory (hcred'.trans hcred₀.symm)).trans (h hcred₀ hidentity₀)

theorem lasting_activated : Lasting (Activated credGen credentials) := by
  rintro entry entry' hcred - hmemory ⟨hle, h⟩
  refine ⟨hle.trans hcred, fun hcred' => ?_⟩
  have hcred₀ := le_antisymm (hcred' ▸ hcred) hle
  exact (hmemory (hcred'.trans hcred₀.symm)).trans (h hcred₀)

theorem valid_commitAndPersist {k : Bool → Program} (hlock : lock.isSome)
    (hk : ∀ persisted, Staged C id stable t lock false none (Granted credGen identityGen credentials) (k persisted)) :
    Staged C id stable t lock false none (Began credGen identityGen)
      (Grant.commitAndPersist ⟨0, some stable, credGen, identityGen⟩ credentials k) := by
  refine valid_change_inside lasting_began hlock (by simp)
    (O := fun superseded => if superseded then none else some credentials)
    (Q := fun _ => Granted credGen identityGen credentials) (fun s superseded s' hs hinv _ h => ?_) fun superseded => ?_
  · rcases Action.exec_commitGrant h with ⟨rfl, hmoved, rfl⟩ | ⟨rfl, -, rfl⟩
    · exact ⟨hs.owes, ⟨hs.seen hlock, fun hcred hidentity => absurd ⟨hcred, hidentity⟩ hmoved⟩, hinv.agrees⟩
    · refine ⟨by simp [owing], ⟨?_, fun _ _ => by simp [owing, Vault.modify]⟩,
        .inl ⟨t, by simp [owing, Vault.modify]⟩⟩
      simpa [owing, Vault.modify, Began] using hs.seen hlock
  · cases superseded with
    | true => exact hk false
    | false =>
      have hpurge : Staged C id stable t lock false none (Granted credGen identityGen credentials)
          (purgeDurableCredential 0 0 (some stable) .unregistered fun _ => k true) :=
            valid_purge lasting_granted (hk true)
      have hpersist : Staged C id stable t lock false (some credentials) (Granted credGen identityGen credentials)
          (ask 0 .isRegistered fun registered => if registered then persistWithDebtPolicy 0 credentials <|
            purgeDurableCredential 0 0 (some stable) .unregistered fun _ => k true else k false) :=
        valid_registered lasting_granted (valid_persist lasting_granted hpurge (.inl hlock))
      exact hpersist

/-- A step of the thread on the lock of credential mutations. -/
theorem Stage.locks {r : Answer a} {mutating' : Bool} (hs : Stage id t lock mutating none P s) (hinv : Inv id stable s)
    (h : a.exec C t r s = some s') (ha : a.aside = true) (hlocks : a.locks = some (.credentialMutation 0))
    (hmutates : Mutates t s' ↔ mutating' = true) :
    Inv id stable s' ∧ (∀ t' ≠ t, Rely id stable t' s s') ∧ Stage id t lock mutating' none P s' := by
  have haside := a.exec_aside h ha
  have hregisters : a.registers = false := by cases a <;> simp_all [Action.registers, Action.locks]
  have hinside : ∀ t', Inside id t' s' ↔ Inside id t' s := fun t' => by
    simp only [Inside, haside.bringupLocks, haside.held]
  refine ⟨⟨hinv.registered.step h hregisters, fun t' ht' => ?_, ?_⟩, fun t' ht => ?_, ?_⟩
  · rw [haside.owes] at ht'
    by_cases ht : t' = t
    · subst ht
      rw [hs.owes] at ht'
      cases ht'
    · exact (hinv.owner t' ht').imp (hinside t').mpr (a.exec_held_of_ne h ht _).mpr
  · simpa only [Agrees, haside.owes, haside.heap, haside.secrets] using hinv.agrees
  · exact ⟨fun made hmade => by rw [haside.bringupLocks]; exact hmade, fun made => by rw [haside.held],
      a.exec_held_of_ne h ht _, by rw [haside.owes], by rw [haside.heap]; exact ⟨le_rfl, le_rfl⟩,
      fun _ _ => by rw [haside.heap], fun _ _ => by rw [haside.secrets]⟩
  · exact ⟨fun made => by rw [haside.held]; exact hs.bringup made,
      fun made hmade => by rw [haside.bringupLocks]; exact hs.known made hmade, hmutates,
      by rw [haside.owes]; exact hs.owes, fun hlock => by rw [haside.heap]; exact hs.seen hlock⟩

theorem valid_lockMutation {k : Unit → Program} (hP : Lasting P)
    (hk : Staged C id stable t lock true none P (k ())) :
    Staged C id stable t lock false none P (.act (.lock (.credentialMutation 0)) k) := by
  refine Valid.act (Q := fun _ => Stage id t lock true none P) (stable_stage hP) ?_ fun _ => hk
  intro s r s' hs hinv _ h
  refine hs.locks hinv h rfl rfl ?_
  obtain ⟨-, rfl⟩ := of_guard h
  simp [Mutates, hold]

theorem valid_unlockMutation {k : Unit → Program} (hP : Lasting P)
    (hk : Staged C id stable t lock false none P (k ())) :
    Staged C id stable t lock true none P (.act (.unlock (.credentialMutation 0)) k) := by
  refine Valid.act (Q := fun _ => Stage id t lock false none P) (stable_stage hP) ?_ fun _ => hk
  intro s r s' hs hinv _ h
  refine hs.locks hinv h rfl rfl ?_
  obtain ⟨-, rfl⟩ := of_guard h
  simp [Mutates, hold]

variable {base : SecretBundle} {lineage : Lineage}

section Obtain

variable {k : Except ErrorCode Obtained → Program} (hlock : lock.isSome)
  (hk : ∀ outcome, (∀ credentials, outcome ≠ .ok (.Bearer credentials)) → Free C id stable t lock (k outcome))
  (hbearer : ∀ credentials, Staged C id stable t lock false none (Granted credGen identityGen credentials)
    (k (.ok (.Bearer credentials))))
include hlock hk hbearer

theorem valid_obtain : Staged C id stable t lock false none (Began credGen identityGen)
      (Grant.obtain ⟨0, some stable, credGen, identityGen⟩ lineage base k) := by
  refine valid_still lasting_began (by simp) (fun s r s' _ h => ?_) fun r => ?_
  · match r with
    | .ok (.Bearer _) | .ok .Anonymous | .ok (.AwaitingInteractive _) | .ok .WouldConsume | .error _ =>
      cases h
      exact ⟨rfl, rfl, rfl⟩
  match r with
  | .ok (.Bearer credentials) => exact valid_commitAndPersist hlock fun _ => hbearer credentials
  | .ok .Anonymous | .ok (.AwaitingInteractive _) | .ok .WouldConsume => exact valid_any (hk _ (by simp))
  | .error error =>
    have hrejected : Staged C id stable t lock true none (fun _ => True)
        (.act (.unlock (.credentialMutation 0)) fun _ => k (.error error)) :=
      valid_unlockMutation lasting_true (hk _ (by simp))
    dsimp only
    split_ifs
    · have hlocked : Staged C id stable t lock true none (fun _ => True) (ask 0 .state fun state =>
          if state.1.credGen = credGen ∧ state.1.identityGen = identityGen then
            purgePersistedCredentials 0 <| .act (.unlock (.credentialMutation 0)) fun _ => k (.error error)
          else .act (.unlock (.credentialMutation 0)) fun _ => k (.error error)) := by
        refine valid_aside lasting_true (by rfl) fun state => ?_
        split_ifs
        · exact valid_purgePersisted hlock hrejected
        · exact hrejected
      exact valid_any (valid_lockMutation lasting_true hlocked)
    · exact valid_any (hk _ (by simp))

theorem valid_obtainAndPersist : Staged C id stable t lock false none (Began credGen identityGen)
      (Grant.obtainAndPersist ⟨0, some stable, credGen, identityGen⟩ base lineage k) := by
  cases lineage with
  | Fresh => exact valid_obtain hlock hk hbearer
  | Stored =>
    refine valid_aside lasting_began (by rfl) fun state => ?_
    split_ifs
    · exact valid_obtain hlock hk hbearer
    refine valid_aside lasting_began (by rfl) fun loaded => ?_
    rcases loaded with error | _ | head
    · exact valid_any (hk _ (by simp))
    · exact valid_obtain hlock hk hbearer
    · exact valid_obtain hlock hk hbearer

theorem valid_obtainLocked : Staged C id stable t lock false none (Began credGen identityGen)
      (Grant.obtainLocked ⟨0, some stable, credGen, identityGen⟩ C base lineage k) := by
  have hplain : Staged C id stable t lock false none (Began credGen identityGen)
      (Grant.obtainAndPersist ⟨0, some stable, credGen, identityGen⟩ base lineage k) :=
        valid_obtainAndPersist hlock hk hbearer
  cases hlocked : C.locked with
  | false => simpa only [Grant.obtainLocked, hlocked] using hplain
  | true =>
    simp only [Grant.obtainLocked, hlocked]
    refine valid_aside lasting_began (by rfl) fun answer => ?_
    cases answer with
    | Failed error => exact valid_any (hk _ (by simp))
    | Skipped => exact hplain
    | Locked =>
      refine valid_obtainAndPersist hlock (fun outcome houtcome => ?_) fun credentials => ?_
      · refine valid_aside lasting_true (by rfl) fun r => ?_
        cases r with
        | some error => exact hk _ (by simp)
        | none => exact hk outcome houtcome
      · refine valid_aside lasting_granted (by rfl) fun r => ?_
        cases r with
        | some error => exact valid_any (hk _ (by simp))
        | none => exact hbearer credentials

end Obtain

/-- What is refreshed from is of no account here. -/
theorem valid_refreshBase {k : Except ErrorCode SecretBundle → Program}
    (hk : ∀ r, Staged C id stable t lock false none (Began credGen identityGen) (k r)) :
    Staged C id stable t lock false none (Began credGen identityGen)
      (Grant.refreshBase ⟨0, some stable, credGen, identityGen⟩ base k) := by
  refine valid_aside lasting_began (by rfl) fun state => ?_
  split_ifs
  · exact hk _
  refine valid_aside lasting_began (by rfl) fun loaded => ?_
  rcases loaded with error | _ | head
  · exact hk _
  · exact hk _
  · exact hk _

theorem valid_refresh {k : Except ErrorCode SecretBundle → Program}
    (hk : ∀ r, Staged C id stable t lock false none (Began credGen identityGen) (k r)) :
    Staged C id stable t lock false none (Began credGen identityGen) (change 0 (.refresh base) k) := by
  refine valid_still lasting_began (by simp) (fun s r s' _ h => ?_) hk
  match r with
  | .ok _ | .error _ =>
    cases h
    exact ⟨rfl, rfl, rfl⟩

theorem valid_refreshFromHead {k : Except ErrorCode (SecretBundle × Bool) → Program}
    (herror : ∀ error, Staged C id stable t lock false none (Began credGen identityGen) (k (.error error)))
    (hk : ∀ refreshed, Staged C id stable t lock false none (Began credGen identityGen) (k (.ok (refreshed, false)))) :
    Staged C id stable t lock false none (Began credGen identityGen)
      (Grant.refreshFromHead ⟨0, some stable, credGen, identityGen⟩ base k) := by
  refine valid_refreshBase fun r => ?_
  cases r with
  | error error => exact herror error
  | ok base =>
    refine valid_refresh fun r => ?_
    cases r with
    | error error => exact herror error
    | ok refreshed => exact hk refreshed

theorem valid_lockedRefresh {zeroWindow : Bool} {k : Option (Except ErrorCode (SecretBundle × Bool)) → Program}
    (hlock : lock.isSome)
    (hskipped : Staged C id stable t lock false none (Began credGen identityGen) (k none))
    (herror : ∀ error, Staged C id stable t lock false none (Began credGen identityGen) (k (some (.error error))))
    (hk : ∀ refreshed persisted, Staged C id stable t lock false none (Granted credGen identityGen refreshed)
      (k (some (.ok (refreshed, persisted))))) :
    Staged C id stable t lock false none (Began credGen identityGen)
      (Grant.lockedRefresh ⟨0, some stable, credGen, identityGen⟩ stable zeroWindow base k) := by
  refine valid_aside lasting_began (by rfl) fun answer => ?_
  cases answer with
  | Failed error => exact herror error
  | Skipped => exact hskipped
  | Locked =>
    refine valid_refreshBase fun r => ?_
    cases r with
    | error error =>
      refine valid_aside lasting_began (by rfl) fun r => ?_
      cases r <;> exact herror _
    | ok base =>
      refine valid_refresh fun r => ?_
      cases r with
      | error error =>
        refine valid_aside lasting_began (by rfl) fun r => ?_
        cases r <;> exact herror _
      | ok refreshed =>
        refine valid_commitAndPersist hlock fun persisted => valid_aside lasting_granted (by rfl) fun r => ?_
        cases r with
        | some error => exact (herror error).weaken fun _ hs => hs.mono fun _ h => h.1
        | none => exact hk refreshed persisted

/-- What a refresh has persisted is in memory while the entry stays at its generations. -/
theorem valid_coalescedRefresh {k : Except ErrorCode (SecretBundle × Bool) → Program} (hlock : lock.isSome)
    (herror : ∀ error, Staged C id stable t lock false none (Began credGen identityGen) (k (.error error)))
    (hk : ∀ refreshed, Staged C id stable t lock false none (Granted credGen identityGen refreshed)
      (k (.ok (refreshed, true))))
    (hunpersisted : ∀ refreshed, Staged C id stable t lock false none (Began credGen identityGen)
      (k (.ok (refreshed, false)))) :
    Staged C id stable t lock false none (Began credGen identityGen)
      (Grant.coalescedRefresh ⟨0, some stable, credGen, identityGen⟩ C base k) := by
  have hplain : Staged C id stable t lock false none (Began credGen identityGen)
      (Grant.refreshFromHead ⟨0, some stable, credGen, identityGen⟩ base k) := valid_refreshFromHead herror hunpersisted
  have hdone : ∀ refreshed persisted, Staged C id stable t lock false none (Granted credGen identityGen refreshed)
      (k (.ok (refreshed, persisted))) := by
    intro refreshed persisted
    cases persisted with
    | true => exact hk refreshed
    | false => exact (hunpersisted refreshed).weaken fun _ hs => hs.mono fun _ h => h.1
  cases hlocked : C.locked with
  | false => simpa only [Grant.coalescedRefresh, hlocked] using hplain
  | true =>
    simp only [Grant.coalescedRefresh, hlocked]
    exact valid_lockedRefresh hlock (valid_lockedRefresh hlock hplain herror hdone) herror hdone

/-! ### What becomes of a grant -/

omit [DecidableEq ι] in
/-- A commit of what is in memory already. -/
private theorem agrees_of_swap {state : ConnectionAuthState} (hs : Inv id stable s)
    (hmemory : (s.vault.heap 0).credentials = credentials) :
    (∃ t', (s.swap 0 credentials state).past.owes t' = some ((s.swap 0 credentials state).vault.heap 0).credentials) ∨
      Agrees stable (s.swap 0 credentials state) := by
  subst hmemory
  simpa [Agrees, swap, Vault.modify] using hs.agrees

theorem valid_commitAuthenticated {k : Program} (hlock : lock.isSome)
    (hk : Free C id stable t lock k) :
    Staged C id stable t lock false none (Granted credGen identityGen credentials)
      (Grant.commitAuthenticated ⟨0, some stable, credGen, identityGen⟩ credentials lineage k) := by
  have hgranted : Staged C id stable t lock false none (Granted credGen identityGen credentials) k :=
    hk.weaken fun _ hs => hs.mono fun _ _ => trivial
  refine valid_registered lasting_granted (valid_aside lasting_granted (by rfl) fun state => ?_)
  split_ifs
  · exact hgranted
  refine valid_change_inside lasting_granted hlock (by simp) (O := fun _ => none)
    (Q := fun activated entry => activated = true → Activated credGen credentials entry)
      (fun s activated s' hs hinv _ h => ?_) fun activated => ?_
  · have hseen := hs.seen hlock
    rcases Action.exec_activate h with ⟨rfl, rfl⟩ | ⟨rfl, hidentity, ⟨-, rfl⟩ | ⟨-, rfl⟩⟩
    · exact ⟨hs.owes, by simp, hinv.agrees⟩
    · exact ⟨hs.owes, fun _ => ⟨hseen.1.1, fun hcred => hseen.2 hcred hidentity⟩, hinv.agrees⟩
    · refine ⟨hs.owes, fun _ => ⟨?_, fun hcred => ?_⟩, ?_⟩
      · simpa [Vault.modify] using hseen.1.1
      · simpa [Vault.modify] using hseen.2 (by simpa [Vault.modify] using hcred) hidentity
      · simpa [Agrees, Vault.modify] using hinv.agrees
  cases activated with
  | false => exact valid_any hk
  | true =>
    have hcommit : Staged C id stable t lock false none (Activated credGen credentials)
        (change 0 (.commitAuthenticated credentials credGen identityGen lineage) fun committed =>
          if committed then runOnAuthenticated 0 fun _ => k else k) := by
      refine valid_change_inside lasting_activated hlock (by simp) (O := fun _ => none) (Q := fun _ _ => True)
        (fun s committed s' hs hinv _ h => ?_) fun committed => ?_
      · obtain ⟨hcommitted, rfl⟩ := Action.exec_commitAuthenticated h
        cases committed with
        | false => exact ⟨hs.owes, trivial, hinv.agrees⟩
        | true =>
          have hmemory := (hs.seen hlock).2 (of_decide_eq_true hcommitted.symm).1
          exact ⟨hs.owes, trivial, agrees_of_swap hinv hmemory⟩
      · split_ifs
        · exact silent.valid_runOnAuthenticated (stable_stage lasting_true) fun _ => hk
        · exact hk
    exact hcommit.weaken fun _ hs => hs.mono fun _ h => h rfl

theorem valid_applyGrant {outcome : Obtained} {k : Option ErrorCode → Program} (hlock : lock.isSome)
    (hk : ∀ failure, Free C id stable t lock (k failure)) :
    Staged C id stable t lock false none (fun entry => ∀ effective, outcome = .Bearer effective →
      Granted credGen identityGen effective entry)
      (Grant.applyGrant ⟨0, some stable, credGen, identityGen⟩ base outcome lineage k) := by
  cases outcome with
  | Bearer effective =>
    have hgranted : Staged C id stable t lock false none (Granted credGen identityGen effective)
        (Grant.applyGrant ⟨0, some stable, credGen, identityGen⟩ base (.Bearer effective) lineage k) := by
      refine valid_aside lasting_granted (by rfl) fun failure => ?_
      cases failure with
      | none => exact valid_commitAuthenticated hlock (hk none)
      | some error => exact valid_any (hk _)
    exact hgranted.weaken fun _ hs => hs.mono fun _ h => h effective rfl
  | Anonymous =>
    refine valid_any (valid_change_inside lasting_true hlock (by simp) (O := fun _ => none) (Q := fun _ _ => True)
      (fun s r s' hs hinv hordered h => ?_) fun _ => hk none)
    cases h
    refine ⟨hs.owes, trivial, .inr fun bundle hbundle => ?_⟩
    have hstored : bundle ∈ s.vault.stored (s.vault.heap 0).stableId := by
      rw [hinv.registered.stableId]
      exact hbundle
    simpa [swap, Vault.modify] using hordered bundle hstored
  | AwaitingInteractive reason => exact valid_any (valid_aside lasting_true (by rfl) fun _ => hk none)
  | WouldConsume => exact valid_any (valid_aside lasting_true (by rfl) fun _ => hk none)

/-- What `record_refreshed` does once its bundle is in memory and in the store. -/
theorem valid_established {k : Program} (hk : Staged C id stable t lock mutating none (fun _ => True) k) :
    Staged C id stable t lock mutating none (fun _ => True)
      (runOnAuthenticated 0 fun succeeded => if succeeded then tell 0 .emitUpdatedIfLive k else k) := by
  refine silent.valid_runOnAuthenticated (stable_stage lasting_true) fun succeeded => ?_
  split_ifs
  · exact silent.valid_tell (stable_stage lasting_true) hk
  · exact hk

theorem valid_recordRefreshed_persisted {k : Program} (hlock : lock.isSome)
    (hk : Free C id stable t lock k) :
    Staged C id stable t lock false none (Granted credGen identityGen credentials)
      (Grant.recordRefreshed ⟨0, some stable, credGen, identityGen⟩ credentials true k) := by
  refine valid_registered lasting_granted
    (valid_change_inside lasting_granted hlock (by simp) (O := fun _ => none) (Q := fun _ _ => True)
    (fun s committed s' hs hinv _ h => ?_) fun committed => ?_)
  · obtain ⟨hcommitted, rfl⟩ := Action.exec_commitRefreshed h
    cases committed with
    | false => exact ⟨hs.owes, trivial, hinv.agrees⟩
    | true =>
      obtain ⟨hcred, hidentity⟩ := of_decide_eq_true hcommitted.symm
      have hmemory := (hs.seen hlock).2 hcred hidentity
      exact ⟨hs.owes, trivial, agrees_of_swap hinv hmemory⟩
  · cases committed with
    | false => exact hk
    | true => exact valid_established hk

theorem valid_recordRefreshed {k : Program} (hlock : lock.isSome)
    (hk : Free C id stable t lock k) :
    Free C id stable t lock
      (Grant.recordRefreshed ⟨0, some stable, credGen, identityGen⟩ credentials false k) := by
  refine valid_registered lasting_true (valid_change_inside lasting_true hlock (by simp)
    (O := fun committed => if committed then some credentials else none) (Q := fun _ _ => True)
    (fun s committed s' hs hinv _ h => ?_) fun committed => ?_)
  · obtain ⟨-, rfl⟩ := Action.exec_commitRefreshed h
    cases committed with
    | false => exact ⟨hs.owes, trivial, hinv.agrees⟩
    | true =>
      exact ⟨by simp [owing], trivial, .inl ⟨t, by simp [owing, swap, Vault.modify]⟩⟩
  · cases committed with
    | false => exact hk
    | true =>
      have hestablished : Free C id stable t lock
          (ask 0 .isRegistered fun registered => if registered then
            runOnAuthenticated 0 fun succeeded => if succeeded then tell 0 .emitUpdatedIfLive k else k
          else purgeDurableCredential 0 0 (some stable) .unregistered fun _ => k) :=
        valid_registered lasting_true (valid_established hk)
      exact valid_persist lasting_true hestablished (.inl hlock)

theorem valid_obtainAndApply {k : Option ErrorCode → Program} (hlock : lock.isSome)
    (hk : ∀ failure, Free C id stable t lock (k failure)) :
    Free C id stable t lock (obtainAndApply C 0 base lineage k) := by
  refine valid_look lasting_true fun first hstable => ?_
  rw [hstable]
  refine Valid.imp (Stage id t lock false none (Began first.1.credGen 0))
    (fun _ hs => hs.mono fun _ h => ⟨h.2.1, Nat.zero_le _⟩) ?_
  refine valid_look lasting_began fun second _ => ?_
  refine Valid.imp (Stage id t lock false none (Began first.1.credGen second.1.identityGen))
    (fun _ hs => hs.mono fun _ h => ⟨h.1.1, h.2.2⟩) ?_
  refine valid_obtainLocked hlock (fun outcome houtcome => ?_) fun credentials => ?_
  · cases outcome with
    | error error => exact hk _
    | ok outcome =>
      refine (valid_applyGrant hlock hk).weaken fun _ hs => hs.mono ?_
      rintro entry - effective rfl
      exact absurd rfl (houtcome effective)
  · refine (valid_applyGrant hlock hk).weaken fun _ hs => hs.mono ?_
    rintro entry h effective ⟨⟩
    exact h

/-! ### The single-flight lock -/

theorem valid_ret : Idle C id stable t .ret := Valid.ret fun _ hs => hs

/-- The thread knows the single-flight lock. -/
structure Named (id : ConnectionId) (t : ι) (made : ℕ) (s : ConnectionSet ι) : Prop where
  outside : Outside id t s
  lock : s.vault.bringupLocks.get id = some made

theorem stable_named {made : ℕ} : (contract C id stable).Stable t (Named id t made) := fun hrely hs =>
  ⟨stable_outside hrely hs.outside, hrely.locks made hs.lock⟩

/-- A step on a single-flight lock, as the others see it. -/
private theorem rely_of_hold {r : Answer a} (h : a.exec C t r s = some s')
    (hlocks : s'.vault.bringupLocks = s.vault.bringupLocks) (hheap : s'.vault.heap = s.vault.heap)
    (hsecrets : s'.vault.secrets = s.vault.secrets) (howes : s'.past.owes = s.past.owes) {t' : ι} (ht : t' ≠ t) :
    Rely id stable t' s s' where
  locks made hmade := by rw [hlocks]; exact hmade
  bringup made := a.exec_held_of_ne h ht _
  mutation := a.exec_held_of_ne h ht _
  owes := by rw [howes]
  gens := by rw [hheap]; exact ⟨le_rfl, le_rfl⟩
  memory _ _ := by rw [hheap]
  stored _ _ := by rw [hsecrets]

/-- What somebody else owes is owed in a lock still. -/
private theorem owner_of_rely (hinv : Inv id stable s) (hrely : ∀ t' ≠ t, Rely id stable t' s s')
    (howes : s.past.owes t = none) (howes' : s'.past.owes = s.past.owes) (t' : ι) (ht' : (s'.past.owes t').isSome) :
    Inside id t' s' ∨ Mutates t' s' := by
  rw [howes'] at ht'
  by_cases ht : t' = t
  · subst ht
    rw [howes] at ht'
    cases ht'
  · exact (hinv.owner t' ht').imp (hrely t' ht).inside (hrely t' ht).mutation.mpr

theorem valid_singleFlight {body : Lock → Program}
    (hbody : ∀ made, Free C id stable t (some made) (body (.bringup made))) :
    Idle C id stable t (singleFlight id body) := by
  refine Valid.act (Q := fun made => Named id t made) stable_outside ?_ fun made => ?_
  · intro s made s' hs hinv _ h
    have hreg := hinv.registered.step h rfl
    simp only [Action.exec] at h
    split at h
    next known hlock =>
      split_ifs at h with hmade
      cases h
      exact ⟨hinv, fun t' _ => (contract C id stable).rely_refl t' s, hs, hmade ▸ hlock⟩
    next hnone =>
      split_ifs at h with hmade
      cases h
      have hout : ∀ t', ¬Inside id t' s := by
        rintro t' ⟨made', hmade', -⟩
        rw [hnone] at hmade'
        cases hmade'
      refine ⟨⟨hreg, fun t' ht' => ?_, hinv.agrees⟩,
        fun t' _ => ⟨fun made' hmade' => ?_, fun _ => Iff.rfl, Iff.rfl, rfl,
        ⟨le_rfl, le_rfl⟩, fun _ _ => rfl, fun _ _ => rfl⟩,
        ⟨hs.bringup, fun _ h => (by cases h), hs.mutation, hs.owes, fun h => (by cases h)⟩, ?_⟩
      · exact .inr ((hinv.owner t' ht').resolve_left (hout t'))
      · rw [hnone] at hmade'
        cases hmade'
      · simp
  · refine Valid.act (Q := fun _ => Stage id t (some made) false none fun _ => True) stable_named ?_ fun _ => hbody made
    intro s r s' hs hinv _ h
    have hreg := hinv.registered.step h rfl
    have hrely : ∀ t' ≠ t, Rely id stable t' s s' := by
      intro t' ht
      refine rely_of_hold h ?_ ?_ ?_ ?_ ht
      all_goals
        obtain ⟨-, rfl⟩ := of_guard h
        rfl
    obtain ⟨hfree, rfl⟩ := of_guard h
    refine ⟨⟨hreg, owner_of_rely hinv hrely hs.outside.owes rfl, hinv.agrees⟩, hrely,
      ⟨fun made' => ?_, ?_, ?_, hs.outside.owes, fun _ => trivial⟩⟩
    · by_cases hmade : made' = made
      · simp [hold, hmade]
      · have hother : Lock.bringup made' ≠ .bringup made := by simpa using hmade
        have hmine := hs.outside.bringup made'
        simpa [hold, Function.update_of_ne hother, eq_comm (a := made), hmade] using hmine
    · rintro made' ⟨⟩
      exact hs.lock
    · have hmine := hs.outside.mutation
      simpa [Mutates, hold] using hmine

theorem valid_unlock {made : ℕ} {k : Program} (hk : Idle C id stable t k) :
    Free C id stable t (some made) (unlock (.bringup made) k) := by
  refine Valid.act (Q := fun _ => Outside id t) (stable_stage lasting_true) ?_ fun _ => hk
  intro s r s' hs hinv _ h
  have hreg := hinv.registered.step h rfl
  have hrely : ∀ t' ≠ t, Rely id stable t' s s' := by
    intro t' ht
    refine rely_of_hold h ?_ ?_ ?_ ?_ ht
    all_goals
      obtain ⟨-, rfl⟩ := of_guard h
      rfl
  obtain ⟨-, rfl⟩ := of_guard h
  refine ⟨⟨hreg, owner_of_rely hinv hrely hs.owes rfl, hinv.agrees⟩, hrely,
    ⟨fun made' => ?_, fun _ h => (by cases h), ?_, hs.owes, fun _ => trivial⟩⟩
  · by_cases hmade : made' = made
    · simp [hold, hmade]
    · have hother : Lock.bringup made' ≠ .bringup made := by simpa using hmade
      have hmine := hs.bringup made'
      simpa [hold, Function.update_of_ne hother, eq_comm (a := made), hmade] using hmine
  · have hmine := hs.mutation
    simpa [Mutates, hold] using hmine

/-! ### The operations -/

variable {id' : ConnectionId}

/-- The entry of the connection is found under its id only. -/
theorem valid_withEntry {k : EntryRef → Program} (hk : id' = id → Idle C id stable t (k 0)) :
    Idle C id stable t (withEntry id' k) := by
  refine Valid.act (Q := fun r s => (∀ e, r = some e → id' = id ∧ e = 0) ∧ Outside id t s) stable_outside ?_ fun r => ?_
  · intro s r s' hs hinv _ h
    obtain ⟨hinv', hguar, -⟩ := silent.entries id' h hinv
    obtain ⟨hr, rfl⟩ := of_guard h
    exact ⟨hinv', hguar, fun e he => (hinv.registered.entries id' e).mp (hr.symm.trans he), hs⟩
  · cases r with
    | none => exact valid_ret.weaken fun _ hs => hs.2
    | some e =>
      rintro s ⟨he, hs⟩
      obtain ⟨hid, rfl⟩ := he e rfl
      exact hk hid s hs

theorem valid_bringUp {force : Bool} : Idle C id stable t (bringUp C id' force) := by
  refine valid_withEntry ?_
  rintro rfl
  refine silent.valid_bringUpEntry stable_outside valid_ret fun genBefore => valid_singleFlight fun made => ?_
  have hunlock : Free C id' stable t (some made) (unlock (.bringup made) .ret) :=
    valid_unlock valid_ret
  refine silent.valid_bringUpLocked (stable_stage lasting_true) hunlock fun credentials => ?_
  exact valid_obtainAndApply rfl (silent.valid_bringUpTail (stable_stage lasting_true) hunlock)

theorem valid_updateCredentials : Idle C id stable t (updateCredentials C id' credentials) := by
  refine valid_withEntry ?_
  rintro rfl
  refine valid_singleFlight fun made => valid_obtainAndApply rfl fun failure => ?_
  have hunlock : Free C id' stable t (some made) (unlock (.bringup made) .ret) :=
    valid_unlock valid_ret
  cases failure with
  | none => exact silent.valid_tell (stable_stage lasting_true) hunlock
  | some error =>
    dsimp only
    split_ifs
    · exact hunlock
    · exact silent.valid_tell (stable_stage lasting_true) (silent.valid_tell (stable_stage lasting_true) hunlock)

theorem valid_retry : Idle C id stable t (retry id') :=
  valid_outside (by rfl) fun _ => valid_outside (by rfl) fun _ => valid_ret

theorem valid_recover : Idle C id stable t (recover C id') := by
  refine valid_outside (by rfl) fun _ => valid_outside (by rfl) fun failure => ?_
  cases failure with
  | none => exact valid_ret
  | some error =>
    refine valid_withEntry ?_
    rintro rfl
    split_ifs
    · exact valid_ret
    refine valid_outside (by rfl) fun genBefore => silent.valid_ask stable_outside fun refreshGenBefore => ?_
    refine valid_singleFlight fun made => ?_
    refine valid_look lasting_true fun now _ => ?_
    split_ifs with hmoved
    · exact valid_any (valid_unlock valid_retry)
    refine Valid.imp (Stage id' t (some made) false none (Began genBefore 0)) (fun _ hs => hs.mono ?_) ?_
    · rintro entry ⟨-, hcred, -⟩
      exact ⟨not_not.mp hmoved ▸ hcred, Nat.zero_le _⟩
    refine valid_aside lasting_began (by rfl) fun refreshGen => ?_
    split_ifs
    · exact valid_any (valid_unlock valid_ret)
    refine valid_look lasting_began fun first hstable => valid_look (lasting_look lasting_began) fun second _ => ?_
    rw [hstable]
    refine Valid.imp (Stage id' t (some made) false none (Began genBefore second.1.identityGen))
      (fun _ hs => hs.mono fun _ h => ⟨h.1.1.1, h.2.2⟩) ?_
    refine valid_coalescedRefresh rfl (fun error => valid_any (silent.valid_tell (stable_stage lasting_true) ?_))
      (fun refreshed => silent.valid_tell (stable_stage lasting_granted)
        (valid_recordRefreshed_persisted rfl (valid_unlock valid_retry)))
      fun refreshed => valid_any (silent.valid_tell (stable_stage lasting_true)
        (valid_recordRefreshed rfl (valid_unlock valid_retry)))
    dsimp only
    split_ifs
    · exact silent.valid_parkRefreshFailure (stable_stage lasting_true) (valid_unlock valid_ret)
    · exact valid_unlock valid_ret

theorem valid_backgroundRefresh {e : EntryRef} : Idle C id stable t (backgroundRefresh C e) := by
  refine Valid.act (Q := fun _ s => e = 0 ∧ Outside id t s) stable_outside ?_ fun _ => ?_
  · intro s r s' hs hinv _ h
    obtain ⟨hinv', hguar, -⟩ := silent.wakes e h hinv
    obtain ⟨he, rfl⟩ := of_guard h
    exact ⟨hinv', hguar, Nat.lt_one_iff.mp (hinv.registered.next ▸ he), hs⟩
  rintro s₀ ⟨rfl, hs₀⟩
  refine Valid.act (K := Outside id t) (Q := fun r s => r.1.id = id ∧ Outside id t s) stable_outside ?_
    (fun before => ?_) s₀ hs₀
  · intro s r s' hs hinv _ h
    obtain ⟨hinv', hguar, -⟩ := silent.asks 0 .state h hinv
    obtain ⟨rfl, rfl⟩ := Action.exec_state.mp h
    exact ⟨hinv', hguar, hinv.registered.id, hs⟩
  rintro s₁ ⟨hid, hs₁⟩
  refine (?_ : Idle C id stable t _) s₁ hs₁
  split_ifs
  · exact valid_ret
  rw [hid]
  refine valid_singleFlight fun made => ?_
  refine valid_look lasting_true fun now hstable => ?_
  split_ifs
  · exact valid_any (valid_unlock valid_ret)
  refine valid_look (lasting_look lasting_true) fun second _ => ?_
  rw [hstable]
  refine Valid.imp (Stage id t (some made) false none (Began now.1.credGen second.1.identityGen))
    (fun _ hs => hs.mono fun _ h => ⟨h.1.2.1, h.2.2⟩) ?_
  refine valid_coalescedRefresh rfl
    (fun error => valid_any (silent.valid_tell (stable_stage lasting_true) (valid_unlock ?_)))
    (fun refreshed => silent.valid_tell (stable_stage lasting_granted)
      (valid_recordRefreshed_persisted rfl (valid_unlock valid_ret)))
    fun refreshed => valid_any (silent.valid_tell (stable_stage lasting_true)
      (valid_recordRefreshed rfl (valid_unlock valid_ret)))
  split_ifs
  · exact valid_ret
  · exact silent.valid_parkRefreshFailure stable_outside valid_ret

/-- What `complete_interactive_transition` does after its commit. -/
theorem valid_interactiveEstablished {k : Program} (hk : Staged C id stable t none true none (fun _ => True) k) :
    Staged C id stable t none true none (fun _ => True) (interactiveEstablished 0 k) := by
  refine silent.valid_runOnAuthenticated (stable_stage lasting_true) fun succeeded => ?_
  split_ifs
  · exact hk
  refine silent.valid_ask (stable_stage lasting_true) fun registered => ?_
  split_ifs
  · exact silent.valid_tell (stable_stage lasting_true) hk
  · exact hk

theorem valid_completeInteractiveTransition {bundle : Option SecretBundle} {installed : ℕ} :
    Idle C id stable t
      (completeInteractiveTransition ⟨0, some stable, credGen, identityGen⟩ bundle installed) := by
  have hdone : Staged C id stable t none true none (fun _ => True) (unlock (.credentialMutation 0) .ret) :=
    valid_unlockMutation lasting_true valid_ret
  refine valid_lockMutation lasting_true (valid_registered lasting_true ?_)
  cases bundle with
  | none =>
    refine valid_still lasting_true (by simp) (fun s committed s' _ h => ?_) fun committed => ?_
    · simp only [Action.exec, Change.exec] at h
      split_ifs at h
      all_goals
        cases h
        exact ⟨rfl, rfl, rfl⟩
    · cases committed with
      | false => exact hdone
      | true => exact silent.valid_tell (stable_stage lasting_true) (valid_interactiveEstablished hdone)
  | some bundle =>
    refine valid_registered lasting_true (valid_change lasting_true (by simp)
      (O := fun committed => if committed then some bundle else none) (Q := fun _ _ => True)
      (fun s committed s' hs hinv _ _ h => ?_) fun committed _ => ?_)
    · obtain ⟨-, rfl⟩ := Action.exec_commitInteractive h
      cases committed with
      | false => exact ⟨hs.owes, fun _ => trivial, by simp, fun _ _ => rfl, fun _ _ => rfl, hinv.agrees⟩
      | true =>
        refine ⟨by simp [owing], fun _ => trivial, fun _ => .inr rfl, fun _ hcred => ?_, fun _ _ => rfl,
          .inl ⟨t, by simp [owing, swap, Vault.modify]⟩⟩
        simp [owing, swap, Vault.modify] at hcred
    · cases committed with
      | false => exact hdone
      | true =>
        have hasked : Staged C id stable t none true none (fun _ => True)
            (ask 0 .isRegistered fun registered =>
              if registered then interactiveEstablished 0 (unlock (.credentialMutation 0) .ret)
              else purgeDurableCredential 0 0 (some stable) .purged fun _ => unlock (.credentialMutation 0) .ret) :=
          valid_registered lasting_true (valid_interactiveEstablished hdone)
        exact silent.valid_tell (stable_stage lasting_true) (valid_persist lasting_true hasked (.inr rfl))

theorem valid_authenticate : Idle C id stable t (authenticate id') := by
  refine valid_withEntry ?_
  rintro rfl
  refine valid_look lasting_true fun first hstable => ?_
  rw [hstable]
  refine Valid.imp (Outside id' t) (fun _ hs => hs.mono fun _ _ => trivial) ?_
  refine silent.valid_ask stable_outside fun second => Valid.alt valid_ret ?_
  refine valid_still lasting_true (by simp) (fun s r s' _ h => ?_) fun r => ?_
  · rcases r with error | ⟨bundle, installed⟩
    · cases h
      exact ⟨rfl, rfl, rfl⟩
    · obtain ⟨-, rfl⟩ := of_guard h
      exact ⟨rfl, rfl, by simp [Vault.modify]⟩
  · rcases r with error | ⟨bundle, installed⟩
    · exact silent.valid_tell stable_outside valid_ret
    · exact valid_completeInteractiveTransition

end Programs

/-! ### The runs -/

/-- What is done with one connection that stays. -/
inductive Operation
  | bringUp (id : ConnectionId) (force : Bool)
  | withRecovery (id : ConnectionId)
  | backgroundRefresh (e : EntryRef)
  | updateCredentials (id : ConnectionId) (credentials : SecretBundle)
  | authenticate (id : ConnectionId)

def Operation.program (C : Config) : Operation → Program
  | .bringUp id force => Connections.bringUp C id force
  | .withRecovery id => recover C id
  | .backgroundRefresh e => Connections.backgroundRefresh C e
  | .updateCredentials id credentials => Connections.updateCredentials C id credentials
  | .authenticate id => Connections.authenticate id

section Runs

variable {ι : Type} [DecidableEq ι]

/-- What is dropped gives back its locks. -/
def release (t : ι) (s : ConnectionSet ι) : ConnectionSet ι :=
  { s with vault := { s.vault with held := fun l => if s.vault.held l = some t then none else s.vault.held l } }

/-- A step of an operation, or the end of one that is dropped at an await: a sign-in that succeeds
aborts the background refresh. -/
inductive Turn (ι : Type)
  | event (l : Event ι Operation Answer)
  | drop (t : ι)

/-- No operation is in progress, and what is stored is in memory. -/
structure Start (id stable : ConnectionId) (s : Threads ι (ConnectionSet ι) Answer) : Prop where
  idle : ∀ t, s.progs t = .ret
  registered : Registered id stable s.shared
  held : ∀ l, s.shared.vault.held l = none
  owes : ∀ t, s.shared.past.owes t = none
  agrees : Agrees stable s.shared

/-- The runs whose actions meet a condition, and whose operations are dropped under another. -/
def Runs (C : Config) (id stable : ConnectionId) (Q : ι → (a : Action) → Answer a → ConnectionSet ι → Prop)
    (dropped : ι → ConnectionSet ι → Prop) : List (Turn ι) → Threads ι (ConnectionSet ι) Answer → Prop :=
  Run (Start id stable) fun s turn s' => match turn with
    | .event l => s.step (Action.exec C) (Operation.program C) l = some s' ∧ s.Meets Q l
    | .drop t => dropped t s.shared ∧ s' = s.drop release t

variable {C : Config} {id stable : ConnectionId} {t : ι}

theorem valid_program (t : ι) (op : Operation) : Idle C id stable t (op.program C) := by
  cases op with
  | bringUp id' force => exact valid_bringUp
  | withRecovery id' => exact valid_recover
  | backgroundRefresh e => exact valid_backgroundRefresh
  | updateCredentials id' credentials => exact valid_updateCredentials
  | authenticate id' => exact valid_authenticate

variable {s : Threads ι (ConnectionSet ι) Answer}

theorem kept_of_start (hs : Start id stable s) : (contract C id stable).Kept s where
  inv := ⟨hs.registered, fun t ht => by simp [hs.owes t] at ht, .inr hs.agrees⟩
  safe t := by
    rw [hs.idle t]
    exact ⟨fun made => by simp [hs.held], fun _ h => (by cases h),
      by simp [Mutates, hs.held], hs.owes t, fun _ => trivial⟩

/-- What is dropped with nothing to write leaves the contract. -/
theorem kept_of_drop (hs : (contract C id stable).Kept s) (howes : s.shared.past.owes t = none) :
    (contract C id stable).Kept (s.drop release t) := by
  have hheld : ∀ t' ≠ t, ∀ l, (release t s.shared).vault.held l = some t' ↔ s.shared.vault.held l = some t' := by
    intro t' ht l
    by_cases hmine : s.shared.vault.held l = some t
    · simp [release, hmine, ht.symm]
    · simp [release, hmine]
  have hnone : ∀ l, (release t s.shared).vault.held l ≠ some t := by
    intro l
    by_cases hmine : s.shared.vault.held l = some t <;> simp [release, hmine]
  have hrely : ∀ t' ≠ t, Rely id stable t' s.shared (release t s.shared) := fun t' ht =>
    ⟨fun _ h => h, fun _ => hheld t' ht _, hheld t' ht _, rfl, ⟨le_rfl, le_rfl⟩, fun _ _ => rfl, fun _ _ => rfl⟩
  have hinv := hs.inv
  refine hs.drop ⟨?_, owner_of_rely hinv hrely howes rfl, hinv.agrees⟩ hrely ?_
  · exact ⟨hinv.registered.entries, hinv.registered.next, hinv.registered.id, hinv.registered.stableId⟩
  · exact ⟨fun made => by simp [hnone], fun _ h => (by cases h), by simp [Mutates, hnone], howes, fun _ => trivial⟩

/-- As long as bundles are written in the order in which they came into memory, what is stored is in
memory whenever no operation is in progress. -/
theorem agrees_at_rest {trace : List (Turn ι)} {s : Threads ι (ConnectionSet ι) Answer}
    (h : Runs C id stable (fun t a r s => Writes a r = true ∧ Ordered t s a) (fun t s => s.past.owes t = none) trace s)
    (hidle : ∀ t, s.progs t = .ret) : Agrees stable s.shared := by
  have hkept : (contract C id stable).Kept s := by
    refine h.stateInvariant (fun _ => kept_of_start) fun s turn s' hs hstep => ?_
    cases turn with
    | event l => exact hs.step valid_program hstep.2 hstep.1
    | drop t =>
      obtain ⟨howes, rfl⟩ := hstep
      exact kept_of_drop hs howes
  refine hkept.inv.agrees.resolve_left ?_
  rintro ⟨t, howes⟩
  have hquiet : Outside id t s.shared := hkept.quiet (hidle t)
  rw [hquiet.owes] at howes
  cases howes

/-- A run in which nothing is dropped. -/
theorem runs_of_events {Q : ι → (a : Action) → Answer a → ConnectionSet ι → Prop} {dropped : ι → ConnectionSet ι → Prop}
    {trace : List (Event ι Operation Answer)}
    (h : Run (Start id stable) (fun s l s' => s.step (Action.exec C) (Operation.program C) l = some s' ∧
      s.Meets Q l) trace s) :
    Runs C id stable Q dropped (trace.map .event) s := by
  induction h with
  | start h => exact .start h
  | step hr hs ih =>
    rw [List.map_append]
    exact ih.step hs

end Runs

/-! ### A sign-in between a commit and its write -/

/-- The connection `a` is authenticated, with the token `0` in memory and in the store. -/
def authenticated : ConnectionSet Bool where
  vault := { Rotation.blank.vault with
    entries := Table.empty.insert "a" 0
    heap := fun _ => ⟨"a", some "s", ⟨some 0, []⟩, 0, false, false, 0⟩
    nextEntry := 1 }
  face := { Rotation.blank.face with shown := fun _ => ⟨⟨"a", "", [], [], .Authenticated⟩, 0, true⟩ }
  past := Rotation.blank.past

theorem start_authenticated : Start "a" "s" (Threads.idle authenticated) where
  idle _ := rfl
  registered := by
    refine ⟨fun id' e => ?_, rfl, rfl, rfl⟩
    by_cases hid : id' = "a"
    · subst hid
      simp [Threads.idle, authenticated, eq_comm]
    · simp [Threads.idle, authenticated, Table.get_insert_of_ne, hid]
  held _ := rfl
  owes _ := rfl
  agrees := by
    rintro bundle hbundle
    exact (Option.some.inj hbundle).symm

/-- The first thread refreshes in the background, up to its commit. -/
def refreshesUnwritten : List (Event Bool Operation Answer) :=
  let look : ConnEntry × ConnectionAuthState := (⟨"a", some "s", ⟨some 0, []⟩, 0, false, false, 0⟩, .Authenticated)
  [.call false (.backgroundRefresh 0), .act false (.wake 0) (), .act false (.ask 0 .state) look,
    .act false (.bringupLockFor "a") 0,
    .act false (.lock (.bringup 0)) (), .act false (.ask 0 .state) look, .act false (.ask 0 .state) look,
    .act false (.ask 0 .state) look,
    .act false (.load (some "s")) (.ok (some ⟨some 0, []⟩)),
    .act false (.change 0 (.refresh ⟨some 0, []⟩)) (.ok ⟨some 1, []⟩),
    .act false (.tell 0 .bumpRefreshGen) (), .act false (.ask 0 .isRegistered) true,
    .act false (.change 0 (.commitRefreshed ⟨some 1, []⟩ 0 0 false)) true]

/-- Its write, and the rest. -/
def refreshWrites : List (Event Bool Operation Answer) :=
  [.act false (.change 0 (.persist ⟨some 1, []⟩)) true, .act false (.change 0 (.setDebt false)) (),
    .act false (.ask 0 .isRegistered) true,
    .act false (.ask 0 .onAuthenticated) none, .act false (.tell 0 .emitUpdatedIfLive) (),
    .act false (.unlock (.bringup 0)) ()]

/-- The second signs in, and is handed a bundle. -/
def signsIn : List (Event Bool Operation Answer) :=
  let look : ConnEntry × ConnectionAuthState := (⟨"a", some "s", ⟨some 1, []⟩, 1, false, false, 0⟩, .Authenticated)
  [.call true (.authenticate "a"), .act true (.entry "a") (some 0), .act true (.ask 0 .state) look,
    .act true (.ask 0 .state) look,
    .right true, .act true (.change 0 .signIn) (.ok (some ⟨some 2, []⟩, 1)),
    .act true (.lock (.credentialMutation 0)) (),
    .act true (.ask 0 .isRegistered) true, .act true (.ask 0 .isRegistered) true,
    .act true (.change 0 (.commitInteractive ⟨some 2, []⟩ 1)) true, .act true (.tell 0 .clearCooldown) (),
    .act true (.change 0 (.persist ⟨some 2, []⟩)) true, .act true (.change 0 (.setDebt false)) (),
    .act true (.ask 0 .isRegistered) true,
    .act true (.ask 0 .onAuthenticated) none, .act true (.ask 0 .isRegistered) true,
    .act true (.tell 0 .emitUpdatedIfLive) (),
    .act true (.unlock (.credentialMutation 0)) ()]

/-- Every bundle is written while it is in memory. -/
def inMemory (s : ConnectionSet Bool) : Action → Bool
  | .change e (.persist bundle) => decide (bundle = (s.vault.heap e).credentials)
  | .change _ (.setState _) => false
  | _ => true

theorem ordered_of_inMemory {t : Bool} {s : ConnectionSet Bool} {a : Action} (h : inMemory s a = true) :
    Ordered t s a := by
  cases a with
  | change e made =>
    cases made with
    | persist bundle => exact .inl (of_decide_eq_true h)
    | setState credentials => cases h
    | _ => trivial
  | _ => trivial

/-- Executing a trace up to a state in which the store holds a bundle, and memory perhaps another. -/
private theorem exists_run {q : Bool → (a : Action) → Answer a → ConnectionSet Bool → Bool}
    (trace : List (Event Bool Operation Answer)) (stored credentials : SecretBundle)
    (h : (trace.foldlM (fun (s : Threads Bool (ConnectionSet Bool) Answer) l =>
      if s.meets q l then s.step (Action.exec Debt.unlockedConfig) (Operation.program Debt.unlockedConfig) l else none)
        (Threads.idle authenticated)).any (fun s => (s.progs false).ended && (s.progs true).ended &&
          s.shared.vault.secrets "s" == some stored && (s.shared.vault.heap 0).credentials == credentials) = true) :
    ∃ s, Run (Start "a" "s") (fun s l s' =>
      s.step (Action.exec Debt.unlockedConfig) (Operation.program Debt.unlockedConfig) l = some s' ∧
        s.Meets (fun t a r s => q t a r s = true) l) trace s ∧ (∀ t, s.progs t = .ret) ∧
      s.shared.vault.secrets "s" = some stored ∧ (s.shared.vault.heap 0).credentials = credentials := by
  obtain ⟨s, hrun, htest⟩ := Threads.run_of_any start_authenticated h
  simp only [Bool.and_eq_true, beq_iff_eq] at htest
  obtain ⟨⟨⟨hfalse, htrue⟩, hstored⟩, hmemory⟩ := htest
  refine ⟨s, hrun, fun t => ?_, hstored, hmemory⟩
  cases t
  · exact Prog.eq_ret_of_ended hfalse
  · exact Prog.eq_ret_of_ended htrue

/-- A refresh, and then a sign-in. -/
theorem agrees_at_rest_signIn : ∃ trace s,
    Runs Debt.unlockedConfig "a" "s" (fun (t : Bool) a r s => Writes a r = true ∧ Ordered t s a)
      (fun t s => s.past.owes t = none) trace s ∧
      s.shared.vault.secrets "s" = some ⟨some 2, []⟩ ∧ Agrees "s" s.shared := by
  obtain ⟨s, hrun, hidle, hstored, -⟩ := exists_run (q := fun _ a r s => Writes a r && inMemory s a)
    (refreshesUnwritten ++ refreshWrites ++ signsIn) ⟨some 2, []⟩ ⟨some 2, []⟩ (by decide +kernel)
  have hordered : Runs Debt.unlockedConfig "a" "s" (fun (t : Bool) a r s => Writes a r = true ∧ Ordered t s a)
      (fun t s => s.past.owes t = none) ((refreshesUnwritten ++ refreshWrites ++ signsIn).map .event) s := by
    refine runs_of_events (hrun.imp fun s l s' _ hstep => ⟨hstep.1, ?_⟩)
    cases l with
    | act t a r =>
      obtain ⟨hwrites, hmemory⟩ := Bool.and_eq_true_iff.mp hstep.2
      exact ⟨hwrites, ordered_of_inMemory hmemory⟩
    | _ => trivial
  exact ⟨_, s, hordered, hstored, agrees_at_rest hordered hidle⟩

/-- A sign-in commits and writes its bundle between the commit of a refresh and its write. -/
theorem disagrees_at_rest : ¬∀ (C : Config) (id stable : ConnectionId) trace s,
    Runs C id stable (fun (_ : Bool) a r _ => Writes a r = true) (fun _ _ => False) trace s → (∀ t, s.progs t = .ret) →
      Agrees stable s.shared := by
  intro h
  obtain ⟨s, hrun, hidle, hstored, hmemory⟩ := exists_run (q := fun _ a r _ => Writes a r)
    (refreshesUnwritten ++ signsIn ++ refreshWrites) ⟨some 1, []⟩ ⟨some 2, []⟩ (by decide +kernel)
  have hagrees := h Debt.unlockedConfig "a" "s" _ s (runs_of_events hrun) hidle ⟨some 1, []⟩ hstored
  rw [hmemory] at hagrees
  simp at hagrees

end OvStorage.Connections.AtRest
