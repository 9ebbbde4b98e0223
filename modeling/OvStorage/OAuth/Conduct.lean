import OvStorage.OAuth.History

/-!
# How the provider conducts itself

What each step of a call is, whatever the other processes do in between: `conduct`, the pledge that
every call keeps (`Op.keeps`), and so what every step of every run is (`conduct_of_run`).

A slot is changed under its guard, so between its steps a thread finds the row and the secrets as it
left them: a guarded part of a call is a sequential program over the `View` that its thread has of the
slot (`Local`), and `Local.proves` carries what holds of it to the calls among others.
-/

namespace OvStorage.OAuth

open Address Interleave

variable {ι : Type} [DecidableEq ι]

/-! ### What a thread has before it -/

/-- A slot, as the thread that holds its guard sees it. -/
structure View where
  history : CallHistory
  row : Option PersistedSecretToken
  secret : String → Option Bytes
  window : Window

def view (t : ι) (slot : Slot) (trace : List (Step ι)) (s : StateRoot ι) : View :=
  ⟨callHistory t trace, s.loadSecretToken slot, fun field => s.secrets.get (slot, field), window slot trace⟩

namespace View

variable (v : View)

/-- The row after an operation on the slot. -/
def rowAfter : (a : Act) → a.Answer → Option PersistedSecretToken
  | .storeSecretToken _ token, .ok () => some token.record.token
  | _, _ => v.row

/-- The secrets after an operation on the slot. -/
def secretAfter : (a : Act) → a.Answer → String → Option Bytes
  | .putMany _ fields, .ok () =>
    fields.foldl (fun secret field => Function.update secret field.1 (some field.2)) v.secret
  | .delete _ field, .ok () => Function.update v.secret field none
  | _, _ => v.secret

/-- The view after an operation of the thread on the slot. -/
def note (slot : Slot) (a : Act) (r : a.Answer) : View :=
  ⟨v.history.add a r, v.rowAfter a r, v.secretAfter a r, v.window.noteAct slot a r⟩

/-- What an operation on the slot answers. -/
def Answers : (a : Act) → a.Answer → Prop
  | .loadSecretToken _, .ok found => found = v.row
  | .get _ field, .ok found => found = v.secret field
  | .maxSecretCredEpoch, .ok epoch => ∀ row, v.row = some row → row.credEpoch ≤ epoch
  | _, _ => True

/-- The epoch is above the row's, by the largest epoch that the thread has read. -/
def EpochAbove (token : PersistedSecretToken) : Prop :=
  ∃ epoch, (⟨.maxSecretCredEpoch, .ok epoch⟩ : Sigma Act.Answer) ∈ v.history.acts ∧
    token.credEpoch = saturatingSucc epoch ∧
    ∀ row, v.row = some row → row.credEpoch ≤ epoch

/-- The call is no invalidation. -/
def Renews : Prop := ∀ self slot lease, v.history.op ≠ some (.invalidate self slot lease)

/-- A grant was answered without a refresh token. -/
def Omitted : Prop :=
  ∃ slot refresh minted, (⟨.grant slot refresh, .ok minted⟩ : Sigma Act.Answer) ∈ v.history.acts ∧
    minted.refreshToken = none

/-- What is put is the token that the thread brings, with the redeemed refresh token if it brings none and has to move
it. -/
structure Puts (fields : List (String × Bytes)) : Prop where
  renews : v.Renews
  window : ∀ fields refresh, v.window ≠ .landed fields refresh
  token : ∃ (self : OAuthCredentialProvider) (minted token : MintedToken), v.history.bearing = some minted ∧
    fields = self.fieldsOf token ∧ (token = minted ∨ minted.refreshToken = none ∧ v.Omitted)

/-- The row names secrets that were minted or registered with its expiry. -/
structure Persists (token : PersistedSecretToken) : Prop where
  renews : v.Renews
  window : ∃ fields refresh, v.window = .landed fields refresh ∧
    (v.secret (refreshField token.secretHandle) = refresh ∨ refresh = none ∧ v.Omitted)
  generation : ∃ g ∈ v.history.minted, v.secret token.secretHandle = some g.access ∧
    v.secret (refreshField token.secretHandle) = g.refresh ∧
      token.expiresAtUnixMs = g.expiresAt.map fun time => (time.val : ℤ)

/-- The row is an expired copy of the one that the lease is for. -/
structure Invalidates (slot : Slot) (token : PersistedSecretToken) : Prop where
  window : v.window = .closed
  lease : ∃ self lease row, v.history.op = some (.invalidate self slot lease) ∧ v.row = some row ∧
    row.sourceName = self.name ∧ OAuthCredentialProvider.leaseFromPersisted row = lease ∧
    token = { row with credEpoch := token.credEpoch, expiresAtUnixMs := some 0 }

/-- The access token is the one of the row that the lease is for, which the thread has expired. -/
structure Discards (slot : Slot) (field : String) : Prop where
  window : v.window = .closed
  lease : ∃ self lease row copy, v.history.op = some (.invalidate self slot lease) ∧
    (⟨.loadSecretToken slot, .ok (some row)⟩ : Sigma Act.Answer) ∈ v.history.acts ∧
    OAuthCredentialProvider.leaseFromPersisted row = lease ∧
    copy = { row with credEpoch := copy.credEpoch, expiresAtUnixMs := some 0 } ∧
    (⟨.storeSecretToken slot copy, .ok ()⟩ : Sigma Act.Answer) ∈ v.history.acts ∧
    v.row = some copy.record.token ∧ field = row.secretHandle

/-- The refresh token is the one of the committed row. -/
def Redeems (refresh : String) : Prop :=
  v.window = .closed ∧ ∃ row, v.row = some row ∧ v.secret (refreshField row.secretHandle) = some (utf8 refresh)

/-- What an operation under the guard of the slot is. -/
def Conducts (slot : Slot) : Act → Prop
  | .storeSecretToken slot' token => slot' = slot ∧ v.EpochAbove token ∧ (v.Persists token ∨ v.Invalidates slot token)
  | .putMany slot' fields => slot' = slot ∧ v.Puts fields
  | .delete slot' field =>
    slot' = slot ∧ (v.Renews ∧ (∃ fields, v.window = .landed fields none) ∨ v.Discards slot field)
  | .grant slot' refresh => slot' = slot ∧ v.Redeems refresh
  | .loadSecretToken slot' | .get slot' _ => slot' = slot
  | .maxSecretCredEpoch | .now => True
  | .lock _ | .unlock _ | .finish _ => False

end View

/-- The credential was granted to the call, or read behind a row that has not expired for good. -/
def CallHistory.Justifies (h : CallHistory) (slot : Slot) (credential : ResolvedCredential) : Prop :=
  (∃ refresh minted, (⟨.grant slot refresh, .ok minted⟩ : Sigma Act.Answer) ∈ h.acts ∧
      credential.generation = minted.generation (some refresh)) ∨
    ∃ seen, h.seen = some seen ∧ seen.slot = slot ∧ seen.access = some credential.token ∧
      seen.refresh = some credential.refresh ∧ persistedExpiresAt seen.row = .ok credential.expiresAt ∧
      seen.row.expiresAtUnixMs ≠ some 0

/-- What a call gives back is true of what it has done. -/
def CallHistory.Finishes (h : CallHistory) : Outcome → Prop
  | .resolved slot (.ok credential) => h.Justifies slot credential
  | .leased slot (.ok lease) => ∃ row, (⟨.loadSecretToken slot, .ok (some row)⟩ : Sigma Act.Answer) ∈ h.acts ∧
      OAuthCredentialProvider.leaseFromPersisted row = lease
  | .accepted _ (.error _) => h.stored = false
  | .invalidated _ _ (.ok false) => h.wrote = false
  | _ => True

/-- What a step is. -/
def conduct (t : ι) : (a : Act) → a.Answer → List (Step ι) → StateRoot ι → Prop
  | a@(.storeSecretToken slot _), _, trace, s | a@(.putMany slot _), _, trace, s | a@(.delete slot _), _, trace, s
  | a@(.grant slot _), _, trace, s => s.guards.get slot = some t ∧ (view t slot trace s).Conducts slot a
  | .unlock slot, _, _, s => s.guards.get slot = some t
  | .finish outcome, _, trace, _ => (callHistory t trace).Finishes outcome
  | _, _, _, _ => True

/-- The steps of the others, and what they leave of the slots that the thread holds. -/
structure Others (t : ι) (trace : List (Step ι)) (s : StateRoot ι) (trace' : List (Step ι)) (s' : StateRoot ι) :
    Prop where
  history : callHistory t trace' = callHistory t trace
  held : ∀ slot, s.guards.get slot = some t → s'.guards.get slot = some t ∧ view t slot trace' s' = view t slot trace s

theorem Others.refl (t : ι) (trace : List (Step ι)) (s : StateRoot ι) : Others t trace s trace s where
  history := rfl
  held _ h := ⟨h, rfl⟩

variable {t : ι}

theorem Others.trans {tr₁ tr₂ tr₃ : List (Step ι)} {s₁ s₂ s₃ : StateRoot ι} (h : Others t tr₁ s₁ tr₂ s₂)
    (h' : Others t tr₂ s₂ tr₃ s₃) : Others t tr₁ s₁ tr₃ s₃ where
  history := h'.history.trans h.history
  held slot hslot := by
    obtain ⟨hguard, hview⟩ := h.held slot hslot
    obtain ⟨hguard', hview'⟩ := h'.held slot hguard
    exact ⟨hguard', hview'.trans hview⟩

/-! ### What one operation leaves of another slot -/

omit [DecidableEq ι] in
theorem get_putMany_of_ne (root : StateRoot ι) (slot : Slot) {fields : List (String × Bytes)} {key : Slot × String}
    (h : ∀ field ∈ fields, key ≠ (slot, field.1)) :
    (root.putMany slot fields).secrets.get key = root.secrets.get key := by
  suffices hfold : ∀ secrets : Table (Slot × String) Bytes,
      (fields.foldl (fun secrets field => secrets.insert (slot, field.1) field.2) secrets).get key =
        secrets.get key from hfold _
  induction fields with
  | nil => exact fun _ => rfl
  | cons field fields ih =>
    intro secrets
    rw [List.foldl_cons, ih fun f hf => h f (List.mem_cons_of_mem _ hf),
      Table.get_insert_of_ne _ _ (h field List.mem_cons_self)]

/-- The slot that an operation changes, or whose change it is part of. -/
def Act.changes : Act → Option Slot
  | .storeSecretToken slot _ | .putMany slot _ | .delete slot _ | .lock slot | .unlock slot | .grant slot _ => some slot
  | _ => none

variable {s' s : StateRoot ι} {slot : Slot} {a : Act} {r : a.Answer}

theorem exec_frame (h : StateRoot.exec t a r s = some s') (hslot : a.changes ≠ some slot) :
    s'.guards.get slot = s.guards.get slot ∧ s'.loadSecretToken slot = s.loadSecretToken slot ∧
      ∀ field, s'.secrets.get (slot, field) = s.secrets.get (slot, field) := by
  cases a with
  | storeSecretToken slot' token =>
    have hne : slot ≠ slot' := fun heq => hslot (congrArg some heq.symm)
    cases r with
    | error e => cases h; exact ⟨rfl, rfl, fun _ => rfl⟩
    | ok u =>
      cases h
      refine ⟨rfl, ?_, fun _ => rfl⟩
      simp only [StateRoot.loadSecretToken, Table.get_insert_of_ne _ _ hne]
  | putMany slot' fields =>
    have hne : slot ≠ slot' := fun heq => hslot (congrArg some heq.symm)
    cases r with
    | error e => cases h; exact ⟨rfl, rfl, fun _ => rfl⟩
    | ok u =>
      cases h
      exact ⟨rfl, rfl, fun field => get_putMany_of_ne _ _ fun _ _ heq => hne (congrArg Prod.fst heq)⟩
  | delete slot' field' =>
    have hne : slot ≠ slot' := fun heq => hslot (congrArg some heq.symm)
    cases r with
    | error e => cases h; exact ⟨rfl, rfl, fun _ => rfl⟩
    | ok u =>
      cases h
      exact ⟨rfl, rfl, fun field => Table.get_erase_of_ne _ fun heq => hne (congrArg Prod.fst heq)⟩
  | lock slot' =>
    have hne : slot ≠ slot' := fun heq => hslot (congrArg some heq.symm)
    cases r with
    | error e => cases h; exact ⟨rfl, rfl, fun _ => rfl⟩
    | ok u =>
      simp only [StateRoot.exec] at h
      split_ifs at h
      cases h
      exact ⟨Table.get_insert_of_ne _ _ hne, rfl, fun _ => rfl⟩
  | unlock slot' =>
    have hne : slot ≠ slot' := fun heq => hslot (congrArg some heq.symm)
    simp only [StateRoot.exec] at h
    split_ifs at h
    · cases h
      exact ⟨Table.get_erase_of_ne _ hne, rfl, fun _ => rfl⟩
    · cases h
      exact ⟨rfl, rfl, fun _ => rfl⟩
  | loadSecretToken slot' =>
    cases r with
    | error e => cases h; exact ⟨rfl, rfl, fun _ => rfl⟩
    | ok found =>
      simp only [StateRoot.exec] at h
      split_ifs at h
      cases h
      exact ⟨rfl, rfl, fun _ => rfl⟩
  | maxSecretCredEpoch =>
    cases r with
    | error e => cases h; exact ⟨rfl, rfl, fun _ => rfl⟩
    | ok found =>
      simp only [StateRoot.exec] at h
      split_ifs at h
      cases h
      exact ⟨rfl, rfl, fun _ => rfl⟩
  | get slot' field =>
    cases r with
    | error e => cases h; exact ⟨rfl, rfl, fun _ => rfl⟩
    | ok found =>
      simp only [StateRoot.exec] at h
      split_ifs at h
      cases h
      exact ⟨rfl, rfl, fun _ => rfl⟩
  | grant slot' refresh => cases h; exact ⟨rfl, rfl, fun _ => rfl⟩
  | now => cases h; exact ⟨rfl, rfl, fun _ => rfl⟩
  | finish outcome => cases h; exact ⟨rfl, rfl, fun _ => rfl⟩

omit [DecidableEq ι] in
theorem window_frame {w : Window} (hslot : a.changes ≠ some slot) : w.note slot (.act t a r) = w := by
  have hne : ∀ slot', a.changes = some slot' → slot' ≠ slot := by
    rintro slot' h rfl
    exact hslot h
  cases a with
  | storeSecretToken slot' token => cases r <;> simp [Window.note, Window.noteAct, hne slot' rfl]
  | putMany slot' fields => cases r <;> simp [Window.note, Window.noteAct, hne slot' rfl]
  | delete slot' field => cases r <;> simp [Window.note, Window.noteAct, hne slot' rfl]
  | unlock slot' => simp [Window.note, Window.noteAct, hne slot' rfl]
  | grant slot' refresh => cases r <;> simp [Window.note, Window.noteAct, hne slot' rfl]
  | lock slot' => cases r <;> simp [Window.note, Window.noteAct, hne slot' rfl]
  | loadSecretToken slot' => cases r <;> rfl
  | maxSecretCredEpoch => cases r <;> rfl
  | get slot' field => cases r <;> rfl
  | now => rfl
  | finish outcome => rfl

/-- A step leaves the slots that another thread holds. -/
theorem held_elsewhere {t' : ι} {trace : List (Step ι)} (ht : t' ≠ t)
    (hconduct : conduct t' a r trace s) (h : StateRoot.exec t' a r s = some s') (hslot : s.guards.get slot = some t) :
    s'.guards.get slot = some t ∧ view t slot (trace ++ [.act t' a r]) s' = view t slot trace s := by
  have hhistory : callHistory t (trace ++ [.act t' a r]) = callHistory t trace := by
    rw [callHistory_concat]
    exact CallHistory.note_of_ne _ ht
  have hheld : s.guards.get slot ≠ some t' := by
    rw [hslot]
    exact fun heq => ht (Option.some.inj heq).symm
  by_cases hchanges : a.changes = some slot
  · cases a with
    | storeSecretToken slot' token =>
      obtain rfl : slot' = slot := Option.some.inj hchanges
      exact absurd hconduct.1 hheld
    | putMany slot' fields =>
      obtain rfl : slot' = slot := Option.some.inj hchanges
      exact absurd hconduct.1 hheld
    | delete slot' field =>
      obtain rfl : slot' = slot := Option.some.inj hchanges
      exact absurd hconduct.1 hheld
    | unlock slot' =>
      obtain rfl : slot' = slot := Option.some.inj hchanges
      exact absurd hconduct hheld
    | grant slot' refresh =>
      obtain rfl : slot' = slot := Option.some.inj hchanges
      exact absurd hconduct.1 hheld
    | lock slot' =>
      obtain rfl : slot' = slot := Option.some.inj hchanges
      cases r with
      | error e =>
        cases h
        refine ⟨hslot, ?_⟩
        rw [view, hhistory, window_concat]
        rfl
      | ok u => simp [StateRoot.exec, hslot] at h
    | _ => cases hchanges
  · obtain ⟨hguard, hrow, hsecrets⟩ := exec_frame h hchanges
    refine ⟨hguard.trans hslot, ?_⟩
    rw [view, hhistory, window_concat, window_frame hchanges, hrow]
    simp only [hsecrets]
    rfl

/-- What every call keeps, and relies on. -/
def pledge : Pledge Op (StateRoot.exec (ι := ι)) where
  ok := conduct
  rely := Others
  rely_refl := Others.refl
  rely_trans := Others.trans
  rely_silent {t l trace s} hl hsilent := by
    have hhistory : callHistory t (trace ++ [l]) = callHistory t trace := by
      rw [callHistory_concat]
      exact CallHistory.note_of_ne _ hl
    refine ⟨hhistory, fun slot hslot => ⟨hslot, ?_⟩⟩
    rw [view, hhistory, window_concat]
    cases l with
    | act t' a r => exact hsilent.elim
    | _ => rfl
  rely_act {t t' a r trace s s'} ht hconduct h := by
    refine ⟨?_, fun slot hslot => held_elsewhere ht hconduct h hslot⟩
    rw [callHistory_concat]
    exact CallHistory.note_of_ne _ ht

end OvStorage.OAuth
