import Mathlib.Data.List.MinMax
import OvStorage.Authz.Credential
import OvStorage.OAuth.Conduct

/-!
# Every call keeps the pledge

A slot is changed under its guard, so between its steps the holder finds the row and the secrets as it
left them: a guarded part of a call is a sequential program over the `View` that its thread has of the
slot (`Local`), and `Local.proves` carries what holds of it to the calls among others. Outside the guard
a thread knows no more than what it has done itself (`Own`).

`Op.keeps` is the pledge of each call, and `conduct_of_run` what every step of every run is.
-/

namespace OvStorage.OAuth

open Address Interleave Function OAuthCredentialProvider List

/-! ### Under the guard -/

section Local

variable {α β ε : Type} {slot : Slot} {v : View}

/-- The routine conducts itself under the guard of the slot, and leaves `Q` of what it gives back. -/
def Local (slot : Slot) (Q : α → View → Prop) : Routine Act.Answer α → View → Prop
  | .done value, v => Q value v
  | .act a k, v => v.Conducts slot a ∧ ∀ r, v.Answers a r → Local slot Q (k r) (v.note slot a r)

theorem Local.act {a : Act} {Q : a.Answer → View → Prop} (hconducts : v.Conducts slot a)
    (h : ∀ r, v.Answers a r → Q r (v.note slot a r)) : Local slot Q (OAuth.act a) v := ⟨hconducts, h⟩

variable {p : Routine Act.Answer α}

theorem Local.mono {Q Q' : α → View → Prop} (h : Local slot Q p v)
    (hQ : ∀ value v, Q value v → Q' value v) : Local slot Q' p v := by
  induction p generalizing v with
  | done value => exact hQ value v h
  | act a k ih => exact ⟨h.1, fun r hr => ih r (h.2 r hr)⟩

theorem Local.bind {Q : α → View → Prop} {Q' : β → View → Prop} {f : α → Routine Act.Answer β}
    (hp : Local slot Q p v) (hf : ∀ value v, Q value v → Local slot Q' (f value) v) : Local slot Q' (p >>= f) v := by
  induction p generalizing v with
  | done value => exact hf value v hp
  | act a k ih => exact ⟨hp.1, fun r hr => ih r (hp.2 r hr)⟩

variable {Q : Except ε α → View → Prop}

theorem Local.bindT {Q' : Except ε β → View → Prop} {p : Call ε α} {f : α → Call ε β}
    (hp : Local slot Q p.run v) (hok : ∀ value v, Q (.ok value) v → Local slot Q' (f value).run v)
    (herror : ∀ e v, Q (.error e) v → Q' (.error e) v) : Local slot Q' (p >>= f).run v := by
  refine Local.bind hp fun x v hx => ?_
  cases x with
  | ok value => exact hok value v hx
  | error e => exact herror e v hx

theorem Local.lift {op : Routine Act.Answer α} (h : Local slot (fun x => Q (.ok x)) op v) :
    Local slot Q (ExceptT.lift op : Call ε α).run v :=
  Local.bind h fun _ _ hx => hx

/-- What follows an operation of a store, and what there is if that fails. -/
def Follows (slot : Slot) (Q : Except CredentialError β → View → Prop) (f : α → Call CredentialError β) :
    Except ErrorCode α → View → Prop
  | .ok value, v => Local slot Q (f value).run v
  | .error code, v => Q (.error (.Backend code)) v

variable {op : Routine Act.Answer (Except ErrorCode α)}

theorem Local.seq {f : α → Call CredentialError β}
    {Q : Except CredentialError β → View → Prop} (h : Local slot (Follows slot Q f) op v) :
    Local slot Q (backend op >>= f).run v := by
  refine Local.bindT (Q := fun x v => match x with
    | .ok value => Local slot Q (f value).run v
    | .error e => Q (.error e) v) ?_ (fun value v h => h) fun e v h => h
  refine Local.bind (Local.lift (Q := fun x v => ∃ y, x = .ok y ∧ Follows slot Q f y v)
    (h.mono fun y v hy => ⟨y, rfl, hy⟩)) ?_
  rintro _ v ⟨y, rfl, hy⟩
  cases y with
  | ok value => exact hy
  | error code => exact hy

/-- An operation of a store at the end. -/
theorem Local.backend {Q : Except CredentialError α → View → Prop}
    (h : Local slot (Follows slot Q Pure.pure) op v) : Local slot Q (OAuth.backend op).run v := by
  refine Local.bind (Local.lift (Q := fun x v => ∃ y, x = .ok y ∧ Follows slot Q Pure.pure y v)
    (h.mono fun y v hy => ⟨y, rfl, hy⟩)) ?_
  rintro _ v ⟨y, rfl, hy⟩
  cases y with
  | ok value => exact hy
  | error code => exact hy

end Local

/-! ### What a persist does -/

/-- What `persist_token_locked` is called with. -/
structure View.Bears (v : View) (provider : OAuthCredentialProvider) (token : MintedToken)
    (missingRefresh : MissingRefreshToken) :
    Prop where
  renews : v.Renews
  window : ∀ fields refresh, v.window ≠ .landed fields refresh
  bearing : ∃ minted, v.history.bearing = some minted ∧ (token = minted ∨ minted.refreshToken = none ∧ v.Omitted)
  omitted : token.refreshToken = none → missingRefresh = .PreserveExisting → v.Omitted
  generation : ∃ g ∈ v.history.minted, g.access = utf8 token.accessToken ∧ g.expiresAt = token.expiresAt ∧
    (∀ refresh, token.refreshToken = some refresh → g.refresh = some (utf8 refresh)) ∧
    (token.refreshToken = none → g.refresh =
      if missingRefresh = .DeleteExisting then none else v.secret (refreshField provider.accessKeyringHandle))

theorem refreshField_ne (handle : String) : refreshField handle ≠ handle := by
  intro h
  have hlength := congrArg String.length h
  simp [refreshField] at hlength

/-- The secrets that a persist puts. -/
theorem secretAfter_putMany (v : View) (self : OAuthCredentialProvider) (token : MintedToken) (slot : Slot) :
    v.secretAfter (.putMany slot (self.fieldsOf token)) (.ok ()) self.accessKeyringHandle =
      some (utf8 token.accessToken) ∧
      v.secretAfter (.putMany slot (self.fieldsOf token)) (.ok ()) (refreshField self.accessKeyringHandle) =
        (token.refreshToken.map utf8).or (v.secret (refreshField self.accessKeyringHandle)) := by
  have hne := refreshField_ne self.accessKeyringHandle
  cases h : token.refreshToken <;>
    simp [View.secretAfter, fieldsOf, h, update_of_ne, hne, hne.symm]

variable {v : View}

theorem View.Omitted.note (h : v.Omitted) (slot : Slot) (a : Act) (r : a.Answer) : (v.note slot a r).Omitted := by
  obtain ⟨slot', refresh, minted, hmem, hnone⟩ := h
  exact ⟨slot', refresh, minted, mem_cons_of_mem _ hmem, hnone⟩

theorem View.Persists.max {token : PersistedSecretToken} (h : v.Persists token) (slot : Slot)
    (r : Act.maxSecretCredEpoch.Answer) : (v.note slot .maxSecretCredEpoch r).Persists token := by
  obtain ⟨hrenews, ⟨fields, refresh, hwindow, hrefresh⟩, hgeneration⟩ := h
  cases r <;> exact ⟨hrenews, ⟨fields, refresh, hwindow, hrefresh.imp id fun hnone =>
    ⟨hnone.1, hnone.2.note ..⟩⟩, hgeneration⟩

/-- What a persist leaves of what the call has done: if it fails then it has committed nothing. -/
def Persisted (v : View) (x : Except CredentialError Unit) (v' : View) : Prop :=
  v.history.acts ⊆ v'.history.acts ∧ ((∃ e, x = .error e) → v'.history.stored = v.history.stored)

variable {slot : Slot}

/-- The row of a persist is committed above the one before it. -/
theorem local_commit (self : OAuthCredentialProvider) {expiresAtUnixMs : Option ℤ} {v₁ : View}
    (hpersists : ∀ epoch, v₁.Persists ⟨epoch, expiresAtUnixMs, self.accessKeyringHandle, self.name⟩)
    (hacts : v.history.acts ⊆ v₁.history.acts) (hstored : v₁.history.stored = v.history.stored) :
    Local slot (Persisted v)
      (do
        let epoch ← AuthRefreshLock.maxSecretCredEpoch
        AuthRefreshLock.storeSecretToken slot
          ⟨saturatingSucc epoch, expiresAtUnixMs, self.accessKeyringHandle, self.name⟩ :
        Call CredentialError Unit).run v₁ := by
  refine Local.seq (Local.act trivial ?_)
  rintro (code | epoch) hepoch
  · exact ⟨subset_cons_of_subset _ hacts, fun _ => hstored⟩
  refine Local.backend (Local.act ⟨rfl, ⟨epoch, mem_cons_self, rfl, hepoch⟩, .inl ((hpersists _).max ..)⟩ ?_)
  have hacts' := subset_cons_of_subset ⟨.maxSecretCredEpoch, .ok epoch⟩ hacts
  rintro (code | ⟨⟩) -
  · exact ⟨subset_cons_of_subset _ hacts', fun _ => hstored⟩
  · exact ⟨subset_cons_of_subset _ hacts', by rintro ⟨e, ⟨⟩⟩⟩

/-- A persist conducts itself under the guard. -/
theorem local_persistTokenLocked (self : OAuthCredentialProvider) {token : MintedToken}
    {missingRefresh : MissingRefreshToken} (hv : v.Bears self token missingRefresh) :
    Local slot (Persisted v) (self.persistTokenLocked token slot missingRefresh).run v := by
  have hfails : Persisted v (.error (.Backend .CredentialUnavailable)) v := ⟨List.Subset.refl _, fun _ => rfl⟩
  rw [persistTokenLocked]
  by_cases hempty : token.accessToken.isEmpty
  · rw [if_pos hempty]
    exact hfails
  rw [if_neg hempty]
  obtain ⟨g, hg, haccess, hexpires, hsome, hnone⟩ := hv.generation
  obtain ⟨minted, hbearing, htoken⟩ := hv.bearing
  obtain ⟨hput, hrefresh⟩ := secretAfter_putMany v self token slot
  refine Local.seq (Local.act ⟨rfl, hv.renews, hv.window, self, minted, token, hbearing, rfl, htoken⟩ ?_)
  rintro (code | ⟨⟩) -
  · exact ⟨subset_cons_self .., fun _ => rfl⟩
  have hwindow : (v.note slot (.putMany slot (self.fieldsOf token)) (.ok ())).window =
      .landed ((self.fieldsOf token).map Prod.fst) (token.refreshToken.map utf8) := by
    cases h : token.refreshToken <;> simp [View.note, Window.noteAct, fieldsOf, h]
  dsimp only [Follows]
  split_ifs with hdelete
  · have hno : token.refreshToken = none := Option.isNone_iff_eq_none.mp hdelete.1
    rw [hno] at hwindow
    refine Local.seq (Local.act ⟨rfl, .inl ⟨hv.renews, _, hwindow⟩⟩ ?_)
    have hacts := subset_cons_of_subset ⟨.delete slot (refreshField self.accessKeyringHandle), .ok ()⟩
      (subset_cons_self (⟨.putMany slot (self.fieldsOf token), .ok ()⟩ : Sigma Act.Answer) v.history.acts)
    rintro (code | ⟨⟩) -
    · exact ⟨subset_cons_of_subset _ (subset_cons_self ..), fun _ => rfl⟩
    have hwindow' : ((v.note slot (.putMany slot (self.fieldsOf token)) (.ok ())).note slot
        (.delete slot (refreshField self.accessKeyringHandle)) (.ok ())).window =
        .landed (refreshField self.accessKeyringHandle :: (self.fieldsOf token).map Prod.fst) none := by
      simp only [View.note] at hwindow ⊢
      rw [hwindow]
      exact if_pos rfl
    refine local_commit self (fun epoch =>
      ⟨hv.renews, ⟨_, none, hwindow', .inl (update_self ..)⟩, g, hg, ?_, ?_, ?_⟩) hacts rfl
    · exact (update_of_ne (refreshField_ne _).symm ..).trans (hput.trans (congrArg some haccess.symm))
    · exact (update_self ..).trans ((hnone hno).trans (if_pos hdelete.2)).symm
    · rw [hexpires]
  · refine local_commit self (fun epoch => ⟨hv.renews, ⟨_, _, hwindow, ?_⟩, g, hg, ?_, ?_, ?_⟩)
      (subset_cons_self ..) rfl
    · cases h : token.refreshToken with
      | some refresh => exact .inl (by rw [← h]; exact hrefresh.trans (by rw [h]; rfl))
      | none =>
        refine .inr ⟨rfl, (hv.omitted h ?_).note ..⟩
        cases missingRefresh with
        | DeleteExisting => exact absurd ⟨Option.isNone_iff_eq_none.mpr h, rfl⟩ hdelete
        | PreserveExisting => rfl
    · exact hput.trans (congrArg some haccess.symm)
    · cases h : token.refreshToken with
      | some refresh =>
        rw [h] at hrefresh
        exact hrefresh.trans (hsome refresh h).symm
      | none =>
        rw [h] at hrefresh
        refine hrefresh.trans ((hnone h).trans (if_neg fun hmissing => ?_)).symm
        exact hdelete ⟨Option.isNone_iff_eq_none.mpr h, hmissing⟩
    · rw [hexpires]

/-- An invalidation changes nothing unless the row is the one that its lease is for. -/
theorem local_invalidateLocked (self : OAuthCredentialProvider) {lease : ResolvedOAuthCredentialLease}
    (hwindow : v.window = .closed) (hop : v.history.op = some (.invalidate self slot lease))
    (hwrote : v.history.wrote = false) :
    Local slot (fun x v' => x = .ok false → v'.history.wrote = false) (self.invalidateLocked slot lease).run v := by
  rw [invalidateLocked]
  refine Local.seq (Local.act rfl ?_)
  rintro (code | found) hfound
  · exact nofun
  obtain rfl : found = v.row := hfound
  dsimp only [Follows]
  split
  · exact fun _ => hwrote
  next persisted hrow =>
    split_ifs with hother
    · exact fun _ => hwrote
    simp only [not_or, not_not] at hother
    obtain ⟨hsource, hepoch, hhandle⟩ := hother
    refine Local.seq (Local.act trivial ?_)
    rintro (code | epoch) hmax
    · exact nofun
    have hlease : leaseFromPersisted persisted = lease := by
      rw [leaseFromPersisted, hepoch, hhandle]
    refine Local.seq (Local.act ⟨rfl, ⟨epoch, mem_cons_self, rfl, hmax⟩,
      .inr ⟨hwindow, self, lease, persisted, hop, hrow, hsource, hlease, rfl⟩⟩ ?_)
    rintro (code | ⟨⟩) -
    · exact nofun
    have hload : (⟨.loadSecretToken slot, .ok (some persisted)⟩ : Sigma Act.Answer) ∈
        (v.note slot (.loadSecretToken slot) (.ok v.row)).history.acts := mem_cons.mpr (.inl (by rw [hrow]))
    refine Local.seq (Local.act ⟨rfl, .inr ⟨if_pos rfl, self, lease, persisted, _, hop,
      mem_cons_of_mem _ (mem_cons_of_mem _ hload), hlease, rfl, mem_cons_self, rfl, rfl⟩⟩ ?_)
    rintro (code | ⟨⟩) -
    · exact nofun
    · exact nofun

/-! ### What a refresh does -/

/-- Only the account of what the thread has done is another. -/
def View.withActs (v : View) (acts : List (Sigma Act.Answer)) : View :=
  { v with history := { v.history with acts := acts } }

variable {expiresAt : Option SystemTime}

/-- An access token that is usable has not expired at the epoch. -/
theorem local_accessIsUsable {β : Type} {f : Bool → Call CredentialError β} {Q : Except CredentialError β → View → Prop}
    (h : ∀ usable acts, (usable = true → ∀ time, expiresAt = some time → time.val ≠ 0) →
      Local slot Q (f usable).run (v.withActs acts)) :
    Local slot Q (accessIsUsable expiresAt >>= f).run v := by
  cases expiresAt with
  | none => exact h true _ fun _ _ => nofun
  | some time =>
    refine ⟨trivial, fun now _ => h _ _ fun husable time' heq => ?_⟩
    cases heq
    have hlt := of_decide_eq_true husable
    omega

theorem persistedExpiresAt_ms {persisted : PersistedSecretToken} (h : persistedExpiresAt persisted = .ok expiresAt) :
    persisted.expiresAtUnixMs = expiresAt.map fun time => (time.val : ℤ) := by
  rw [persistedExpiresAt] at h
  split at h
  next hms =>
    cases h
    exact hms
  next ms hms =>
    split_ifs at h with hrange
    cases h
    rw [hms]
    exact congrArg some (Int.toNat_of_nonneg hrange.1).symm

/-- The row that a provider finds is the slot's. -/
theorem local_loadPersistedToken (self : OAuthCredentialProvider) :
    Local slot (fun x v' => ∀ row, x = .ok row → v.row = some row ∧
      v' = v.note slot (.loadSecretToken slot) (.ok (some row)))
      (self.loadPersistedToken slot).run v := by
  rw [loadPersistedToken]
  split_ifs with hslot
  · exact nofun
  refine Local.seq (Local.act rfl ?_)
  rintro (code | found) hfound
  · exact nofun
  obtain rfl : found = v.row := hfound
  dsimp only [Follows]
  split
  · exact nofun
  next persisted hrow =>
    split_ifs with hsource
    · exact nofun
    · rintro row ⟨⟩
      exact ⟨hrow, by rw [hrow]⟩

/-- The token of a grant, which moves the refresh token that was redeemed if it brings none and the field is another. -/
theorem bears_minted {self : OAuthCredentialProvider} {handle refresh : String} {minted : MintedToken}
    (hrenews : v.Renews) (hrefresh : v.secret (refreshField handle) = some (utf8 refresh)) :
    (v.note slot (.grant slot refresh) (.ok minted)).Bears self
      (if minted.refreshToken.isNone ∧
        handle ≠ self.accessKeyringHandle then { minted with refreshToken := some refresh } else minted)
      .PreserveExisting := by
  have homitted : minted.refreshToken = none → (v.note slot (.grant slot refresh) (.ok minted)).Omitted :=
    fun hno => ⟨slot, refresh, minted, mem_cons_self, hno⟩
  have hwindow : (v.note slot (.grant slot refresh) (.ok minted)).window = .granted := if_pos rfl
  refine ⟨hrenews, by rw [hwindow]; nofun, ⟨minted, rfl, ?_⟩, ?_, minted.generation (some refresh), mem_cons_self, ?_⟩
  · split_ifs with hmoved
    · have hno := Option.isNone_iff_eq_none.mp hmoved.1
      exact .inr ⟨hno, homitted hno⟩
    · exact .inl rfl
  · intro hno _
    split_ifs at hno
    exact homitted hno
  · by_cases hmoved : minted.refreshToken.isNone ∧ handle ≠ self.accessKeyringHandle
    · have hno := Option.isNone_iff_eq_none.mp hmoved.1
      rw [if_pos hmoved]
      refine ⟨rfl, rfl, ?_, nofun⟩
      rintro _ ⟨⟩
      simp [MintedToken.generation, hno]
    · rw [if_neg hmoved]
      refine ⟨rfl, rfl, fun refresh' h => by simp [MintedToken.generation, h], fun hno => ?_⟩
      have hhandle : handle = self.accessKeyringHandle := by
        by_contra hne
        exact hmoved ⟨Option.isNone_iff_eq_none.mpr hno, hne⟩
      rw [if_neg (by nofun), ← hhandle]
      simp [MintedToken.generation, hno, View.note, View.secretAfter, hrefresh]

/-- A refresh gives back what it has read behind the row, or what was minted for it. -/
theorem local_refreshLocked (self : OAuthCredentialProvider) (hrenews : v.Renews) (hwindow : v.window = .closed) :
    Local slot (fun x v' => ∀ credential handle, x = .ok (some (credential, handle)) →
      v'.history.Justifies slot credential)
      (self.refreshLocked slot).run v := by
  rw [refreshLocked]
  refine Local.bindT (local_loadPersistedToken self) ?_ fun _ _ _ _ _ => nofun
  intro persisted v₁ hv₁
  obtain ⟨hrow, rfl⟩ := hv₁ persisted rfl
  refine Local.seq (Local.act rfl ?_)
  rintro (code | access) -
  · exact fun _ _ => nofun
  refine Local.seq (Local.act rfl ?_)
  rintro (code | refresh) hrefresh
  · exact fun _ _ => nofun
  dsimp only [Follows]
  cases hexpires : persistedExpiresAt persisted with
  | error e => exact fun _ _ => nofun
  | ok expiresAt =>
    refine local_accessIsUsable fun usable acts husable => ?_
    split
    next access' =>
      rintro _ _ ⟨⟩
      refine .inr ⟨⟨slot, persisted, some access', some refresh⟩, ?_, rfl, rfl, rfl, hexpires, ?_⟩
      · simp [View.withActs, View.note, CallHistory.add, CallHistory.noteAct, Seen.note, refreshField_ne]
      · rw [persistedExpiresAt_ms hexpires]
        intro h0
        obtain ⟨time, htime, hzero⟩ := Option.map_eq_some_iff.mp h0
        exact husable rfl time htime (by exact_mod_cast hzero)
    next =>
      split
      · exact fun _ _ => nofun
      next bytes =>
        split
        · exact fun _ _ => nofun
        next refreshStr hstr =>
          have hbytes : bytes = utf8 refreshStr := Address.fromUTF8?_eq_some_iff.mp hstr
          subst hbytes
          refine Local.seq (Local.act ⟨rfl, hwindow, persisted, hrow, hrefresh.symm⟩ ?_)
          rintro (code | minted) -
          · exact fun _ _ => nofun
          dsimp only [Follows]
          refine Local.bindT (local_persistTokenLocked self (bears_minted hrenews hrefresh.symm))
            ?_ fun _ _ _ _ _ => nofun
          rintro ⟨⟩ v₂ ⟨hacts, -⟩ _ _ ⟨⟩
          refine .inl ⟨refreshStr, minted, hacts mem_cons_self, ?_⟩
          cases h : minted.refreshToken <;> split_ifs <;> simp_all
            [ResolvedCredential.generation, MintedToken.generation]

/-! ### Among others -/

section Others

variable {ι : Type} [DecidableEq ι] {t : ι} {slot : Slot} {trace : List (Step ι)} {s s' : StateRoot ι}

omit [DecidableEq ι] in
/-- No row is above the largest epoch. -/
theorem credEpoch_le_max (root : StateRoot ι) {row : PersistedSecretToken} (h : root.loadSecretToken slot = some row) :
    row.credEpoch ≤ root.maxSecretCredEpoch := by
  obtain ⟨record, hget, rfl⟩ := Option.map_eq_some_iff.mp h
  exact le_max_of_le (mem_map_of_mem (Table.mem_rows_iff.mpr hget)) le_rfl

omit [DecidableEq ι] in
theorem get_putMany (root : StateRoot ι) (slot : Slot) (fields : List (String × Bytes)) :
    (fun field : String => (root.putMany slot fields).secrets.get (slot, field)) =
      fields.foldl (fun (secret : String → Option Bytes) field => update secret field.1 (some field.2)) fun field =>
        root.secrets.get (slot, field) := by
  suffices hfold : ∀ secrets : Table (Slot × String) Bytes,
      (fun field : String => (fields.foldl (fun secrets field => secrets.insert (slot, field.1) field.2)
        secrets).get (slot, field)) =
        fields.foldl (fun (secret : String → Option Bytes) field => update secret field.1 (some field.2)) fun field =>
          secrets.get (slot, field)
    from hfold _
  induction fields with
  | nil => exact fun _ => rfl
  | cons field fields ih =>
    intro secrets
    rw [foldl_cons, foldl_cons, ih]
    congr 1
    funext field'
    by_cases hfield : field' = field.1
    · subst hfield
      rw [Table.get_insert_self, update_self]
    · rw [update_of_ne hfield, Table.get_insert_of_ne _ _ fun heq => hfield (congrArg Prod.snd heq)]

variable {a : Act} {r : a.Answer}

/-- An operation under the guard answers what the thread has before it, and leaves it with what follows. -/
theorem view_act (hheld : s.guards.get slot = some t) (hconducts : (view t slot trace s).Conducts slot a)
    (h : StateRoot.exec t a r s = some s') : (view t slot trace s).Answers a r ∧ s'.guards.get slot = some t ∧
      view t slot (trace ++ [.act t a r]) s' = (view t slot trace s).note slot a r := by
  have hhistory : callHistory t (trace ++ [.act t a r]) = (callHistory t trace).add a r := by
    rw [callHistory_concat]
    exact if_pos rfl
  have hview : s'.loadSecretToken slot = (view t slot trace s).rowAfter a r →
      (fun field => s'.secrets.get (slot, field)) = (view t slot trace s).secretAfter a r →
      view t slot (trace ++ [.act t a r]) s' = (view t slot trace s).note slot a r := by
    intro hrow hsecret
    rw [view, hhistory, hrow, hsecret, window_concat]
    rfl
  cases a with
  | loadSecretToken slot' =>
    obtain rfl : slot' = slot := hconducts
    cases r with
    | error code => cases h; exact ⟨trivial, hheld, hview rfl rfl⟩
    | ok found =>
      simp only [StateRoot.exec] at h
      split_ifs at h with hfound
      cases h
      exact ⟨hfound, hheld, hview rfl rfl⟩
  | get slot' field =>
    obtain rfl : slot' = slot := hconducts
    cases r with
    | error code => cases h; exact ⟨trivial, hheld, hview rfl rfl⟩
    | ok found =>
      simp only [StateRoot.exec] at h
      split_ifs at h with hfound
      cases h
      exact ⟨hfound, hheld, hview rfl rfl⟩
  | maxSecretCredEpoch =>
    cases r with
    | error code => cases h; exact ⟨trivial, hheld, hview rfl rfl⟩
    | ok epoch =>
      simp only [StateRoot.exec] at h
      split_ifs at h with hepoch
      cases h
      refine ⟨fun row hrow => ?_, hheld, hview rfl rfl⟩
      rw [hepoch]
      exact credEpoch_le_max s hrow
  | storeSecretToken slot' token =>
    obtain rfl : slot' = slot := hconducts.1
    cases r with
    | error code => cases h; exact ⟨trivial, hheld, hview rfl rfl⟩
    | ok u =>
      cases h
      refine ⟨trivial, hheld, hview ?_ rfl⟩
      simp [StateRoot.loadSecretToken, View.rowAfter]
  | putMany slot' fields =>
    obtain rfl : slot' = slot := hconducts.1
    cases r with
    | error code => cases h; exact ⟨trivial, hheld, hview rfl rfl⟩
    | ok u => cases h; exact ⟨trivial, hheld, hview rfl (get_putMany s slot' fields)⟩
  | delete slot' field =>
    obtain rfl : slot' = slot := hconducts.1
    cases r with
    | error code => cases h; exact ⟨trivial, hheld, hview rfl rfl⟩
    | ok u =>
      cases h
      refine ⟨trivial, hheld, hview rfl ?_⟩
      funext field'
      change (s.secrets.erase (slot', field)).get (slot', field') =
        update (fun field => s.secrets.get (slot', field)) field none field'
      by_cases hfield : field' = field
      · subst hfield
        rw [Table.get_erase_self, update_self]
      · rw [update_of_ne hfield, Table.get_erase_of_ne _ fun heq => hfield (congrArg Prod.snd heq)]
  | grant slot' refresh => cases r <;> cases h <;> exact ⟨trivial, hheld, hview rfl rfl⟩
  | now => cases h; exact ⟨trivial, hheld, hview rfl rfl⟩
  | lock slot' => exact hconducts.elim
  | unlock slot' => exact hconducts.elim
  | finish outcome => exact hconducts.elim

theorem View.Conducts.conduct (hheld : s.guards.get slot = some t)
    (h : (view t slot trace s).Conducts slot a) : conduct t a r trace s := by
  cases a with
  | storeSecretToken slot' token =>
    obtain rfl : slot' = slot := h.1
    exact ⟨hheld, h⟩
  | putMany slot' fields =>
    obtain rfl : slot' = slot := h.1
    exact ⟨hheld, h⟩
  | delete slot' field =>
    obtain rfl : slot' = slot := h.1
    exact ⟨hheld, h⟩
  | grant slot' refresh =>
    obtain rfl : slot' = slot := h.1
    exact ⟨hheld, h⟩
  | unlock slot' => exact h.elim
  | finish outcome => exact h.elim
  | _ => trivial

/-- What a thread does under the guard it does among others. -/
theorem Local.proves {α : Type} {Q : α → View → Prop} {p : Routine Act.Answer α}
    (h : Local slot Q p (view t slot trace s)) (hheld : s.guards.get slot = some t) :
    pledge.Proves t (fun x trace s => s.guards.get slot = some t ∧ Q x (view t slot trace s)) p trace s := by
  induction p generalizing trace s with
  | done value => exact ⟨hheld, h⟩
  | act a k ih =>
    intro tr₁ s₁ hothers r s₂ hexec
    obtain ⟨hheld₁, hview₁⟩ := hothers.held slot hheld
    obtain ⟨hconducts, hk⟩ := h
    rw [← hview₁] at hconducts hk
    obtain ⟨hanswers, hheld₂, hview₂⟩ := view_act hheld₁ hconducts hexec
    refine ⟨hconducts.conduct hheld₁, ih r ?_ hheld₂⟩
    rw [hview₂]
    exact hk r hanswers

/-- What a call knows of what it has done itself. -/
def Own {α : Type} (t : ι) (Q : α → CallHistory → Prop) : α → List (Step ι) → StateRoot ι → Prop :=
  fun x trace _ => Q x (callHistory t trace)

theorem callHistory_act {tr₁ : List (Step ι)} (h : callHistory t tr₁ = callHistory t trace) :
    callHistory t (tr₁ ++ [.act t a r]) = (callHistory t trace).add a r := by
  rw [callHistory_concat, h]
  exact if_pos rfl

variable {α β ε : Type}

/-- An operation that needs no guard. -/
theorem Own.act {Q : a.Answer → List (Step ι) → StateRoot ι → Prop} (hfree : ∀ r trace s, conduct t a r trace s)
    (h : ∀ r trace' s', callHistory t trace' = (callHistory t trace).add a r → Q r trace' s') :
    pledge.Proves t Q (OAuth.act a) trace s :=
  fun _ _ hothers r s₂ _ => ⟨hfree r _ _, h r _ s₂ (callHistory_act hothers.history)⟩

variable {Q : Except ε β → List (Step ι) → StateRoot ι → Prop} {f : α → Call ε β}

/-- A part whose failure is no failure of the call, and what follows it. -/
theorem proves_lift {op : Routine Act.Answer α}
    (h : pledge.Proves t (fun x trace s => pledge.Proves t Q (f x).run trace s) op trace s) :
    pledge.Proves t Q (ExceptT.lift op >>= f).run trace s := by
  refine Pledge.Proves.bind (Pledge.Proves.bind h fun x trace s hx => ?_) fun x trace s hx => hx
  exact hx

/-- An operation of a store, and what follows it. -/
theorem proves_seq {op : Routine Act.Answer (Except ErrorCode α)} {f : α → Call CredentialError β}
    {Q : Except CredentialError β → List (Step ι) → StateRoot ι → Prop}
    (h : pledge.Proves t (fun x trace s => match x with
      | .ok value => pledge.Proves t Q (f value).run trace s
      | .error code => Q (.error (.Backend code)) trace s) op trace s) :
    pledge.Proves t Q (backend op >>= f).run trace s := by
  refine Pledge.Proves.bindT (Q := fun x trace s => match x with
    | .ok value => pledge.Proves t Q (f value).run trace s
    | .error e => Q (.error e) trace s) ?_ (fun value trace s h => h) fun e trace s h => h
  refine proves_lift (h.mono fun x trace s hx => ?_)
  cases x with
  | ok value => exact hx
  | error code => exact hx

theorem proves_ofExcept {x : Except ε α} (hok : ∀ value, x = .ok value → pledge.Proves t Q (f value).run trace s)
    (herror : ∀ e, x = .error e → Q (.error e) trace s) :
    pledge.Proves t Q (ofExcept x >>= f).run trace s := by
  cases x with
  | ok value => exact hok value rfl
  | error e => exact herror e rfl

/-- What a thread does under a guard, and what a failure to get it leaves. -/
theorem proves_guarded {p : Call CredentialError α} {Q : Except CredentialError α → CallHistory → Prop}
    (hp : ∀ v : View, v.history = (callHistory t trace).add (.lock slot) (.ok ()) → v.window = .closed →
      Local slot (fun x v' => Q x (v'.history.add (.unlock slot) ())) p.run v)
    (herror : ∀ code, Q (.error (.Backend code)) ((callHistory t trace).add (.lock slot) (.error code))) :
    pledge.Proves t (Own t Q) (guarded slot p).run trace s := by
  refine proves_seq (Pledge.Proves.perform fun tr₁ s₁ hothers r s₂ hexec => ⟨trivial, ?_⟩)
  have hhistory := callHistory_act (a := .lock slot) (r := r) hothers.history
  rcases r with code | ⟨⟩
  · change Q _ _
    rw [hhistory]
    exact herror code
  simp only [StateRoot.exec] at hexec
  split_ifs at hexec
  cases hexec
  refine proves_lift (Pledge.Proves.mono ((hp (view t slot _ _) hhistory ?_).proves (Table.get_insert_self ..)) ?_)
  · rw [view, window_concat]
    exact if_pos rfl
  rintro x tr₂ s₂ ⟨hheld, hx⟩
  refine proves_lift (Pledge.Proves.perform fun tr₃ s₃ hothers r s₄ _ => ⟨(hothers.held slot hheld).1, ?_⟩)
  have hx' : Own t Q x (tr₃ ++ [.act t (.unlock slot) r]) s₄ := by
    rw [Own, callHistory_act hothers.history]
    exact hx
  cases x with
  | ok value => exact hx'
  | error e => exact hx'

/-! ### The calls -/

/-- What has been read is still known, and what has been done is part of what is known. -/
def CallHistory.Idled (h h' : CallHistory) : Prop := ∃ acts, h.acts ⊆ acts ∧ h' = { h with acts := acts }

theorem proves_accessIsUsable (expiresAt : Option SystemTime) :
    pledge.Proves t (Own t fun x h => ∃ usable, x = .ok usable ∧ (callHistory t trace).Idled h ∧
      (usable = true → ∀ time, expiresAt = some time → time.val ≠ 0)) (accessIsUsable expiresAt).run trace s := by
  cases expiresAt with
  | none => exact ⟨true, rfl, ⟨_, List.Subset.refl _, rfl⟩, fun _ _ => nofun⟩
  | some time =>
    refine proves_lift (Own.act (fun _ _ _ => trivial) fun now trace' s' hhistory =>
      ⟨_, rfl, ?_, fun husable time' heq => ?_⟩)
    · rw [hhistory]
      exact ⟨_, subset_cons_self .., rfl⟩
    · cases heq
      have hlt := of_decide_eq_true husable
      omega

theorem proves_loadPersistedToken (self : OAuthCredentialProvider) :
    pledge.Proves t (Own t fun x h => ∀ row, x = .ok row →
        h = (callHistory t trace).add (.loadSecretToken slot) (.ok (some row)))
      (self.loadPersistedToken slot).run trace s := by
  rw [loadPersistedToken]
  split_ifs with hslot
  · rintro _ ⟨⟩
  refine proves_seq (Own.act (fun _ _ _ => trivial) fun r trace' s' hhistory => ?_)
  rcases r with code | _ | persisted
  · rintro _ ⟨⟩
  · rintro _ ⟨⟩
  · dsimp only
    split_ifs with hsource
    · rintro _ ⟨⟩
    · rintro row ⟨⟩
      exact hhistory

/-- A refresh gives back what the call may give back. -/
theorem proves_refreshWarmContinuation (self : OAuthCredentialProvider)
    (hop : ∀ self slot lease, (callHistory t trace).op ≠ some (.invalidate self slot lease)) :
    pledge.Proves t (Own t fun x h => ∀ credential handle, x = .ok (some (credential, handle)) →
      h.Justifies slot credential)
      (self.refreshWarmContinuation slot).run trace s := by
  refine proves_guarded (fun v hv hwindow => ?_) fun _ _ _ => nofun
  have hrenews : v.Renews := by
    rw [View.Renews, hv]
    exact hop
  refine (local_refreshLocked self hrenews hwindow).mono fun x v' h credential handle hx => ?_
  obtain ⟨refresh, minted, hmem, hcredential⟩ | hseen := h credential handle hx
  · exact .inl ⟨refresh, minted, mem_cons_of_mem _ hmem, hcredential⟩
  · exact .inr hseen

variable {persisted : PersistedSecretToken}

theorem proves_tryWarmContinuation (self : OAuthCredentialProvider)
    (hop : ∀ self slot lease, (callHistory t trace).op ≠ some (.invalidate self slot lease))
    (hseen : (callHistory t trace).seen = some ⟨slot, persisted, none, none⟩) :
    pledge.Proves t (Own t fun x h => ∀ credential handle, x = .ok (some (credential, handle)) →
      h.Justifies slot credential)
      (self.tryWarmContinuation persisted slot).run trace s := by
  rw [tryWarmContinuation]
  refine proves_seq (Own.act (fun _ _ _ => trivial) fun r tr₁ s₁ h₁ => ?_)
  rcases r with code | access
  · exact fun _ _ => nofun
  refine proves_ofExcept (fun expiresAt hexpires => ?_) fun _ _ _ _ => nofun
  refine Pledge.Proves.bindT (proves_accessIsUsable expiresAt) ?_ fun _ _ _ _ _ _ => nofun
  rintro usable tr₂ s₂ ⟨_, ⟨⟩, ⟨acts, -, h₂⟩, husable⟩
  split
  next access' =>
    refine proves_seq (Own.act (fun _ _ _ => trivial) fun r tr₃ s₃ h₃ => ?_)
    rcases r with code | refresh
    · exact fun _ _ => nofun
    rintro _ _ ⟨⟩
    refine .inr ⟨⟨slot, persisted, some access', some refresh⟩, ?_, rfl, rfl, rfl, hexpires, ?_⟩
    · rw [h₃, h₂, h₁]
      simp [CallHistory.add, CallHistory.noteAct, Seen.note, refreshField_ne, hseen]
    · rw [persistedExpiresAt_ms hexpires]
      intro h0
      obtain ⟨time, htime, hzero⟩ := Option.map_eq_some_iff.mp h0
      exact husable rfl time htime (by exact_mod_cast hzero)
  next =>
    refine proves_refreshWarmContinuation self ?_
    rw [h₂, h₁]
    exact hop

theorem proves_resolve (self : OAuthCredentialProvider)
    (hop : ∀ self slot lease, (callHistory t trace).op ≠ some (.invalidate self slot lease)) :
    pledge.Proves t (Own t fun x h => ∀ credential, x = .ok credential → h.Justifies slot credential)
      (self.resolve slot).run trace s := by
  rw [OAuthCredentialProvider.resolve]
  refine Pledge.Proves.bindT (proves_loadPersistedToken self) ?_ fun _ _ _ _ _ => nofun
  intro persisted tr₁ s₁ h₁
  have hseen : (callHistory t tr₁).seen = some ⟨slot, persisted, none, none⟩ := by
    rw [h₁ persisted rfl]
    rfl
  have hop₁ : ∀ self slot lease, (callHistory t tr₁).op ≠ some (.invalidate self slot lease) := by
    rw [h₁ persisted rfl]
    exact hop
  refine proves_lift ((proves_tryWarmContinuation self hop₁ hseen).mono fun x tr₂ s₂ h₂ => ?_)
  rcases x with error | _ | ⟨resolved, handle⟩
  · exact fun _ => nofun
  · exact fun _ => nofun
  · rintro _ ⟨⟩
    exact h₂ _ _ rfl

/-- A lease is of a row that the call has read: of the one it has, or of the one that it reads behind a refresh. -/
theorem proves_leased (self : OAuthCredentialProvider) (usable : Bool)
    (hop : ∀ self slot lease, (callHistory t trace).op ≠ some (.invalidate self slot lease))
    (hload : (⟨.loadSecretToken slot, .ok (some persisted)⟩ : Sigma Act.Answer) ∈ (callHistory t trace).acts) :
    pledge.Proves t (Own t fun x h => ∀ lease, x = .ok lease → ∃ row,
        (⟨.loadSecretToken slot, .ok (some row)⟩ : Sigma Act.Answer) ∈ h.acts ∧
          leaseFromPersisted row = lease)
      (if usable = true then pure (leaseFromPersisted persisted)
        else do
          match ← attempt (self.refreshWarmContinuation slot) with
          | .ok (some _) =>
            let committed ← self.loadPersistedToken slot
            return leaseFromPersisted committed
          | .ok none => throw .NoWarmToken
          | .error error => throw (if leavesColdStart error then .NoWarmToken else error) :
        Call CredentialError ResolvedOAuthCredentialLease).run trace s := by
  split_ifs
  · rintro _ ⟨⟩
    exact ⟨persisted, hload, rfl⟩
  refine proves_lift ((proves_refreshWarmContinuation self hop).mono fun x tr₁ s₁ _ => ?_)
  rcases x with error | _ | resolved
  · exact fun _ => nofun
  · exact fun _ => nofun
  · refine Pledge.Proves.bindT (proves_loadPersistedToken self) ?_ fun _ _ _ _ _ => nofun
    rintro committed tr₂ s₂ h₂ _ ⟨⟩
    refine ⟨committed, ?_, rfl⟩
    rw [h₂ committed rfl]
    exact mem_cons_self

theorem proves_resolveAccessKeyringHandleLease (self : OAuthCredentialProvider)
    (hop : ∀ self slot lease, (callHistory t trace).op ≠ some (.invalidate self slot lease)) :
    pledge.Proves t (Own t fun x h => ∀ lease, x = .ok lease → ∃ row,
        (⟨.loadSecretToken slot, .ok (some row)⟩ : Sigma Act.Answer) ∈ h.acts ∧
          leaseFromPersisted row = lease)
      (self.resolveAccessKeyringHandleLease slot).run trace s := by
  rw [resolveAccessKeyringHandleLease]
  refine Pledge.Proves.bindT (proves_loadPersistedToken self) ?_ fun _ _ _ _ _ => nofun
  intro persisted tr₁ s₁ h₁
  have hload : (⟨.loadSecretToken slot, .ok (some persisted)⟩ : Sigma Act.Answer) ∈ (callHistory t tr₁).acts := by
    rw [h₁ persisted rfl]
    exact mem_cons_self
  refine proves_seq (Own.act (fun _ _ _ => trivial) fun r tr₂ s₂ h₂ => ?_)
  have hload₂ : (⟨.loadSecretToken slot, .ok (some persisted)⟩ : Sigma Act.Answer) ∈ (callHistory t tr₂).acts := by
    rw [h₂]
    exact mem_cons_of_mem _ hload
  have hop₂ : (callHistory t tr₂).op = (callHistory t trace).op := by
    rw [h₂, h₁ persisted rfl]
    cases r <;> rfl
  rcases r with code | access
  · exact fun _ => nofun
  dsimp only
  split_ifs
  · refine Pledge.Proves.bindT (Q := Own t fun _ h => h.op = (callHistory t trace).op ∧
        (⟨.loadSecretToken slot, .ok (some persisted)⟩ : Sigma Act.Answer) ∈ h.acts)
      ?_ (fun usable tr₃ s₃ ⟨hop₃, h₃⟩ => proves_leased self usable (by rw [hop₃]; exact hop) h₃) fun _ _ _ _ _ => nofun
    refine proves_ofExcept (fun expiresAt _ => (proves_accessIsUsable expiresAt).mono ?_) fun _ _ => ⟨hop₂, hload₂⟩
    rintro x tr₃ s₃ ⟨_, -, ⟨acts, hacts, h₃⟩, -⟩
    rw [Own, h₃]
    exact ⟨hop₂, hacts hload₂⟩
  · exact proves_leased self false (by rw [hop₂]; exact hop) hload₂

/-- A registration that fails has committed nothing. -/
theorem proves_acceptCredential (self : OAuthCredentialProvider) {accessToken : Bytes} {refreshToken : Option Bytes}
    (h : callHistory t trace = (Op.accept self slot accessToken refreshToken expiresAt).begins) :
    pledge.Proves t (Own t fun x h => (∃ e, x = .error e) → h.stored = false)
      (self.acceptCredential slot accessToken refreshToken expiresAt).run trace s := by
  rw [acceptCredential]
  refine proves_ofExcept (fun token htoken => ?_) fun _ _ _ => by rw [h]; rfl
  have hregisters : (Op.accept self slot accessToken refreshToken expiresAt).registers = some token := by
    rw [Op.registers, htoken]
    rfl
  refine proves_lift (Pledge.Proves.mono (proves_guarded
    (Q := fun (x : Except CredentialError Unit) h => (∃ e, x = .error e) → h.stored = false)
      (fun v hv hwindow => ?_) ?_) ?_)
  · have hbears : v.Bears self token .DeleteExisting := by
      rw [h] at hv
      refine ⟨by rw [View.Renews, hv]; nofun, by rw [hwindow]; nofun, ⟨token, ?_,
        .inl rfl⟩, fun _ => nofun, token.generation none, ?_, rfl, rfl, ?_, ?_⟩
      · rw [hv]
        exact hregisters
      · rw [hv]
        simp [CallHistory.add, CallHistory.noteAct, Op.begins, hregisters]
      · intro refresh hrefresh
        simp [MintedToken.generation, hrefresh]
      · intro hno
        simp [MintedToken.generation, hno]
    refine (local_persistTokenLocked self hbears).mono fun x v' hx hfails => ?_
    refine (hx.2 hfails).trans ?_
    rw [hv, h]
    rfl
  · intro code _
    rw [h]
    rfl
  · intro x tr₁ s₁ h₁
    cases x with
    | ok u => rintro ⟨e, ⟨⟩⟩
    | error e => exact fun _ => h₁ ⟨e, rfl⟩

theorem proves_invalidateAccessTokenIfLease (self : OAuthCredentialProvider) {lease : ResolvedOAuthCredentialLease}
    (h : callHistory t trace = (Op.invalidate self slot lease).begins) :
    pledge.Proves t (Own t fun x h => x = .ok false → h.wrote = false)
      (self.invalidateAccessTokenIfLease slot lease).run trace s := by
  rw [invalidateAccessTokenIfLease]
  split_ifs with hslot
  · exact nofun
  refine proves_guarded (fun v hv hwindow => ?_) fun _ => nofun
  refine (local_invalidateLocked self hwindow ?_ ?_).mono fun x v' h => h
  · rw [hv, h]
    rfl
  · rw [hv, h]
    rfl

/-- Every call keeps the pledge. -/
theorem Op.keeps (t : ι) (op : Op) (trace : List (Step ι)) (s : StateRoot ι) :
    pledge.Safe t op.routine.thread (trace ++ [.call t op]) s := by
  have hbegins : callHistory t (trace ++ [.call t op]) = op.begins := by
    rw [callHistory_concat]
    exact if_pos rfl
  have hfinish : ∀ (outcome : Outcome) (trace : List (Step ι))
        (s : StateRoot ι), (callHistory t trace).Finishes outcome →
      pledge.Proves t (fun _ _ _ => True) (OAuth.act (.finish outcome)) trace s := by
    intro outcome trace s hfinishes tr₁ s₁ hothers r s₂ _
    refine ⟨?_, trivial⟩
    rw [← hothers.history] at hfinishes
    exact hfinishes
  refine Pledge.Proves.safe (Q := fun _ _ _ => True) ?_
  cases op with
  | resolve self slot =>
    refine (proves_resolve self (by rw [hbegins]; nofun)).bind fun result tr₁ s₁ h => hfinish _ tr₁ s₁ ?_
    cases result with
    | ok credential => exact h credential rfl
    | error e => trivial
  | lease self slot =>
    refine (proves_resolveAccessKeyringHandleLease self (by rw [hbegins]; nofun)).bind fun result tr₁ s₁ h =>
      hfinish _ tr₁ s₁ ?_
    cases result with
    | ok lease => exact h lease rfl
    | error e => trivial
  | accept self slot accessToken refreshToken expiresAt =>
    refine (proves_acceptCredential self hbegins).bind fun result tr₁ s₁ h => hfinish _ tr₁ s₁ ?_
    cases result with
    | ok u => trivial
    | error e => exact h ⟨e, rfl⟩
  | invalidate self slot lease =>
    refine (proves_invalidateAccessTokenIfLease self hbegins).bind fun result tr₁ s₁ h => hfinish _ tr₁ s₁ ?_
    rcases result with e | ⟨⟨⟩⟩
    · trivial
    · exact h rfl
    · trivial

/-- Every step of every run conducts itself. -/
theorem conduct_of_run {root : StateRoot ι} {pre post : List (Step ι)}
    {threads : Threads ι (StateRoot ι) Act.Answer} (h : Runs root (pre ++ .act t a r :: post) threads) :
    ∃ before, Runs root pre before ∧ before.shared = after root pre ∧
      (∃ s', StateRoot.exec t a r (after root pre) = some s') ∧ conduct t a r pre (after root pre) := by
  obtain ⟨before, s', hrun, hexec, hok⟩ := Pledge.ok_of_run Op.keeps h
  have hshared := Runs.shared_eq hrun
  rw [hshared] at hexec hok
  exact ⟨before, hrun, hshared, ⟨s', hexec⟩, hok⟩

/-- A slot in the middle of a change is held. -/
def Held (trace : List (Step ι)) (s : StateRoot ι) : Prop :=
  ∀ slot, window slot trace ≠ .closed → s.guards.get slot ≠ none

theorem Held.act (h : Held trace s) (hconduct : conduct t a r trace s)
    (hexec : StateRoot.exec t a r s = some s') : Held (trace ++ [.act t a r]) s' := by
  intro slot hne
  by_cases hchanges : a.changes = some slot
  · have hheld : s.guards.get slot = some t → s'.guards = s.guards → s'.guards.get slot ≠ none := by
      intro hguard heq
      rw [heq, hguard]
      nofun
    cases a with
    | storeSecretToken slot' token =>
      cases hchanges
      rcases r with code | ⟨⟩ <;> cases hexec <;> exact hheld hconduct.1 rfl
    | putMany slot' fields =>
      cases hchanges
      rcases r with code | ⟨⟩ <;> cases hexec <;> exact hheld hconduct.1 rfl
    | delete slot' field =>
      cases hchanges
      rcases r with code | ⟨⟩ <;> cases hexec <;> exact hheld hconduct.1 rfl
    | grant slot' refresh =>
      cases hchanges
      cases r <;> cases hexec <;> exact hheld hconduct.1 rfl
    | lock slot' =>
      cases hchanges
      rcases r with code | ⟨⟩
      · cases hexec
        rw [window_concat] at hne
        exact h slot hne
      · rw [window_concat] at hne
        exact absurd (if_pos rfl) hne
    | unlock slot' =>
      cases hchanges
      rw [window_concat] at hne
      exact absurd (if_pos rfl) hne
    | _ => cases hchanges
  · rw [window_concat, window_frame hchanges] at hne
    rw [(exec_frame hexec hchanges).1]
    exact h slot hne

omit [DecidableEq ι] in
theorem Held.silent {l : Step ι} (h : Held trace s) (hl : l.Silent) : Held (trace ++ [l]) s := by
  intro slot hne
  rw [window_concat] at hne
  cases l with
  | act t a r => exact hl.elim
  | _ => exact h slot hne

end Others

end OvStorage.OAuth
