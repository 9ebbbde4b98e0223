import OvStorage.OAuth.Guarded

/-!
# Rows and leases

The rows of a slot ascend in their epochs (`succeeds_of_run`), so that a lease, which names the epoch of
the row that it was issued for, is for one row at most. An invalidation changes something only if that row
is the one that it finds (`Spares`).
-/

namespace OvStorage.OAuth

open Interleave OAuthCredentialProvider List

variable {ι : Type} [DecidableEq ι] {root s s' : StateRoot ι} {slot : Slot} {trace pre post : List (Step ι)} {t : ι}
  {threads : Threads ι (StateRoot ι) Act.Answer}

/-- The rows of a slot, from the one that it has at the start on. -/
def rows (root : StateRoot ι) (slot : Slot) (trace : List (Step ι)) : List PersistedSecretToken :=
  (root.loadSecretToken slot).toList ++ committed slot trace

/-- The next epoch fits the column. -/
def Fits : Step ι → Prop
  | .act _ .maxSecretCredEpoch (.ok epoch) => epoch + 1 < 2 ^ 63
  | _ => True

def EpochsFit (trace : List (Step ι)) : Prop := ∀ l ∈ trace, Fits l

/-! ### What a step does to the rows -/

omit [DecidableEq ι] in
theorem rows_concat (root : StateRoot ι) (slot : Slot) (trace : List (Step ι)) (l : Step ι) :
    rows root slot (trace ++ [l]) = rows root slot trace ++ (commitOf slot l).toList := by
  rw [rows, rows, committed, committed, filterMap_append, append_assoc]
  cases h : commitOf slot l <;> simp [h]

omit [DecidableEq ι] in
theorem rows_subset (root : StateRoot ι) (slot : Slot) (pre post : List (Step ι)) :
    rows root slot pre ⊆ rows root slot (pre ++ post) := by
  rw [rows, rows, committed, committed, filterMap_append, ← append_assoc]
  exact subset_append_left _ _

variable {a : Act} {r : a.Answer}

/-- Only a commit changes the row. -/
theorem exec_load (h : StateRoot.exec t a r s = some s') (hcommit : commitOf slot (.act t a r) = none) :
    s'.loadSecretToken slot = s.loadSecretToken slot := by
  by_cases hchanges : a.changes = some slot
  · cases a with
    | storeSecretToken slot' token =>
      obtain rfl : slot' = slot := Option.some.inj hchanges
      rcases r with code | ⟨⟩
      · cases h
        rfl
      · simp [commitOf] at hcommit
    | putMany slot' fields => rcases r with code | ⟨⟩ <;> cases h <;> rfl
    | delete slot' field => rcases r with code | ⟨⟩ <;> cases h <;> rfl
    | grant slot' refresh => cases r <;> cases h <;> rfl
    | lock slot' =>
      rcases r with code | ⟨⟩
      · cases h
        rfl
      · simp only [StateRoot.exec] at h
        split_ifs at h
        cases h
        rfl
    | unlock slot' =>
      simp only [StateRoot.exec] at h
      split_ifs at h <;> cases h <;> rfl
    | _ => cases hchanges
  · exact (exec_frame h hchanges).2.1

theorem saturatingSucc_of_lt {epoch : ℕ} (h : epoch + 1 < 2 ^ 63) : saturatingSucc epoch = epoch + 1 :=
  min_eq_left (by omega)

variable {token row row' : PersistedSecretToken}

/-- A row with an epoch that fits is read as it was written. -/
theorem record_token (h : token.credEpoch < 2 ^ 63) : token.record.token = token := by
  have hi64 : asI64 token.credEpoch = token.credEpoch := if_pos h
  simp [PersistedSecretToken.record, CredentialRecord.token, hi64]

/-! ### The epochs ascend -/

/-- The row is the last of rows whose epochs ascend. -/
structure Succeeds (root : StateRoot ι) (slot : Slot) (trace : List (Step ι)) (s : StateRoot ι) : Prop where
  row : s.loadSecretToken slot = (rows root slot trace).getLast?
  ascending : ((rows root slot trace).map PersistedSecretToken.credEpoch).Pairwise (· < ·)

theorem le_of_ascending {rows : List PersistedSecretToken} {last : PersistedSecretToken}
    (h : (rows.map PersistedSecretToken.credEpoch).Pairwise (· < ·)) (hlast : rows.getLast? = some last)
    (hrow : row ∈ rows) :
    row.credEpoch ≤ last.credEpoch := by
  obtain ⟨earlier, rfl⟩ := List.getLast?_eq_some_iff.mp hlast
  rw [map_append, pairwise_append] at h
  rcases mem_append.mp hrow with hearlier | hrow
  · exact (h.2.2 _ (mem_map_of_mem hearlier) _ (mem_singleton_self _)).le
  · rw [mem_singleton.mp hrow]

omit [DecidableEq ι] in
theorem Succeeds.commit (h : Succeeds root slot trace s)
    (habove : ∀ row, s.loadSecretToken slot = some row → row.credEpoch < token.credEpoch) :
    ((rows root slot trace ++ [token]).map PersistedSecretToken.credEpoch).Pairwise (· < ·) := by
  rw [map_append, pairwise_append]
  refine ⟨h.ascending, pairwise_singleton .., ?_⟩
  simp only [mem_map, map_cons, map_nil, mem_singleton]
  rintro _ ⟨row, hrow, rfl⟩ _ rfl
  cases hlast : (rows root slot trace).getLast? with
  | none =>
    rw [List.getLast?_eq_none_iff.mp hlast] at hrow
    cases hrow
  | some last => exact (le_of_ascending h.ascending hlast hrow).trans_lt (habove last (h.row.trans hlast))

/-- A committed row is above the one before it, and is read as it was written. -/
theorem fits_of_conduct {slot' : Slot} (hfits : EpochsFit trace)
    (h : conduct t (.storeSecretToken slot' token) (.ok ()) trace s) : token.record.token = token ∧
      ∀ row, s.loadSecretToken slot' = some row → row.credEpoch < token.credEpoch := by
  obtain ⟨-, -, ⟨epoch, hmem, htoken, habove⟩, -⟩ := h
  have hlt : epoch + 1 < 2 ^ 63 := hfits _ ((callHistory_sound t trace).1 _ hmem)
  rw [saturatingSucc_of_lt hlt] at htoken
  refine ⟨record_token (by omega), fun row hrow => ?_⟩
  have hle := habove row hrow
  omega

omit [DecidableEq ι] in
theorem EpochsFit.of_append (h : EpochsFit (pre ++ post)) : EpochsFit pre :=
  fun l hmem => h l (mem_append_left _ hmem)

theorem succeeds_of_run (h : Runs root trace threads) (hfits : EpochsFit trace) (slot : Slot) :
    Succeeds root slot trace threads.shared := by
  refine Pledge.invariant_of_run (C := fun pre _ _ => EpochsFit pre) (I := fun trace s => Succeeds root slot trace s)
    Op.keeps ?_ ?_ ?_ h ?_
  · refine ⟨?_, ?_⟩
    · cases h : root.loadSecretToken slot <;> simp [rows, committed, h]
    · cases h : root.loadSecretToken slot <;> simp [rows, committed, h]
  · intro trace s l hl hsucceeds _
    have hrows : rows root slot (trace ++ [l]) = rows root slot trace := by
      rw [rows_concat]
      cases l with
      | act t a r => exact hl.elim
      | _ => exact append_nil _
    exact ⟨by rw [hrows, hsucceeds.row], by rw [hrows]; exact hsucceeds.ascending⟩
  · intro trace s t a r s' hsucceeds hconduct hfits hexec
    cases hcommit : commitOf slot (.act t a r) with
    | none =>
      have hrows : rows root slot (trace ++ [.act t a r]) = rows root slot trace := by
        rw [rows_concat, hcommit]
        exact append_nil _
      exact ⟨by rw [hrows, exec_load hexec hcommit, hsucceeds.row], by rw [hrows]; exact hsucceeds.ascending⟩
    | some token =>
      cases a with
      | storeSecretToken slot' token' =>
        rcases r with code | ⟨⟩
        · cases hcommit
        simp only [commitOf] at hcommit
        split_ifs at hcommit with hslot
        subst hslot
        cases hcommit
        cases hexec
        obtain ⟨hread, habove⟩ := fits_of_conduct hfits hconduct
        have hrows : rows root slot' (trace ++ [.act t (.storeSecretToken slot' token) (.ok ())]) =
            rows root slot' trace ++ [token] := by
          rw [rows_concat, commitOf, if_pos rfl]
          rfl
        refine ⟨?_, ?_⟩
        · rw [hrows, List.getLast?_concat]
          simp [StateRoot.loadSecretToken, hread]
        · rw [hrows]
          exact hsucceeds.commit habove
      | _ => simp [commitOf] at hcommit
  · rintro pre l post s₁ rfl _
    exact hfits.of_append

/-! ### What a lease is for -/

theorem row_unique (h : Runs root trace threads) (hfits : EpochsFit trace) (hrow : row ∈ rows root slot trace)
    (hrow' : row' ∈ rows root slot trace) (heq : row.credEpoch = row'.credEpoch) : row = row' :=
  inj_on_of_nodup_map ((succeeds_of_run h hfits slot).ascending.imp ne_of_lt) hrow hrow' heq

/-- What is read of a slot is a row that it has had. -/
theorem mem_rows_of_load (h : Runs root trace threads) (hfits : EpochsFit trace)
    (hmem : .act t (.loadSecretToken slot) (.ok (some row)) ∈ trace) : row ∈ rows root slot trace := by
  obtain ⟨pre, post, rfl⟩ := append_of_mem hmem
  obtain ⟨before, hrun, hshared, ⟨s', hexec⟩, -⟩ := conduct_of_run h
  have hrow := (succeeds_of_run hrun hfits.of_append slot).row
  simp only [StateRoot.exec] at hexec
  split_ifs at hexec with hfound
  rw [hshared, ← hfound] at hrow
  exact rows_subset root slot _ _ (mem_of_getLast? hrow.symm)

/-- A row that is committed is read as it was written. -/
theorem record_token_of_run (h : Runs root trace threads) (hfits : EpochsFit trace)
    (hmem : .act t (.storeSecretToken slot token) (.ok ()) ∈ trace) : token.record.token = token := by
  obtain ⟨pre, post, rfl⟩ := append_of_mem hmem
  obtain ⟨before, -, -, -, hconduct⟩ := conduct_of_run h
  exact (fits_of_conduct hfits.of_append hconduct).1

/-! ### What a call writes -/

/-- The operation changes the row or a secret. -/
def Act.Writes : (a : Act) → a.Answer → Prop
  | .storeSecretToken _ _, .ok () | .putMany _ _, .ok () | .delete _ _, .ok () => True
  | _, _ => False

theorem exec_of_not_writes (hwrites : ¬a.Writes r) (h : StateRoot.exec t a r s = some s') :
    s'.credentialRecords = s.credentialRecords ∧ s'.secrets = s.secrets := by
  cases a with
  | storeSecretToken slot token =>
    rcases r with code | ⟨⟩
    · cases h
      exact ⟨rfl, rfl⟩
    · exact absurd trivial hwrites
  | putMany slot fields =>
    rcases r with code | ⟨⟩
    · cases h
      exact ⟨rfl, rfl⟩
    · exact absurd trivial hwrites
  | delete slot field =>
    rcases r with code | ⟨⟩
    · cases h
      exact ⟨rfl, rfl⟩
    · exact absurd trivial hwrites
  | unlock slot =>
    simp only [StateRoot.exec] at h
    split_ifs at h <;> cases h <;> exact ⟨rfl, rfl⟩
  | grant slot refresh =>
    cases h
    exact ⟨rfl, rfl⟩
  | now =>
    cases h
    exact ⟨rfl, rfl⟩
  | finish outcome =>
    cases h
    exact ⟨rfl, rfl⟩
  | _ =>
    rcases r with code | found
    · cases h
      exact ⟨rfl, rfl⟩
    · simp only [StateRoot.exec] at h
      split_ifs at h
      cases h
      exact ⟨rfl, rfl⟩

theorem CallHistory.add_wrote (h : CallHistory) (a : Act) (r : a.Answer) (hwrote : (h.add a r).wrote = false) :
    h.wrote = false ∧ ¬a.Writes r := by
  cases a <;> rcases r with code | found <;> first | exact ⟨hwrote, id⟩ | cases hwrote

/-- What a call has not noted has not happened at any step of it. -/
theorem CallHistory.not_of_flag {flag : CallHistory → Bool} {noted : (a : Act) → a.Answer → Prop}
    (hadd : ∀ (h : CallHistory) (a : Act) (r : a.Answer), flag (h.add a r) = false → flag h = false ∧ ¬noted a r)
    {before during : List (Step ι)} {op : Op} (hflag : flag (callHistory t (before ++ .call t op :: during)) = false)
    (hduring : ∀ l ∈ during, ¬l.Calls t) (hmem : .act t a r ∈ during) : ¬noted a r := by
  induction during using List.reverseRecOn with
  | nil => cases hmem
  | append_singleton during l ih =>
    rw [← cons_append, ← append_assoc, callHistory_concat] at hflag
    have hduring' : ∀ l ∈ during, ¬l.Calls t := fun l hl => hduring l (mem_append_left _ hl)
    cases l with
    | call t' op' =>
      by_cases ht : t' = t
      · exact absurd ht (hduring (.call t' op') (by simp))
      · simp only [CallHistory.note, ht, if_false] at hflag
        exact ih hflag hduring' (by simpa using hmem)
    | act t' a' r' =>
      by_cases ht : t' = t
      · subst ht
        simp only [CallHistory.note, if_true] at hflag
        obtain ⟨hflag, hnoted⟩ := hadd _ _ _ hflag
        rcases mem_append.mp hmem with hmem | hmem
        · exact ih hflag hduring' hmem
        · cases mem_singleton.mp hmem
          exact hnoted
      · simp only [CallHistory.note, ht, if_false] at hflag
        refine ih hflag hduring' ?_
        rcases mem_append.mp hmem with hmem | hmem
        · exact hmem
        · cases mem_singleton.mp hmem
          exact absurd rfl ht
    | _ => exact ih hflag hduring' (by simpa using hmem)

/-! ### What a rejected token takes down -/

/-- What an invalidation changes of a slot with the row: it commits an expired copy, and then takes the access token. -/
def Expires (root : StateRoot ι) (pre : List (Step ι)) (t : ι) (slot : Slot) (row : PersistedSecretToken) : Act → Prop
  | .storeSecretToken slot' token => slot' = slot ∧ (after root pre).loadSecretToken slot = some row ∧
      token = { row with credEpoch := token.credEpoch, expiresAtUnixMs := some 0 }
  | .delete slot' field => slot' = slot ∧ field = row.secretHandle ∧ ∃ copy,
      (⟨.storeSecretToken slot copy, .ok ()⟩ : Sigma Act.Answer) ∈ (callHistory t pre).acts ∧
      copy = { row with credEpoch := copy.credEpoch, expiresAtUnixMs := some 0 } ∧
      (after root pre).loadSecretToken slot = some copy
  | _ => False

variable {lease : ResolvedOAuthCredentialLease}

/-- An invalidation changes nothing but the generation that its lease is for. -/
theorem expires_of_writes {self : OAuthCredentialProvider} (h : Runs root (pre ++ .act t a r :: post) threads)
    (hfits : EpochsFit (pre ++ .act t a r :: post)) (hwrites : a.Writes r)
    (hop : (callHistory t pre).op = some (.invalidate self slot lease)) :
    ∃ row ∈ rows root slot pre, leaseFromPersisted row = lease ∧ Expires root pre t slot row a := by
  obtain ⟨before, hrun, hshared, -, hconduct⟩ := conduct_of_run h
  have hrows := (succeeds_of_run hrun hfits.of_append slot).row
  rw [hshared] at hrows
  cases a with
  | storeSecretToken slot' token =>
    obtain ⟨-, -, -, hpersists | hinvalidates⟩ := hconduct
    · exact absurd hop (hpersists.renews _ _ _)
    · obtain ⟨self', lease', row, hop', hrow, -, hlease, htoken⟩ := hinvalidates.lease
      cases hop.symm.trans hop'
      exact ⟨row, mem_of_getLast? (hrows.symm.trans hrow), hlease, rfl, hrow, htoken⟩
  | putMany slot' fields => exact absurd hop (hconduct.2.2.renews _ _ _)
  | delete slot' field =>
    obtain ⟨-, -, ⟨hrenews, -⟩ | hdiscards⟩ := hconduct
    · exact absurd hop (hrenews _ _ _)
    · obtain ⟨self', lease', row, copy, hop', hload, hlease, hcopy, hstore, hrow, hfield⟩ := hdiscards.lease
      cases hop.symm.trans hop'
      have hacts := (callHistory_sound t pre).1
      refine ⟨row, mem_rows_of_load hrun hfits.of_append (hacts _ hload), hlease, rfl, hfield, copy, hstore, hcopy, ?_⟩
      rw [← record_token_of_run hrun hfits.of_append (hacts _ hstore)]
      exact hrow
  | _ => cases hwrites

/-- A rejected token takes down no other credential than its own. -/
structure Spares (root : StateRoot ι) (trace : List (Step ι)) : Prop where
  /-- The epochs that are committed for a slot ascend. -/
  ascending : ∀ slot, ((rows root slot trace).map PersistedSecretToken.credEpoch).Pairwise (· < ·)
  /-- An invalidation changes nothing unless the row that is there is the one with the lease. -/
  expires : ∀ pre t a r post self slot lease, trace = pre ++ .act t a r :: post → a.Writes r →
    (callHistory t pre).op = some (.invalidate self slot lease) →
    ∃ row ∈ rows root slot pre, leaseFromPersisted row = lease ∧ Expires root pre t slot row a
  /-- For a lease that was issued that row is the one that it was issued for, which was there before. -/
  issued : ∀ before t lease mid t' a r post self slot,
    trace = (before ++ .act t (.finish (.leased slot (.ok lease))) () :: mid) ++ .act t' a r :: post → a.Writes r →
    (callHistory t' (before ++ .act t (.finish (.leased slot (.ok lease))) () :: mid)).op =
      some (.invalidate self slot lease) →
    ∃ row ∈ rows root slot before, (⟨.loadSecretToken slot, .ok (some row)⟩ : Sigma Act.Answer) ∈
      (callHistory t before).acts ∧
      leaseFromPersisted row = lease ∧
      Expires root (before ++ .act t (.finish (.leased slot (.ok lease))) () :: mid) t' slot row a
  /-- An invalidation that comes to nothing has left the rows and the secrets. -/
  refuses : ∀ before t op during slot lease post,
    trace = (before ++ .call t op :: during) ++ .act t (.finish (.invalidated slot lease (.ok false))) () :: post →
    (∀ l ∈ during, ¬l.Calls t) → ∀ a r, .act t a r ∈ during → ∀ s s', StateRoot.exec t a r s = some s' →
    s'.credentialRecords = s.credentialRecords ∧ s'.secrets = s.secrets

/-- The rows with one lease are one row. -/
theorem row_of_lease (h : Runs root trace threads) (hfits : EpochsFit trace) (hrow : row ∈ rows root slot trace)
    (hrow' : row' ∈ rows root slot trace) (hlease : leaseFromPersisted row = lease)
    (hlease' : leaseFromPersisted row' = lease) : row = row' :=
  row_unique h hfits hrow hrow' (congrArg ResolvedOAuthCredentialLease.credEpoch (hlease.trans hlease'.symm))

theorem spares_of_run (h : Runs root trace threads) (hfits : EpochsFit trace) : Spares root trace where
  ascending slot := (succeeds_of_run h hfits slot).ascending
  expires pre t a r post self slot lease htrace hwrites hop := by
    subst htrace
    exact expires_of_writes h hfits hwrites hop
  issued before t lease mid t' a r post self slot htrace hwrites hop := by
    subst htrace
    obtain ⟨row, hrow, hlease, hexpires⟩ := expires_of_writes h hfits hwrites hop
    have hsplit : before ++ .act t (.finish (.leased slot (.ok lease))) () :: mid ++ .act t' a r :: post =
        before ++ .act t (.finish (.leased slot (.ok lease))) () :: (mid ++ .act t' a r :: post) := by simp
    rw [hsplit] at h hfits
    obtain ⟨_, hrun, -, -, row', hload, hlease'⟩ := conduct_of_run h
    have hrow' := mem_rows_of_load hrun hfits.of_append ((callHistory_sound t before).1 _ hload)
    have hrows : rows root slot (before ++ .act t (.finish (.leased slot (.ok lease))) () :: mid) ⊆
        rows root slot (before ++ .act t (.finish (.leased slot (.ok lease))) () :: (mid ++ .act t' a r :: post)) := by
      rw [← hsplit]
      exact rows_subset root slot _ _
    obtain rfl := row_of_lease h hfits (hrows hrow) (rows_subset root slot _ _ hrow') hlease hlease'
    exact ⟨row, hrow', hload, hlease, hexpires⟩
  refuses before t op during slot lease post htrace hduring a r hmem s s' hexec := by
    subst htrace
    obtain ⟨-, -, -, -, hwrote⟩ := conduct_of_run h
    exact exec_of_not_writes (CallHistory.not_of_flag CallHistory.add_wrote hwrote hduring hmem) hexec

end OvStorage.OAuth
