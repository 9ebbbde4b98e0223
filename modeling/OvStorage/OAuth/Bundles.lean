import OvStorage.OAuth.Redemption

/-!
# Bundles

A bundle that is resolved was minted or registered as one (`OneGeneration`), and is the one that was last
committed when its row was read, or was granted to the call itself (`resolved_bundle_is_one_generation`).

Two things can take it apart. A resolution that finds its row usable reads the secrets outside the guard, one
after another (`Reading`), so that a persist in between leaves it with parts of two. And a persist that fails
behind `put_many` leaves new secrets under the row that was there. `Together` is that neither happens.
-/

namespace OvStorage.OAuth

open Address Interleave List

variable {ι : Type} [DecidableEq ι] {root s s' : StateRoot ι} {slot : Slot} {trace : List (Step ι)} {t : ι}

/-! ### What a slot holds -/

/-- A row, and the secrets that it names. -/
structure Credential where
  row : PersistedSecretToken
  access : Option Bytes
  refresh : Option Bytes
deriving DecidableEq

/-- A secret of a slot. -/
def StateRoot.secret (s : StateRoot ι) (slot : Slot) (field : String) : Option Bytes := s.secrets.get (slot, field)

def StateRoot.credential (s : StateRoot ι) (slot : Slot) : Option Credential :=
  (s.loadSecretToken slot).map fun row =>
    ⟨row, s.secret slot row.secretHandle, s.secret slot (refreshField row.secretHandle)⟩

/-- What was last committed for a slot, or was there at the start. -/
def Committed (root : StateRoot ι) (slot : Slot) (trace : List (Step ι)) (c : Credential) : Prop :=
  ∃ upTo since, trace = upTo ++ since ∧ (after root upTo).credential slot = some c ∧
    (∀ l ∈ since, commitOf slot l = none) ∧
    (upTo = [] ∨ ∃ pre l, upTo = pre ++ [l] ∧ commitOf slot l ≠ none)

/-- The parts were minted or registered together, or were there together at the start. -/
def OneGeneration (root : StateRoot ι) (trace : List (Step ι)) (g : Generation) : Prop :=
  g ∈ generations trace ∨ ∃ slot c, root.credential slot = some c ∧ c.access = some g.access ∧ c.refresh = g.refresh ∧
    persistedExpiresAt c.row = .ok g.expiresAt

/-- A credential that may be used is one generation. -/
def Credential.Whole (root : StateRoot ι) (trace : List (Step ι)) (c : Credential) : Prop :=
  c.row.expiresAtUnixMs = some 0 ∨ ∀ access expiresAt, c.access = some access →
    persistedExpiresAt c.row = .ok expiresAt →
    OneGeneration root trace ⟨access, c.refresh, expiresAt⟩

/-- The fields that are written ahead of their row. -/
def Window.fields : Window → List String
  | .landed fields _ => fields
  | _ => []

/-- A slot holds what was last committed for it, but for the fields that are written ahead and an access token that is
taken. -/
def Holds (root : StateRoot ι) (slot : Slot) (trace : List (Step ι)) (s : StateRoot ι) : Prop :=
  ∀ row, s.loadSecretToken slot = some row → ∃ c, Committed root slot trace c ∧ c.row = row ∧ c.Whole root trace ∧
    (row.secretHandle ∉ (window slot trace).fields →
      s.secret slot row.secretHandle = c.access ∨ s.secret slot row.secretHandle = none) ∧
    (refreshField row.secretHandle ∉ (window slot trace).fields →
      s.secret slot (refreshField row.secretHandle) = c.refresh)

/-! ### What a call reads -/

/-- A row that a call has read, and whether the secrets are still its own. -/
structure Reading where
  slot : Slot
  row : PersistedSecretToken
  /-- The access token has not been written since. -/
  accessNow : Bool
  /-- The refresh token has not been written since. -/
  refreshNow : Bool
  /-- The access token had not been written when the call read it. -/
  accessSeen : Bool
deriving DecidableEq

/-- What a step of anyone does to a reading. An access token that is taken is not one that is written. -/
def Reading.disturb (reading : Reading) : Step ι → Reading
  | .act _ (.putMany slot fields) (.ok ()) =>
    if slot = reading.slot then
      { reading with
        accessNow := reading.accessNow && decide (reading.row.secretHandle ∉ fields.map Prod.fst)
        refreshNow := reading.refreshNow && decide (refreshField reading.row.secretHandle ∉ fields.map Prod.fst) }
    else reading
  | .act _ (.delete slot field) (.ok ()) =>
    if slot = reading.slot ∧ field = refreshField reading.row.secretHandle then { reading with refreshNow := false }
    else reading
  | _ => reading

/-- What a step does to the reading of a thread. -/
def noteReading (t : ι) (windows : Slot → Window) (reading : Option Reading) : Step ι → Option Reading
  | .call t' _ => if t' = t then none else reading
  | .act t' (.loadSecretToken slot) (.ok found) =>
    if t' = t then
      found.map fun row =>
        ⟨slot, row, decide (row.secretHandle ∉ (windows slot).fields),
          decide (refreshField row.secretHandle ∉ (windows slot).fields), false⟩
    else reading
  | .act t' (.get slot field) (.ok _) =>
    if t' = t then
      reading.map fun reading =>
        if slot = reading.slot ∧ field = reading.row.secretHandle then
          { reading with accessSeen := reading.accessNow }
        else reading
    else reading
  | l => reading.map fun reading => reading.disturb l

/-- The row that a thread has read last in its call. -/
def reading (t : ι) (trace : List (Step ι)) : Option Reading :=
  (trace.foldl (fun (x : (Slot → Window) × Option Reading) l =>
    (fun slot => (x.1 slot).note slot l, noteReading t x.1 x.2 l)) (fun _ => .closed, none)).2

theorem reading_concat (t : ι) (trace : List (Step ι)) (l : Step ι) :
    reading t (trace ++ [l]) = noteReading t (fun slot => window slot trace) (reading t trace) l := by
  have hwindows : ∀ trace : List (Step ι), (trace.foldl (fun (x : (Slot → Window) × Option Reading) l =>
      (fun slot => (x.1 slot).note slot l, noteReading t x.1 x.2 l)) (fun _ => .closed, none)).1 = fun slot =>
        window slot trace := by
    intro trace
    induction trace using List.reverseRecOn with
    | nil => rfl
    | append_singleton trace l ih =>
      funext slot
      rw [foldl_concat, window_concat, ih]
  rw [reading, foldl_concat, hwindows]
  rfl

/-- A refresh token is read behind an access token of the same row, and a guard is not given back with fields written
ahead of the row that names them. -/
def Together (root : StateRoot ι) (pre : List (Step ι)) : Step ι → Prop
  | .act t (.get slot field) (.ok _) =>
    match reading t pre with
    | some reading => reading.slot = slot → field = refreshField reading.row.secretHandle →
        reading.accessSeen = true ∧ reading.refreshNow = true
    | none => True
  | .act _ (.unlock slot) _ =>
    match (after root pre).loadSecretToken slot with
    | some row => row.secretHandle ∉ (window slot pre).fields ∧ refreshField row.secretHandle ∉ (window slot pre).fields
    | none => True
  | _ => True

/-- What a call has seen is of the credential that was committed when it read the row. -/
def Reads (root : StateRoot ι) (t : ι) (trace : List (Step ι)) (s : StateRoot ι) : Prop :=
  ∀ seen, (callHistory t trace).seen = some seen → ∃ rd c before during, reading t trace = some rd ∧
    trace = before ++ .act t (.loadSecretToken seen.slot) (.ok (some seen.row)) :: during ∧ (∀ l ∈ during, ¬l.Calls t) ∧
    rd.slot = seen.slot ∧ rd.row = seen.row ∧ Committed root seen.slot before c ∧ c.row = seen.row ∧
      c.Whole root trace ∧
    (rd.accessNow = true → s.secret seen.slot seen.row.secretHandle = c.access ∨
      s.secret seen.slot seen.row.secretHandle = none) ∧
    (rd.refreshNow = true → s.secret seen.slot (refreshField seen.row.secretHandle) = c.refresh) ∧
    (rd.accessSeen = true → seen.access = c.access ∨ seen.access = none) ∧
    ∀ refresh, seen.refresh = some refresh → rd.accessSeen = true ∧ refresh = c.refresh

/-! ### What was committed stays so -/

variable {l : Step ι} {c : Credential}

theorem Committed.concat (h : Committed root slot trace c) (hl : commitOf slot l = none) :
    Committed root slot (trace ++ [l]) c := by
  obtain ⟨upTo, since, rfl, hc, hsince, hupTo⟩ := h
  refine ⟨upTo, since ++ [l], append_assoc .., hc, fun l' hl' => ?_, hupTo⟩
  rcases mem_append.mp hl' with hmem | hmem
  · exact hsince l' hmem
  · rw [mem_singleton.mp hmem]
    exact hl

theorem Committed.commit (hl : commitOf slot l ≠ none)
    (hc : (after root (trace ++ [l])).credential slot = some c) : Committed root slot (trace ++ [l]) c :=
  ⟨trace ++ [l], [], (append_nil _).symm, hc, nofun, .inr ⟨trace, l, rfl, hl⟩⟩

omit [DecidableEq ι] in
theorem OneGeneration.concat {g : Generation} (h : OneGeneration root trace g) (l : Step ι) :
    OneGeneration root (trace ++ [l]) g := by
  rw [OneGeneration, generations_concat]
  exact h.imp (mem_append_left _) id

omit [DecidableEq ι] in
theorem Credential.Whole.concat (h : c.Whole root trace) (l : Step ι) : c.Whole root (trace ++ [l]) :=
  h.imp id fun hone access expiresAt haccess hexpires => (hone access expiresAt haccess hexpires).concat l

theorem expiresAt_of_ms {row : PersistedSecretToken} {expiresAt expiresAt' : Option SystemTime}
    (h : persistedExpiresAt row = .ok expiresAt)
    (hms : row.expiresAtUnixMs = expiresAt'.map fun time => (time.val : ℤ)) :
    expiresAt = expiresAt' := by
  rw [persistedExpiresAt_ms h] at hms
  refine Option.map_injective (fun time time' heq => ?_) hms
  exact Fin.val_injective (by exact_mod_cast heq)

/-! ### What an operation leaves of the secrets -/

/-- The operation changes a field of a slot. -/
def Act.Touches (slot : Slot) (field : String) : (a : Act) → a.Answer → Prop
  | .putMany slot' fields, .ok () => slot' = slot ∧ field ∈ fields.map Prod.fst
  | .delete slot' field', .ok () => slot' = slot ∧ field' = field
  | _, _ => False

variable {field : String} {a : Act}

theorem exec_secret {r : a.Answer} (h : StateRoot.exec t a r s = some s')
    (hfield : ¬a.Touches slot field r) : s'.secret slot field = s.secret slot field := by
  by_cases hwrites : a.Writes r
  · cases a with
    | storeSecretToken slot' token => rcases r with code | ⟨⟩ <;> cases h <;> rfl
    | putMany slot' fields =>
      rcases r with code | ⟨⟩ <;> cases h
      · rfl
      · refine get_putMany_of_ne s slot' fun f hf heq => hfield ?_
        cases heq
        exact ⟨rfl, mem_map_of_mem hf⟩
    | delete slot' field' =>
      rcases r with code | ⟨⟩ <;> cases h
      · rfl
      · refine Table.get_erase_of_ne _ fun heq => hfield ?_
        exact ⟨(congrArg Prod.fst heq).symm, (congrArg Prod.snd heq).symm⟩
    | _ => cases hwrites
  · rw [StateRoot.secret, (exec_of_not_writes hwrites h).2]
    rfl

/-! ### A slot holds what was committed -/

theorem Holds.of_same (h : Holds root slot trace s) (hl : commitOf slot l = none)
    (hrow : s'.loadSecretToken slot = s.loadSecretToken slot)
    (haccess : ∀ row, s.loadSecretToken slot = some row → row.secretHandle ∉ (window slot (trace ++ [l])).fields →
      row.secretHandle ∉ (window slot trace).fields ∧
        (s'.secret slot row.secretHandle = s.secret slot row.secretHandle ∨ s'.secret slot row.secretHandle = none))
    (hrefresh : ∀ row, s.loadSecretToken slot = some row →
      refreshField row.secretHandle ∉ (window slot (trace ++ [l])).fields →
      refreshField row.secretHandle ∉ (window slot trace).fields ∧
        s'.secret slot (refreshField row.secretHandle) = s.secret slot (refreshField row.secretHandle)) :
    Holds root slot (trace ++ [l]) s' := by
  intro row hload
  rw [hrow] at hload
  obtain ⟨c, hcommitted, hc, hwhole, hholds, hholds'⟩ := h row hload
  refine ⟨c, hcommitted.concat hl, hc, hwhole.concat l, fun hfield => ?_, fun hfield => ?_⟩
  · obtain ⟨hbefore, hsame | hgone⟩ := haccess row hload hfield
    · rw [hsame]
      exact hholds hbefore
    · exact .inr hgone
  · obtain ⟨hbefore, hsame⟩ := hrefresh row hload hfield
    rw [hsame]
    exact hholds' hbefore

/-- An operation that leaves the row, the secrets and the fields that are written ahead. -/
theorem Holds.leave (h : Holds root slot trace s) (hl : commitOf slot l = none)
    (hwindow : (window slot (trace ++ [l])).fields = (window slot trace).fields)
    (hrow : s'.loadSecretToken slot = s.loadSecretToken slot)
    (hsecret : ∀ field, s'.secret slot field = s.secret slot field) :
    Holds root slot (trace ++ [l]) s' :=
  h.of_same hl hrow (fun _ _ hfield => ⟨by rwa [hwindow] at hfield, .inl (hsecret _)⟩)
    fun _ _ hfield => ⟨by rwa [hwindow] at hfield, hsecret _⟩

variable {r : Except ErrorCode Unit}

theorem holds_store {token : PersistedSecretToken} (h : Holds root slot trace s)
    (hafter : s' = after root (trace ++ [.act t (.storeSecretToken slot token) r]))
    (hconduct : conduct t (.storeSecretToken slot token) r trace s)
    (hexec : StateRoot.exec t (.storeSecretToken slot token) r s = some s') :
    Holds root slot (trace ++ [.act t (.storeSecretToken slot token) r]) s' := by
  rcases r with code | ⟨⟩
  · cases hexec
    exact h.leave rfl (by rw [window_concat]; rfl) rfl fun _ => rfl
  have hcommit : commitOf slot (.act t (.storeSecretToken slot token) (.ok ())) = some token := if_pos rfl
  have hload : s'.loadSecretToken slot = some token.record.token := by
    cases hexec
    simp [StateRoot.loadSecretToken]
  have hsecret : ∀ field, s'.secret slot field = s.secret slot field := fun field => exec_secret hexec id
  rintro _ hrow
  cases hload.symm.trans hrow
  refine ⟨⟨token.record.token, s'.secret slot token.secretHandle, s'.secret slot (refreshField token.secretHandle)⟩,
    .commit (by rw [hcommit]; rintro ⟨⟩) ?_, rfl, ?_, fun _ => .inl rfl, fun _ => rfl⟩
  · rw [← hafter, StateRoot.credential, hload]
    rfl
  obtain ⟨-, -, -, hpersists | hinvalidates⟩ := hconduct
  · obtain ⟨g, hg, haccess, hrefresh, hms⟩ := hpersists.generation
    refine .inr fun access expiresAt haccess' hexpires => .inl ?_
    replace haccess : s.secret slot token.secretHandle = some g.access := haccess
    replace hrefresh : s.secret slot (refreshField token.secretHandle) = g.refresh := hrefresh
    obtain rfl : expiresAt = g.expiresAt := expiresAt_of_ms hexpires hms
    have hsame : (⟨access, s'.secret slot (refreshField token.secretHandle), g.expiresAt⟩ : Generation) = g := by
      rw [hsecret, haccess] at haccess'
      cases haccess'
      rw [hsecret, hrefresh]
    rw [generations_concat]
    exact mem_append_left _ (hsame ▸ (callHistory_sound t trace).2 g hg)
  · obtain ⟨self, lease, row, -, -, -, -, htoken⟩ := hinvalidates.lease
    refine .inl ?_
    rw [htoken]
    rfl

theorem holds_putMany {fields : List (String × Bytes)} (h : Holds root slot trace s)
    (hconduct : conduct t (.putMany slot fields) r trace s)
    (hexec : StateRoot.exec t (.putMany slot fields) r s = some s') :
    Holds root slot (trace ++ [.act t (.putMany slot fields) r]) s' := by
  rcases r with code | ⟨⟩
  · cases hexec
    exact h.leave rfl (by rw [window_concat]; rfl) rfl fun _ => rfl
  have hbefore : (window slot trace).fields = [] := by
    cases hwindow : window slot trace with
    | landed fields' refresh => exact absurd hwindow (hconduct.2.2.window fields' refresh)
    | _ => rfl
  have hafter : (window slot (trace ++ [.act t (.putMany slot fields) (.ok ())])).fields = fields.map Prod.fst := by
    rw [window_concat, Window.note, Window.noteAct, if_pos rfl]
    rfl
  have hload : s'.loadSecretToken slot = s.loadSecretToken slot := by
    cases hexec
    rfl
  refine h.of_same rfl hload (fun row _ hfield => ?_) fun row _ hfield => ?_
  · rw [hafter] at hfield
    rw [hbefore]
    exact ⟨not_mem_nil, .inl (exec_secret hexec fun htouches => hfield htouches.2)⟩
  · rw [hafter] at hfield
    rw [hbefore]
    exact ⟨not_mem_nil, exec_secret hexec fun htouches => hfield htouches.2⟩

theorem holds_delete (h : Holds root slot trace s) (hconduct : conduct t (.delete slot field) r trace s)
    (hexec : StateRoot.exec t (.delete slot field) r s = some s') :
    Holds root slot (trace ++ [.act t (.delete slot field) r]) s' := by
  rcases r with code | ⟨⟩
  · cases hexec
    exact h.leave rfl (by rw [window_concat]; rfl) rfl fun _ => rfl
  have hload : s'.loadSecretToken slot = s.loadSecretToken slot := by
    cases hexec
    rfl
  have hgone : s'.secret slot field = none := by
    cases hexec
    exact Table.get_erase_self ..
  obtain ⟨-, -, ⟨-, fields, hwindow⟩ | hdiscards⟩ := hconduct
  · replace hwindow : window slot trace = .landed fields none := hwindow
    have hafter : (window slot (trace ++ [.act t (.delete slot field) (.ok ())])).fields = field :: fields := by
      rw [window_concat, hwindow, Window.note, Window.noteAct, if_pos rfl]
      rfl
    refine h.of_same rfl hload (fun row _ hfield => ?_) fun row _ hfield => ?_
    · rw [hafter, mem_cons, not_or] at hfield
      rw [hwindow]
      exact ⟨hfield.2, .inl (exec_secret hexec fun htouches => hfield.1 htouches.2.symm)⟩
    · rw [hafter, mem_cons, not_or] at hfield
      rw [hwindow]
      exact ⟨hfield.2, exec_secret hexec fun htouches => hfield.1 htouches.2.symm⟩
  · have hwindow : window slot trace = .closed := hdiscards.window
    obtain ⟨self, lease, row, copy, -, -, -, hcopy, -, hrow, rfl⟩ := hdiscards.lease
    refine h.of_same rfl hload (fun row' hrow' _ => ?_) fun row' hrow' _ => ?_
    · rw [hwindow]
      refine ⟨not_mem_nil, .inr ?_⟩
      cases hrow.symm.trans hrow'
      rw [hcopy]
      exact hgone
    · rw [hwindow]
      refine ⟨not_mem_nil, exec_secret hexec fun htouches => ?_⟩
      cases hrow.symm.trans hrow'
      rw [hcopy] at htouches
      exact refreshField_ne _ htouches.2.symm

/-- One step keeps what a slot holds. -/
theorem Holds.act {r : a.Answer} (h : Holds root slot trace s) (hheld : Held trace s)
    (hs : s = after root trace) (hconduct : conduct t a r trace s) (htogether : Together root trace (.act t a r))
    (hexec : StateRoot.exec t a r s = some s') : Holds root slot (trace ++ [.act t a r]) s' := by
  have hafter : s' = after root (trace ++ [.act t a r]) := by
    rw [after_concat, ← hs]
    exact (effect_act hexec).symm
  by_cases hchanges : a.changes = some slot
  · cases a with
    | storeSecretToken slot' token =>
      cases hchanges
      exact holds_store h hafter hconduct hexec
    | putMany slot' fields =>
      cases hchanges
      exact holds_putMany h hconduct hexec
    | delete slot' field =>
      cases hchanges
      exact holds_delete h hconduct hexec
    | grant slot' refresh =>
      cases hchanges
      rcases r with code | minted <;> cases hexec
      · exact h.leave rfl (by rw [window_concat]; rfl) rfl fun _ => rfl
      · have hwindow : window slot trace = .closed := hconduct.2.2.1
        refine h.leave rfl ?_ rfl fun _ => rfl
        rw [window_concat, hwindow, Window.note, Window.noteAct, if_pos rfl]
        rfl
    | lock slot' =>
      cases hchanges
      rcases r with code | ⟨⟩
      · cases hexec
        exact h.leave rfl (by rw [window_concat]; rfl) rfl fun _ => rfl
      simp only [StateRoot.exec] at hexec
      split_ifs at hexec with hfree
      cases hexec
      have hwindow : window slot trace = .closed := by
        by_contra hne
        exact hheld slot hne hfree
      refine h.leave rfl ?_ rfl fun _ => rfl
      rw [window_concat, hwindow, Window.note, Window.noteAct, if_pos rfl]
    | unlock slot' =>
      cases hchanges
      have hload : s'.loadSecretToken slot = s.loadSecretToken slot := exec_load hexec rfl
      refine h.of_same rfl hload (fun row hrow _ => ?_) fun row hrow _ => ?_
      · rw [hs] at hrow
        simp only [Together, hrow] at htogether
        exact ⟨htogether.1, .inl (exec_secret hexec id)⟩
      · rw [hs] at hrow
        simp only [Together, hrow] at htogether
        exact ⟨htogether.2, exec_secret hexec id⟩
    | _ => cases hchanges
  · obtain ⟨-, hrow, hsecrets⟩ := exec_frame hexec hchanges
    refine h.leave ?_ (by rw [window_concat, window_frame hchanges]) hrow hsecrets
    cases a with
    | storeSecretToken slot' token =>
      rcases r with code | ⟨⟩
      · rfl
      · exact if_neg fun heq => hchanges (congrArg some heq)
    | _ => rfl

/-! ### What a call has seen is of one credential -/

omit [DecidableEq ι] in
theorem Reading.disturb_same (rd : Reading) (l : Step ι) :
    (rd.disturb l).slot = rd.slot ∧ (rd.disturb l).row = rd.row ∧ (rd.disturb l).accessSeen = rd.accessSeen := by
  unfold Reading.disturb
  split
  · split_ifs <;> exact ⟨rfl, rfl, rfl⟩
  · split_ifs <;> exact ⟨rfl, rfl, rfl⟩
  · exact ⟨rfl, rfl, rfl⟩

variable {t' : ι}

/-- An access token that has not been written is there, or taken. -/
theorem disturb_access {r : a.Answer} (hexec : StateRoot.exec t' a r s = some s') {rd : Reading}
    (h : (rd.disturb (.act t' a r : Step ι)).accessNow = true) : rd.accessNow = true ∧
      (s'.secret rd.slot rd.row.secretHandle = s.secret rd.slot rd.row.secretHandle ∨
        s'.secret rd.slot rd.row.secretHandle = none) := by
  by_cases htouches : a.Touches rd.slot rd.row.secretHandle r
  · cases a with
    | putMany slot fields =>
      rcases r with code | ⟨⟩
      · cases htouches
      obtain ⟨rfl, hfield⟩ := htouches
      simp [Reading.disturb, hfield] at h
    | delete slot field =>
      rcases r with code | ⟨⟩
      · cases htouches
      obtain ⟨rfl, rfl⟩ := htouches
      have hne := (refreshField_ne rd.row.secretHandle).symm
      simp only [Reading.disturb, hne, and_false, if_false] at h
      refine ⟨h, .inr ?_⟩
      cases hexec
      exact Table.get_erase_self ..
    | _ => cases htouches
  · refine ⟨?_, .inl (exec_secret hexec htouches)⟩
    unfold Reading.disturb at h
    split at h
    · split_ifs at h
      · exact (Bool.and_eq_true_iff.mp h).1
      · exact h
    · split_ifs at h <;> exact h
    · exact h

/-- A refresh token that has not been written is there. -/
theorem disturb_refresh {r : a.Answer} (hexec : StateRoot.exec t' a r s = some s') {rd : Reading}
    (h : (rd.disturb (.act t' a r : Step ι)).refreshNow = true) : rd.refreshNow = true ∧
      s'.secret rd.slot (refreshField rd.row.secretHandle) = s.secret rd.slot (refreshField rd.row.secretHandle) := by
  by_cases htouches : a.Touches rd.slot (refreshField rd.row.secretHandle) r
  · cases a with
    | putMany slot fields =>
      rcases r with code | ⟨⟩
      · cases htouches
      obtain ⟨rfl, hfield⟩ := htouches
      simp [Reading.disturb, hfield] at h
    | delete slot field =>
      rcases r with code | ⟨⟩
      · cases htouches
      obtain ⟨rfl, rfl⟩ := htouches
      simp [Reading.disturb] at h
    | _ => cases htouches
  · refine ⟨?_, exec_secret hexec htouches⟩
    unfold Reading.disturb at h
    split at h
    · split_ifs at h
      · exact (Bool.and_eq_true_iff.mp h).1
      · exact h
    · split_ifs at h
      exact h
    · exact h

/-- A step at which the thread reads nothing. -/
theorem Reads.disturb (h : Reads root t trace s) (hcalls : ¬l.Calls t)
    (hseen : (callHistory t (trace ++ [l])).seen = (callHistory t trace).seen)
    (hreading : reading t (trace ++ [l]) = (reading t trace).map fun rd => rd.disturb l)
    (haccess : ∀ rd : Reading, (rd.disturb l).accessNow = true → rd.accessNow = true ∧
      (s'.secret rd.slot rd.row.secretHandle = s.secret rd.slot rd.row.secretHandle ∨
        s'.secret rd.slot rd.row.secretHandle = none))
    (hrefresh : ∀ rd : Reading, (rd.disturb l).refreshNow = true → rd.refreshNow = true ∧
      s'.secret rd.slot (refreshField rd.row.secretHandle) = s.secret rd.slot (refreshField rd.row.secretHandle)) :
    Reads root t (trace ++ [l]) s' := by
  intro seen hsome
  rw [hseen] at hsome
  obtain ⟨rd, c, before, during, hrd, htrace, hduring, hslot, hrow, hcommitted, hc, hwhole, hnow, hnow',
      haccessSeen, hrefreshSeen⟩ :=
    h seen hsome
  obtain ⟨hsameSlot, hsameRow, hsameSeen⟩ := rd.disturb_same l
  refine ⟨rd.disturb l, c, before, during ++ [l],
    by rw [hreading, hrd]; rfl, by rw [htrace]; simp, ?_, hsameSlot.trans hslot,
    hsameRow.trans hrow, hcommitted, hc, hwhole.concat l, fun hrdNow => ?_, fun hrdNow => ?_, ?_, ?_⟩
  · intro l' hl'
    rcases mem_append.mp hl' with hmem | hmem
    · exact hduring l' hmem
    · rw [mem_singleton.mp hmem]
      exact hcalls
  · obtain ⟨hold, hsame | hgone⟩ := haccess rd hrdNow
    · rw [hslot, hrow] at hsame
      rw [hsame]
      exact hnow hold
    · rw [hslot, hrow] at hgone
      exact .inr hgone
  · obtain ⟨hold, hsame⟩ := hrefresh rd hrdNow
    rw [hslot, hrow] at hsame
    rw [hsame]
    exact hnow' hold
  · rwa [hsameSeen]
  · rwa [hsameSeen]

/-- An operation of a thread that is no read of its own. -/
theorem Reads.other {r : a.Answer} (h : Reads root t trace s) (hexec : StateRoot.exec t' a r s = some s')
    (hseen : (callHistory t (trace ++ [.act t' a r])).seen = (callHistory t trace).seen)
    (hreading : reading t (trace ++ [.act t' a r]) = (reading t trace).map fun rd =>
      rd.disturb (.act t' a r : Step ι)) :
    Reads root t (trace ++ [.act t' a r]) s' :=
  h.disturb id hseen hreading (fun _ => disturb_access hexec) fun _ => disturb_refresh hexec

theorem Reads.elsewhere {r : a.Answer} (h : Reads root t trace s) (ht : t' ≠ t)
    (hexec : StateRoot.exec t' a r s = some s') : Reads root t (trace ++ [.act t' a r]) s' := by
  refine h.other hexec (by rw [callHistory_concat]; exact congrArg _ (CallHistory.note_of_ne _ ht)) ?_
  rw [reading_concat]
  cases a with
  | loadSecretToken slot => rcases r with code | found <;> simp [noteReading, ht, Reading.disturb]
  | get slot field => rcases r with code | found <;> simp [noteReading, ht, Reading.disturb]
  | _ => rfl

/-- A thread that reads a row. -/
theorem Reads.load {found : Option PersistedSecretToken} (hholds : Holds root slot trace s)
    (hexec : StateRoot.exec t (.loadSecretToken slot) (.ok found) s = some s') :
    Reads root t (trace ++ [.act t (.loadSecretToken slot) (.ok found)]) s' := by
  simp only [StateRoot.exec] at hexec
  split_ifs at hexec with hfound
  cases hexec
  intro seen hseen
  rw [callHistory_concat] at hseen
  simp only [CallHistory.note, if_true] at hseen
  obtain ⟨row, rfl, rfl⟩ := Option.map_eq_some_iff.mp hseen
  obtain ⟨c, hcommitted, hc, hwhole, haccess, hrefresh⟩ := hholds row hfound.symm
  refine ⟨_, c, trace, [], by rw [reading_concat, noteReading, if_pos rfl]; rfl, rfl, by rintro _ ⟨⟩, rfl, rfl,
    hcommitted, hc, hwhole.concat _, fun hnow => haccess ?_, fun hnow => hrefresh ?_,
    fun hno => absurd hno Bool.false_ne_true, by rintro _ ⟨⟩⟩
  · exact of_decide_eq_true hnow
  · exact of_decide_eq_true hnow

/-- A thread that reads a secret. -/
theorem Reads.get {found : Option Bytes} (h : Reads root t trace s)
    (htogether : Together root trace (.act t (.get slot field) (.ok found)))
    (hexec : StateRoot.exec t (.get slot field) (.ok found) s = some s') :
    Reads root t (trace ++ [.act t (.get slot field) (.ok found)]) s' := by
  simp only [StateRoot.exec] at hexec
  split_ifs at hexec with hfound
  cases hexec
  intro seen' hseen'
  rw [callHistory_concat] at hseen'
  simp only [CallHistory.note, if_true] at hseen'
  obtain ⟨seen, hseen, rfl⟩ := Option.map_eq_some_iff.mp hseen'
  obtain ⟨rd, c, before, during, hrd, htrace, hduring, hslot, hrow, hcommitted, hc, hwhole, hnow, hnow',
      haccessSeen, hrefreshSeen⟩ :=
    h seen hseen
  have hduring' : ∀ l ∈ during ++ [.act t (.get slot field) (.ok found)], ¬l.Calls t := by
    intro l hl
    rcases mem_append.mp hl with hmem | hmem
    · exact hduring l hmem
    · rw [mem_singleton.mp hmem]
      exact id
  have hreading : reading t (trace ++ [.act t (.get slot field) (.ok found)]) =
      some (if slot = rd.slot ∧ field = rd.row.secretHandle then { rd with accessSeen := rd.accessNow } else rd) := by
    rw [reading_concat, noteReading, if_pos rfl, hrd]
    rfl
  have hne := (refreshField_ne seen.row.secretHandle).symm
  by_cases haccess : slot = seen.slot ∧ field = seen.row.secretHandle
  · obtain ⟨rfl, rfl⟩ := haccess
    rw [if_pos ⟨hslot.symm, by rw [hrow]⟩] at hreading
    refine ⟨_, c, before, _, hreading, ?_, hduring', ?_⟩
    · rw [htrace]
      simp [Seen.note]
    · simp only [Seen.note, and_self, if_true]
      refine ⟨hslot, hrow, hcommitted, hc, hwhole.concat _, hnow, hnow', fun haccessNow => ?_, by rintro _ ⟨⟩⟩
      rw [hfound]
      exact hnow haccessNow
  · have hreading' : ¬(slot = rd.slot ∧ field = rd.row.secretHandle) := by rwa [hslot, hrow]
    rw [if_neg hreading'] at hreading
    by_cases hrefresh : slot = seen.slot ∧ field = refreshField seen.row.secretHandle
    · obtain ⟨rfl, rfl⟩ := hrefresh
      simp only [Together, hrd] at htogether
      obtain ⟨haccessSeen', hrefreshNow⟩ := htogether hslot (by rw [hrow])
      have hnote : seen.note seen.slot (refreshField seen.row.secretHandle) found =
          { seen with refresh := some found } := by
        rw [Seen.note, if_neg haccess, if_pos ⟨rfl, rfl⟩]
      rw [hnote]
      refine ⟨rd, c, before, _, hreading,
        by rw [htrace]; simp, hduring', hslot, hrow, hcommitted, hc, hwhole.concat _, hnow, hnow',
        haccessSeen, ?_⟩
      rintro _ ⟨⟩
      refine ⟨haccessSeen', ?_⟩
      rw [hfound]
      exact hnow' hrefreshNow
    · have hnote : seen.note slot field found = seen := by
        rw [Seen.note, if_neg haccess, if_neg hrefresh]
      rw [hnote]
      exact ⟨rd, c, before, _, hreading,
        by rw [htrace]; simp, hduring', hslot, hrow, hcommitted, hc, hwhole.concat _, hnow, hnow',
        haccessSeen, hrefreshSeen⟩

theorem Reads.act {r : a.Answer} (h : Reads root t trace s) (hholds : ∀ slot, Holds root slot trace s)
    (htogether : Together root trace (.act t' a r)) (hexec : StateRoot.exec t' a r s = some s') :
    Reads root t (trace ++ [.act t' a r]) s' := by
  by_cases ht : t' = t
  · subst ht
    cases a with
    | loadSecretToken slot =>
      rcases r with code | found
      · refine h.other hexec ?_ (by rw [reading_concat]; rfl)
        rw [callHistory_concat, CallHistory.note, if_pos rfl]
        rfl
      · exact .load (hholds slot) hexec
    | get slot field =>
      rcases r with code | found
      · refine h.other hexec ?_ (by rw [reading_concat]; rfl)
        rw [callHistory_concat, CallHistory.note, if_pos rfl]
        rfl
      · exact h.get htogether hexec
    | _ =>
      refine h.other hexec ?_ (by rw [reading_concat]; rfl)
      rw [callHistory_concat, CallHistory.note, if_pos rfl]
      rcases r with code | found <;> rfl
  · exact h.elsewhere ht hexec

theorem Reads.silent (h : Reads root t trace s) (hl : l.Silent) : Reads root t (trace ++ [l]) s := by
  have hsame : ∀ rd : Reading, rd.disturb l = rd := by
    intro rd
    cases l with
    | act t' a r => exact hl.elim
    | _ => rfl
  have haccess : ∀ rd : Reading, (rd.disturb l).accessNow = true → rd.accessNow = true ∧
      (s.secret rd.slot rd.row.secretHandle = s.secret rd.slot rd.row.secretHandle ∨
        s.secret rd.slot rd.row.secretHandle = none) := fun rd hrd => ⟨by rwa [hsame] at hrd, .inl rfl⟩
  have hrefresh : ∀ rd : Reading, (rd.disturb l).refreshNow = true → rd.refreshNow = true ∧
      s.secret rd.slot (refreshField rd.row.secretHandle) = s.secret rd.slot (refreshField rd.row.secretHandle) :=
    fun rd hrd => ⟨by rwa [hsame] at hrd, rfl⟩
  cases l with
  | call t' op =>
    by_cases ht : t' = t
    · intro seen hseen
      rw [callHistory_concat, CallHistory.note, if_pos ht] at hseen
      cases hseen
    · refine h.disturb ht ?_ ?_ haccess hrefresh
      · rw [callHistory_concat, CallHistory.note, if_neg ht]
      · rw [reading_concat, noteReading, if_neg ht]
        simp [hsame]
  | act t' a r => exact hl.elim
  | left t' => exact h.disturb id (by rw [callHistory_concat]; rfl) (by rw [reading_concat]; rfl) haccess hrefresh
  | right t' => exact h.disturb id (by rw [callHistory_concat]; rfl) (by rw [reading_concat]; rfl) haccess hrefresh

/-! ### The main result -/

/-- The operation commits a row. -/
def Act.Commits : (a : Act) → a.Answer → Prop
  | .storeSecretToken _ _, .ok () => True
  | _, _ => False

theorem CallHistory.add_stored (h : CallHistory) (a : Act) (r : a.Answer) (hstored : (h.add a r).stored = false) :
    h.stored = false ∧ ¬a.Commits r := by
  cases a <;> rcases r with code | found <;> first | exact ⟨hstored, id⟩ | cases hstored

/-- A credential was granted to the call, or is the one that was committed when the call read its row. -/
def Sourced (root : StateRoot ι) (pre : List (Step ι)) (t : ι) (slot : Slot) (credential : ResolvedCredential) : Prop :=
  (∃ refresh minted, (⟨.grant slot refresh, .ok minted⟩ : Sigma Act.Answer) ∈ (callHistory t pre).acts ∧
      credential.generation = minted.generation (some refresh)) ∨
    ∃ c before during, pre = before ++ .act t (.loadSecretToken slot) (.ok (some c.row)) :: during ∧
      (∀ l ∈ during, ¬l.Calls t) ∧
      Committed root slot before c ∧ c.access = some credential.token ∧ c.refresh = credential.refresh ∧
      persistedExpiresAt c.row = .ok credential.expiresAt

/-- Bundles stay together. -/
structure Bundled (root : StateRoot ι) (trace : List (Step ι)) : Prop where
  /-- What is resolved is one generation, and is what was committed or what was granted for it. -/
  resolved : ∀ pre t slot credential post, trace = pre ++
    .act t (.finish (.resolved slot (.ok credential))) () :: post →
    OneGeneration root pre credential.generation ∧ Sourced root pre t slot credential
  /-- What is redeemed is the refresh token of the credential that was committed. -/
  redeems : ∀ pre t slot refresh r post, trace = pre ++ .act t (.grant slot refresh) r :: post →
    ∃ c, Committed root slot pre c ∧ c.refresh = some (utf8 refresh)
  /-- A registration that fails commits nothing. -/
  refuses : ∀ before t op during slot code post,
    trace = (before ++ .call t op :: during) ++ .act t (.finish (.accepted slot (.error code))) () :: post →
    (∀ l ∈ during, ¬l.Calls t) → ∀ a r, .act t a r ∈ during → ∀ slot, commitOf slot (.act t a r : Step ι) = none

/-- The state of a run whose steps leave bundles together. -/
structure Keeps (root : StateRoot ι) (trace : List (Step ι)) (s : StateRoot ι) : Prop where
  state : s = after root trace
  held : Held trace s
  holds : ∀ slot, Holds root slot trace s
  reads : ∀ t, Reads root t trace s

theorem keeps_of_run {threads : Threads ι (StateRoot ι) Act.Answer} (h : Runs root trace threads)
    (htogether : ∀ pre l post, trace = pre ++ l :: post → Together root pre l) : Keeps root trace threads.shared := by
  refine Pledge.invariant_of_run (C := fun pre _ l => Together root pre l) (I := fun trace s => Keeps root trace s)
    Op.keeps ?_ ?_ ?_ h fun pre l post _ htrace _ => htogether pre l post htrace
  · refine ⟨rfl, fun _ hne => absurd rfl hne, fun slot row hrow => ?_, fun t seen => nofun⟩
    have hcredential : root.credential slot =
        some ⟨row, root.secret slot row.secretHandle, root.secret slot (refreshField row.secretHandle)⟩ := by
      rw [StateRoot.credential, hrow]
      rfl
    refine ⟨_, ⟨[], [], rfl, hcredential, nofun, .inl rfl⟩, rfl, .inr fun access expiresAt haccess hexpires => .inr ?_,
      fun _ => .inl rfl, fun _ => rfl⟩
    exact ⟨slot, _, hcredential, haccess, rfl, hexpires⟩
  · intro trace s l hl hkeeps _
    refine ⟨?_, hkeeps.held.silent hl, fun slot => ?_, fun t => (hkeeps.reads t).silent hl⟩
    · rw [after_concat, hkeeps.state]
      cases l with
      | act t a r => exact hl.elim
      | _ => rfl
    · refine (hkeeps.holds slot).leave ?_ ?_ rfl fun _ => rfl
      · cases l with
        | act t a r => exact hl.elim
        | _ => rfl
      · rw [window_concat]
        cases l with
        | act t a r => exact hl.elim
        | _ => rfl
  · intro trace s t a r s' hkeeps hconduct htogether hexec
    refine ⟨?_, hkeeps.held.act hconduct hexec, fun slot => ?_,
      fun t => (hkeeps.reads t).act hkeeps.holds htogether hexec⟩
    · rw [after_concat, ← hkeeps.state]
      exact (effect_act hexec).symm
    · exact (hkeeps.holds slot).act hkeeps.held hkeeps.state hconduct htogether hexec

/-- What a call gives back is one generation. -/
theorem resolved_of_keeps {pre : List (Step ι)} {credential : ResolvedCredential} (hkeeps : Keeps root pre s)
    (h : (callHistory t pre).Justifies slot credential) :
    OneGeneration root pre credential.generation ∧ Sourced root pre t slot credential := by
  rcases h with ⟨refresh, minted, hmem, hcredential⟩ | ⟨seen, hseen, rfl, haccess, hrefresh, hexpires, hnever⟩
  · refine ⟨.inl ?_, .inl ⟨refresh, minted, hmem, hcredential⟩⟩
    rw [hcredential]
    exact mem_filterMap.mpr ⟨_, (callHistory_sound t pre).1 _ hmem, rfl⟩
  · obtain ⟨rd, c, before, during, -, htrace, hduring, -, -, hcommitted, hc, hwhole, -, -, haccessSeen, hrefreshSeen⟩ :=
      hkeeps.reads t seen hseen
    obtain ⟨hread, hsame⟩ := hrefreshSeen _ hrefresh
    have hcaccess : c.access = some credential.token := by
      rcases haccessSeen hread with hsame' | hgone
      · exact hsame'.symm.trans haccess
      · cases haccess.symm.trans hgone
    rw [← hc] at hexpires hnever htrace
    refine ⟨?_, .inr ⟨c, before, during, htrace, hduring, hcommitted, hcaccess, hsame.symm, hexpires⟩⟩
    have hone := hwhole.resolve_left hnever _ _ hcaccess hexpires
    rw [← hsame] at hone
    exact hone

/-- Where no read falls into a persist and no persist fails behind `put_many`, what is resolved is one generation, and a
registration that fails leaves the credential that was committed. -/
theorem resolved_bundle_is_one_generation {threads : Threads ι (StateRoot ι) Act.Answer} (h : Runs root trace threads)
    (htogether : ∀ pre l post, trace = pre ++ l :: post → Together root pre l) : Bundled root trace where
  resolved pre t slot credential post htrace := by
    subst htrace
    obtain ⟨before, hrun, -, -, hfinishes⟩ := conduct_of_run h
    exact resolved_of_keeps (keeps_of_run hrun fun pre' l post' hpre =>
      htogether pre' l _ (by rw [hpre]; simp; rfl)) hfinishes
  redeems pre t slot refresh r post htrace := by
    subst htrace
    obtain ⟨before, hrun, hshared, -, -, -, hclosed, row, hrow, hrefresh⟩ := conduct_of_run h
    have hkeeps := keeps_of_run hrun fun pre' l post' hpre => htogether pre' l _ (by rw [hpre]; simp; rfl)
    rw [hshared] at hkeeps
    obtain ⟨c, hcommitted, -, -, -, hholds⟩ := hkeeps.holds slot row hrow
    replace hclosed : window slot pre = .closed := hclosed
    rw [hclosed] at hholds
    exact ⟨c, hcommitted, (hholds not_mem_nil).symm.trans hrefresh⟩
  refuses before t op during slot code post htrace hduring a r hmem slot' := by
    subst htrace
    obtain ⟨-, -, -, -, hstored⟩ := conduct_of_run h
    have hcommits := CallHistory.not_of_flag CallHistory.add_stored hstored hduring hmem
    cases a with
    | storeSecretToken slot'' token =>
      rcases r with code | ⟨⟩
      · rfl
      · exact absurd trivial hcommits
    | _ => rfl

/-! ### Runs -/

instance (pre : List (Step ι)) (l : Step ι) : Decidable (Together root pre l) := by
  unfold Together
  split
  · split <;> infer_instance
  · split <;> infer_instance
  · infer_instance

/-- What a resolution does before it reads the refresh token, where the row is usable. -/
def readsAccess (row : PersistedSecretToken) (access : String) : List (Step Bool) :=
  [.call true (.resolve ⟨"idp", "s3"⟩ ("s3", "ann")),
    .act true (.loadSecretToken ("s3", "ann")) (.ok (some row)),
    .act true (.get ("s3", "ann") "oauth/idp") (.ok (some (utf8 access)))]

/-- A resolution gives back a credential that does not expire. -/
def givesBack (access refresh : String) : Step Bool :=
  .act true (.finish (.resolved ("s3", "ann") (.ok ⟨utf8 access, some (utf8 refresh), none, "idp"⟩))) ()

/-- A credential is registered, and resolved while another registration has taken the guard and written nothing yet. -/
def renewal : List (Step Bool) :=
  registers false "A1" "R1" none 0 ++ (readsAccess ⟨1, none, "oauth/idp", "idp"⟩ "A1").take 2 ++
  (registers false "A2" "R2" none 1).take 2 ++ (readsAccess ⟨1, none, "oauth/idp", "idp"⟩ "A1").drop 2 ++
  [.act true (.get ("s3", "ann") "oauth/idp/refresh") (.ok (some (utf8 "R1"))), givesBack "A1" "R1"] ++
  (registers false "A2" "R2" none 1).drop 2

theorem resolved_bundle_is_one_generation_witness :
    ∃ threads, Runs .fresh renewal threads ∧ Bundled .fresh renewal := by
  obtain ⟨threads, hrun⟩ : ∃ threads, Runs .fresh renewal threads := run_of_exec (by decide +kernel)
  have htogether : ∀ n : Fin renewal.length, Together .fresh (renewal.take n) (renewal.get n) := by decide +kernel
  exact ⟨threads, hrun, resolved_bundle_is_one_generation hrun (forall_split_iff.mpr htogether)⟩

/-- A resolution whose reads a registration comes in between. -/
def overtaken : List (Step Bool) :=
  registers false "A1" "R1" none 0 ++ readsAccess ⟨1, none, "oauth/idp", "idp"⟩ "A1" ++
    registers false "A2" "R2" none 1 ++
  [.act true (.get ("s3", "ann") "oauth/idp/refresh") (.ok (some (utf8 "R2")))]

/-- A registration that fails behind `put_many`, and a resolution. -/
def halfway : List (Step Bool) :=
  registers false "A1" "R1" none 0 ++
  [.call false (.accept ⟨"idp", "s3"⟩ ("s3", "ann") (utf8 "A2") (some (utf8 "R2")) (some 9)),
    .act false (.lock ("s3", "ann")) (.ok ()),
    .act false (.putMany ("s3", "ann") [("oauth/idp", utf8 "A2"), ("oauth/idp/refresh", utf8 "R2")]) (.ok ()),
    .act false .maxSecretCredEpoch (.error .Transient),
    .act false (.unlock ("s3", "ann")) (),
    .act false (.finish (.accepted ("s3", "ann") (.error .Transient))) ()] ++
  readsAccess ⟨1, none, "oauth/idp", "idp"⟩ "A2" ++
    [.act true (.get ("s3", "ann") "oauth/idp/refresh") (.ok (some (utf8 "R2")))]

/-- A resolution that a registration overtakes gives back parts of two credentials, and one behind a registration that
failed gives back the secrets of that, with an expiry that is not theirs. -/
theorem bundles_come_apart :
    (∃ threads, Runs .fresh (overtaken ++ [givesBack "A1" "R2"]) threads ∧
      ¬OneGeneration .fresh overtaken ⟨utf8 "A1", some (utf8 "R2"), none⟩) ∧
    ∃ threads, Runs .fresh (halfway ++ [givesBack "A2" "R2"]) threads ∧
      ¬OneGeneration .fresh halfway ⟨utf8 "A2", some (utf8 "R2"), none⟩ := by
  have hapart : ∀ (trace : List (Step Bool)) (g : Generation), g ∉ generations trace →
      ¬OneGeneration .fresh trace g := by
    rintro trace g hg (hmem | ⟨slot, c, hc, -⟩)
    · exact hg hmem
    · cases hc
  constructor
  · obtain ⟨threads, hrun⟩ : ∃ threads, Runs .fresh (overtaken ++ [givesBack "A1" "R2"]) threads :=
      run_of_exec (by decide +kernel)
    exact ⟨threads, hrun, hapart _ _ (by decide +kernel)⟩
  · obtain ⟨threads, hrun⟩ : ∃ threads, Runs .fresh (halfway ++ [givesBack "A2" "R2"]) threads :=
      run_of_exec (by decide +kernel)
    exact ⟨threads, hrun, hapart _ _ (by decide +kernel)⟩

end OvStorage.OAuth
