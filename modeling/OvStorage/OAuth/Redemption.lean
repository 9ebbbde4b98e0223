import Mathlib.Logic.Equiv.Basic
import OvStorage.OAuth.Succession

/-!
# Refresh tokens are redeemed once

Who holds a refresh token: the slot whose row names it, or the call that brings it, until it is put
(`held`). Where each grant and each registration brings a new one and no guard is given back in the
middle of a change (`RenewsEach`), a token has one holder, which a redemption takes it from, so that
none is redeemed twice (`Owned`).
-/

namespace OvStorage.OAuth

open Address Interleave

variable {ι : Type} [DecidableEq ι] {root s s' : StateRoot ι} {slot : Slot} {trace : List (Step ι)} {t : ι}

/-! ### The tokens of a run -/

/-- The refresh token beside the row of a slot. -/
def StateRoot.live (root : StateRoot ι) (slot : Slot) : Option Bytes :=
  (root.loadSecretToken slot).bind fun row => root.secrets.get (slot, refreshField row.secretHandle)

/-- The refresh token that a step redeems. -/
def redemptionOf : Step ι → Option Bytes
  | .act _ (.grant _ refresh) (.ok _) => some (utf8 refresh)
  | _ => none

def redeemed (trace : List (Step ι)) : List Bytes := trace.filterMap redemptionOf

/-- The refresh token that a step brings. -/
def bringsOf : Step ι → Option Bytes
  | .call _ op => op.registers.bind fun token => token.refreshToken.map utf8
  | .act _ (.grant _ _) (.ok minted) => minted.refreshToken.map utf8
  | _ => none

def brought (trace : List (Step ι)) : List Bytes := trace.filterMap bringsOf

/-- A grant is answered with a refresh token. -/
def Carries : Step ι → Prop
  | .act _ (.grant _ _) (.ok minted) => minted.refreshToken ≠ none
  | _ => True

/-- No guard is given back in the middle of a change. -/
def GivesBack (pre : List (Step ι)) : Step ι → Prop
  | .act _ (.unlock slot) _ => window slot pre = .closed
  | _ => True

/-- The refresh token that a step brings has not been there before. -/
def Fresh (root : StateRoot ι) (pre : List (Step ι)) (l : Step ι) : Prop :=
  ∀ token, bringsOf l = some token → token ∉ brought pre ∧ ∀ slot, root.live slot ≠ some token

/-- The slots begin with different refresh tokens, each grant and each registration brings a new one, and what is begun
is committed. -/
structure RenewsEach (root : StateRoot ι) (trace : List (Step ι)) : Prop where
  start : ∀ slot slot' token, root.live slot = some token → root.live slot' = some token → slot = slot'
  each : ∀ pre l post, trace = pre ++ l :: post → Carries l ∧ GivesBack pre l ∧ Fresh root pre l

/-! ### Who holds a token -/

/-- A holder. -/
inductive Place (ι : Type)
  | slot (slot : Slot)
  | thread (t : ι)
deriving DecidableEq

/-- The refresh token that a slot or a call holds. -/
def held (trace : List (Step ι)) (s : StateRoot ι) : Place ι → Option Bytes
  | .slot slot =>
    match window slot trace with
    | .closed => s.live slot
    | .granted => none
    | .landed _ refresh => refresh
  | .thread t => (callHistory t trace).bearing.bind fun token => token.refreshToken.map utf8

/-- The token was there at the start, or has been brought. -/
def Known (root : StateRoot ι) (trace : List (Step ι)) (token : Bytes) : Prop :=
  token ∈ brought trace ∨ ∃ slot, root.live slot = some token

/-- A token has one holder, or is redeemed. -/
structure Owned (root : StateRoot ι) (trace : List (Step ι)) (s : StateRoot ι) : Prop where
  one : ∀ p q token, held trace s p = some token → held trace s q = some token → p = q
  known : ∀ p token, held trace s p = some token → Known root trace token
  unspent : ∀ p token, held trace s p = some token → token ∉ redeemed trace
  spent : ∀ token ∈ redeemed trace, Known root trace token
  once : (redeemed trace).Nodup

section

omit [DecidableEq ι]

theorem redeemed_concat (trace : List (Step ι)) (l : Step ι) :
    redeemed (trace ++ [l]) = redeemed trace ++ (redemptionOf l).toList := by
  rw [redeemed, List.filterMap_append]
  cases h : redemptionOf l <;> simp [redeemed, h]

theorem brought_concat (trace : List (Step ι)) (l : Step ι) :
    brought (trace ++ [l]) = brought trace ++ (bringsOf l).toList := by
  rw [brought, List.filterMap_append]
  cases h : bringsOf l <;> simp [brought, h]

theorem Known.concat {token : Bytes} (h : Known root trace token) (l : Step ι) : Known root (trace ++ [l]) token := by
  rw [Known, brought_concat]
  exact h.imp (List.mem_append_left _) id

end

variable {l : Step ι}

omit [DecidableEq ι] in
theorem Fresh.not_known {token : Bytes} (h : Fresh root trace l) (hl : bringsOf l = some token) :
    ¬Known root trace token := by
  obtain ⟨hbrought, hlive⟩ := h token hl
  rintro (hmem | ⟨slot, hslot⟩)
  · exact hbrought hmem
  · exact hlive slot hslot

/-- A step that moves tokens, redeems one that is held and brings a new one. -/
theorem Owned.step {f : Place ι → Place ι} (hf : Function.Injective f) (h : Owned root trace s)
    (hfresh : Fresh root trace l)
    (hheld : ∀ p token, held (trace ++ [l]) s' p = some token →
      held trace s (f p) = some token ∧ redemptionOf l ≠ some token ∨ p = .thread l.thread ∧ bringsOf l = some token)
    (hredeems : ∀ token, redemptionOf l = some token → ∃ p, held trace s p = some token) :
    Owned root (trace ++ [l]) s' where
  one p q token hp hq := by
    rcases hheld p token hp with ⟨hold, -⟩ | ⟨rfl, hnew⟩
    · rcases hheld q token hq with ⟨hold', -⟩ | ⟨rfl, hnew⟩
      · exact hf (h.one _ _ _ hold hold')
      · exact absurd (h.known _ _ hold) (hfresh.not_known hnew)
    · rcases hheld q token hq with ⟨hold, -⟩ | ⟨rfl, -⟩
      · exact absurd (h.known _ _ hold) (hfresh.not_known hnew)
      · rfl
  known p token hp := by
    rcases hheld p token hp with ⟨hp, -⟩ | ⟨-, hp⟩
    · exact (h.known _ _ hp).concat l
    · rw [Known, brought_concat, hp]
      exact .inl (List.mem_append_right _ (List.mem_singleton_self _))
  unspent p token hp := by
    rw [redeemed_concat, List.mem_append, not_or]
    rcases hheld p token hp with ⟨hp, hne⟩ | ⟨-, hp⟩
    · exact ⟨h.unspent _ _ hp, fun hmem => hne (Option.mem_toList.mp hmem)⟩
    · have hunknown := hfresh.not_known hp
      refine ⟨fun hmem => hunknown (h.spent _ hmem), fun hmem => ?_⟩
      obtain ⟨q, hq⟩ := hredeems token (Option.mem_toList.mp hmem)
      exact hunknown (h.known q token hq)
  spent token hmem := by
    rw [redeemed_concat] at hmem
    rcases List.mem_append.mp hmem with hmem | hmem
    · exact (h.spent token hmem).concat l
    · obtain ⟨q, hq⟩ := hredeems token (Option.mem_toList.mp hmem)
      exact (h.known q token hq).concat l
  once := by
    rw [redeemed_concat]
    cases hl : redemptionOf l with
    | none => simpa using h.once
    | some token =>
      obtain ⟨q, hq⟩ := hredeems token hl
      exact h.once.append (List.nodup_singleton _) (by simpa using h.unspent q token hq)

/-! ### What an operation leaves with its holders -/

variable {a : Act}

theorem live_frame {r : a.Answer} (h : StateRoot.exec t a r s = some s') (hslot : a.changes ≠ some slot) :
    s'.live slot = s.live slot := by
  obtain ⟨-, hrow, hsecrets⟩ := exec_frame h hslot
  rw [StateRoot.live, StateRoot.live, hrow]
  simp only [hsecrets]

theorem held_slot_frame {r : a.Answer} (h : StateRoot.exec t a r s = some s') (hslot : a.changes ≠ some slot) :
    held (trace ++ [.act t a r]) s' (.slot slot) = held trace s (.slot slot) := by
  simp only [held, window_concat, window_frame hslot, live_frame h hslot]

theorem held_thread_of_ne {t' : ι} (hne : l.thread ≠ t') :
    held (trace ++ [l]) s' (.thread t') = held trace s (.thread t') := by
  simp only [held, callHistory_concat, CallHistory.note_of_ne _ hne]

/-- The operation changes what its thread brings. -/
def Act.Bears : (a : Act) → a.Answer → Prop
  | .grant _ _, .ok _ | .putMany _ _, .ok () => True
  | _, _ => False

theorem held_thread_of_not_bears {r : a.Answer} (h : ¬a.Bears r) :
    held (trace ++ [.act t a r]) s' (.thread t) = held trace s (.thread t) := by
  have hbearing : ((callHistory t trace).add a r).bearing = (callHistory t trace).bearing := by
    cases a <;> rcases r with code | found <;> first | rfl | exact absurd trivial h
  simp only [held, callHistory_concat, CallHistory.note, if_true, hbearing]

/-- An operation that leaves every holder as it is. -/
theorem Owned.leave {r : a.Answer} (h : Owned root trace s) (hexec : StateRoot.exec t a r s = some s')
    (hbears : ¬a.Bears r)
    (hslot : ∀ slot, a.changes = some slot → held (trace ++ [.act t a r]) s' (.slot slot) = held trace s (.slot slot)) :
    Owned root (trace ++ [.act t a r]) s' := by
  have hsame : ∀ p, held (trace ++ [.act t a r]) s' p = held trace s p := by
    rintro (slot | t')
    · by_cases hchanges : a.changes = some slot
      · exact hslot slot hchanges
      · exact held_slot_frame hexec hchanges
    · by_cases ht : t = t'
      · subst ht
        exact held_thread_of_not_bears hbears
      · exact held_thread_of_ne ht
  have hredemption : redemptionOf (.act t a r : Step ι) = none := by
    cases a <;> rcases r with code | found <;> first | rfl | exact absurd trivial hbears
  have hbrings : bringsOf (.act t a r : Step ι) = none := by
    cases a <;> rcases r with code | found <;> first | rfl | exact absurd trivial hbears
  refine h.step (f := id) Function.injective_id ?_ ?_ ?_
  · rintro token htoken
    rw [hbrings] at htoken
    cases htoken
  · intro p token hp
    rw [hsame] at hp
    exact .inl ⟨hp, by rw [hredemption]; nofun⟩
  · rw [hredemption]
    nofun

omit [DecidableEq ι] in
theorem RenewsEach.of_append {pre post : List (Step ι)} (h : RenewsEach root (pre ++ post)) : RenewsEach root pre where
  start := h.start
  each pre' l post' hpre := h.each pre' l (post' ++ post) (by simp [hpre])

omit [DecidableEq ι] in
theorem RenewsEach.last (h : RenewsEach root (trace ++ [l])) : Carries l ∧ GivesBack trace l ∧ Fresh root trace l :=
  h.each trace l [] rfl

/-- Every grant has brought a refresh token. -/
theorem RenewsEach.not_omitted (h : RenewsEach root trace) : ¬(view t slot trace s).Omitted := by
  rintro ⟨slot', refresh, minted, hmem, hnone⟩
  obtain ⟨pre, post, rfl⟩ := List.append_of_mem ((callHistory_sound t trace).1 _ hmem)
  exact (h.each pre _ post rfl).1 hnone

variable {r : Except ErrorCode Unit}

theorem owned_store {token : PersistedSecretToken} (h : Owned root trace s) (hrenews : RenewsEach root trace)
    (hconduct : conduct t (.storeSecretToken slot token) r trace s)
    (hexec : StateRoot.exec t (.storeSecretToken slot token) r s = some s') :
    Owned root (trace ++ [.act t (.storeSecretToken slot token) r]) s' := by
  refine h.leave hexec (by cases r <;> exact id) ?_
  rintro _ ⟨⟩
  rcases r with code | ⟨⟩
  · cases hexec
    simp only [held, window_concat]
    rfl
  have hclosed : window slot (trace ++ [.act t (.storeSecretToken slot token) (.ok ())]) = .closed := by
    rw [window_concat]
    exact if_pos rfl
  cases hexec
  have hlive : StateRoot.live { s with credentialRecords := s.credentialRecords.insert slot token.record } slot =
      s.secrets.get (slot, refreshField token.secretHandle) := by
    simp [StateRoot.live, StateRoot.loadSecretToken, PersistedSecretToken.record, CredentialRecord.token]
  simp only [held, hclosed, hlive]
  obtain ⟨-, -, -, hpersists | hinvalidates⟩ := hconduct
  · obtain ⟨fields, refresh, hwindow, hrefresh | ⟨-, homitted⟩⟩ := hpersists.window
    · replace hwindow : window slot trace = .landed fields refresh := hwindow
      rw [hwindow]
      exact hrefresh
    · exact absurd homitted hrenews.not_omitted
  · have hwindow : window slot trace = .closed := hinvalidates.window
    obtain ⟨self, lease, row, -, hrow, -, -, htoken⟩ := hinvalidates.lease
    replace hrow : s.loadSecretToken slot = some row := hrow
    rw [hwindow, htoken]
    simp [StateRoot.live, hrow]

theorem owned_delete {field : String} (h : Owned root trace s) (hconduct : conduct t (.delete slot field) r trace s)
    (hexec : StateRoot.exec t (.delete slot field) r s = some s') :
    Owned root (trace ++ [.act t (.delete slot field) r]) s' := by
  refine h.leave hexec (by cases r <;> exact id) ?_
  rintro _ ⟨⟩
  obtain ⟨-, -, hcase⟩ := hconduct
  rcases r with code | ⟨⟩
  · cases hexec
    simp only [held, window_concat]
    rfl
  cases hexec
  rcases hcase with ⟨-, fields, hwindow⟩ | hdiscards
  · replace hwindow : window slot trace = .landed fields none := hwindow
    have hwindow' : window slot (trace ++ [.act t (.delete slot field) (.ok ())]) = .landed (field :: fields) none := by
      rw [window_concat, hwindow]
      exact if_pos rfl
    simp only [held, hwindow, hwindow']
  · have hwindow : window slot trace = .closed := hdiscards.window
    have hwindow' : window slot (trace ++ [.act t (.delete slot field) (.ok ())]) = .closed := by
      rw [window_concat, hwindow]
      exact if_pos rfl
    obtain ⟨self, lease, row, copy, -, -, -, hcopy, -, hrow, rfl⟩ := hdiscards.lease
    replace hrow : s.loadSecretToken slot = some copy.record.token := hrow
    have hlive : ∀ s' : StateRoot ι, s'.loadSecretToken slot = some copy.record.token →
        s'.live slot = s'.secrets.get (slot, refreshField row.secretHandle) := by
      intro s' hs'
      rw [StateRoot.live, hs', hcopy]
      rfl
    have hne : (slot, refreshField row.secretHandle) ≠ (slot, row.secretHandle) :=
      fun heq => refreshField_ne _ (congrArg Prod.snd heq)
    simp only [held, hwindow, hwindow']
    have hgone := hlive { s with secrets := s.secrets.erase (slot, row.secretHandle) } hrow
    rw [hgone, hlive s hrow]
    exact Table.get_erase_of_ne _ hne

theorem owned_lock (h : Owned root trace s) (hheld : Held trace s)
    (hexec : StateRoot.exec t (.lock slot) r s = some s') :
    Owned root (trace ++ [.act t (.lock slot) r]) s' := by
  refine h.leave hexec (by cases r <;> exact id) ?_
  rintro _ ⟨⟩
  rcases r with code | ⟨⟩
  · cases hexec
    simp only [held, window_concat]
    rfl
  simp only [StateRoot.exec] at hexec
  split_ifs at hexec with hfree
  cases hexec
  have hwindow : window slot trace = .closed := by
    by_contra hne
    exact hheld slot hne hfree
  have hwindow' : window slot (trace ++ [.act t (.lock slot) (.ok ())]) = .closed := by
    rw [window_concat]
    exact if_pos rfl
  simp only [held, hwindow, hwindow']
  rfl

theorem owned_unlock {r : Unit} (h : Owned root trace s) (hwindow : window slot trace = .closed)
    (hexec : StateRoot.exec t (.unlock slot) r s = some s') : Owned root (trace ++ [.act t (.unlock slot) r]) s' := by
  refine h.leave hexec id ?_
  rintro _ ⟨⟩
  have hwindow' : window slot (trace ++ [.act t (.unlock slot) r]) = .closed := by
    rw [window_concat]
    exact if_pos rfl
  simp only [held, hwindow, hwindow']
  simp only [StateRoot.exec] at hexec
  split_ifs at hexec <;> cases hexec <;> rfl

theorem owned_putMany {fields : List (String × Bytes)} (h : Owned root trace s)
    (hrenews : RenewsEach root trace) (hconduct : conduct t (.putMany slot fields) r trace s)
    (hexec : StateRoot.exec t (.putMany slot fields) r s = some s') :
    Owned root (trace ++ [.act t (.putMany slot fields) r]) s' := by
  rcases r with code | ⟨⟩
  · refine h.leave hexec id ?_
    rintro _ ⟨⟩
    cases hexec
    simp only [held, window_concat]
    rfl
  obtain ⟨-, -, hputs⟩ := hconduct
  obtain ⟨self, minted, token, hbearing, rfl, htoken⟩ := hputs.token
  replace hbearing : (callHistory t trace).bearing = some minted := hbearing
  obtain rfl : token = minted := htoken.resolve_right fun homits => hrenews.not_omitted homits.2
  have hslot : held (trace ++ [.act t (.putMany slot (self.fieldsOf token)) (.ok ())]) s' (.slot slot) =
      held trace s (.thread t) := by
    have hwindow : window slot (trace ++ [.act t (.putMany slot (self.fieldsOf token)) (.ok ())]) =
        .landed ((self.fieldsOf token).map Prod.fst) (token.refreshToken.map utf8) := by
      rw [window_concat]
      cases hrefresh : token.refreshToken <;> simp
        [Window.note, Window.noteAct, OAuthCredentialProvider.fieldsOf, hrefresh]
    simp only [held, hwindow, hbearing, Option.bind_some]
  have hthread : held (trace ++ [.act t (.putMany slot (self.fieldsOf token)) (.ok ())]) s' (.thread t) = none := by
    simp only [held, callHistory_concat, CallHistory.note, if_true]
    rfl
  refine h.step (Equiv.swap (.slot slot) (.thread t)).injective (by rintro _ ⟨⟩)
    (fun p value hp => .inl ⟨?_, by rintro ⟨⟩⟩) (by rintro _ ⟨⟩)
  · rcases p with slot' | t'
    · by_cases heq : slot' = slot
      · subst heq
        rw [Equiv.swap_apply_left, ← hslot]
        exact hp
      · have hswap : Equiv.swap (Place.slot slot) (.thread t) (.slot slot') = .slot slot' :=
          Equiv.swap_apply_of_ne_of_ne (by simpa using heq) (by simp)
        rw [hswap]
        rwa [held_slot_frame hexec (by simpa [Act.changes] using Ne.symm heq)] at hp
    · by_cases heq : t' = t
      · subst heq
        rw [hthread] at hp
        cases hp
      · have hswap : Equiv.swap (Place.slot slot) (.thread t) (.thread t') = .thread t' :=
          Equiv.swap_apply_of_ne_of_ne (by simp) (by simpa using heq)
        rw [hswap]
        rwa [held_thread_of_ne (Ne.symm heq)] at hp

theorem owned_grant {refresh : String} {r : Except ErrorCode MintedToken} (h : Owned root trace s)
    (hfresh : Fresh root trace (.act t (.grant slot refresh) r)) (hconduct : conduct t (.grant slot refresh) r trace s)
    (hexec : StateRoot.exec t (.grant slot refresh) r s = some s') :
    Owned root (trace ++ [.act t (.grant slot refresh) r]) s' := by
  rcases r with code | minted
  · refine h.leave hexec id ?_
    rintro _ ⟨⟩
    cases hexec
    simp only [held, window_concat]
    rfl
  obtain ⟨-, -, hclosed, row, hrow, hrefresh⟩ := hconduct
  replace hclosed : window slot trace = .closed := hclosed
  replace hrow : s.loadSecretToken slot = some row := hrow
  have hlive : held trace s (.slot slot) = some (utf8 refresh) := by
    simp only [held, hclosed, StateRoot.live, hrow, Option.bind_some]
    exact hrefresh
  have hslot : held (trace ++ [.act t (.grant slot refresh) (.ok minted)]) s' (.slot slot) = none := by
    have hgranted : window slot (trace ++ [.act t (.grant slot refresh) (.ok minted)]) = .granted := by
      rw [window_concat]
      exact if_pos rfl
    simp only [held, hgranted]
  have hthread : held (trace ++ [.act t (.grant slot refresh) (.ok minted)]) s' (.thread t) =
      bringsOf (.act t (.grant slot refresh) (.ok minted) : Step ι) := by
    simp only [held, callHistory_concat, CallHistory.note, if_true]
    rfl
  refine h.step (f := id) Function.injective_id hfresh ?_ ?_
  · rintro (slot' | t') value hp
    · by_cases heq : slot' = slot
      · subst heq
        rw [hslot] at hp
        cases hp
      · rw [held_slot_frame hexec (by simpa [Act.changes] using Ne.symm heq)] at hp
        refine .inl ⟨hp, fun hvalue => heq ?_⟩
        cases hvalue
        cases h.one _ _ _ hp hlive
        rfl
    · by_cases heq : t' = t
      · subst heq
        exact .inr ⟨rfl, hthread.symm.trans hp⟩
      · rw [held_thread_of_ne (Ne.symm heq)] at hp
        refine .inl ⟨hp, fun hvalue => ?_⟩
        cases hvalue
        cases h.one _ _ _ hp hlive
  · rintro _ ⟨⟩
    exact ⟨_, hlive⟩

/-- A step that does nothing to the state brings what its call registers. -/
theorem owned_silent (h : Owned root trace s) (hl : l.Silent) (hfresh : Fresh root trace l) :
    Owned root (trace ++ [l]) s := by
  have hwindow : ∀ slot, window slot (trace ++ [l]) = window slot trace := by
    intro slot
    rw [window_concat]
    cases l with
    | act t a r => exact hl.elim
    | _ => rfl
  have hredemption : redemptionOf l = none := by
    cases l with
    | act t a r => exact hl.elim
    | _ => rfl
  refine h.step (f := id) Function.injective_id hfresh ?_ (by rw [hredemption]; rintro _ ⟨⟩)
  · rintro (slot | t) token hp
    · refine .inl ⟨?_, by rw [hredemption]; rintro ⟨⟩⟩
      simp only [held, hwindow] at hp
      exact hp
    · by_cases ht : l.thread = t
      · subst ht
        cases l with
        | call t op =>
          refine .inr ⟨rfl, ?_⟩
          simp only [held, callHistory_concat, CallHistory.note, Event.thread, if_true] at hp
          exact hp
        | act t a r => exact hl.elim
        | left t =>
          rw [held, callHistory_concat] at hp
          exact .inl ⟨hp, by rintro ⟨⟩⟩
        | right t =>
          rw [held, callHistory_concat] at hp
          exact .inl ⟨hp, by rintro ⟨⟩⟩
      · rw [held_thread_of_ne ht] at hp
        exact .inl ⟨hp, by rw [hredemption]; rintro ⟨⟩⟩

theorem owned_of_run {threads : Threads ι (StateRoot ι) Act.Answer} (h : Runs root trace threads)
    (hrenews : RenewsEach root trace) : Owned root trace threads.shared := by
  refine (Pledge.invariant_of_run (C := fun pre _ l => RenewsEach root (pre ++ [l]))
    (I := fun trace s => Held trace s ∧ Owned root trace s) Op.keeps ?_ ?_ ?_ h ?_).2
  · refine ⟨fun _ hne => absurd rfl hne, ?_, ?_, fun _ _ _ => List.not_mem_nil, nofun, List.nodup_nil⟩
    · rintro (slot | t) (slot' | t') token hp hq
      · rw [hrenews.start slot slot' token hp hq]
      · cases hq
      · cases hp
      · cases hp
    · rintro (slot | t) token hp
      · exact .inr ⟨slot, hp⟩
      · cases hp
  · rintro trace s l hl ⟨hheld, howned⟩ hrenews
    exact ⟨hheld.silent hl, owned_silent howned hl hrenews.last.2.2⟩
  · rintro trace s t a r s' ⟨hheld, howned⟩ hconduct hrenews hexec
    refine ⟨hheld.act hconduct hexec, ?_⟩
    obtain ⟨-, hgives, hfresh⟩ := hrenews.last
    cases a with
    | storeSecretToken slot token => exact owned_store howned hrenews.of_append hconduct hexec
    | putMany slot fields => exact owned_putMany howned hrenews.of_append hconduct hexec
    | delete slot field => exact owned_delete howned hconduct hexec
    | lock slot => exact owned_lock howned hheld hexec
    | unlock slot => exact owned_unlock howned hgives hexec
    | grant slot refresh => exact owned_grant howned hfresh hconduct hexec
    | _ => exact howned.leave hexec (by cases r <;> exact id) (by nofun)
  · rintro pre l post s₁ rfl _
    rw [← List.singleton_append, ← List.append_assoc] at hrenews
    exact hrenews.of_append

/-! ### The main result -/

/-- The epochs of a slot ascend, an invalidation touches only the generation of its lease, and no refresh token is
redeemed twice where each that is brought is new and what is begun is committed. -/
theorem rejected_token_spares_successor {threads : Threads ι (StateRoot ι) Act.Answer} (h : Runs root trace threads)
    (hfits : EpochsFit trace) : Spares root trace ∧ (RenewsEach root trace → (redeemed trace).Nodup) :=
  ⟨spares_of_run h hfits, fun hrenews => (owned_of_run h hrenews).once⟩

/-! ### Runs -/

/-- A state root with nothing in it. -/
def StateRoot.fresh : StateRoot Bool := ⟨.empty, .empty, .empty⟩

/-- A trace that can be executed is one of a run. -/
theorem run_of_exec {trace : List (Step Bool)}
    (h : (trace.foldlM (fun (s : Threads Bool (StateRoot Bool) Act.Answer) l =>
    s.step StateRoot.exec (fun op => op.routine.thread) l) (.idle .fresh)).any (fun _ => true) = true) :
    ∃ threads, Runs .fresh trace threads := by
  obtain ⟨threads, hrun, -⟩ : ∃ threads, Runs .fresh trace threads ∧ true = true := by
    refine Run.of_any ?_ ?_ h
    · exact fun _ _ _ hl => hl
    · rfl
  exact ⟨threads, hrun⟩

instance (l : Step Bool) : Decidable (Fits l) := by
  unfold Fits
  split <;> infer_instance

instance (trace : List (Step Bool)) : Decidable (EpochsFit trace) := inferInstanceAs (Decidable (∀ l ∈ trace, Fits l))

instance (l : Step Bool) : Decidable (Carries l) := by
  unfold Carries
  split <;> infer_instance

instance (pre : List (Step Bool)) (l : Step Bool) : Decidable (GivesBack pre l) := by
  unfold GivesBack
  split <;> infer_instance

theorem fresh_iff {pre : List (Step Bool)} {l : Step Bool} :
    Fresh .fresh pre l ↔ ∀ token ∈ (bringsOf l).toList, token ∉ brought pre := by
  simp [Fresh, StateRoot.live, StateRoot.fresh, StateRoot.loadSecretToken]

/-- A persist of the tokens of an `idp` for `ann`, under the row with the next epoch. -/
def persists (t : Bool) (access refresh : String) (expiresAt : Option SystemTime) (epoch : ℕ) : List (Step Bool) :=
  [.act t (.putMany ("s3", "ann") [("oauth/idp", utf8 access), ("oauth/idp/refresh", utf8 refresh)]) (.ok ()),
    .act t .maxSecretCredEpoch (.ok epoch),
    .act t (.storeSecretToken ("s3", "ann")
      ⟨epoch + 1, expiresAt.map fun time => (time.val : ℤ), "oauth/idp", "idp"⟩) (.ok ()),
    .act t (.unlock ("s3", "ann")) ()]

/-- A registration. -/
def registers (t : Bool) (access refresh : String) (expiresAt : Option SystemTime) (epoch : ℕ) : List (Step Bool) :=
  [.call t (.accept ⟨"idp", "s3"⟩ ("s3", "ann") (utf8 access) (some (utf8 refresh)) expiresAt),
    .act t (.lock ("s3", "ann")) (.ok ())] ++ persists t access refresh expiresAt epoch ++
  [.act t (.finish (.accepted ("s3", "ann") (.ok ()))) ()]

/-- A resolution that redeems a refresh token, since the row has expired. -/
def refreshes (t : Bool) (found : Option Bytes) (redeemed access refresh : String) (expiresAt : Option SystemTime)
    (epoch : ℕ) :
    List (Step Bool) :=
  [.call t (.resolve ⟨"idp", "s3"⟩ ("s3", "ann")),
    .act t (.loadSecretToken ("s3", "ann")) (.ok (some ⟨epoch, some 0, "oauth/idp", "idp"⟩)),
    .act t (.get ("s3", "ann") "oauth/idp") (.ok found),
    .act t .now 0,
    .act t (.lock ("s3", "ann")) (.ok ()),
    .act t (.loadSecretToken ("s3", "ann")) (.ok (some ⟨epoch, some 0, "oauth/idp", "idp"⟩)),
    .act t (.get ("s3", "ann") "oauth/idp") (.ok found),
    .act t (.get ("s3", "ann") "oauth/idp/refresh") (.ok (some (utf8 redeemed))),
    .act t .now 0,
    .act t (.grant ("s3", "ann") redeemed) (.ok ⟨access, some refresh, expiresAt⟩)] ++
  persists t access refresh expiresAt epoch ++
  [.act t (.finish (.resolved ("s3", "ann") (.ok ⟨utf8 access, some (utf8 refresh), expiresAt, "idp"⟩))) ()]

/-- A rejected token is invalidated through its lease, and its refresh token brings the next. -/
def rejection : List (Step Bool) :=
  registers false "A1" "R1" none 0 ++
  [.call true (.lease ⟨"idp", "s3"⟩ ("s3", "ann")),
    .act true (.loadSecretToken ("s3", "ann")) (.ok (some ⟨1, none, "oauth/idp", "idp"⟩)),
    .act true (.get ("s3", "ann") "oauth/idp") (.ok (some (utf8 "A1"))),
    .act true (.finish (.leased ("s3", "ann") (.ok ⟨"oauth/idp", 1⟩))) (),
    .call true (.invalidate ⟨"idp", "s3"⟩ ("s3", "ann") ⟨"oauth/idp", 1⟩),
    .act true (.lock ("s3", "ann")) (.ok ()),
    .act true (.loadSecretToken ("s3", "ann")) (.ok (some ⟨1, none, "oauth/idp", "idp"⟩)),
    .act true .maxSecretCredEpoch (.ok 1),
    .act true (.storeSecretToken ("s3", "ann") ⟨2, some 0, "oauth/idp", "idp"⟩) (.ok ()),
    .act true (.delete ("s3", "ann") "oauth/idp") (.ok ()),
    .act true (.unlock ("s3", "ann")) (),
    .act true (.finish (.invalidated ("s3", "ann") ⟨"oauth/idp", 1⟩ (.ok true))) ()] ++
  refreshes false none "R1" "A2" "R2" none 2

theorem rejected_token_spares_successor_witness :
    ∃ threads, Runs .fresh rejection threads ∧ RenewsEach .fresh rejection ∧
    redeemed rejection = [utf8 "R1"] ∧ Spares .fresh rejection ∧ (redeemed rejection).Nodup := by
  obtain ⟨threads, hrun⟩ : ∃ threads, Runs .fresh rejection threads := run_of_exec (by decide +kernel)
  have hfits : EpochsFit rejection := by decide +kernel
  have hrenews : RenewsEach .fresh rejection := by
    refine ⟨fun _ _ _ => nofun, List.forall_split_iff.mpr ?_⟩
    simp only [fresh_iff]
    decide +kernel
  have hspares := rejected_token_spares_successor hrun hfits
  exact ⟨threads, hrun, hrenews, by decide +kernel, hspares.1, hspares.2 hrenews⟩

/-- The refresh token that a grant is answered with has not been there before. -/
def GrantFresh (pre : List (Step Bool)) : Step Bool → Prop
  | .act _ (.grant _ _) (.ok minted) => ∀ token ∈ minted.refreshToken.toList, utf8 token ∉ brought pre
  | _ => True

instance (pre : List (Step Bool)) (l : Step Bool) : Decidable (GrantFresh pre l) := by
  unfold GrantFresh
  split <;> infer_instance

/-- A refresh token that is registered again is redeemed again. -/
theorem refresh_token_redeemed_twice :
    ∃ (trace : List (Step Bool)) (threads : Threads Bool (StateRoot Bool) Act.Answer),
    Runs .fresh trace threads ∧ EpochsFit trace ∧
      (∀ pre l post, trace = pre ++ l :: post → Carries l ∧ GrantFresh pre l ∧ GivesBack pre l) ∧
        ¬(redeemed trace).Nodup := by
  let trace := registers false "A1" "R1" (some 0) 0 ++ refreshes true (some (utf8 "A1")) "R1" "A2" "R2" none 1 ++
    registers false "A1" "R1" (some 0) 2 ++ refreshes true (some (utf8 "A1")) "R1" "A3" "R3" none 3
  obtain ⟨threads, hrun⟩ : ∃ threads, Runs .fresh trace threads := run_of_exec (by decide +kernel)
  refine ⟨trace, threads, hrun, by decide +kernel, List.forall_split_iff.mpr ?_, by decide +kernel⟩
  decide +kernel

end OvStorage.OAuth
