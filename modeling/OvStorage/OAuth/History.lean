import OvStorage.OAuth.Provider

/-!
# What a run has done

The parts of a run that the results about the provider speak of, as functions of its trace: the state
it leads to (`after`), the rows that were committed (`committed`), the credentials that were minted or
registered together (`generations`), what a thread has done since its call began (`CallHistory`), and
how far the holder of a slot's guard is with a change (`Window`).
-/

namespace OvStorage.OAuth

open Address Interleave

variable {ι : Type} [DecidableEq ι]

/-! ### The state -/

/-- What a step does to the state root. -/
def effect (root : StateRoot ι) : Step ι → StateRoot ι
  | .act t a r => (StateRoot.exec t a r root).getD root
  | _ => root

/-- The state root after a run. -/
def after (root : StateRoot ι) (trace : List (Step ι)) : StateRoot ι := trace.foldl effect root

theorem after_concat (root : StateRoot ι) (trace : List (Step ι)) (l : Step ι) :
    after root (trace ++ [l]) = effect (after root trace) l := List.foldl_concat ..

theorem effect_act {root root' : StateRoot ι} {t : ι} {a : Act} {r : a.Answer}
    (h : StateRoot.exec t a r root = some root') :
    effect root (.act t a r) = root' := by
  rw [effect, h, Option.getD_some]

theorem Runs.shared_eq {root : StateRoot ι} {trace : List (Step ι)} {s : Threads ι (StateRoot ι) Act.Answer}
    (h : Runs root trace s) : s.shared = after root trace := by
  refine h.invariant (I := fun trace s => s.shared = after root trace) ?_ ?_
  · rintro s rfl
    rfl
  · intro trace s l s' _ ih hstep
    rw [after_concat, ← ih]
    cases l with
    | act t a r => exact (effect_act (Threads.exec_of_step hstep)).symm
    | _ => exact Threads.shared_of_silent (by trivial) hstep

/-! ### Rows and credentials -/

/-- The row that a step commits. -/
def commitOf (slot : Slot) : Step ι → Option PersistedSecretToken
  | .act _ (.storeSecretToken slot' token) (.ok ()) => if slot' = slot then some token else none
  | _ => none

/-- The rows that were committed for a slot, in their order. -/
def committed (slot : Slot) (trace : List (Step ι)) : List PersistedSecretToken := trace.filterMap (commitOf slot)

/-- An access token, the refresh token beside it, and when it expires. -/
structure Generation where
  access : Bytes
  refresh : Option Bytes
  expiresAt : Option SystemTime
deriving DecidableEq

/-- The token as it is registered or minted, a refresh token that is omitted being the one that was redeemed. -/
def MintedToken.generation (token : MintedToken) (redeemed : Option String) : Generation :=
  ⟨utf8 token.accessToken, (token.refreshToken.or redeemed).map utf8, token.expiresAt⟩

def ResolvedCredential.generation (credential : ResolvedCredential) : Generation :=
  ⟨credential.token, credential.refresh, credential.expiresAt⟩

/-- The token that a call registers. -/
def Op.registers : Op → Option MintedToken
  | .accept _ _ accessToken refreshToken expiresAt =>
    (OAuthCredentialProvider.registered accessToken refreshToken expiresAt).toOption
  | _ => none

/-- What a step mints or registers. -/
def generationOf : Step ι → Option Generation
  | .call _ op => op.registers.map fun token => token.generation none
  | .act _ (.grant _ refresh) (.ok minted) => some (minted.generation (some refresh))
  | _ => none

/-- The credentials that were minted or registered. -/
def generations (trace : List (Step ι)) : List Generation := trace.filterMap generationOf

/-! ### What the threads have done -/

/-- What a thread has read of a credential. -/
structure Seen where
  slot : Slot
  row : PersistedSecretToken
  access : Option Bytes
  refresh : Option (Option Bytes)

/-- A read of a secret, after a row; the refresh token counts if it is read behind the access token. -/
def Seen.note (seen : Seen) (slot : Slot) (field : String) (found : Option Bytes) : Seen :=
  if slot = seen.slot ∧ field = seen.row.secretHandle then { seen with access := found, refresh := none }
  else if slot = seen.slot ∧ field = refreshField seen.row.secretHandle then { seen with refresh := some found }
  else seen

/-- What a thread has done since its call began. -/
structure CallHistory where
  op : Option Op
  acts : List (Sigma Act.Answer)
  /-- The token that it brings, until it is put. -/
  bearing : Option MintedToken
  minted : List Generation
  seen : Option Seen
  /-- It has written. -/
  wrote : Bool
  /-- It has committed a row. -/
  stored : Bool

/-- What an operation of the thread adds. -/
def CallHistory.noteAct (h : CallHistory) : (a : Act) → a.Answer → CallHistory
  | .loadSecretToken slot, .ok found => { h with seen := found.map fun row => ⟨slot, row, none, none⟩ }
  | .get slot field, .ok found => { h with seen := h.seen.map fun seen => seen.note slot field found }
  | .grant _ refresh, .ok minted =>
    { h with bearing := some minted, minted := minted.generation (some refresh) :: h.minted }
  | .putMany _ _, .ok () => { h with bearing := none, wrote := true }
  | .delete _ _, .ok () => { h with wrote := true }
  | .storeSecretToken _ _, .ok () => { h with wrote := true, stored := true }
  | _, _ => h

def CallHistory.add (h : CallHistory) (a : Act) (r : a.Answer) : CallHistory :=
  { h.noteAct a r with acts := ⟨a, r⟩ :: h.acts }

/-- What a call begins with. -/
def Op.begins (op : Op) : CallHistory :=
  ⟨some op, [], op.registers, (op.registers.map fun token => token.generation none).toList, none, false, false⟩

/-- What a step adds. -/
def CallHistory.note (t : ι) (h : CallHistory) : Step ι → CallHistory
  | .call t' op =>
    if t' = t then op.begins else h
  | .act t' a r => if t' = t then h.add a r else h
  | _ => h

/-- What the thread has done since its call began. -/
def callHistory (t : ι) (trace : List (Step ι)) : CallHistory :=
  trace.foldl (.note t) ⟨none, [], none, [], none, false, false⟩

theorem callHistory_concat (t : ι) (trace : List (Step ι)) (l : Step ι) :
    callHistory t (trace ++ [l]) = (callHistory t trace).note t l := List.foldl_concat ..

theorem CallHistory.note_of_ne {t : ι} {l : Step ι} (h : CallHistory) (hl : l.thread ≠ t) : h.note t l = h := by
  cases l with
  | call t' op => exact if_neg hl
  | act t' a r => exact if_neg hl
  | _ => rfl

/-! ### Where a slot is in a change -/

/-- How far the holder of the guard of a slot is: a refresh token is redeemed, or fields are written, and the row is yet
to be committed. -/
inductive Window
  | closed
  | granted
  | landed (fields : List String) (refresh : Option Bytes)
deriving DecidableEq

/-- An operation on the slot. -/
def Window.noteAct (slot : Slot) (w : Window) : (a : Act) → a.Answer → Window
  | .grant slot' _, .ok _ => if slot' = slot then .granted else w
  | .putMany slot' fields, .ok () =>
    if slot' = slot then .landed (fields.map Prod.fst) ((fields.drop 1).head?.map Prod.snd) else w
  | .delete slot' field, .ok () =>
    if slot' = slot then
      match w with
      | .landed fields refresh => .landed (field :: fields) refresh
      | _ => w
    else w
  | .storeSecretToken slot' _, .ok () | .lock slot', .ok () => if slot' = slot then .closed else w
  | .unlock slot', () => if slot' = slot then .closed else w
  | _, _ => w

def Window.note (slot : Slot) (w : Window) : Step ι → Window
  | .act _ a r => w.noteAct slot a r
  | _ => w

def window (slot : Slot) (trace : List (Step ι)) : Window := trace.foldl (.note slot) .closed

omit [DecidableEq ι] in
theorem window_concat (slot : Slot) (trace : List (Step ι)) (l : Step ι) :
    window slot (trace ++ [l]) = (window slot trace).note slot l := List.foldl_concat ..

/-! ### The trace that they are part of -/

omit [DecidableEq ι] in
theorem CallHistory.add_minted {h : CallHistory} {t : ι} {a : Act} {r : a.Answer} :
    (h.add a r).minted = (generationOf (.act t a r : Step ι)).toList ++ h.minted := by
  cases a <;> cases r <;> rfl

omit [DecidableEq ι] in
theorem generations_concat (trace : List (Step ι)) (l : Step ι) :
    generations (trace ++ [l]) = generations trace ++ (generationOf l).toList := by
  rw [generations, List.filterMap_append]
  cases h : generationOf l <;> simp [generations, h]

/-- What a thread has done and minted is part of the run. -/
theorem callHistory_sound (t : ι) (trace : List (Step ι)) :
    (∀ x ∈ (callHistory t trace).acts, .act t x.1 x.2 ∈ trace) ∧ ∀ g ∈ (callHistory t trace).minted,
      g ∈ generations trace := by
  induction trace using List.reverseRecOn with
  | nil => exact ⟨nofun, nofun⟩
  | append_singleton trace l ih =>
    obtain ⟨hacts, hminted⟩ := ih
    have hacts' : ∀ x ∈ (callHistory t trace).acts, .act t x.1 x.2 ∈ trace ++ [l] :=
      fun x hx => List.mem_append_left _ (hacts x hx)
    have hminted' : ∀ g ∈ (callHistory t trace).minted, g ∈ generations (trace ++ [l]) := fun g hg => by
      rw [generations_concat]
      exact List.mem_append_left _ (hminted g hg)
    rw [callHistory_concat]
    cases l with
    | call t' op =>
      by_cases ht : t' = t
      · simp only [CallHistory.note, ht, if_true]
        refine ⟨nofun, fun g hg => ?_⟩
        rw [generations_concat]
        exact List.mem_append_right _ hg
      · simpa only [CallHistory.note, ht, if_false] using And.intro hacts' hminted'
    | act t' a r =>
      by_cases ht : t' = t
      · subst ht
        simp only [CallHistory.note, if_true]
        constructor
        · intro x hx
          rcases List.mem_cons.mp hx with rfl | hx
          · exact List.mem_append_right _ (List.mem_singleton_self _)
          · exact hacts' x hx
        · intro g hg
          rw [CallHistory.add_minted (t := t')] at hg
          rcases List.mem_append.mp hg with hg | hg
          · rw [generations_concat]
            exact List.mem_append_right _ hg
          · exact hminted' g hg
      · simpa only [CallHistory.note, ht, if_false] using And.intro hacts' hminted'
    | _ => exact ⟨hacts', hminted'⟩

end OvStorage.OAuth
