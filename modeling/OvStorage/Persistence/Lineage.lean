import OvStorage.Persistence.Registry

/-!
# Who touches a lineage

What a call of a claim does, by the rules of `Routine`: `Allows` says which step it may take after those it
has taken, and `follows` that it takes no other. A write or a delete that is past its first check
(`PastFirstCheck`) is the only one on its slot (`sole_of_run`), so what it has written is what is stored
(`written_of_wrote`).

`sole_claimants` is what holds of every run in which the counters of the registry count. What does not hold
is in `claims_do_not_tell`.
-/

namespace OvStorage.Persistence

open Function List

open Address (Bytes utf8)
open Interleave Layer

/-! ### What a call does -/

/-- A step of a call, with its answer. -/
abbrev Did := Sigma Act.Answer

/-- An exclusivity check that passed. -/
def passed : Did := ⟨.isExclusive, true⟩

def put (field : String) (value : Bytes) : Did := ⟨.secretPut field value, .ok ()⟩

def got (field : String) (found : Option Bytes) : Did := ⟨.secretGet field, .ok found⟩

/-- The call may write or delete. -/
def Op.Mutates : Op → Prop
  | .write _ _ | .delete => True
  | _ => False

/-- The call has passed its first check, and has not come to its end. -/
def Checked (h : History Act.Answer) : Prop :=
  ∃ rest, h = passed :: rest ∧ ∀ outcome, (⟨.finish outcome, ()⟩ : Did) ∉ rest

/-- What `read_bound_refresh_token` gives back of what is stored. -/
def Bound (base64 : Base64) (token binding : Option Bytes) (bound : BoundRefreshToken) : Prop :=
  asRefreshToken token = some bound.refreshToken ∧ binding.bind (IdentityBinding.decode base64) = some bound.binding ∧
    bound.binding.isSpecific = true

/-- What a call may do, after what it has done. -/
def Allows (base64 : Base64) (op : Op) (h : History Act.Answer) : Act → Prop
  | .acquire => op = .acquire
  | .drop => op = .drop
  | .secretPut field value => ∃ token binding, op = .write token binding ∧
      (h = [passed] ∧ field = identityBindingField ∧ value = binding.encode base64 ∨
        h = [passed, put identityBindingField (binding.encode base64)] ∧ field = refreshTokenField ∧ value = utf8 token)
  | .secretDelete _ => op.Mutates ∧ Checked h
  | .finish (.read (.ok (some bound))) => op = .read ∧ ∃ token binding, Bound base64 token binding bound ∧
      h = [passed, got refreshTokenField token, got identityBindingField binding, passed, ⟨.recordAdoption, ()⟩]
  | .finish (.written (.ok ())) => ∃ token binding, op = .write token binding ∧
      h = [passed, put identityBindingField (binding.encode base64), put refreshTokenField (utf8 token), passed]
  | _ => True

open Routine

variable {base64 : Base64} {op : Op} {ok : History Act.Answer → Act → Prop} {h : History Act.Answer} {α : Type}

theorem Checked.concat (hchecked : Checked h) {did : Did} (hdid : ∀ outcome, did ≠ ⟨.finish outcome, ()⟩) :
    Checked (h ++ [did]) := by
  obtain ⟨rest, rfl, hrest⟩ := hchecked
  refine ⟨rest ++ [did], rfl, fun outcome hmem => ?_⟩
  rcases mem_append.mp hmem with hmem | hmem
  · exact hrest outcome hmem
  · exact hdid outcome (mem_singleton.mp hmem).symm

/-! ### The rules for the steps -/

theorem keeps_secretGet {field : String} {post : History Act.Answer → Except Error (Option Bytes) → Prop} :
    Keeps ok post h (secretGet field).run ↔
      ok h (.secretGet field) ∧ ∀ found, post (h ++ [⟨.secretGet field, found⟩]) found := Iff.rfl

variable {value : Bytes}

theorem keeps_secretPut {field : String} {post : History Act.Answer → Except Error Unit → Prop} :
    Keeps ok post h (secretPut field value).run ↔
      ok h (.secretPut field value) ∧ ∀ result, post (h ++ [⟨.secretPut field value, result⟩]) result := Iff.rfl

theorem keeps_attempt {post : History Act.Answer → Except Error (Except Error α) → Prop} {p : Call α} :
    Keeps ok post h (attempt p).run ↔ Keeps ok (fun h result => post h (.ok result)) h p.run := keeps_bind

variable {post : History Act.Answer → Except Error α → Prop}

theorem keeps_throw {e : Error} : Keeps ok post h (throw e : Call α).run ↔ post h (.error e) := Iff.rfl

theorem keeps_return {value : α} : Keeps ok post h (pure value : Call α).run ↔ post h (.ok value) := Iff.rfl

/-! ### The calls -/

theorem keeps_deleteField (hop : op.Mutates) (hchecked : Checked h) (field : String) :
    Keeps (Allows base64 op) (fun h' _ => Checked h') h (deleteField field).run := by
  unfold deleteField
  refine keeps_bindT.mpr (keeps_attempt.mpr ⟨⟨hop, hchecked⟩, fun result => ?_⟩)
  have hafter : Checked (h ++ [⟨.secretDelete field, result⟩]) := hchecked.concat fun _ h => nomatch h
  cases result with
  | ok _ => exact keeps_return.mpr hafter
  | error err =>
    change Keeps _ _ _ (if err.code ≠ .NotFound then throw err else pure () : Call Unit).run
    split_ifs
    · exact keeps_throw.mpr hafter
    · exact keeps_return.mpr hafter

theorem keeps_deleteBoundRefreshToken (hop : op.Mutates) (hchecked : Checked h) :
    Keeps (Allows base64 op) (fun h' _ => Checked h') h deleteBoundRefreshToken.run := by
  unfold deleteBoundRefreshToken deleteRefreshToken
  refine keeps_bindT.mpr (keeps_attempt.mpr ((keeps_deleteField hop hchecked _).imp fun h₁ _ h₁checked => ?_))
  refine keeps_bindT.mpr ((keeps_deleteField hop h₁checked _).imp fun h₂ result h₂checked => ?_)
  cases result with
  | ok _ => exact keeps_ofExcept.mpr h₂checked
  | error err => exact h₂checked

theorem keeps_readRefreshToken (hget : ok h (.secretGet refreshTokenField)) :
    Keeps ok (fun h' result => ∀ token, result = .ok token → ∃ found, token = asRefreshToken found ∧
      h' = h ++ [got refreshTokenField found])
      h readRefreshToken.run := by
  unfold readRefreshToken
  refine keeps_bindT.mpr ⟨hget, fun found => ?_⟩
  cases found with
  | error err => exact fun _ h => nomatch h
  | ok found =>
    rintro _ ⟨⟩
    exact ⟨found, rfl, rfl⟩

/-- What a read has found, and what it gives back of it. -/
theorem keeps_readBoundRefreshToken : Keeps (Allows base64 .read)
    (fun h result => ∀ bound, result = .ok (some bound) → ∃ token binding, Bound base64 token binding bound ∧
      h = [passed, got refreshTokenField token, got identityBindingField binding]) [passed]
        (readBoundRefreshToken base64).run := by
  unfold readBoundRefreshToken
  refine keeps_bindT.mpr ((keeps_readRefreshToken trivial).imp fun h result hread => ?_)
  cases result with
  | error err => exact fun _ h => nomatch h
  | ok refreshToken =>
    obtain ⟨token, htoken, rfl⟩ := hread refreshToken rfl
    cases refreshToken with
    | none => exact fun _ h => nomatch h
    | some refreshToken =>
      refine keeps_bindT.mpr (keeps_secretGet.mpr ⟨trivial, fun found => ?_⟩)
      cases found with
      | error err => exact fun _ h => nomatch h
      | ok found =>
        dsimp only
        cases hdecode : found.bind (IdentityBinding.decode base64) with
        | none => exact keeps_return.mpr fun _ h => nomatch h
        | some binding =>
          refine keeps_return.mpr fun bound hbound => ?_
          split_ifs at hbound with hspecific
          · cases hbound
            exact ⟨token, found, ⟨htoken.symm, hdecode, hspecific⟩, rfl⟩
          · cases hbound

theorem keeps_read : Keeps (Allows base64 .read) (fun _ _ => True) [] (Op.read.routine base64) := by
  unfold Op.routine readClaimedRefreshToken
  refine keeps_bind.mpr (keeps_bindT.mpr ⟨trivial, fun answer => ?_⟩)
  cases answer with
  | false => exact ⟨trivial, fun _ => trivial⟩
  | true =>
    dsimp only [Bool.not_true, Bool.false_eq_true, if_false]
    refine keeps_bindT.mpr (keeps_readBoundRefreshToken.imp fun h result hbound => ?_)
    cases result with
    | error err => exact ⟨trivial, fun _ => trivial⟩
    | ok stored =>
      refine keeps_bindT.mpr ⟨trivial, fun answer => ?_⟩
      cases answer with
      | false => exact ⟨trivial, fun _ => trivial⟩
      | true =>
        cases stored with
        | none => exact ⟨trivial, fun _ => trivial⟩
        | some bound =>
          obtain ⟨token, binding, hfound, rfl⟩ := hbound bound rfl
          exact ⟨trivial, fun _ => ⟨⟨rfl, token, binding, hfound, rfl⟩, fun _ => trivial⟩⟩

theorem keeps_writeBoundRefreshToken (token : String) (binding : IdentityBinding) :
    Keeps (Allows base64 (.write token binding)) (fun h result => Checked h ∧ (result = .ok () →
      h = [passed, put identityBindingField (binding.encode base64), put refreshTokenField (utf8 token)]))
      [passed] (writeBoundRefreshToken base64 token binding).run := by
  have hchecked : Checked [passed] := ⟨[], rfl, fun _ => not_mem_nil⟩
  unfold writeBoundRefreshToken
  split
  next => exact keeps_bindT.mpr ⟨hchecked, fun h => nomatch h⟩
  next =>
    refine keeps_bindT.mpr ⟨⟨token, binding, rfl, .inl ⟨rfl, rfl, rfl⟩⟩, fun result => ?_⟩
    have hfirst : Checked ([passed] ++ [⟨.secretPut identityBindingField (binding.encode base64), result⟩]) :=
      hchecked.concat fun _ h => nomatch h
    cases result with
    | error err => exact ⟨hfirst, fun h => nomatch h⟩
    | ok _ =>
      refine keeps_secretPut.mpr ⟨⟨token, binding, rfl, .inr ⟨rfl, rfl, rfl⟩⟩, fun result => ⟨?_, ?_⟩⟩
      · exact hfirst.concat fun _ h => nomatch h
      · rintro rfl
        rfl

theorem keeps_write (token : String) (binding : IdentityBinding) :
    Keeps (Allows base64 (.write token binding)) (fun _ _ => True) [] ((Op.write token binding).routine base64) := by
  unfold Op.routine writeClaimedRefreshToken
  refine keeps_bind.mpr (keeps_bindT.mpr ⟨trivial, fun answer => ?_⟩)
  cases answer with
  | false => exact keeps_bindT.mpr ⟨trivial, fun _ => trivial⟩
  | true =>
    dsimp only [Bool.not_true, Bool.false_eq_true, if_false]
    refine keeps_bindT.mpr ((keeps_writeBoundRefreshToken token binding).imp ?_)
    rintro h result ⟨hchecked, hwritten⟩
    cases result with
    | error err => exact ⟨trivial, fun _ => trivial⟩
    | ok _ =>
      obtain rfl := hwritten rfl
      refine keeps_bindT.mpr ⟨trivial, fun answer => ?_⟩
      cases answer with
      | true => exact ⟨⟨token, binding, rfl, rfl⟩, fun _ => trivial⟩
      | false =>
        dsimp only [Bool.not_false, if_true]
        refine keeps_bindT.mpr ((keeps_deleteBoundRefreshToken (show (Op.write token binding).Mutates from trivial)
          ?_).imp fun h₁ result _ => ?_)
        · exact hchecked.concat fun _ h => nomatch h
        · cases result with
          | ok _ => exact ⟨trivial, fun _ => trivial⟩
          | error err => exact ⟨trivial, fun _ => trivial⟩

theorem keeps_delete : Keeps (Allows base64 .delete) (fun _ _ => True) [] (Op.delete.routine base64) := by
  unfold Op.routine deleteClaimedRefreshToken
  refine keeps_bind.mpr (keeps_bindT.mpr ⟨trivial, fun answer => ?_⟩)
  cases answer with
  | false => exact keeps_bindT.mpr ⟨trivial, fun _ => trivial⟩
  | true =>
    dsimp only [Bool.not_true, Bool.false_eq_true, if_false]
    refine keeps_bindT.mpr ((keeps_deleteBoundRefreshToken (show Op.delete.Mutates from trivial)
      ⟨[], rfl, fun _ => not_mem_nil⟩).imp fun h result _ => ?_)
    cases result with
    | error err => exact ⟨trivial, fun _ => trivial⟩
    | ok _ =>
      refine keeps_bindT.mpr ⟨trivial, fun answer => ?_⟩
      cases answer with
      | true => exact ⟨trivial, fun _ => trivial⟩
      | false => exact ⟨trivial, fun _ => trivial⟩

/-- A call does what it may. -/
theorem follows (op : Op) : (op.routine base64).thread.Follows (Allows base64 op) [] := by
  cases op with
  | acquire => exact ⟨rfl, fun _ => trivial⟩
  | drop => exact ⟨rfl, fun _ => trivial⟩
  | read => exact keeps_read.follows
  | write token binding => exact (keeps_write token binding).follows
  | delete => exact keeps_delete.follows

/-! ### One claim at a time -/

variable {ι : Type} [DecidableEq ι] {slot : ι → Slot} {secrets : Slot → String → Option Bytes} {s s' : Calls ι}
  {trace : List (Step ι)} {t t' : ι} {σ : Slot} {field : String}

/-- A write or a delete of the claim has passed its first check, and has not come to its end. -/
def PastFirstCheck (t : ι) (trace : List (Step ι)) : Prop :=
  ∃ before op during, Since t trace before op during ∧ op.Mutates ∧ Checked (actsOf t during)

variable {a : Act} {r : a.Answer}

theorem allowed (h : CountedRuns slot base64 secrets trace s)
    (hstep : s.next slot base64 (.act t a r) = some s') (hcounts : Counts slot s.shared (.act t a r : Step ι)) :
    ∃ before op during, Since t trace before op during ∧ Allows base64 op (actsOf t during) a := by
  have hrun : CountedRuns slot base64 secrets (trace ++ .act t a r :: []) s' := h.step ⟨hstep, hcounts⟩
  exact Threads.allowed_of_run follows (fun _ hs t => by rw [hs]; rfl) (fun _ _ _ hT => hT.1) hrun

variable {l : Step ι}

theorem pastFirstCheck_concat (h : PastFirstCheck t (trace ++ [l])) :
    PastFirstCheck t trace ∨ l = .act t .isExclusive true := by
  obtain ⟨before, op, during, hsince, hmutates, rest, hacts, hrest⟩ := h
  rcases hsince.of_concat with ⟨rfl, -⟩ | ⟨during, rfl, hlast⟩
  · cases hacts
  · rw [actsOf_append] at hacts
    cases hbefore : actsOf t during with
    | nil =>
      rw [hbefore, nil_append] at hacts
      have hmem : passed ∈ actsOf t [l] := by rw [hacts]; exact mem_cons_self
      exact .inr (mem_singleton.mp (mem_actsOf.mp hmem)).symm
    | cons did rest' =>
      rw [hbefore] at hacts
      cases hacts
      refine .inl ⟨before, op, during, hlast, hmutates, rest', hbefore, fun outcome hmem => ?_⟩
      exact hrest outcome (mem_append_left _ hmem)

/-- What a step does to the claims: only that of its connection, and one that is held it leaves so where it does not
drop it. -/
theorem owned_of_exec {s s' : Process ι} (hexec : Process.exec slot t a r s = some s') :
    (∀ t', t' ≠ t → s'.owned t' = s.owned t') ∧
      ∀ claim, s.owned t = .held claim → a = .drop ∨ ∃ claim', s'.owned t = .held claim' := by
  cases a with
  | acquire =>
    simp only [Process.exec] at hexec
    split at hexec
    next howned =>
      cases hexec
      refine ⟨fun t' hne => update_of_ne hne _ _, fun claim hheld => ?_⟩
      rw [howned] at hheld
      cases hheld
    next => cases hexec
  | drop =>
    simp only [Process.exec] at hexec
    split at hexec
    next =>
      cases hexec
      exact ⟨fun t' hne => update_of_ne hne _ _, fun _ _ => .inl rfl⟩
    next => cases hexec
  | recordAdoption =>
    simp only [Process.exec] at hexec
    split at hexec
    next claim _ =>
      cases hexec
      exact ⟨fun t' hne => update_of_ne hne _ _, fun _ _ => .inr ⟨claim.recordAdoption, update_self _ _ _⟩⟩
    next => cases hexec
  | _ =>
    have hsame : s'.owned = s.owned := by
      unfold Process.exec Process.store at hexec
      grind
    exact ⟨fun t' _ => congrFun hsame t', fun claim hheld => .inr ⟨claim, hsame ▸ hheld⟩⟩

variable {claim : PersistenceClaim}

/-- A claim keeps being held where it is not dropped. -/
theorem held_of_step (hstep : s.next slot base64 l = some s') (hheld : s.shared.owned t = .held claim)
    (hl : l ≠ .act t .drop ()) : ∃ claim', s'.shared.owned t = .held claim' := by
  cases l with
  | act t' a r =>
    obtain ⟨hother, hown⟩ := owned_of_exec (Threads.exec_of_step hstep)
    by_cases heq : t = t'
    · subst heq
      rcases hown claim hheld with rfl | hheld'
      · exact absurd rfl hl
      · exact hheld'
    · exact ⟨claim, (hother t heq).trans hheld⟩
  | _ =>
    rw [Threads.shared_of_silent (by trivial) hstep]
    exact ⟨claim, hheld⟩

/-- A write or a delete that is past its first check is of a live claim, and is the only one on its slot. -/
theorem sole_of_run (hkind : ∀ t, '\n' ∉ (slot t).backendKind.toList) (h : CountedRuns slot base64 secrets trace s) :
    ∀ t, PastFirstCheck t trace → (∃ claim, s.shared.owned t = .held claim) ∧
      ∀ t', PastFirstCheck t' trace → slot t' = slot t → t' = t := by
  refine h.invariant (I := fun trace s => ∀ t, PastFirstCheck t trace → (∃ claim, s.shared.owned t = .held claim) ∧
      ∀ t', PastFirstCheck t' trace → slot t' = slot t → t' = t) ?_ ?_
  · rintro s rfl t ⟨before, op, during, hsince, -⟩
    have := hsince.split
    simp at this
  · intro trace s l s' hrun ih ⟨hstep, hcounts⟩ t ht
    have hreg := registered_of_run hkind hrun
    -- a claim whose check passes now finds no other on its slot past its own
    have hnew : ∀ t t', l = .act t .isExclusive true → PastFirstCheck t' trace → slot t' = slot t → t' = t := by
      rintro t t' rfl ht' hslot
      have hexec := Threads.exec_of_step hstep
      obtain ⟨⟨claim', hheld'⟩, -⟩ := ih t' ht'
      simp only [Process.exec] at hexec
      split at hexec
      next claim hheld =>
        split_ifs at hexec with hexclusive
        have hclean := (hreg.isExclusive_iff hheld).mp hexclusive.symm
        by_contra hne
        exact hclean (.now t' (hreg.live hheld) (hslot ▸ hreg.live hheld') hne)
      next => cases hexec
    refine ⟨?_, fun t' ht' hslot => ?_⟩
    · rcases pastFirstCheck_concat ht with hbefore | rfl
      · obtain ⟨⟨claim, hheld⟩, -⟩ := ih t hbefore
        refine held_of_step hstep hheld ?_
        rintro rfl
        obtain ⟨before, op, during, hsince, rfl⟩ := allowed hrun hstep hcounts
        obtain ⟨before', op', during', hsince', hmutates, -⟩ := hbefore
        obtain ⟨-, rfl, -⟩ := hsince.unique hsince'
        exact hmutates
      · have hexec := Threads.exec_of_step hstep
        simp only [Process.exec] at hexec
        split at hexec
        next claim hheld =>
          split_ifs at hexec
          rw [← Option.some.inj hexec]
          exact ⟨claim, hheld⟩
        next => cases hexec
    · rcases pastFirstCheck_concat ht with hbefore | rfl
      · rcases pastFirstCheck_concat ht' with hbefore' | rfl
        · exact (ih t hbefore).2 t' hbefore' hslot
        · exact (hnew t' t rfl hbefore hslot.symm).symm
      · rcases pastFirstCheck_concat ht' with hbefore' | heq
        · exact hnew t t' rfl hbefore' hslot
        · cases heq
          rfl

/-! ### What is stored -/

/-- What a step writes to a field, with the claim that puts it there. -/
def effect (slot : ι → Slot) (σ : Slot) (field : String) : Step ι → Option (Option (ι × Bytes))
  | .act t (.secretPut field' value) (.ok ()) => if slot t = σ ∧ field' = field then some (some (t, value)) else none
  | .act t (.secretDelete field') (.ok ()) => if slot t = σ ∧ field' = field then some none else none
  | _ => none

/-- What was last written to a field in the run, with the claim that put it there. -/
def written (slot : ι → Slot) (σ : Slot) (field : String) (trace : List (Step ι)) : Option (Option (ι × Bytes)) :=
  (trace.filterMap (effect slot σ field)).getLast?

omit [DecidableEq ι] in
theorem written_concat :
    written slot σ field (trace ++ [l]) = (effect slot σ field l).or (written slot σ field trace) := by
  unfold written
  rw [filterMap_append, List.getLast?_append]
  cases heffect : effect slot σ field l with
  | none => simp [heffect]
  | some w => simp [heffect]

/-- A field after a step holds what the step writes to it, or what it held. -/
theorem secrets_of_exec {s s' : Process ι} (hreg : Registered slot trace s)
    (hexec : Process.exec slot t a r s = some s') :
    s'.secrets σ field = ((effect slot σ field (.act t a r)).map fun w => w.map Prod.snd).getD (s.secrets σ field) := by
  have hstore : ∀ {claim}, s.owned t = .held claim →
        ∀ field' value, (s.store ⟨(slot t).backendKind, claim.key⟩ field' value).secrets σ field =
      if slot t = σ ∧ field' = field then value else s.secrets σ field := by
    intro claim hheld field' value
    rw [(hreg.named t claim hheld).1]
    by_cases hσ : slot t = σ
    · by_cases hfield : field' = field
      · simp [Process.store, hσ, hfield]
      · simp [Process.store, hσ, hfield, Ne.symm hfield]
    · simp [Process.store, hσ, Ne.symm hσ]
  cases a with
  | secretPut field' value =>
    cases r with
    | error err =>
      cases hexec
      rfl
    | ok _ =>
      simp only [Process.exec] at hexec
      split at hexec
      next claim hheld =>
        cases hexec
        rw [hstore hheld, effect]
        split_ifs
        · rfl
        · rfl
      next => cases hexec
  | secretDelete field' =>
    cases r with
    | error err =>
      cases hexec
      rfl
    | ok _ =>
      simp only [Process.exec] at hexec
      split at hexec
      next claim hheld =>
        cases hexec
        rw [hstore hheld, effect]
        split_ifs
        · rfl
        · rfl
      next => cases hexec
  | _ =>
    have hsame : s'.secrets = s.secrets := by
      unfold Process.exec at hexec
      grind
    exact congrFun (congrFun hsame σ) field

/-- A field holds what was last written to it, or what it held at the start. -/
theorem stored_of_run (hkind : ∀ t, '\n' ∉ (slot t).backendKind.toList) (h : CountedRuns slot base64 secrets trace s) :
    s.shared.secrets σ field = ((written slot σ field trace).map fun w => w.map Prod.snd).getD (secrets σ field) := by
  refine h.invariant (I := fun trace s =>
    s.shared.secrets σ field = ((written slot σ field trace).map fun w => w.map Prod.snd).getD (secrets σ field)) ?_ ?_
  · rintro s rfl
    rfl
  · intro trace s l s' hrun ih ⟨hstep, hcounts⟩
    have hreg := registered_of_run hkind hrun
    rw [written_concat]
    cases l with
    | act t a r =>
      rw [secrets_of_exec hreg (Threads.exec_of_step hstep), ih]
      cases effect slot σ field (.act t a r) with
      | none => rfl
      | some w => rfl
    | _ =>
      rw [Threads.shared_of_silent (by trivial) hstep, ih]
      rfl

/-- Only a write or a delete past its first check writes to a field. -/
theorem past_of_effect (h : CountedRuns slot base64 secrets trace s) (hstep : s.next slot base64 l = some s')
    (hcounts : Counts slot s.shared l) (heffect : effect slot σ field l ≠ none) :
    slot l.thread = σ ∧ PastFirstCheck l.thread trace := by
  cases l with
  | act t a r =>
    obtain ⟨before, op, during, hsince, hallows⟩ := allowed h hstep hcounts
    have hslot : ∀ field' w, (if slot t = σ ∧ field' = field then some w else none) ≠
        (none : Option (Option (ι × Bytes))) → slot t = σ := by
      intro field' w hne
      by_contra hnot
      exact hne (if_neg fun h => hnot h.1)
    cases a with
    | secretPut field' value =>
      cases r with
      | error err => exact absurd rfl heffect
      | ok _ =>
        obtain ⟨token, binding, rfl, hhistory⟩ := hallows
        refine ⟨hslot _ _ heffect, before, _, during, hsince, trivial, ?_⟩
        rcases hhistory with ⟨hhistory, -⟩ | ⟨hhistory, -⟩
        · exact ⟨_, hhistory, fun _ => not_mem_nil⟩
        · exact ⟨_, hhistory, fun _ hmem => nomatch mem_singleton.mp hmem⟩
    | secretDelete field' =>
      cases r with
      | error err => exact absurd rfl heffect
      | ok _ => exact ⟨hslot _ _ heffect, before, op, during, hsince, hallows⟩
    | _ => exact absurd rfl heffect
  | _ => exact absurd rfl heffect

/-- Nobody else writes to the slot of a claim from its first check on. -/
theorem alone_of_run (hkind : ∀ t, '\n' ∉ (slot t).backendKind.toList) (h : CountedRuns slot base64 secrets trace s) :
    ∀ t before op during, Since t trace before op during → op.Mutates → Checked (actsOf t during) →
      ∃ upTo since, trace = upTo ++ since ∧ actsOf t since = actsOf t during ∧
        ∀ l ∈ since, ∀ field, effect slot (slot t) field l ≠ none → l.thread = t := by
  refine h.invariant (I := fun trace _ => ∀ t before op during, Since t trace before op during → op.Mutates →
    Checked (actsOf t during) →
      ∃ upTo since, trace = upTo ++ since ∧ actsOf t since = actsOf t during ∧
        ∀ l ∈ since, ∀ field, effect slot (slot t) field l ≠ none → l.thread = t) ?_ ?_
  · intro s _ t before op during hsince
    have hsplit := hsince.split
    simp at hsplit
  · intro trace s l s' hrun ih ⟨hstep, hcounts⟩ t before op during hsince hmutates hchecked
    rcases hsince.of_concat with ⟨rfl, -⟩ | ⟨during, rfl, hlast⟩
    · obtain ⟨rest, hacts, -⟩ := hchecked
      cases hacts
    · rw [actsOf_append] at hchecked ⊢
      cases hbefore : actsOf t during with
      | nil =>
        obtain ⟨rest, hacts, -⟩ := hchecked
        rw [hbefore, nil_append] at hacts
        have hmem : passed ∈ actsOf t [l] := by rw [hacts]; exact mem_cons_self
        obtain rfl := mem_singleton.mp (mem_actsOf.mp hmem)
        exact ⟨trace, _, rfl, rfl, fun l hl _ _ => by rw [mem_singleton.mp hl]; rfl⟩
      | cons did rest' =>
        obtain ⟨rest, hacts, hrest⟩ := hchecked
        rw [hbefore] at hacts
        cases hacts
        have hchecked : Checked (actsOf t during) :=
          ⟨rest', hbefore, fun outcome hmem => hrest outcome (mem_append_left _ hmem)⟩
        obtain ⟨upTo, since, rfl, hsinceActs, halone⟩ := ih t before op during hlast hmutates hchecked
        refine ⟨upTo, since ++ [l], by simp, by rw [actsOf_append, hsinceActs, hbefore], fun l' hl' field heffect => ?_⟩
        rcases mem_append.mp hl' with hl' | hl'
        · exact halone l' hl' field heffect
        · obtain rfl := mem_singleton.mp hl'
          obtain ⟨hslot, hpast⟩ := past_of_effect hrun hstep hcounts heffect
          exact (sole_of_run hkind hrun t ⟨before, op, during, hlast, hmutates, hchecked⟩).2 _ hpast hslot

/-- What a call has last written to a field. -/
def wrote (slot : ι → Slot) (t : ι) (field : String) (h : History Act.Answer) : Option (Option (ι × Bytes)) :=
  (h.filterMap fun did => effect slot (slot t) field (.act t did.1 did.2)).getLast?

/-- What only one claim writes to is what that claim has written. -/
theorem filterMap_effect {since : List (Step ι)}
    (halone : ∀ l ∈ since, effect slot (slot t) field l ≠ none → l.thread = t) :
    since.filterMap (effect slot (slot t) field) =
      (actsOf t since).filterMap fun did => effect slot (slot t) field (.act t did.1 did.2) := by
  induction since with
  | nil => rfl
  | cons l since ih =>
    have hrest := ih fun l' hl' => halone l' (mem_cons_of_mem _ hl')
    have hfirst : (actsOf t [l]).filterMap (fun did => effect slot (slot t) field (.act t did.1 did.2)) =
        [l].filterMap (effect slot (slot t) field) := by
      cases l with
      | act t' a r =>
        by_cases heq : t' = t
        · subst heq
          have hacts : actsOf t' [(.act t' a r : Step ι)] = [⟨a, r⟩] := by simp [actsOf]
          rw [hacts]
          rfl
        · have hnone : effect slot (slot t) field (.act t' a r) = none := by
            by_contra hsome
            exact heq (halone _ mem_cons_self hsome)
          simp [actsOf, heq, hnone]
      | _ => rfl
    rw [← singleton_append, actsOf_append, filterMap_append, filterMap_append, hrest, hfirst]

/-- What a call has written past its first check is what is written. -/
theorem written_of_wrote (hkind : ∀ t, '\n' ∉ (slot t).backendKind.toList) (h : CountedRuns slot base64 secrets trace s)
    {before during : List (Step ι)} (hsince : Since t trace before op during) (hmutates : op.Mutates)
    (hchecked : Checked (actsOf t during)) {w : Option (ι × Bytes)}
    (hwrote : wrote slot t field (actsOf t during) = some w) :
    written slot (slot t) field trace = some w := by
  obtain ⟨upTo, since, rfl, hacts, halone⟩ := alone_of_run hkind h t before op during hsince hmutates hchecked
  rw [written, filterMap_append, List.getLast?_append, filterMap_effect fun l hl => halone l hl field, hacts]
  exact Option.or_eq_some_iff.mpr (.inl hwrote)

/-! ### Mixed lineages -/

omit [DecidableEq ι] in
theorem effect_eq_put (h : effect slot σ field l = some (some (t, value))) :
    l = .act t (.secretPut field value) (.ok ()) ∧ slot t = σ := by
  unfold effect at h
  split at h
  next t' field' value' =>
    split_ifs at h with hcond
    cases h
    exact ⟨by rw [hcond.2], hcond.1⟩
  next =>
    split_ifs at h
    cases h
  next => cases h

omit [DecidableEq ι] in
theorem slot_of_written (h : written slot σ field trace = some (some (t, value))) : slot t = σ := by
  obtain ⟨l, -, hl⟩ := mem_filterMap.mp (mem_of_getLast? h)
  exact (effect_eq_put hl).2

/-- The claim has written the binding, and no token since. -/
def Torn (t : ι) (binding : Bytes) (trace : List (Step ι)) : Prop :=
  ∃ upTo since, trace = upTo ++ .act t (.secretPut identityBindingField binding) (.ok ()) :: since ∧
    ∀ token, .act t (.secretPut refreshTokenField token) (.ok ()) ∉ since

/-- A binding and a token are of one claim, but while the write that put the binding has not put its token. -/
theorem torn_of_run (hkind : ∀ t, '\n' ∉ (slot t).backendKind.toList) (h : CountedRuns slot base64 secrets trace s) :
    ∀ σ t t' binding token, written slot σ identityBindingField trace = some (some (t, binding)) →
      written slot σ refreshTokenField trace = some (some (t', token)) → t' = t ∨ Torn t binding trace := by
  refine h.invariant (I := fun trace _ => ∀ σ t t' binding token,
    written slot σ identityBindingField trace = some (some (t, binding)) →
      written slot σ refreshTokenField trace = some (some (t', token)) → t' = t ∨ Torn t binding trace) ?_ ?_
  · intro s _ σ t t' binding token hbinding
    cases hbinding
  · intro trace s l s' hrun ih ⟨hstep, hcounts⟩ σ t t' binding token hbinding htoken
    have hnew : ∀ {field value t}, effect slot σ field l = some (some (t, value)) →
        l = .act t (.secretPut field value) (.ok ()) ∧ slot t = σ := effect_eq_put
    rw [written_concat] at hbinding htoken
    cases hput : effect slot σ identityBindingField l with
    | some w =>
      rw [hput, Option.some_or, Option.some.injEq] at hbinding
      subst hbinding
      obtain ⟨rfl, -⟩ := hnew hput
      exact .inr ⟨trace, [], rfl, fun _ => not_mem_nil⟩
    | none =>
      rw [hput, Option.none_or] at hbinding
      cases hput' : effect slot σ refreshTokenField l with
      | some w =>
        -- the write that puts the token has put the binding before
        rw [hput', Option.some_or, Option.some.injEq] at htoken
        subst htoken
        obtain ⟨rfl, rfl⟩ := hnew hput'
        obtain ⟨before, op, during, hsince, token', binding', rfl, hhistory⟩ := allowed hrun hstep hcounts
        rcases hhistory with ⟨-, hfield, -⟩ | ⟨hhistory, -, -⟩
        · exact absurd hfield (by decide)
        · have hchecked : Checked (actsOf t' during) := ⟨_, hhistory, fun _ hmem => nomatch mem_singleton.mp hmem⟩
          have hwritten : written slot (slot t') identityBindingField trace =
              some (some (t', binding'.encode base64)) :=
            written_of_wrote hkind hrun hsince trivial hchecked (by simp [hhistory, wrote, effect, passed, put])
          rw [hwritten] at hbinding
          cases hbinding
          exact .inl rfl
      | none =>
        rw [hput', Option.none_or] at htoken
        refine (ih σ t t' binding token hbinding htoken).imp_right ?_
        rintro ⟨upTo, since, rfl, hsince⟩
        refine ⟨upTo, since ++ [l], by simp, fun token' hmem => ?_⟩
        rcases mem_append.mp hmem with hmem | hmem
        · exact hsince token' hmem
        · obtain rfl := mem_singleton.mp hmem
          simp [effect, slot_of_written hbinding] at hput'

/-! ### Sole claimants -/

/-- Only a claim that no other has been live beside finds itself exclusive, and a read that gives back a token has found
that at its second check. One write or delete on a slot is past its first check at most; what is stored is of one claim,
but while the last write has put its binding and not its token; and a write that is done has left its binding and its
token. -/
theorem sole_claimants (hkind : ∀ t, '\n' ∉ (slot t).backendKind.toList) (h : CountedRuns slot base64 secrets trace s) :
    (∀ pre t answer post, trace = pre ++ .act t .isExclusive answer :: post → (answer = true ↔ ¬Contended slot t pre)) ∧
    (∀ pre t bound post, trace = pre ++ .act t (.finish (.read (.ok (some bound)))) () :: post →
      ∃ before upTo since token binding, pre = before ++ .call t .read :: (upTo ++ .act t .isExclusive true :: since) ∧
        actsOf t upTo = [passed, got refreshTokenField token, got identityBindingField binding] ∧
        actsOf t since = [⟨.recordAdoption, ()⟩] ∧ Bound base64 token binding bound ∧
        ¬Contended slot t (before ++ .call t .read :: upTo)) ∧
    (∀ t t', PastFirstCheck t trace → PastFirstCheck t' trace → slot t' = slot t → t' = t) ∧
    (∀ σ t t' binding token, written slot σ identityBindingField trace = some (some (t, binding)) →
      written slot σ refreshTokenField trace = some (some (t', token)) → t' = t ∨ Torn t binding trace) ∧
    ∀ pre t post, trace = pre ++ .act t (.finish (.written (.ok ()))) () :: post →
      ∃ s before token binding during, CountedRuns slot base64 secrets pre s ∧
      Since t pre before (.write token binding) during ∧
        s.shared.secrets (slot t) identityBindingField = some (binding.encode base64) ∧
        s.shared.secrets (slot t) refreshTokenField = some (utf8 token) := by
  have hcheck : ∀ {pre t answer post s}, CountedRuns slot base64 secrets (pre ++ .act t .isExclusive answer :: post) s →
      (answer = true ↔ ¬Contended slot t pre) := by
    intro pre t answer post s hrun
    obtain ⟨s₀, s₁, hpre, hstep, -⟩ := hrun.split
    have hexec := Threads.exec_of_step hstep
    simp only [Process.exec] at hexec
    split at hexec
    next claim hheld =>
      split_ifs at hexec with hanswer
      rw [hanswer]
      exact (registered_of_run hkind hpre).isExclusive_iff hheld
    next => cases hexec
  refine ⟨?_, ?_, ?_, torn_of_run hkind h, ?_⟩
  · rintro pre t answer post rfl
    exact hcheck h
  · rintro pre t bound post rfl
    obtain ⟨s₀, s₁, hpre, hstep, hcounts⟩ := h.split
    obtain ⟨before, op, during, hsince, rfl, token, binding, hfound, hhistory⟩ := allowed hpre hstep hcounts
    have hsplit : actsOf t during = [passed, got refreshTokenField token, got identityBindingField binding] ++
        ⟨.isExclusive, true⟩ :: [⟨.recordAdoption, ()⟩] := hhistory
    obtain ⟨upTo, since, rfl, hfirst, hrest⟩ := exists_of_actsOf hsplit
    have hpreSplit : pre = (before ++ .call t .read :: upTo) ++ .act t .isExclusive true :: since := by
      simp [hsince.split]
    exact ⟨before, upTo, since, token, binding, hsince.split, hfirst, hrest, hfound, (hcheck (hpreSplit ▸ hpre)).mp rfl⟩
  · exact fun t t' ht ht' hslot => (sole_of_run hkind h t ht).2 t' ht' hslot
  · rintro pre t post rfl
    obtain ⟨s₀, s₁, hpre, hstep, hcounts⟩ := h.split
    obtain ⟨before, op, during, hsince, token, binding, rfl, hhistory⟩ := allowed hpre hstep hcounts
    have hchecked : Checked (actsOf t during) := by
      refine ⟨_, hhistory, fun outcome hmem => ?_⟩
      simp [put, passed] at hmem
    have hbinding : written slot (slot t) identityBindingField pre = some (some (t, binding.encode base64)) :=
      written_of_wrote hkind hpre hsince trivial hchecked
        (by simp [hhistory, wrote, effect, passed, put, identityBindingField, refreshTokenField])
    have htoken : written slot (slot t) refreshTokenField pre = some (some (t, utf8 token)) :=
      written_of_wrote hkind hpre hsince trivial hchecked
        (by simp [hhistory, wrote, effect, passed, put, identityBindingField, refreshTokenField])
    refine ⟨s₀, before, token, binding, during, hpre, hsince, ?_, ?_⟩
    · rw [stored_of_run hkind hpre, hbinding]
      rfl
    · rw [stored_of_run hkind hpre, htoken]
      rfl

/-! ### Where the claims do not tell -/

/-- The slot that the connections of the runs share. -/
def shared : Slot := ⟨"nucleus", "omniverse"⟩

/-- Base64 of the texts that the runs encode. -/
def fewTexts : Base64 where
  encode bytes := if bytes = utf8 "a" then "YQ" else if bytes = utf8 "b" then "Yg" else ""
  decode text := if text = "YQ" then some (utf8 "a") else if text = "Yg" then some (utf8 "b") else some []

def alice : IdentityBinding := ⟨"", "", "a"⟩

def bob : IdentityBinding := ⟨"", "", "b"⟩

/-- A claim writes its lineage and is done. -/
def aliceWrites : List (Step ℕ) :=
  [.call 0 .acquire, .act 0 .acquire (), .call 0 (.write "alice's" alice), .act 0 .isExclusive true,
    .act 0 (.secretPut identityBindingField (alice.encode fewTexts)) (.ok ()),
    .act 0 (.secretPut refreshTokenField (utf8 "alice's")) (.ok ()),
    .act 0 .isExclusive true, .act 0 (.finish (.written (.ok ()))) ()]

/-- It gives way to another, whose token does not reach the store. -/
def bobFails : List (Step ℕ) :=
  [.call 0 .drop, .act 0 .drop (), .call 1 .acquire, .act 1 .acquire (), .call 1 (.write "bob's" bob),
    .act 1 .isExclusive true,
    .act 1 (.secretPut identityBindingField (bob.encode fewTexts)) (.ok ()),
    .act 1 (.secretPut refreshTokenField (utf8 "bob's")) (.error ⟨.Transient, "keyring"⟩),
    .act 1 (.finish (.written (.error ⟨.Transient, "keyring"⟩))) ()]

/-- Whether the counters count a step. -/
def countsStep (s : Process ℕ) : Step ℕ → Bool
  | .act _ .acquire _ =>
    (s.claims shared.namespaced).all fun entry => decide (entry.live < Word64.max ∧ entry.contentions < Word64.max)
  | _ => true

theorem counts_of_countsStep {s : Process ℕ} {l : Step ℕ} (h : countsStep s l = true) :
    Counts (fun _ => shared) s l := by
  unfold Counts
  split
  next t =>
    intro entry hentry
    simpa [countsStep, hentry] using h
  next => trivial

/-- Or it does. -/
def bobWrites : List (Step ℕ) :=
  bobFails.take 7 ++ [.act 1 (.secretPut refreshTokenField (utf8 "bob's")) (.ok ()), .act 1 .isExclusive true,
    .act 1 (.finish (.written (.ok ()))) ()]

theorem bobWrites_runs :
    ∃ s : Calls ℕ, CountedRuns (fun _ => shared) fewTexts (fun _ _ => none) (aliceWrites ++ bobWrites) s ∧
    decide (s.shared.secrets shared refreshTokenField = some (utf8 "bob's")) = true := by
  refine @Run.of_any (Calls ℕ) (Step ℕ) (fun s => s = .idle (.fresh fun _ _ => none)) _
    (fun s l => if countsStep s.shared l then s.next (fun _ => shared) fewTexts l else none) ?_ _ rfl _ _ ?_
  · intro s l s' hstep
    split_ifs at hstep with hcounts
    exact ⟨hstep, counts_of_countsStep hcounts⟩
  · decide +kernel

/-- The second claim has found itself exclusive, and what it has written is stored, over what the first one wrote. -/
theorem bob_is_stored :
    ¬Contended (fun _ => shared) 1 ((aliceWrites ++ bobWrites).take 16) ∧ ∃ (s : Calls ℕ) (before : List (Step ℕ))
    (token : String) (binding : IdentityBinding) (during : List (Step ℕ)),
    CountedRuns (fun _ => shared) fewTexts (fun _ _ => none) ((aliceWrites ++ bobWrites).take 17) s ∧
      Since 1 ((aliceWrites ++ bobWrites).take 17) before (.write token binding) during ∧
      s.shared.secrets shared identityBindingField = some (binding.encode fewTexts) ∧
      s.shared.secrets shared refreshTokenField = some (utf8 token) := by
  obtain ⟨s, hs, -⟩ := bobWrites_runs
  obtain ⟨hexclusive, -, -, -, hstored⟩ := sole_claimants (fun _ => by decide) hs
  exact ⟨(hexclusive _ 1 true _ rfl).mp rfl, hstored _ 1 [] rfl⟩

theorem bob_runs : ∃ s : Calls ℕ, Runs (fun _ => shared) fewTexts (fun _ _ => none) (aliceWrites ++ bobFails) s ∧
    decide (s.shared.secrets shared refreshTokenField = some (utf8 "alice's")) = true := by
  refine @Run.of_any (Calls ℕ) (Step ℕ) (fun s => s = .idle (.fresh fun _ _ => none)) _
    (fun s l => s.next (fun _ => shared) fewTexts l) (fun _ _ _ h => h) _ rfl _ _ ?_
  decide +kernel

/-- The first claim is left, behind which the contentions of a key are counted. -/
structure Crowded (contentions : ℕ) (trace : List (Step ℕ)) (s : Calls ℕ) : Prop where
  run : Runs (fun _ => shared) fewTexts (fun _ _ => none) trace s
  idle : ∀ t, s.progs t = .ret
  entry : s.shared.claims shared.namespaced = some ⟨1, contentions⟩
  first : ∃ claim, s.shared.owned 0 = .held claim ∧ claim.namespaced = shared.namespaced
  unclaimed : ∀ t, contentions < t → s.shared.owned t = .unclaimed
  live : liveOn (fun _ => shared) shared trace = [0]

/-- A call of one step. -/
theorem runs_call {trace : List (Step ℕ)} {s : Calls ℕ} (h : Runs (fun _ => shared) fewTexts (fun _ _ => none) trace s)
    (hidle : ∀ t, s.progs t = .ret) (hprog : (op.routine fewTexts).thread = .act a fun _ => .ret)
    {t : ℕ} {p : Process ℕ} (hexec : Process.exec (fun _ => shared) t a r s.shared = some p) :
    Runs (fun _ => shared) fewTexts (fun _ _ => none) (trace ++ [.call t op] ++ [.act t a r]) ⟨p, s.progs⟩ := by
  have hcall : Runs (fun _ => shared) fewTexts (fun _ _ => none) (trace ++ [.call t op])
      { s with progs := update s.progs t (.act a fun _ => .ret) } := by
    refine h.step ?_
    simp [Calls.next, Threads.step, hidle t, hprog]
  refine hcall.step ?_
  · have hprogs : update (update s.progs t (.act a fun _ => .ret)) t .ret = s.progs := by
      rw [update_idem, ← hidle t, update_eq_self]
    simp [Calls.next, Threads.step, hexec, hprogs]

theorem acquire_thread : (Op.acquire.routine fewTexts).thread = .act .acquire fun _ => .ret := rfl

theorem drop_thread : (Op.drop.routine fewTexts).thread = .act .drop fun _ => .ret := rfl

/-- The first claim is alone. -/
theorem crowded_zero : ∃ trace s, Crowded 0 trace s := by
  refine ⟨[] ++ [.call 0 .acquire] ++ [.act 0 .acquire ()], _,
    runs_call (.start rfl) (fun _ => rfl) acquire_thread rfl, fun _ => rfl,
    ?_, ⟨⟨shared.key, shared.namespaced, false, 0⟩, ?_, rfl⟩, fun t ht => ?_, rfl⟩
  · decide +kernel
  · rfl
  · exact update_of_ne (Nat.pos_iff_ne_zero.mp ht) _ _

/-- A claim that comes and goes is a contention more. -/
theorem crowded_succ {contentions : ℕ} (hlt : contentions < Word64.max) (h : ∃ trace s, Crowded contentions trace s) :
    ∃ trace s, Crowded (contentions + 1) trace s := by
  obtain ⟨trace, s, h⟩ := h
  have hunclaimed := h.unclaimed (contentions + 1) (Nat.lt_succ_self _)
  have hsize := Word64.size_eq
  have hacquire : (KeyClaims.mk 1 contentions).acquire = ⟨2, contentions + 1⟩ := by
    have hlive : Word64.saturatingAdd 1 1 = 2 := by decide
    have hmore : Word64.saturatingAdd contentions 1 = contentions + 1 := Word64.saturatingAdd_of_lt (by omega)
    simp [KeyClaims.acquire, hlive, hmore]
  have hfirst := runs_call h.run h.idle acquire_thread (t := contentions + 1) (r := ())
    (p := { s.shared with
      claims := update s.shared.claims shared.namespaced (some ⟨2, contentions + 1⟩)
      owned := update s.shared.owned (contentions + 1) (.held ⟨shared.key, shared.namespaced, false, contentions⟩) })
    (by simp [Process.exec, hunclaimed, h.entry, hacquire])
  have hsecond := runs_call hfirst h.idle drop_thread (t := contentions + 1) (r := ())
    (p := { s.shared with
      claims := update (update s.shared.claims shared.namespaced (some ⟨2, contentions + 1⟩)) shared.namespaced
        (some ⟨1, contentions + 1⟩)
      owned := update (update s.shared.owned (contentions + 1)
        (.held ⟨shared.key, shared.namespaced, false, contentions⟩)) (contentions + 1) .dropped })
    (by simp [Process.exec, KeyClaims.drop])
  refine ⟨_, _, hsecond, h.idle, by simp, ?_, fun t ht => ?_, ?_⟩
  · obtain ⟨claim, hclaim, hname⟩ := h.first
    exact ⟨claim, by simp [hclaim], hname⟩
  · simp [h.unclaimed t (by omega), (show t ≠ contentions + 1 by omega)]
  · rw [liveOn_concat, liveOn_concat, liveOn_concat, liveOn_concat, h.live]
    simp [noteLive]

/-- As many contentions as the counter counts. -/
theorem crowded : ∀ contentions ≤ Word64.max, ∃ trace s, Crowded contentions trace s := by
  intro contentions
  induction contentions with
  | zero => exact fun _ => crowded_zero
  | succ contentions ih => exact fun hle => crowded_succ hle (ih (Nat.le_of_succ_le hle))

/-- A read whose first check passes. -/
theorem runs_check {trace : List (Step ℕ)} {s : Calls ℕ} (h : Runs (fun _ => shared) fewTexts (fun _ _ => none) trace s)
    (hidle : ∀ t, s.progs t = .ret) {t : ℕ} (hheld : s.shared.owned t = .held claim)
    (hexclusive : claim.isExclusive s.shared.claims = true) :
    ∃ s', Runs (fun _ => shared) fewTexts (fun _ _ => none)
      (trace ++ [.call t .read] ++ [.act t .isExclusive true]) s' := by
  have hthread : ∃ k, (Op.read.routine fewTexts).thread = .act .isExclusive k := ⟨_, rfl⟩
  obtain ⟨k, hthread⟩ := hthread
  have hcall : Runs (fun _ => shared) fewTexts (fun _ _ => none) (trace ++ [.call t .read])
      { s with progs := update s.progs t (.act .isExclusive k) } := by
    refine h.step ?_
    simp [Calls.next, Threads.step, hidle t, hthread]
  refine ⟨⟨s.shared, update (update s.progs t (.act .isExclusive k)) t (k true)⟩, hcall.step ?_⟩
  simp [Calls.next, Threads.step, Process.exec, hheld, hexclusive]

/-- Once the contentions are as many as the counter counts, the next claim counts as none. -/
theorem saturated : ∃ (trace : List (Step ℕ)) (s : Calls ℕ) (t : ℕ),
    Runs (fun _ => shared) fewTexts (fun _ _ => none) (trace ++ [.act t .isExclusive true]) s ∧
    Contended (fun _ => shared) t trace := by
  obtain ⟨trace, s, h⟩ := crowded Word64.max (Nat.le_refl _)
  obtain ⟨claim, hclaim, hname⟩ := h.first
  have hunclaimed := h.unclaimed (Word64.max + 1) (Nat.lt_succ_self _)
  have hacquire : (KeyClaims.mk 1 Word64.max).acquire = ⟨2, Word64.max⟩ := by decide +kernel
  have hfirst := runs_call h.run h.idle acquire_thread (t := Word64.max + 1) (r := ())
    (p := { s.shared with
      claims := update s.shared.claims shared.namespaced (some ⟨2, Word64.max⟩)
      owned := update s.shared.owned (Word64.max + 1) (.held ⟨shared.key, shared.namespaced, false, Word64.max⟩) })
    (by simp [Process.exec, hunclaimed, h.entry, hacquire])
  have hzero : 0 ≠ Word64.max + 1 := by decide
  have hsecond := runs_call hfirst h.idle drop_thread (t := 0) (r := ())
    (p := { s.shared with
      claims := update (update s.shared.claims shared.namespaced (some ⟨2, Word64.max⟩)) shared.namespaced
        (some ⟨1, Word64.max⟩)
      owned := update (update s.shared.owned (Word64.max + 1)
        (.held ⟨shared.key, shared.namespaced, false, Word64.max⟩)) 0 .dropped })
    (by simp [Process.exec, KeyClaims.drop, hclaim, hname])
  obtain ⟨s₂, hs₂, hidle, hheld, hentry⟩ : ∃ s₂, Runs (fun _ => shared) fewTexts (fun _ _ => none)
      (trace ++ [.call (Word64.max + 1) .acquire] ++ [.act (Word64.max + 1) .acquire ()] ++ [.call 0 .drop] ++
        [.act 0 .drop ()]) s₂ ∧
      (∀ t, s₂.progs t = .ret) ∧ s₂.shared.owned (Word64.max + 1) =
        .held ⟨shared.key, shared.namespaced, false, Word64.max⟩ ∧
      s₂.shared.claims shared.namespaced = some ⟨1, Word64.max⟩ := by
    refine ⟨_, hsecond, ?_, ?_, ?_⟩
    · exact h.idle
    · simp
    · simp
  obtain ⟨s', hs'⟩ := runs_check hs₂ hidle hheld (by simp [PersistenceClaim.isExclusive, hentry])
  -- the two are live where the later one has just been acquired
  have hlive : liveOn (fun _ => shared) shared
        (trace ++ [.call (Word64.max + 1) .acquire] ++ [.act (Word64.max + 1) .acquire ()]) =
      [0, Word64.max + 1] := by
    rw [liveOn_concat, liveOn_concat, h.live]
    simp [noteLive]
  have hcontended : Contended (fun _ => shared) (Word64.max + 1)
      (trace ++ [.call (Word64.max + 1) .acquire] ++ [.act (Word64.max + 1) .acquire ()]) := by
    refine .now 0 ?_ ?_ hzero
    · change Word64.max + 1 ∈ liveOn (fun _ => shared) shared _
      rw [hlive]
      simp
    · change 0 ∈ liveOn (fun _ => shared) shared _
      rw [hlive]
      simp
  exact ⟨_, s', _, hs', ((hcontended.mono _).mono _).mono _⟩

/-- What a claim finds stored may be of two claims, when the token of a write has not reached the store; and a claim
that another was live beside may find itself exclusive, when the contentions of its key are as many as can be counted.
-/
theorem claims_do_not_tell :
    (∃ (trace : List (Step ℕ)) (s : Calls ℕ), Runs (fun _ => shared) fewTexts (fun _ _ => none) trace s ∧
      written (fun _ => shared) shared identityBindingField trace = some (some (1, bob.encode fewTexts)) ∧
      written (fun _ => shared) shared refreshTokenField trace = some (some (0, utf8 "alice's"))) ∧
    ∃ (trace : List (Step ℕ)) (s : Calls ℕ) (t : ℕ),
      Runs (fun _ => shared) fewTexts (fun _ _ => none) (trace ++ [.act t .isExclusive true]) s ∧
      Contended (fun _ => shared) t trace := by
  obtain ⟨s, hs, -⟩ := bob_runs
  refine ⟨⟨aliceWrites ++ bobFails, s, hs, ?_, ?_⟩, saturated⟩
  · decide +kernel
  · decide +kernel

end OvStorage.Persistence
