import Mathlib.Order.Nat
import OvStorage.Auth.CredentialCache

/-!
# What an invalidation of a credential is worth

`resolve` and `insert` exclude each other on a key by the single-flight lock, which `invalidate` does not take.
An invalidation between a provider's call and the store of what it gave does not reach the store to come, and
the credential that was rejected is back in the cache (`invalidated_returns`). Where no invalidation falls there
(`Timely`), what is invalidated stays gone (`StaysGone`, `stays_gone`). The epoch tells of every change, in any
case (`EpochTells`).
-/

namespace OvStorage.Auth

open Interleave Layer

variable {Secret ι : Type}

/-! ### The properties -/

section Properties

variable [DecidableEq ι] (trace : List (Step Secret ι))

/-- A call of `insert` of the value is under way at the end of the trace. -/
def Inserting (t : ι) (key : Key) (value : ResolvedCredential Secret) : Prop :=
  ∃ before during, Since t trace before (.insert key value) during

/-- The last that the thread did is to get the value from a provider, whose call started in the trace. -/
def Provided (t : ι) (key : Key) (value : ResolvedCredential Secret) : Prop :=
  ∃ p provider q, trace = p ++ (.act t (.startProvider key provider) () : Step Secret ι) :: q ∧
    actsOf t q = [⟨.awaitProvider key provider, some (.ok value)⟩]

/-- Each value that is found after an invalidation of its key has been stored after it, by an `insert` of the
value or from a provider whose call started after the invalidation. -/
def StaysGone : Prop :=
  ∀ pre t key removed mid t' now value post,
    trace = pre ++ (.act t (.invalidate key) removed : Step Secret ι) ::
      (mid ++ (.act t' (.readFresh key) (now, some value) : Step Secret ι) :: post) →
    ∃ b u at' c, mid = b ++ (.act u (.store key value) at' : Step Secret ι) :: c ∧
      (Inserting (pre ++ .act t (.invalidate key) removed :: b) u key value ∨ Provided b u key value)

/-- No key is invalidated between the start of a provider's call and the store of what it gave. -/
def Timely : Prop :=
  ∀ p t key provider q value now post,
    trace = p ++ (.act t (.startProvider key provider) () : Step Secret ι) ::
      (q ++ (.act t (.store key value) now : Step Secret ι) :: post) →
    actsOf t q = [⟨.awaitProvider key provider, some (.ok value)⟩] → ∀ t' removed, .act t' (.invalidate key) removed ∉ q

/-- The step stores an entry or removes one. -/
def Changes : Step Secret ι → Prop
  | .act _ (.store _ _) _ => True
  | .act _ (.invalidate _) removed => removed = true
  | _ => False

end Properties

/-! ### What a call does -/

section Calls

open Routine

variable {op : Op Secret} {h : History (@Act.Answer Secret)} {key : Key} {value : ResolvedCredential Secret}

/-- What a call may do, after what it has done. -/
def Allows (op : Op Secret) (h : History (@Act.Answer Secret)) : Act Secret → Prop
  | .store key value => op = .insert key value ∨ ∃ provider first,
      h = first ++ [⟨.startProvider key provider, ()⟩, ⟨.awaitProvider key provider, some (.ok value)⟩]
  | _ => True

theorem keeps_resolveChain (chain : List Provider) : ∀ h (last : Option String),
    Keeps (Allows op) (fun _ _ => True) h (resolveChain key last chain) := by
  induction chain with
  | nil => exact fun _ _ => trivial
  | cons provider chain ih =>
    refine fun h last => ⟨trivial, fun _ => ⟨trivial, fun answer => ?_⟩⟩
    match answer with
    | none => exact trivial
    | some (.ok resolved) => exact ⟨.inr ⟨provider, h, by simp⟩, fun _ => trivial⟩
    | some (.error (.Unavailable details)) => exact ih _ _
    | some (.error (.Backend _)) => exact trivial

theorem keeps_resolveLocked (chain : List Provider) :
    Keeps (Allows op) (fun _ _ => True) h (resolveLocked key chain) := by
  refine ⟨trivial, fun found => ?_⟩
  match found with
  | (_, some _) => exact trivial
  | (_, none) =>
    change Keeps _ _ _ (if chain.isEmpty then _ else _)
    split
    · exact trivial
    · exact keeps_resolveChain chain _ _

theorem keeps_resolve (chain : List Provider) : Keeps (Allows op) (fun _ _ => True) h (resolve key chain) := by
  refine ⟨trivial, fun found => ?_⟩
  match found with
  | (_, some _) => exact trivial
  | (_, none) =>
    refine ⟨trivial, fun acquired => ?_⟩
    match acquired with
    | none => exact trivial
    | some () =>
      refine keeps_bind.mpr (keeps_bind.mpr ?_)
      exact (keeps_resolveLocked chain).imp fun _ _ _ => ⟨trivial, fun _ => trivial⟩

theorem keeps_insert : Keeps (Allows (.insert key value)) (fun _ _ => True) h (insert key value) := by
  refine ⟨trivial, fun acquired => ?_⟩
  match acquired with
  | none => exact trivial
  | some () => exact ⟨.inl rfl, fun _ => ⟨trivial, fun _ => trivial⟩⟩

/-- A call does what it may. -/
theorem follows (op : Op Secret) : op.thread.Follows (Allows op) [] := by
  cases op with
  | resolve key chain => exact (keeps_resolve chain).follows
  | insert key value => exact keeps_insert.follows
  | invalidate key => exact ⟨trivial, fun _ => trivial⟩

end Calls

/-! ### What a step does -/

section Steps

/-- A step stores an entry, removes one, or leaves the epoch and the entries. -/
inductive Effect (σ σ' : State Secret ι) : Step Secret ι → Prop
  | stored (t : ι) (key : Key) (value : ResolvedCredential Secret) (now : Reading) (h : σ' = σ.store key value now) :
      Effect σ σ' (.act t (.store key value) now)
  | removed (t : ι) (key : Key) (epoch : σ'.credEpoch = Word64.saturatingAdd σ.credEpoch 1)
      (entries : σ'.entries = Function.update σ.entries key none) : Effect σ σ' (.act t (.invalidate key) true)
  | left (l : Step Secret ι) (hl : ¬Changes l) (epoch : σ'.credEpoch = σ.credEpoch) (entries : σ'.entries = σ.entries)
      (absent : ∀ t key removed, l = .act t (.invalidate key) removed → σ.entries key = none) : Effect σ σ' l

variable [DecidableEq Secret] [DecidableEq ι] {config : CredentialCacheConfig} {s s' : Calls Secret ι}
  {l : Step Secret ι}
  {trace : List (Step Secret ι)} {key : Key}

omit [DecidableEq ι] in
theorem effect_exec {σ σ' : State Secret ι} {t : ι} {a : Act Secret} {r : a.Answer}
    (h : σ.exec config t a r = some σ') :
    Effect σ σ' (.act t a r) := by
  cases a with
  | readFresh key =>
    obtain ⟨-, hσ⟩ := Option.ite_none_right_eq_some.mp h
    cases hσ
    exact .left _ id rfl rfl nofun
  | lock key =>
    match r, h with
    | none, h =>
      cases h
      exact .left _ id rfl rfl nofun
    | some (), h =>
      obtain ⟨-, hσ⟩ := Option.ite_none_right_eq_some.mp h
      cases hσ
      exact .left _ id rfl rfl nofun
  | unlock key =>
    cases h
    exact .left _ id rfl rfl nofun
  | startProvider key provider =>
    cases h
    exact .left _ id rfl rfl nofun
  | awaitProvider key provider =>
    cases h
    exact .left _ id rfl rfl nofun
  | store key value => exact .stored t key value r (Option.some.inj h).symm
  | invalidate key =>
    obtain ⟨rfl, hσ⟩ := Option.ite_none_right_eq_some.mp h
    cases hσ
    cases hentry : (σ.entries key).isSome with
    | true =>
      exact .removed t key (by rw [State.invalidate_of_isSome hentry]) (by rw [State.invalidate_of_isSome hentry])
    | false =>
      refine .left _ (fun h => nomatch h) ?_ ?_ ?_
      · rw [State.invalidate_of_isNone hentry]
      · rw [State.invalidate_of_isNone hentry]
      · rintro t' key' removed hl
        cases hl
        simpa using hentry

theorem effect_silent (hl : l.Silent) (h : s.next config l = some s') : Effect s.shared s'.shared l := by
  have hσ : s'.shared = s.shared := Threads.shared_of_silent hl h
  refine .left l ?_ (congrArg _ hσ) (congrArg _ hσ) ?_
  · cases l with
    | act t a r => exact hl.elim
    | _ => exact id
  · rintro t key removed rfl
    exact hl.elim

theorem effect_next (h : s.next config l = some s') : Effect s.shared s'.shared l := by
  cases l with
  | act t a r => exact effect_exec (Threads.exec_of_step h)
  | _ => exact effect_silent trivial h

end Steps

/-! ### The epoch -/

section Epoch

variable [DecidableEq Secret] [DecidableEq ι] {config : CredentialCacheConfig} {s s' : Calls Secret ι}
  {trace : List (Step Secret ι)}

/-- From one moment of a run to a later one the epoch does not decrease, and below saturation it grows where an entry
was stored or removed. -/
def EpochTells (config : CredentialCacheConfig) (trace : List (Step Secret ι)) (s : Calls Secret ι) : Prop :=
  ∀ pre post s₀, trace = pre ++ post → Runs config pre s₀ →
    s₀.shared.credEpoch ≤ s.shared.credEpoch ∧
      ((∃ l ∈ post, Changes l) → s₀.shared.credEpoch < Word64.max → s₀.shared.credEpoch < s.shared.credEpoch)

theorem epoch_le_max (h : Runs config trace s) : s.shared.credEpoch ≤ Word64.max := by
  refine h.stateInvariant (I := fun s : Calls Secret ι => s.shared.credEpoch ≤ Word64.max) ?_ ?_
  · rintro _ rfl
    exact Nat.zero_le _
  · intro s l s' hs hstep
    cases effect_next hstep with
    | stored t key value now h => exact h ▸ Word64.saturatingAdd_le_max
    | removed t key epoch _ => exact epoch ▸ Word64.saturatingAdd_le_max
    | left l _ epoch _ _ => exact epoch ▸ hs

omit [DecidableEq Secret] [DecidableEq ι] in
theorem Effect.epoch {σ σ' : State Secret ι} {l : Step Secret ι} (h : Effect σ σ' l) (hmax : σ.credEpoch ≤ Word64.max) :
    σ.credEpoch ≤ σ'.credEpoch ∧ (Changes l → σ.credEpoch < Word64.max → σ.credEpoch < σ'.credEpoch) := by
  cases h with
  | stored t key value now h => exact h ▸ ⟨Word64.le_saturatingAdd hmax, fun _ => Word64.lt_saturatingAdd⟩
  | removed t key epoch _ => exact epoch ▸ ⟨Word64.le_saturatingAdd hmax, fun _ => Word64.lt_saturatingAdd⟩
  | left l hl epoch _ _ => exact epoch ▸ ⟨le_rfl, fun hl' => absurd hl' hl⟩

theorem runs_unique {s₁ s₂ : Calls Secret ι} (h₁ : Runs config trace s₁) (h₂ : Runs config trace s₂) : s₁ = s₂ :=
  h₁.unique (fun _ _ _ _ h h' => Option.some.inj (h.symm.trans h')) (fun _ _ h h' => h.trans h'.symm) h₂

theorem epoch_tells (h : Runs config trace s) : EpochTells config trace s := by
  refine h.invariant (I := EpochTells config) ?_ ?_
  · rintro s hs pre post s₀ hsplit h₀
    obtain ⟨rfl, rfl⟩ := List.append_eq_nil_iff.mp hsplit.symm
    obtain rfl := runs_unique h₀ (.start hs)
    exact ⟨le_rfl, fun hl => by simp at hl⟩
  · intro trace s l s' hrun ih hstep pre post s₀ hsplit h₀
    rcases List.eq_nil_or_concat post with rfl | ⟨post, l', rfl⟩
    · obtain rfl : pre = trace ++ [l] := by simpa using hsplit.symm
      obtain rfl := runs_unique h₀ (hrun.step hstep)
      exact ⟨le_rfl, fun hl => by simp at hl⟩
    · have hsplit' : trace ++ [l] = (pre ++ post) ++ [l'] := by simpa using hsplit
      obtain ⟨rfl, hl⟩ := List.append_inj' hsplit' rfl
      obtain rfl := List.singleton_inj.mp hl
      obtain ⟨hle, hlt⟩ := ih pre post s₀ rfl h₀
      obtain ⟨hle', hlt'⟩ := (effect_next hstep).epoch (epoch_le_max hrun)
      refine ⟨hle.trans hle', ?_⟩
      rintro ⟨l', hl', hchanges⟩ hmax
      rw [List.concat_eq_append, List.mem_append, List.mem_singleton] at hl'
      rcases hl' with hl' | rfl
      · exact (hlt ⟨l', hl', hchanges⟩ hmax).trans_le hle'
      · rcases hle.lt_or_eq with hlt | heq
        · exact hlt.trans_le hle'
        · exact heq ▸ hlt' hchanges (heq ▸ hmax)

end Epoch

/-! ### The entries -/

section Entries

variable [DecidableEq Secret] [DecidableEq ι] {config : CredentialCacheConfig} {s s' : Calls Secret ι}
  {trace : List (Step Secret ι)}

/-- The value has been stored under the key, which has not been invalidated since. -/
def StoredLast (trace : List (Step Secret ι)) (key : Key) (value : ResolvedCredential Secret) : Prop :=
  ∃ upTo t now since, trace = upTo ++ (.act t (.store key value) now : Step Secret ι) :: since ∧
    ∀ t' removed, .act t' (.invalidate key) removed ∉ since

variable {value : ResolvedCredential Secret} {key : Key}

omit [DecidableEq Secret] [DecidableEq ι] in
theorem StoredLast.concat {l : Step Secret ι} (h : StoredLast trace key value)
    (hl : ∀ t removed, l ≠ .act t (.invalidate key) removed) : StoredLast (trace ++ [l]) key value := by
  obtain ⟨upTo, t, now, since, rfl, hsince⟩ := h
  refine ⟨upTo, t, now, since ++ [l], by simp, fun t' removed hmem => ?_⟩
  rcases List.mem_append.mp hmem with hmem | hmem
  · exact hsince t' removed hmem
  · exact hl t' removed (List.mem_singleton.mp hmem).symm

/-- What is there has been stored, and its key has not been invalidated since. -/
theorem storedLast_of_entry (h : Runs config trace s) :
    ∀ key entry, s.shared.entries key = some entry → StoredLast trace key entry.value := by
  refine h.invariant (I := fun trace s => ∀ key entry, s.shared.entries key = some entry →
    StoredLast trace key entry.value) ?_ ?_
  · rintro _ rfl key entry ⟨⟩
  · intro trace s l s' _ ih hstep key entry hentry
    cases effect_next hstep with
    | stored t key' value now h =>
      rw [h, State.store_entries] at hentry
      by_cases hkey : key = key'
      · subst hkey
        rw [Function.update_self] at hentry
        cases hentry
        exact ⟨trace, t, now, [], rfl, fun _ _ => List.not_mem_nil⟩
      · rw [Function.update_of_ne hkey] at hentry
        exact (ih key entry hentry).concat fun _ _ h => nomatch h
    | removed t key' _ entries =>
      rw [entries] at hentry
      by_cases hkey : key = key'
      · subst hkey
        rw [Function.update_self] at hentry
        cases hentry
      · rw [Function.update_of_ne hkey] at hentry
        refine (ih key entry hentry).concat ?_
        rintro t' removed hl
        cases hl
        exact hkey rfl
    | left l _ _ entries absent =>
      rw [entries] at hentry
      refine (ih key entry hentry).concat fun t removed hl => ?_
      rw [absent t key removed hl] at hentry
      cases hentry

variable {post pre : List (Step Secret ι)}

/-- A value that is stored is one that `insert` stores, or one that a provider has just given. -/
theorem stored_of_run {t : ι} {now : Reading} (h : Runs config (pre ++ .act t (.store key value) now :: post) s) :
    Inserting pre t key value ∨ Provided pre t key value := by
  obtain ⟨before, op, during, hsince, hallows⟩ :=
    Threads.allowed_of_run follows (fun _ hs t => by rw [hs]; rfl) (fun _ _ _ hT => hT) h
  rcases hallows with rfl | ⟨provider, first, hacts⟩
  · exact .inl ⟨before, during, hsince⟩
  · obtain ⟨p, q, rfl, -, hq⟩ := exists_of_actsOf hacts
    exact .inr ⟨before ++ .call t op :: p, provider, q, by rw [hsince.split]; simp, hq⟩

/-- What is found is fresh. -/
theorem entry_of_found {t : ι} {now : Reading}
    (h : Runs config (pre ++ .act t (.readFresh key) (now, some value) :: post) s) : StoredLast pre key value := by
  obtain ⟨s₀, s₁, hrun, hstep⟩ := h.split
  obtain ⟨hfound, -⟩ := Option.ite_none_right_eq_some.mp (Threads.exec_of_step hstep)
  obtain ⟨entry, hentry, hfresh⟩ := Option.bind_eq_some_iff.mp hfound.symm
  obtain ⟨-, hvalue⟩ := Option.ite_none_right_eq_some.mp hfresh
  cases hvalue
  exact storedLast_of_entry hrun key entry hentry

end Entries

/-! ### What is invalidated stays gone -/

section Gone

variable [DecidableEq Secret] [DecidableEq ι] {config : CredentialCacheConfig} {s : Calls Secret ι}
  {trace : List (Step Secret ι)}

/-- In a run in which no key is invalidated between the start of a provider's call and the store of what it gave, what
is invalidated stays gone. -/
theorem stays_gone (h : Runs config trace s) (htimely : Timely trace) : StaysGone trace := by
  rintro pre t key removed mid t' now value post rfl
  have hrun : Runs config ((pre ++ (.act t (.invalidate key) removed : Step Secret ι) :: mid) ++
      (.act t' (.readFresh key) (now, some value) : Step Secret ι) :: post) s := by simpa using h
  obtain ⟨upTo, u, at', since, hstored, hsince⟩ := entry_of_found hrun
  -- The store is past the invalidation.
  obtain ⟨b, rfl, rfl⟩ := List.after_of_not_mem hstored (hsince t removed) (fun h => nomatch h)
  refine ⟨b, u, at', since, rfl, ?_⟩
  have hstore : Runs config ((pre ++ (.act t (.invalidate key) removed : Step Secret ι) :: b) ++
        (.act u (.store key value) at' : Step Secret ι) ::
      (since ++ (.act t' (.readFresh key) (now, some value) : Step Secret ι) :: post)) s := by simpa using hrun
  rcases stored_of_run hstore with hinsert | ⟨p, provider, q, hsplit, hq⟩
  · exact .inl hinsert
  -- The provider's call is past it too, for it has not been made between the two.
  · have hbetween : (.act t (.invalidate key) removed : Step Secret ι) ∉ q := by
      refine htimely p u key provider q value at'
        (since ++ (.act t' (.readFresh key) (now, some value) : Step Secret ι) :: post) ?_ hq t removed
      simpa using congrArg (· ++ (.act u (.store key value) at' ::
        (since ++ .act t' (.readFresh key) (now, some value) :: post))) hsplit
    obtain ⟨b', -, rfl⟩ := List.after_of_not_mem hsplit hbetween (fun h => nomatch h)
    exact .inr ⟨b', provider, q, rfl, hq⟩

end Gone

/-- In every run the epoch tells of every change, and **what is invalidated stays gone** in each run in which no key is
invalidated between the start of a provider's call and the store of what it gave. -/
theorem invalidated_stays_gone [DecidableEq Secret] [DecidableEq ι] (config : CredentialCacheConfig)
    {trace : List (Step Secret ι)} {s : Calls Secret ι} (h : Runs config trace s) :
    EpochTells config trace s ∧ (Timely trace → StaysGone trace) :=
  ⟨epoch_tells h, stays_gone h⟩

/-- A run is timely where every invalidation is before every call of a provider. -/
theorem timely_append {first rest : List (Step Secret ι)} [DecidableEq ι]
    (hfirst : ∀ t key provider, .act t (.startProvider key provider) () ∉ first)
    (hrest : ∀ t key removed, .act t (.invalidate key) removed ∉ rest) : Timely (first ++ rest) := by
  intro p t key provider q value now post hsplit _ t' removed hmem
  rcases List.append_eq_append_iff.mp hsplit with ⟨between, rfl, rfl⟩ | ⟨between, rfl, hlast⟩
  · exact hrest t' key removed (by simp [hmem])
  · cases between with
    | nil => exact hrest t' key removed (by rw [← List.nil_append rest, ← hlast]; simp [hmem])
    | cons l between =>
      obtain ⟨rfl, -⟩ := List.cons.inj hlast
      exact hfirst t key provider (by simp)

/-! ### An invalidation that comes too soon -/

namespace Samples

def key : Key := ⟨"s3", "u-1"⟩

def credential (bytes : String) : ResolvedCredential String := ⟨bytes, none, "env"⟩

def now : Reading := ⟨0, 0⟩

/-- A credential is inserted and invalidated. -/
def rejected : List (Step String Bool) :=
  [.call true (.insert key (credential "old")), .act true (.lock key) (some ()),
    .act true (.store key (credential "old")) now,
    .act true (.unlock key) (), .call true (.invalidate key), .act true (.invalidate key) true]

/-- A `resolve` gets a credential from its provider. -/
def provides (bytes : String) : List (Step String Bool) :=
  [.call false (.resolve key [0]), .act false (.readFresh key) (now, none), .act false (.lock key) (some ()),
    .act false (.readFresh key) (now, none), .act false (.startProvider key 0) (),
    .act false (.awaitProvider key 0) (some (.ok (credential bytes)))]

/-- It stores what it has got, which the next one finds. -/
def stores (bytes : String) : List (Step String Bool) :=
  [.act false (.store key (credential bytes)) now, .act false (.unlock key) (), .call true (.resolve key [0])]

def finds (bytes : String) : Step String Bool := .act true (.readFresh key) (now, some (credential bytes))

end Samples

open Samples in
/-- After a credential is invalidated, one that is asked for since is served. -/
theorem invalidated_stays_gone_asked :
    ∃ s, Runs .default (rejected ++ (provides "new" ++ stores "new" ++ [finds "new"])) s ∧
    EpochTells .default (rejected ++ (provides "new" ++ stores "new" ++ [finds "new"])) s ∧
    StaysGone (rejected ++ (provides "new" ++ stores "new" ++ [finds "new"])) := by
  obtain ⟨s, hrun, -⟩ := @Run.of_any _ _ (fun s : Calls String Bool => s = .idle .new)
    (fun s l s' => s.next .default l = some s') _ (fun _ _ _ h => h) _ rfl
    (rejected ++ (provides "new" ++ stores "new" ++ [finds "new"])) (fun _ => true) (by decide +kernel)
  obtain ⟨hepoch, hgone⟩ := invalidated_stays_gone .default hrun
  refine ⟨s, hrun, hepoch, hgone (timely_append ?_ ?_)⟩
  · simp [rejected]
  · simp [provides, stores, finds]

open Samples in
/-- A credential is invalidated while a `resolve` holds what its provider has given, and the next `resolve` finds that.
-/
theorem invalidated_returns : ∃ trace, ∃ s : Calls String Bool, Runs .default trace s ∧ ¬StaysGone trace := by
  obtain ⟨s, hrun, -⟩ := @Run.of_any _ _ (fun s : Calls String Bool => s = .idle .new)
    (fun s l s' => s.next .default l = some s') _ (fun _ _ _ h => h) _ rfl
    (provides "old" ++ [.call true (.invalidate key), .act true (.invalidate key) false] ++
      stores "old" ++ [finds "old"])
    (fun _ => true) (by decide +kernel)
  refine ⟨_, s, hrun, fun hgone => ?_⟩
  obtain ⟨b, u, at', c, hb, hstored⟩ :=
      hgone (provides "old" ++ [.call true (.invalidate key)]) true key false (stores "old") true now
    (credential "old") [] (by simp [finds])
  rcases hstored with ⟨before, during, hsince⟩ | ⟨p, provider, q, rfl, -⟩
  · have hcall : Event.call u (Op.insert key (credential "old")) ∈ stores "old" ∨
        Event.call u (Op.insert key (credential "old")) ∈ provides "old" := by
      have hmem : Event.call u (Op.insert key (credential "old")) ∈
          (provides "old" ++ [.call true (.invalidate key)]) ++
            (.act true (.invalidate key) false : Step String Bool) :: b := by
        rw [hsince.split]
        simp
      rw [hb]
      simp at hmem ⊢
      tauto
    simp [stores, provides] at hcall
  · have hstart : (.act u (.startProvider key provider) () : Step String Bool) ∈ stores "old" := by
      rw [hb]
      simp
    simp [stores] at hstart

end OvStorage.Auth
