import OvStorage.Cache.Coherence
import OvStorage.Lib.Interleave

/-!
# Fills and mutations in flight

The endpoints of `MetadataCacheWrapper` as concurrent calls: a `stat` or a `list` is an inner call
and then the inserts of its rows, a `write` or a `delete` an inner call and then two invalidations.

## The model

Each endpoint of `OvStorage.Cache.Wrapper` is a program of atomic actions: one for each time it
takes the lock of the cache, one for the moment within an inner call at which the backend produces
its answer or commits. A clock numbers what the backend does. For each key the state remembers
when the data last stored under it was produced, and for each `stat` that has answered which
mutations had returned when it began.

## What is proved

* `no_stale_answer`: where no insert stores what a mutation has already dropped, no `stat` is answered with data older
  than a mutation of its node that had returned.
* `stale_fill`: an insert that comes after the invalidation outlives it.
-/

namespace OvStorage.Cache.Fills

open Address SegList Listing Interleave

/-- A mutation, and when the backend committed it. -/
structure Committed where
  address : Url
  moment : ℕ
deriving DecidableEq

/-- A `stat` that has been answered. -/
structure Answered where
  address : Url
  /-- The mutations that had returned when it began. -/
  returned : List Committed
  /-- When the backend produced what it was answered from. -/
  producedAt : ℕ
deriving DecidableEq

/-- The cache and the backend's clock, and what the calls have done. -/
structure Shared where
  cache : CacheState CachedInfo
  /-- When the backend produced the data that was last stored under a key. -/
  producedAt : MetadataCacheKey → ℕ
  clock : ℕ
  /-- The mutations that have been through `invalidate_address`. -/
  forgotten : List Committed
  /-- The mutations that have been through `invalidate_lists_containing`. -/
  unlisted : List Committed
  returned : List Committed
  answers : List Answered

/-- What a call does at one moment. -/
inductive Action
  | begins
  | get (key : MetadataCacheKey) (requested : CostFlags)
  | insert (key : MetadataCacheKey) (payload : MetadataCachePayload CachedInfo) (flags : CostFlags) (producedAt : ℕ)
  | invalidateAddress (mutation : Committed)
  | invalidateListsContaining (mutation : Committed)
  /-- `root_info_for` of a parent: whether its route lists, and wants list-backed stats. -/
  | optedIn (parent : Url)
  | innerStat (address : Url) (flags : CostFlags)
  | innerList (listed : Url) (options : ListOptions)
  | innerMutate (address : Url)
  | answers (answer : Answered)
  | returns (mutation : Committed)
deriving DecidableEq

/-- What a lookup meets: the time, the row, and when its data was produced. -/
structure Looked where
  now : Nanos
  lookup : MetadataLookup CachedInfo
  producedAt : ℕ

/-- What an insert meets: the time, and how the rows it may evict are sorted. -/
structure Stored where
  now : Nanos
  sorter : Sorter

/-- What an action answers. -/
abbrev Answer : Action → Type
  | .begins => List Committed
  | .get _ _ => Looked
  | .insert _ _ _ _ => Stored
  | .optedIn _ => Bool
  | .innerStat _ _ => Except Refusal CachedInfo × ℕ
  | .innerList _ _ => Except Refusal (ListPage CachedInfo) × ℕ
  -- the moment of the commit of a mutation that succeeds
  | .innerMutate _ => Option ℕ
  | _ => Unit

/-- The backend produces something, at the moment that the clock shows. -/
def Shared.ticks (s : Shared) (moment : ℕ) : Option Shared :=
  if moment = s.clock then some { s with clock := s.clock + 1 } else none

/-- What an action does. -/
def Shared.exec {ι : Type} (w : MetadataCacheWrapper) (_ : ι) : (a : Action) → Answer a → Shared → Option Shared
  | .begins, r, s => if r = s.returned then some s else none
  | .get key requested, r, s =>
    let (lookup, cache) := s.cache.get r.now key requested
    if r.lookup = lookup ∧ r.producedAt = s.producedAt key then some { s with cache := cache } else none
  | .insert key payload flags producedAt, r, s =>
    let victims := r.sorter.victims (s.cache.remove key)
    some { s with
      cache := (s.cache.insert w.limits r.now key payload flags victims).2
      producedAt := Function.update s.producedAt key producedAt }
  | .invalidateAddress mutation, _, s =>
    some { s with
      cache := s.cache.invalidateAddress w.U mutation.address
      forgotten := mutation :: s.forgotten }
  | .invalidateListsContaining mutation, _, s =>
    some { s with
      cache := s.cache.invalidateListsContaining mutation.address
      unlisted := mutation :: s.unlisted }
  | .optedIn _, _, s => some s
  | .innerStat _ _, r, s => s.ticks r.2
  | .innerList _ _, r, s => s.ticks r.2
  | .innerMutate _, r, s => match r with
    | none => some s
    | some moment => s.ticks moment
  | .answers answer, _, s => some { s with answers := answer :: s.answers }
  | .returns mutation, _, s => some { s with returned := mutation :: s.returned }

/-! ### The endpoints as programs -/

/-- What is left of a call. -/
abbrev Call := Prog Answer

section Programs

variable (w : MetadataCacheWrapper)

/-- The rows that a page fills for its files. -/
def storeItems (listed : Url) (principal : Option String) (flags : CostFlags) (producedAt : ℕ) (k : Call) :
    List CachedInfo → Call
  | [] => k
  | item :: items =>
    let key := MetadataCacheWrapper.statKey principal (credentialScope w.digest listed) item.address
    if item.kind = .File then
      .act (.insert key (.Stat item) flags producedAt) fun _ => storeItems listed principal flags producedAt k items
    else storeItems listed principal flags producedAt k items

/-- `store_list`. -/
def storeList (listed : Url) (options : ListOptions) (page : ListPage CachedInfo) (principal : Option String)
    (producedAt : ℕ) (k : Call) : Call :=
  if listIsCacheable listed options then
    let flags : CostFlags := ⟨false, options.versionedAddress⟩
    .act (.insert (w.listKey principal listed) (.List page) flags producedAt) fun _ =>
      storeItems w listed principal flags producedAt k page.items
  else k

/-- A `stat` ends with an answer. -/
def answer (address : Url) (returned : List Committed) (producedAt : ℕ) : Call :=
  .act (.answers ⟨address, returned, producedAt⟩) fun _ => .ret

/-- `find_in_page`, and how the `stat` goes on. -/
def answerFromPage (page : ListPage CachedInfo) (address : Url) (returned : List Committed) (producedAt : ℕ)
    (k : Call) : Call :=
  match findInPage page address with
  | .Unavailable => k
  | _ => answer address returned producedAt

/-- The part of `stat_from_parent_list` behind its look at the cache. -/
def statFromFreshList (request : StatRequest) (parent : Url) (returned : List Committed) (k : Call) : Call :=
  if !request.options.isEmpty then k
  else .act (.optedIn parent) fun
    | false => k
    | true => .act (.innerList parent .default) fun
      | (.error _, _) => k
      | (.ok page, producedAt) => storeList w parent .default page request.principal producedAt
          (answerFromPage page request.address returned producedAt k)

/-- `stat_from_parent_list`; `k` is a `stat` that it leaves to the inner layer. -/
def statFromParentList (request : StatRequest) (returned : List Committed) (k : Call) : Call :=
  if request.address.query.isSome || request.address.fragment.isSome then k
  else if endsWithSlash request.address then k
  else match parentAndName w.U request.address with
    | none => k
    | some (parent, _) => .act (.get (w.listKey request.principal parent) request.options) fun r => match r.lookup with
      | .Hit (.List page) => answerFromPage page request.address returned r.producedAt k
      | _ => statFromFreshList w request parent returned k

/-- The inner `stat` of a request, with the row it fills. -/
def statInner (request : StatRequest) (upstream : CostFlags) (returned : List Committed) : Call :=
  .act (.innerStat request.address upstream) fun
    | (.error _, producedAt) => answer request.address returned producedAt
    | (.ok info, producedAt) =>
      let key :=
        MetadataCacheWrapper.statKey request.principal (credentialScope w.digest request.address) request.address
      if statIsCacheable request.address then
        .act (.insert key (.Stat info) upstream producedAt) fun _ => answer request.address returned producedAt
      else answer request.address returned producedAt

/-- `stat`. -/
def stat (request : StatRequest) : Call :=
  .act .begins fun returned =>
    if request.credentialed then
      .act (.innerStat request.address request.options) fun r => answer request.address returned r.2
    else if statIsCacheable request.address then
      let key :=
        MetadataCacheWrapper.statKey request.principal (credentialScope w.digest request.address) request.address
      .act (.get key request.options) fun r => match r.lookup with
        | .Hit (.Stat _) => answer request.address returned r.producedAt
        | .Narrower stored =>
          statFromParentList w request returned (statInner w request (stored.union request.options) returned)
        | _ => statFromParentList w request returned (statInner w request request.options returned)
    else statInner w request request.options returned

/-- `list`. -/
def list (request : ListRequest) : Call :=
  .act (.innerList request.address request.options) fun
    | (.error _, _) => .ret
    | (.ok page, producedAt) =>
      if request.credentialed then .ret
      else storeList w request.address request.options page request.principal producedAt .ret

/-- `invalidate_for`, and the return of the mutation. -/
def invalidateFor (mutation : Committed) : Call :=
  .act (.invalidateAddress mutation) fun _ => .act (.invalidateListsContaining mutation) fun _ =>
    .act (.returns mutation) fun _ => .ret

/-- `write` and `write_stream`. -/
def write (address : Url) : Call :=
  .act (.innerMutate address) fun
    | none => .ret
    | some moment => invalidateFor ⟨address, moment⟩

/-- `delete`. -/
def delete (address : Url) : Call :=
  .act (.innerMutate address) fun
    | none => .ret
    | some moment => invalidateFor ⟨address, moment⟩

end Programs

/-- What may be called, any number of times and in any interleaving. -/
inductive Operation (U : UrlCrate)
  | stat (request : StatRequest) (canonical : Canonical U request.address)
  | list (request : ListRequest)
  | write (address : Url) (canonical : Canonical U address)
  | delete (address : Url) (canonical : Canonical U address)

/-- The program of an operation. -/
def Operation.program (w : MetadataCacheWrapper) : Operation w.U → Call
  | .stat request _ => Fills.stat w request
  | .list request => Fills.list w request
  | .write address _ => Fills.write address
  | .delete address _ => Fills.delete address

/-- The wrapper and everybody that calls it. -/
abbrev System (ι : Type) := Threads ι Shared Answer

/-- Nothing has been called. -/
def System.initial {ι : Type} : System ι :=
  .idle ⟨CacheState.empty, fun _ => 0, 0, [], [], [], []⟩

def System.Initial {ι : Type} (s : System ι) : Prop := s = System.initial

/-- One step of a system. -/
abbrev Step (w : MetadataCacheWrapper) (ι : Type) := Interleave.Event ι (Operation w.U) Answer

section Runs

variable {ι : Type} [DecidableEq ι]

def System.step (w : MetadataCacheWrapper) (s : System ι) (l : Step w ι) : Option (System ι) :=
  Threads.step (Shared.exec w) (Operation.program w) s l

/-- The runs whose steps all meet a condition. -/
abbrev RunsWhen (w : MetadataCacheWrapper) (C : System ι → Step w ι → Prop) (trace : List (Step w ι)) (s : System ι) :
    Prop :=
  Run System.Initial (fun s l s' => s.step w l = some s' ∧ C s l) trace s

/-- A run to a state that passes a test, by executing its trace. -/
theorem exists_runWhen {w : MetadataCacheWrapper} {C : System ι → Step w ι → Prop}
    {f : System ι → Step w ι → Option (System ι)} (hf : ∀ s l s', f s l = some s' → s.step w l = some s' ∧ C s l)
    (trace : List (Step w ι)) (p : System ι → Bool) (h : (trace.foldlM f System.initial).any p = true) :
    ∃ s, RunsWhen w C trace s ∧ p s = true :=
  have hinitial : (System.initial : System ι).Initial := rfl
  Run.of_any hf hinitial h

end Runs

/-! ### What the steps keep -/

/-- A row of this key may answer a `stat` of the address. -/
def MayAnswer (U : UrlCrate) (key : MetadataCacheKey) (a : Url) : Prop :=
  match key.kind with
  | .Stat => key.address = nodeAddress a
  | .List => a.query = none ∧
      ∃ parent name, parentAndName U a = some (parent, name) ∧ key.address = (nodeSpellings U parent).2
  | .ListVersions => False

/-- The data is no older than the mutations of the nodes that a row of this key may answer for. -/
def NoOlder (U : UrlCrate) (key : MetadataCacheKey) (producedAt : ℕ) (mutations : List Committed) : Prop :=
  ∀ m ∈ mutations, ∀ a, Canonical U a → nodeKey a.toParts = nodeKey m.address.toParts → MayAnswer U key a →
    m.moment ≤ producedAt

/-- The mutations that have dropped the rows of that kind that they reach. -/
def Shared.dropped (s : Shared) : MetadataKind → List Committed
  | .Stat => s.forgotten
  | .List => s.unlisted
  | .ListVersions => []

/-- A `stat` was answered with data no older than the mutations of its node that it follows. -/
def Answered.UpToDate (answer : Answered) : Prop :=
  ∀ m ∈ answer.returned, nodeKey answer.address.toParts = nodeKey m.address.toParts → m.moment ≤ answer.producedAt

/-- The invariant of the shared state. -/
structure Inv (U : UrlCrate) (s : Shared) : Prop where
  rows : ∀ row ∈ s.cache.entries.rows, NoOlder U row.1 (s.producedAt row.1) (s.dropped row.1.kind)
  returned : ∀ m ∈ s.returned, m ∈ s.forgotten ∧ m ∈ s.unlisted ∧ m.moment < s.clock
  answers : ∀ answer ∈ s.answers, answer.UpToDate

/-- What a call may rely on while the others act. -/
structure Grows (s s' : Shared) : Prop where
  forgotten : s.forgotten ⊆ s'.forgotten
  unlisted : s.unlisted ⊆ s'.unlisted
  returned : s.returned ⊆ s'.returned
  clock : s.clock ≤ s'.clock

theorem Grows.refl (s : Shared) : Grows s s := ⟨List.Subset.refl _, List.Subset.refl _, List.Subset.refl _, le_rfl⟩

theorem Grows.trans {s₁ s₂ s₃ : Shared} (h : Grows s₁ s₂) (k : Grows s₂ s₃) : Grows s₁ s₃ :=
  ⟨List.Subset.trans h.forgotten k.forgotten, List.Subset.trans h.unlisted k.unlisted,
    List.Subset.trans h.returned k.returned, h.clock.trans k.clock⟩

/-- An insert that the cache keeps stores nothing older than a mutation that has already dropped
the rows of its node. -/
def Timely (w : MetadataCacheWrapper) (s : Shared) : Action → Prop
  | .insert key payload _ producedAt =>
    max (objectInfoCount payload) 1 ≤ w.limits.maxEntries → NoOlder w.U key producedAt (s.dropped key.kind)
  | _ => True

/-- What a call owes for an action to keep the invariant. -/
def Owes (U : UrlCrate) (s : Shared) : Action → Prop
  | .invalidateAddress mutation => Canonical U mutation.address
  | .invalidateListsContaining mutation => Canonical U mutation.address
  | .answers answer => answer.UpToDate
  | .returns mutation => mutation ∈ s.forgotten ∧ mutation ∈ s.unlisted ∧ mutation.moment < s.clock
  | _ => True

section Steps

variable {ι : Type} {w : MetadataCacheWrapper} {s s' : Shared} {t : ι}

variable {key : MetadataCacheKey}

/-- The listing row that may answer a `stat` of an address is one that the sweep of its node drops. -/
theorem mayAnswer_list_removed {U : UrlCrate} (law : U.Lawful) {a u : Url} (ha : Canonical U a)
    (hu : Canonical U u) (hsame : nodeKey a.toParts = nodeKey u.toParts) (hkind : key.kind = .List)
    (h : MayAnswer U key a) : (Op.invalidateListsContaining u : Op CachedInfo).removes U key = true := by
  rw [MayAnswer, hkind] at h
  obtain ⟨hquery, parent, name, hparent, hkey⟩ := h
  obtain ⟨hplain, last, hchild⟩ := parentAndName_spec law ⟨ha, hquery⟩ hparent
  obtain ⟨p, hp, hspelling, hnode⟩ := exists_directorySpelling law hplain
  have hcovers : (nodeOf p.toParts).Covers (nodeOf u.toParts) := by
    rw [hnode, ← (nodeKey_eq_iff law ha hu).mp hsame, hchild]
    exact Node.covers_child _ last
  have hunder : isUnderPrefix (nodeAddress u) key.address = true := by
    rw [hkey, ← hspelling, isUnderPrefix_nodeAddress law hu hp.canonical]
    exact (isAncestorOrSelf_iff law hp.canonical hu).mpr hcovers
  simp [Op.removes, hkind, hunder]

/-- So is the row of its own. -/
theorem mayAnswer_stat_removed {U : UrlCrate} (law : U.Lawful) {a u : Url} (ha : Canonical U a)
    (hu : Canonical U u) (hsame : nodeKey a.toParts = nodeKey u.toParts) (hkind : key.kind = .Stat)
    (h : MayAnswer U key a) : (Op.invalidateAddress u : Op CachedInfo).removes U key = true := by
  rw [MayAnswer, hkind] at h
  have hspelling := (nodeAddress_mem_spellings_iff law ha hu).mpr hsame
  rw [← h] at hspelling
  simpa [Op.removes] using hspelling

variable {moment : ℕ}

theorem ticks_some (h : s.ticks moment = some s') : moment = s.clock ∧ s' = { s with clock := s.clock + 1 } := by
  unfold Shared.ticks at h
  split_ifs at h with hm
  exact ⟨hm, (Option.some.inj h).symm⟩

theorem grows_ticks (h : s.ticks moment = some s') : Grows s s' := by
  obtain ⟨-, rfl⟩ := ticks_some h
  exact { Grows.refl s with clock := Nat.le_succ _ }

theorem grows_of_exec {a : Action} {r : Answer a} (h : s.exec w t a r = some s') : Grows s s' := by
  cases a with
  | begins =>
    simp only [Shared.exec, Option.ite_none_right_eq_some, Option.some.injEq] at h
    exact h.2 ▸ Grows.refl s
  | get key requested =>
    obtain ⟨-, rfl⟩ := Option.of_guard h
    exact { Grows.refl s with }
  | insert key payload flags producedAt =>
    cases h
    exact { Grows.refl s with }
  | invalidateAddress mutation =>
    cases h
    exact { Grows.refl s with forgotten := List.subset_cons_self _ _ }
  | invalidateListsContaining mutation =>
    cases h
    exact { Grows.refl s with unlisted := List.subset_cons_self _ _ }
  | optedIn parent =>
    cases h
    exact Grows.refl s
  | innerStat address flags => exact grows_ticks h
  | innerList listed options => exact grows_ticks h
  | innerMutate address =>
    cases r with
    | none =>
      cases h
      exact Grows.refl s
    | some moment => exact grows_ticks h
  | answers answer =>
    cases h
    exact { Grows.refl s with }
  | returns mutation =>
    cases h
    exact { Grows.refl s with returned := List.subset_cons_self _ _ }

theorem Inv.ticks (hs : Inv w.U s) (h : s.ticks moment = some s') : Inv w.U s' := by
  obtain ⟨-, rfl⟩ := ticks_some h
  refine ⟨hs.rows, fun m hm => ?_, hs.answers⟩
  obtain ⟨hforgotten, hunlisted, hmoment⟩ := hs.returned m hm
  exact ⟨hforgotten, hunlisted, Nat.lt_succ_of_lt hmoment⟩

/-- A lookup changes no row but the one it finds expired. -/
theorem Inv.get (hs : Inv w.U s) (now : Nanos) (key : MetadataCacheKey) (requested : CostFlags) :
    Inv w.U { s with cache := (s.cache.get now key requested).2 } := by
  refine ⟨?_, hs.returned, hs.answers⟩
  rintro ⟨k, e⟩ hrow
  have hstep : Cache.Step w.U w.limits s.cache _ _ := .get s.cache now key requested
  rcases step_rows hstep hrow with ⟨e', he', -⟩ | ⟨heq, -⟩
  · exact hs.rows (k, e') he'
  · cases congrArg Event.op heq

/-- A timely insert stores a row that is no older than it may be. -/
theorem Inv.insert (hs : Inv w.U s) {payload : MetadataCachePayload CachedInfo}
    {flags : CostFlags} {producedAt : ℕ} (htimely : Timely w s (.insert key payload flags producedAt)) {r : Stored}
    (h : s.exec w t (.insert key payload flags producedAt) r = some s') : Inv w.U s' := by
  cases h
  refine ⟨?_, hs.returned, hs.answers⟩
  rintro ⟨k, e⟩ hrow
  have hstep : Cache.Step w.U w.limits s.cache _ _ := .insert s.cache r.now key payload flags
    (r.sorter.victims (s.cache.remove key)) (r.sorter.order _)
  rcases step_rows hstep hrow with ⟨e', he', -, -, hstores⟩ | ⟨heq, -⟩
  · have hne : k ≠ key := fun hk => by simp [Op.stores, hk] at hstores
    dsimp only
    rw [Function.update_of_ne hne]
    exact hs.rows (k, e') he'
  · have hop := congrArg Event.op heq
    simp only [Op.insert.injEq] at hop
    obtain ⟨rfl, -, -⟩ := hop
    dsimp only
    rw [Function.update_self]
    refine htimely (Nat.le_of_not_lt fun hlt => ?_)
    rw [insert_oversized hlt] at heq
    cases congrArg Event.answer heq

variable {mutation : Committed}

/-- A mutation that has gone through `invalidate_address` leaves no older `Stat` row of its node. -/
theorem Inv.invalidateAddress (law : w.U.Lawful) (hs : Inv w.U s) (hm : Canonical w.U mutation.address) :
    Inv w.U { s with
      cache := s.cache.invalidateAddress w.U mutation.address
      forgotten := mutation :: s.forgotten } := by
  refine ⟨?_, fun m hmem => ?_, hs.answers⟩
  · rintro ⟨k, e⟩ hrow m hmem a ha hsame hmay
    have hstep : Cache.Step w.U w.limits s.cache _ _ := .invalidateAddress s.cache 0 mutation.address
    rcases step_rows hstep hrow with ⟨e', he', -, hremoves, -⟩ | ⟨heq, -⟩
    · have hold := hs.rows (k, e') he'
      cases hkind : k.kind with
      | Stat =>
        simp only [Shared.dropped, hkind] at hmem hold
        rcases List.mem_cons.mp hmem with rfl | hmem
        · rw [mayAnswer_stat_removed law ha hm hsame hkind hmay] at hremoves
          cases hremoves
        · exact hold m hmem a ha hsame hmay
      | List =>
        simp only [Shared.dropped, hkind] at hmem hold
        exact hold m hmem a ha hsame hmay
      | ListVersions => simp [Shared.dropped, hkind] at hmem
    · cases congrArg Event.op heq
  · obtain ⟨hforgotten, hrest⟩ := hs.returned m hmem
    exact ⟨List.mem_cons_of_mem _ hforgotten, hrest⟩

/-- And after `invalidate_lists_containing` no older listing of its parent. -/
theorem Inv.invalidateListsContaining (law : w.U.Lawful) (hs : Inv w.U s)
    (hm : Canonical w.U mutation.address) : Inv w.U { s with
      cache := s.cache.invalidateListsContaining mutation.address
      unlisted := mutation :: s.unlisted } := by
  refine ⟨?_, fun m hmem => ?_, hs.answers⟩
  · rintro ⟨k, e⟩ hrow m hmem a ha hsame hmay
    have hstep : Cache.Step w.U w.limits s.cache _ _ := .invalidateListsContaining s.cache 0 mutation.address
    rcases step_rows hstep hrow with ⟨e', he', -, hremoves, -⟩ | ⟨heq, -⟩
    · have hold := hs.rows (k, e') he'
      cases hkind : k.kind with
      | List =>
        simp only [Shared.dropped, hkind] at hmem hold
        rcases List.mem_cons.mp hmem with rfl | hmem
        · rw [mayAnswer_list_removed law ha hm hsame hkind hmay] at hremoves
          cases hremoves
        · exact hold m hmem a ha hsame hmay
      | Stat =>
        simp only [Shared.dropped, hkind] at hmem hold
        exact hold m hmem a ha hsame hmay
      | ListVersions => simp [Shared.dropped, hkind] at hmem
    · cases congrArg Event.op heq
  · obtain ⟨hforgotten, hunlisted, hmoment⟩ := hs.returned m hmem
    exact ⟨hforgotten, List.mem_cons_of_mem _ hunlisted, hmoment⟩

/-- Each action keeps the invariant, once its call has paid what it owes. -/
theorem inv_of_exec (law : w.U.Lawful) {a : Action} {r : Answer a} (h : s.exec w t a r = some s') (hs : Inv w.U s)
    (htimely : Timely w s a) (howes : Owes w.U s a) : Inv w.U s' := by
  cases a with
  | begins =>
    simp only [Shared.exec, Option.ite_none_right_eq_some, Option.some.injEq] at h
    exact h.2 ▸ hs
  | get key requested =>
    obtain ⟨-, rfl⟩ := Option.of_guard h
    exact hs.get _ _ _
  | insert key payload flags producedAt => exact hs.insert htimely h
  | invalidateAddress mutation =>
    cases h
    exact hs.invalidateAddress law howes
  | invalidateListsContaining mutation =>
    cases h
    exact hs.invalidateListsContaining law howes
  | optedIn parent =>
    cases h
    exact hs
  | innerStat address flags => exact hs.ticks h
  | innerList listed options => exact hs.ticks h
  | innerMutate address =>
    cases r with
    | none =>
      cases h
      exact hs
    | some moment => exact hs.ticks h
  | answers answer =>
    cases h
    exact ⟨hs.rows, hs.returned, List.forall_mem_cons.mpr ⟨howes, hs.answers⟩⟩
  | returns mutation =>
    cases h
    exact ⟨hs.rows, List.forall_mem_cons.mpr ⟨howes, hs.returned⟩, hs.answers⟩

end Steps

/-! ### The calls -/

section Calls

variable {ι : Type} {w : MetadataCacheWrapper}

/-- The invariant, and what a call may rely on. -/
def discipline (_law : w.U.Lawful) (ι : Type) : Discipline (Shared.exec (ι := ι) w) where
  allowed _ a _ s := Timely w s a
  inv := Inv w.U
  rely _ := Grows
  quiet _ _ := True
  rely_refl _ := Grows.refl
  rely_trans := Grows.trans
  rely_of_exec _ h := grows_of_exec h
  quiet_of_rely _ h := h

variable {law : w.U.Lawful} {t : ι} {s : Shared} {k : Call}

/-- A call that is safe from this state on. -/
abbrev CallSafe (law : w.U.Lawful) (t : ι) (k : Call) (s : Shared) : Prop := (discipline law ι).Safe t k s

/-- An action whose call pays what it owes, and goes on safely from what it is answered. -/
theorem safe_act {a : Action} {k : Answer a → Call} (Q : Answer a → Prop)
    (howes : ∀ s₁, Grows s s₁ → Inv w.U s₁ → Owes w.U s₁ a)
    (hQ : ∀ s₁ r s₂, Grows s s₁ → Inv w.U s₁ → s₁.exec w t a r = some s₂ → Q r)
    (hk : ∀ s₁ r s₂, Grows s s₁ → s₁.exec w t a r = some s₂ → Q r → CallSafe law t (k r) s₂) :
    CallSafe law t (.act a k) s := by
  intro s₁ h₁ hinv r s₂ htimely hexec
  exact ⟨inv_of_exec law hexec hinv htimely (howes s₁ h₁ hinv), hk s₁ r s₂ h₁ hexec (hQ s₁ r s₂ h₁ hinv hexec)⟩

variable {key : MetadataCacheKey} {flags : CostFlags}

/-- An action that owes nothing and answers nothing of note. -/
theorem safe_insert {payload : MetadataCachePayload CachedInfo} {producedAt : ℕ} (hk : CallSafe law t k s) :
    CallSafe law t (.act (.insert key payload flags producedAt) fun _ => k) s :=
  safe_act (fun _ => True) (fun _ _ _ => trivial) (fun _ _ _ _ _ _ => trivial)
    fun _ _ _ h hexec _ => hk.mono (h.trans (grows_of_exec hexec))

variable {principal : Option String} {listed : Url}

theorem safe_storeItems {producedAt : ℕ} (items : List CachedInfo) (hk : CallSafe law t k s) :
    CallSafe law t (storeItems w listed principal flags producedAt k items) s := by
  induction items with
  | nil => exact hk
  | cons item items ih =>
    rw [storeItems]
    split_ifs
    · exact safe_insert ih
    · exact ih

variable {page : ListPage CachedInfo} {options : ListOptions}

theorem safe_storeList {producedAt : ℕ} (hk : CallSafe law t k s) :
    CallSafe law t (storeList w listed options page principal producedAt k) s := by
  unfold storeList
  split_ifs
  · exact safe_insert (safe_storeItems _ hk)
  · exact hk

variable {address : Url} {returned : List Committed} {producedAt : ℕ}

theorem safe_answer (h : Answered.UpToDate ⟨address, returned, producedAt⟩) :
    CallSafe law t (answer address returned producedAt) s :=
  safe_act (fun _ => True) (fun _ _ _ => h) (fun _ _ _ _ _ _ => trivial) fun _ _ _ _ _ _ => Discipline.Safe.ret trivial

theorem safe_answerFromPage (h : Answered.UpToDate ⟨address, returned, producedAt⟩)
    (hk : CallSafe law t k s) : CallSafe law t (answerFromPage page address returned producedAt k) s := by
  unfold answerFromPage
  split
  · exact hk
  · exact safe_answer h

/-- What the backend produces now is no older than what has returned. -/
theorem Inv.upToDate_clock {s₁ : Shared} (hs : Inv w.U s₁) (h : Grows s s₁) (hreturned : returned ⊆ s.returned)
    (address : Url) : Answered.UpToDate ⟨address, returned, s₁.clock⟩ :=
  fun m hm _ => (hs.returned m (h.returned (hreturned hm))).2.2.le

/-- A row that answers a `stat` is no older than what had returned when it began. -/
theorem Inv.upToDate_row {s₁ : Shared} (hs : Inv w.U s₁) (h : Grows s s₁) (hreturned : returned ⊆ s.returned)
    (ha : Canonical w.U address) (hmay : MayAnswer w.U key address) {entry : Entry CachedInfo}
    (hrow : (key, entry) ∈ s₁.cache.entries.rows) : Answered.UpToDate ⟨address, returned, s₁.producedAt key⟩ := by
  intro m hm hsame
  obtain ⟨hforgotten, hunlisted, -⟩ := hs.returned m (h.returned (hreturned hm))
  refine hs.rows (key, entry) hrow m ?_ address ha hsame hmay
  cases hkind : key.kind with
  | Stat => exact hforgotten
  | List => exact hunlisted
  | ListVersions =>
    rw [MayAnswer, hkind] at hmay
    exact hmay.elim

/-- A lookup of a row that may answer. -/
theorem safe_get {requested : CostFlags} {k : Looked → Call} (hreturned : returned ⊆ s.returned)
    (ha : Canonical w.U address) (hmay : MayAnswer w.U key address)
    (hk : ∀ r s', Grows s s' →
      (∀ payload, r.lookup = .Hit payload → Answered.UpToDate ⟨address, returned, r.producedAt⟩) →
      CallSafe law t (k r) s') : CallSafe law t (.act (.get key requested) k) s := by
  apply safe_act fun r : Looked =>
    ∀ payload, r.lookup = .Hit payload → Answered.UpToDate ⟨address, returned, r.producedAt⟩
  · exact fun _ _ _ => trivial
  · intro s₁ r s₂ h₁ hinv hexec payload hhit
    simp only [Shared.exec, Option.ite_none_right_eq_some] at hexec
    obtain ⟨⟨hlookup, hproduced⟩, -⟩ := hexec
    obtain ⟨entry, hrow, -⟩ := get_hit (hlookup.symm.trans hhit)
    rw [hproduced]
    exact hinv.upToDate_row h₁ hreturned ha hmay hrow
  · exact fun s₁ r s₂ h₁ hexec hQ => hk r s₂ (h₁.trans (grows_of_exec hexec)) hQ

theorem safe_innerStat {k : Except Refusal CachedInfo × ℕ → Call} (hreturned : returned ⊆ s.returned)
    (hk : ∀ r s', Grows s s' → Answered.UpToDate ⟨address, returned, r.2⟩ → CallSafe law t (k r) s') :
    CallSafe law t (.act (.innerStat address flags) k) s := by
  apply safe_act fun r : Except Refusal CachedInfo × ℕ => Answered.UpToDate ⟨address, returned, r.2⟩
  · exact fun _ _ _ => trivial
  · intro s₁ r s₂ h₁ hinv hexec
    rw [(ticks_some hexec).1]
    exact hinv.upToDate_clock h₁ hreturned address
  · exact fun s₁ r s₂ h₁ hexec hQ => hk r s₂ (h₁.trans (grows_of_exec hexec)) hQ

theorem safe_innerList {k : Except Refusal (ListPage CachedInfo) × ℕ → Call}
    (address : Url) (hreturned : returned ⊆ s.returned)
    (hk : ∀ r s', Grows s s' → Answered.UpToDate ⟨address, returned, r.2⟩ → CallSafe law t (k r) s') :
    CallSafe law t (.act (.innerList listed options) k) s := by
  apply safe_act fun r : Except Refusal (ListPage CachedInfo) × ℕ => Answered.UpToDate ⟨address, returned, r.2⟩
  · exact fun _ _ _ => trivial
  · intro s₁ r s₂ h₁ hinv hexec
    rw [(ticks_some hexec).1]
    exact hinv.upToDate_clock h₁ hreturned address
  · exact fun s₁ r s₂ h₁ hexec hQ => hk r s₂ (h₁.trans (grows_of_exec hexec)) hQ

variable {request : StatRequest}

theorem safe_statFromFreshList {parent : Url} (hreturned : returned ⊆ s.returned)
    (hk : CallSafe law t k s) : CallSafe law t (statFromFreshList w request parent returned k) s := by
  unfold statFromFreshList
  split_ifs
  · exact hk
  · refine safe_act (fun _ => True) (fun _ _ _ => trivial) (fun _ _ _ _ _ _ => trivial) fun s₁ r s₂ h₁ hexec _ => ?_
    have h₂ := h₁.trans (grows_of_exec hexec)
    cases r with
    | false => exact hk.mono h₂
    | true =>
      refine safe_innerList request.address (List.Subset.trans hreturned h₂.returned) fun r s₃ h₃ hdate => ?_
      obtain ⟨result, moment⟩ := r
      have hrest := hk.mono (h₂.trans h₃)
      cases result with
      | error refusal => exact hrest
      | ok page => exact safe_storeList (safe_answerFromPage hdate hrest)

theorem safe_statFromParentList (ha : Canonical w.U request.address)
    (hreturned : returned ⊆ s.returned) (hk : CallSafe law t k s) :
    CallSafe law t (statFromParentList w request returned k) s := by
  unfold statFromParentList
  split_ifs with hselected hslash
  · exact hk
  · exact hk
  · split
    · exact hk
    · rename_i parent name hparent
      simp only [Bool.or_eq_true, not_or, Bool.not_eq_true, Option.isSome_eq_false_iff,
        Option.isNone_iff_eq_none] at hselected
      have hmay : MayAnswer w.U (w.listKey request.principal parent) request.address :=
        ⟨hselected.1, parent, name, hparent, rfl⟩
      refine safe_get hreturned ha hmay fun r s' h hdate => ?_
      have hrest := hk.mono h
      split
      · rename_i page hhit
        exact safe_answerFromPage (hdate _ hhit) hrest
      · exact safe_statFromFreshList (List.Subset.trans hreturned h.returned) hrest

theorem safe_statInner {upstream : CostFlags} (hreturned : returned ⊆ s.returned) :
    CallSafe law t (statInner w request upstream returned) s := by
  refine safe_innerStat hreturned fun r s' _ hdate => ?_
  obtain ⟨result, moment⟩ := r
  cases result with
  | error refusal => exact safe_answer hdate
  | ok info =>
    dsimp only
    split_ifs
    · exact safe_insert (safe_answer hdate)
    · exact safe_answer hdate

theorem safe_stat (ha : Canonical w.U request.address) : CallSafe law t (stat w request) s := by
  apply safe_act fun r : List Committed => True
  · exact fun _ _ _ => trivial
  · exact fun _ _ _ _ _ _ => trivial
  intro s₁ returned s₂ h₁ hexec _
  have hreturned : returned ⊆ s₂.returned := by
    obtain ⟨rfl, rfl⟩ := Option.of_guard hexec
    exact List.Subset.refl _
  split_ifs
  · exact safe_innerStat hreturned fun r s' _ hdate => safe_answer hdate
  · refine safe_get hreturned ha (show MayAnswer w.U _ _ from rfl) fun r s' h hdate => ?_
    have hreturned' := List.Subset.trans hreturned h.returned
    split
    · rename_i info hhit
      exact safe_answer (hdate _ hhit)
    · exact safe_statFromParentList ha hreturned' (safe_statInner hreturned')
    · exact safe_statFromParentList ha hreturned' (safe_statInner hreturned')
  · exact safe_statInner hreturned

theorem safe_list {request : ListRequest} : CallSafe law t (list w request) s := by
  refine safe_act (fun _ => True) (fun _ _ _ => trivial) (fun _ _ _ _ _ _ => trivial) fun s₁ r s₂ _ _ _ => ?_
  obtain ⟨result, moment⟩ := r
  cases result with
  | error refusal => exact Discipline.Safe.ret trivial
  | ok page =>
    dsimp only
    split_ifs
    · exact Discipline.Safe.ret trivial
    · exact safe_storeList (Discipline.Safe.ret trivial)

/-- A mutation returns when it has been through both invalidations. -/
theorem safe_invalidateFor {mutation : Committed} (hm : Canonical w.U mutation.address)
    (hmoment : mutation.moment < s.clock) : CallSafe law t (invalidateFor mutation) s := by
  refine safe_act (fun _ => True) (fun _ _ _ => hm) (fun _ _ _ _ _ _ => trivial) fun s₁ _ s₂ h₁ hexec _ => ?_
  cases hexec
  refine safe_act (fun _ => True) (fun _ _ _ => hm) (fun _ _ _ _ _ _ => trivial) fun s₂ _ s₃ h₂ hexec _ => ?_
  cases hexec
  refine safe_act (fun _ => True) (fun s₃ h₃ _ => ?_) (fun _ _ _ _ _ _ => trivial)
    fun _ _ _ _ _ _ => Discipline.Safe.ret trivial
  refine ⟨h₃.forgotten (h₂.forgotten List.mem_cons_self), h₃.unlisted List.mem_cons_self, ?_⟩
  exact hmoment.trans_le (h₁.clock.trans (h₂.clock.trans h₃.clock))

theorem safe_write (ha : Canonical w.U address) : CallSafe law t (write address) s := by
  refine safe_act (fun _ => True) (fun _ _ _ => trivial) (fun _ _ _ _ _ _ => trivial) fun s₁ r s₂ _ hexec _ => ?_
  cases r with
  | none => exact Discipline.Safe.ret trivial
  | some moment =>
    obtain ⟨rfl, rfl⟩ := ticks_some hexec
    exact safe_invalidateFor ha (Nat.lt_succ_self _)

theorem operation_safe (operation : Operation w.U) : CallSafe law t (operation.program w) s := by
  cases operation with
  | stat request canonical => exact safe_stat canonical
  | list request => exact safe_list
  | write address canonical => exact safe_write canonical
  | delete address canonical => exact safe_write canonical

end Calls

section Runs

variable {ι : Type} [DecidableEq ι] {w : MetadataCacheWrapper}

/-- The step is no insert, or a timely one. -/
def Step.Timely (s : System ι) : Step w ι → Prop
  | .act _ a _ => Fills.Timely w s.shared a
  | _ => True

/-- In every run whose inserts are timely, a `stat` is answered with data no older than the
mutations of its node that had returned when it began. -/
theorem no_stale_answer (law : w.U.Lawful) {trace : List (Step w ι)} {s : System ι}
    (hrun : RunsWhen w Step.Timely trace s) :
    ∀ answer ∈ s.shared.answers, answer.UpToDate := by
  have hstart : ∀ s : System ι, s.Initial → (discipline law ι).Kept s := by
    rintro s rfl
    refine ⟨⟨fun row hrow => ?_, fun m hm => ?_, fun answer hanswer => ?_⟩, fun t => Discipline.Safe.ret trivial⟩
    · exact absurd hrow List.not_mem_nil
    · exact absurd hm List.not_mem_nil
    · exact absurd hanswer List.not_mem_nil
  have hallowed : RunsWhen w (discipline law ι).Allows trace s := by
    refine hrun.imp fun s l s' _ h => ⟨h.1, ?_⟩
    cases l <;> exact h.2
  have hkept := (discipline law ι).run (fun t operation s _ _ => operation_safe operation) hstart hallowed
  exact hkept.inv.answers

end Runs

/-! ### A fill beside a write -/

instance : DecidablePred Answered.UpToDate := fun answer =>
  inferInstanceAs (Decidable (∀ m ∈ answer.returned,
    nodeKey answer.address.toParts = nodeKey m.address.toParts → m.moment ≤ answer.producedAt))

/-- `s3://b/a/`. -/
def directoryListed : Url :=
  ⟨⟨utf8 "s3", true, [], none, some (utf8 "b"), none, utf8 "/a/", none, none⟩, by decide⟩

/-- What the backend says of the object before it is written. -/
def objectInfo : CachedInfo := ⟨objectBefore, .File, some 1, some (utf8 "v1")⟩

/-- The flags of a `stat` that asks for nothing more. -/
def noFlags : CostFlags := ⟨false, false⟩

/-- The key of the object's row. -/
def objectKey : MetadataCacheKey := ⟨.Stat, none, nodeAddress objectBefore, none⟩

def callStat : Operation smallWrapper.U := .stat (plainStat objectBefore) plain_objectBefore.canonical

def callWrite : Operation smallWrapper.U := .write objectBefore plain_objectBefore.canonical

/-- A `stat` that misses both rows, up to the answer of the backend. -/
def missedStat (t : ℕ) (returned : List Committed) (moment : ℕ) : List (Step smallWrapper ℕ) :=
  [.call t callStat,
    .act t .begins returned,
    .act t (.get objectKey noFlags) ⟨0, .Miss, 0⟩,
    .act t (.get (smallWrapper.listKey none directoryListed) noFlags) ⟨0, .Miss, 0⟩,
    .act t (.optedIn directoryListed) false,
    .act t (.innerStat objectBefore noFlags) (.ok objectInfo, moment)]

/-- The insert of its row. -/
def filled (t : ℕ) (moment : ℕ) : Step smallWrapper ℕ :=
  .act t (.insert objectKey (.Stat objectInfo) noFlags moment) ⟨0, stableSorter⟩

/-- A whole `write`. -/
def written (t : ℕ) (moment : ℕ) : List (Step smallWrapper ℕ) :=
  [.call t callWrite,
    .act t (.innerMutate objectBefore) (some moment),
    .act t (.invalidateAddress ⟨objectBefore, moment⟩) (),
    .act t (.invalidateListsContaining ⟨objectBefore, moment⟩) (),
    .act t (.returns ⟨objectBefore, moment⟩) ()]

/-- A `stat` that is answered from its row. -/
def hitStat (t : ℕ) (returned : List Committed) (moment : ℕ) : List (Step smallWrapper ℕ) :=
  [.call t callStat,
    .act t .begins returned,
    .act t (.get objectKey noFlags) ⟨0, .Hit (.Stat objectInfo), moment⟩,
    .act t (.answers ⟨objectBefore, returned, moment⟩) ()]

/-- The step is no insert of data older than any mutation before it. -/
def prompt (s : System ℕ) : Step smallWrapper ℕ → Bool
  | .act _ (.insert key _ _ producedAt) _ => (s.shared.dropped key.kind).all fun m => m.moment ≤ producedAt
  | _ => true

def promptStep (s : System ℕ) (l : Step smallWrapper ℕ) : Option (System ℕ) :=
  if prompt s l then s.step smallWrapper l else none

theorem promptStep_timely (s : System ℕ) (l : Step smallWrapper ℕ) (s' : System ℕ) (h : promptStep s l = some s') :
    s.step smallWrapper l = some s' ∧ l.Timely s := by
  obtain ⟨hprompt, hstep⟩ := Option.ite_none_right_eq_some.mp h
  refine ⟨hstep, ?_⟩
  cases l with
  | act t a r =>
    cases a with
    | insert key payload flags producedAt =>
      exact fun _ m hm _ _ _ _ => of_decide_eq_true (List.all_eq_true.mp hprompt m hm)
    | _ => trivial
  | _ => trivial

/-- A `stat` after a `write`, from the row that another `stat` has filled after it. -/
theorem no_stale_answer_written :
    ∃ s : System ℕ, s.shared.answers ≠ [] ∧ ∀ answer ∈ s.shared.answers, answer.UpToDate := by
  obtain ⟨s, hrun, hanswers⟩ := exists_runWhen promptStep_timely
    (written 1 0 ++ missedStat 0 [⟨objectBefore, 0⟩] 1 ++ [filled 0 1] ++ hitStat 2 [⟨objectBefore, 0⟩] 1)
    (fun s => !s.shared.answers.isEmpty) (by decide +kernel)
  refine ⟨s, ?_, no_stale_answer reference_lawful hrun⟩
  simpa using hanswers

/-- A `write` that comes between the backend's answer and the insert leaves the old data in the cache. -/
theorem stale_fill : ¬∀ (w : MetadataCacheWrapper), w.U.Lawful → ∀ (trace : List (Step w ℕ)) (s : System ℕ),
    RunsWhen w (fun _ _ => True) trace s → ∀ answer ∈ s.shared.answers, answer.UpToDate := by
  intro h
  obtain ⟨s, hrun, hstale⟩ := exists_runWhen (fun s l s' (hstep : s.step smallWrapper l = some s') => ⟨hstep, trivial⟩)
    (missedStat 0 [] 0 ++ written 1 1 ++ [filled 0 0] ++ hitStat 2 [⟨objectBefore, 1⟩] 0)
    (fun s => decide (∃ answer ∈ s.shared.answers, ¬answer.UpToDate)) (by decide +kernel)
  obtain ⟨answer, hmem, hnot⟩ := of_decide_eq_true hstale
  exact hnot (h smallWrapper reference_lawful _ s hrun answer hmem)

end OvStorage.Cache.Fills
