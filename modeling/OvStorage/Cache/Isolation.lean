import OvStorage.Cache.Calls
import OvStorage.Cache.Tree

/-!
# Cached metadata stays in its scope

What a `stat` answers without asking the inner layer was given by the inner layer, for the same node, to a request of
the same principal under the same credential scope, and under cost flags that cover the request's
(`cached_stats_stay_in_scope`). Rows are stored under four kinds of keys, and each store is one that the answer of the
inner layer before it allows (`Sound`), so that the row that a lookup hits leads back to that answer by the contract of
the cache (`cache_history`). The scope of a principal tells any two ids apart (`principalOf_inj`).

The parent of an address is made by `Url::set_path`, of which it is taken that it leaves the userinfo (`KeepsUserinfo`).
-/

namespace OvStorage.Cache

open Address SegList Listing Interleave List

/-! ### Scopes -/

theorem digitChar_inj : ∀ m n : Fin 16, Nat.digitChar m = Nat.digitChar n → m = n := by decide

theorem hexByte_inj {x y : UInt8} (h : hexByte x = hexByte y) : x = y := by
  obtain ⟨hhigh, hrest⟩ := List.cons.inj h
  obtain ⟨hlow, -⟩ := List.cons.inj hrest
  have hx := x.toNat_lt
  have hy := y.toNat_lt
  have hhigh' := congrArg Fin.val (digitChar_inj ⟨x.toNat / 16, by omega⟩ ⟨y.toNat / 16, by omega⟩ hhigh)
  have hlow' := congrArg Fin.val (digitChar_inj ⟨x.toNat % 16, by omega⟩ ⟨y.toNat % 16, by omega⟩ hlow)
  refine UInt8.toNat_inj.mp ?_
  simp only at hhigh' hlow'
  omega

theorem flatMap_hexByte_inj {xs ys : Bytes} (h : xs.flatMap hexByte = ys.flatMap hexByte) : xs = ys := by
  induction xs generalizing ys with
  | nil =>
    cases ys with
    | nil => rfl
    | cons y ys => simp [hexByte] at h
  | cons x xs ih =>
    cases ys with
    | nil => simp [hexByte] at h
    | cons y ys =>
      rw [flatMap_cons, flatMap_cons] at h
      obtain ⟨hx, hxs⟩ := append_inj h rfl
      rw [hexByte_inj hx, ih hxs]

/-- The scope of a principal determines its id. -/
theorem principalOf_inj {e e' : Extensions} : principalOf e = principalOf e' ↔ e.principalId = e'.principalId := by
  refine ⟨fun h => ?_, fun h => by rw [principalOf, principalOf, h]⟩
  unfold principalOf at h
  match e.principalId, e'.principalId, h with
  | none, none, _ => rfl
  | some bytes, some bytes', h =>
    replace h := congrArg String.toList (Option.some.inj h)
    cases htext : String.fromUTF8? ⟨bytes.toArray⟩ with
    | some id =>
      cases htext' : String.fromUTF8? ⟨bytes'.toArray⟩ with
      | some id' =>
        have hid : id = id' := String.toList_inj.mp (by simpa [htext, htext'] using h)
        rw [fromUTF8?_eq_some_iff.mp htext, fromUTF8?_eq_some_iff.mp htext', hid]
      | none => simp [htext, htext'] at h
    | none =>
      cases htext' : String.fromUTF8? ⟨bytes'.toArray⟩ with
      | some id' => simp [htext, htext'] at h
      | none =>
        have hhex : bytes.flatMap hexByte = bytes'.flatMap hexByte := by simpa [htext, htext'] using h
        rw [flatMap_hexByte_inj hhex]

/-- `set_path` leaves the userinfo. -/
def KeepsUserinfo (U : UrlCrate) : Prop := ∀ url path, (U.setPath url path).username = url.username ∧
  (U.setPath url path).password = url.password

theorem credentialScope_parent {U : UrlCrate} (hU : KeepsUserinfo U) (digest : Bytes × Option Bytes → UInt64)
    {url parent : Url} {name : Bytes} (h : parentAndName U url = some (parent, name)) :
    credentialScope digest parent = credentialScope digest url := by
  unfold parentAndName at h
  split_ifs at h
  split at h
  · cases h
  · next head _ =>
    dsimp only at h
    split_ifs at h
    cases h
    obtain ⟨husername, hpassword⟩ := hU url head
    have husername' : (U.setPath url head).clearQuery.clearFragment.username = url.username := husername
    have hpassword' : (U.setPath url head).clearQuery.clearFragment.password = url.password := hpassword
    rw [credentialScope, husername', hpassword']
    rfl

namespace Calls

variable (w : MetadataCacheWrapper)

/-! ### What a call may do -/

/-- What the cache reads of the extensions of a call. -/
def Op.extensions : Op → Extensions
  | .stat request => request.extensions
  | .list request => request.extensions
  | _ => ⟨none, false⟩

/-- The row that the answer of a `stat` fills, or a row that the page of a listing fills. -/
def Fill (extensions : Extensions) (h : History Act.Answer) (key : MetadataCacheKey)
    (payload : MetadataCachePayload CachedInfo) (flags : CostFlags) : Prop :=
  (∃ asked given, (⟨.innerStat asked, .ok given⟩ : Sigma Act.Answer) ∈ h ∧ asked.extensions = extensions ∧
    key = statKey w asked ∧ payload = .Stat given ∧ flags = asked.options) ∨
  ∃ asked page, (⟨.innerList asked, .ok page⟩ : Sigma Act.Answer) ∈ h ∧ asked.extensions = extensions ∧
    flags = ⟨false, asked.options.versionedAddress⟩ ∧
    (key = w.listKey (principalOf extensions) asked.address ∧ payload = .List page ∨
      ∃ item ∈ page.items, item.kind = .File ∧
      key = MetadataCacheWrapper.statKey (principalOf extensions)
        (credentialScope w.digest asked.address) item.address ∧
      payload = .Stat item)

/-- From what a call has seen a `stat` is answered without the inner one: its row, the row of the parent's listing, or
a listing of its own. -/
def Seen (request : StatCall) (h : History Act.Answer) (info : CachedInfo) : Prop :=
  (∃ now given, (⟨.get (statKey w request) request.options, (now, .Hit (.Stat given))⟩ : Sigma Act.Answer) ∈ h ∧
    info = { given with address := request.address }) ∨
  ∃ parent name page, parentAndName w.U request.address = some (parent, name) ∧
    findInPage page request.address = .Found info ∧
    ((∃ now, (⟨.get (w.listKey (principalOf request.extensions) parent) request.options, (now, .Hit (.List page))⟩ :
        Sigma Act.Answer) ∈ h) ∨
      request.options.isEmpty = true ∧ request.extensions.resolvedOauthCredential = false ∧
        (⟨.innerList ⟨parent, .default, request.extensions⟩, .ok page⟩ : Sigma Act.Answer) ∈ h)

/-- The call has asked the inner `stat`. -/
def AskedInner (h : History Act.Answer) : Prop := ∃ asked answer, (⟨.innerStat asked, answer⟩ : Sigma Act.Answer) ∈ h

/-- What a call may do, after what it has done. -/
def Sound (op : Op) (h : History Act.Answer) : Act → Prop
  | .get _ _ => op.extensions.resolvedOauthCredential = false
  | .insert key payload flags =>
    op.extensions.resolvedOauthCredential = false ∧ Fill w op.extensions h key payload flags
  | .reply (.ok info) => ∀ request, op = .stat request → AskedInner h ∨ Seen w request h info
  | _ => True

section Keeps

open Routine

variable {w} {op : Op} {h : History Act.Answer} (hop : op.extensions.resolvedOauthCredential = false)
include hop

variable {page : ListPage CachedInfo}

theorem keeps_storeItems {request : ListCall} (hrequest : request.extensions = op.extensions)
    (hpage : (⟨.innerList request, .ok page⟩ : Sigma Act.Answer) ∈ h) (items : List CachedInfo)
    (hitems : items ⊆ page.items) :
    Keeps (Sound w op) (fun h' _ => h ⊆ h') h
      (storeItems w request ⟨false, request.options.versionedAddress⟩ items) := by
  induction items generalizing h with
  | nil => exact List.Subset.refl _
  | cons item items ih =>
    obtain ⟨hitem, hitems⟩ := cons_subset.mp hitems
    unfold storeItems
    split_ifs with hfile
    · refine keeps_bind.mpr ⟨⟨hop,
        .inr ⟨request, page, hpage, hrequest, rfl, .inr ⟨item, hitem, hfile, ?_, rfl⟩⟩⟩, fun r => ?_⟩
      · rw [hrequest]
      · refine (ih (mem_append_left _ hpage) hitems).imp fun h' _ hh' => ?_
        exact List.Subset.trans (subset_append_left _ _) hh'
    · exact ih hpage hitems

theorem keeps_storeList {request : ListCall} (hrequest : request.extensions = op.extensions)
    (hpage : (⟨.innerList request, .ok page⟩ : Sigma Act.Answer) ∈ h) :
    Keeps (Sound w op) (fun h' _ => h ⊆ h') h (storeList w request page) := by
  unfold storeList
  split_ifs
  · refine keeps_bind.mpr ⟨⟨hop, .inr ⟨request, page, hpage, hrequest, rfl, .inl ⟨by rw [hrequest], rfl⟩⟩⟩, fun r => ?_⟩
    refine (keeps_storeItems hop hrequest (mem_append_left _ hpage) page.items (List.Subset.refl _)).imp
      fun h' _ hh' => ?_
    exact List.Subset.trans (subset_append_left _ _) hh'
  · exact List.Subset.refl _

variable {request : StatCall}

omit hop in
/-- A listing that is of no use answers nothing. -/
theorem keeps_unavailable :
    Keeps (Sound w op) (fun h' (value : ListBackedStat) => ∀ info, value = .Found info → Seen w request h' info) h
      (pure .Unavailable : Call ListBackedStat) := by
  intro info hinfo
  have hinfo : ListBackedStat.Unavailable = .Found info := hinfo
  cases hinfo

/-- A listing of the parent answers with what it has seen. -/
theorem keeps_statFromFreshList (hrequest : request.extensions = op.extensions) {parent : Url} {name : Bytes}
    (hparent : parentAndName w.U request.address = some (parent, name)) :
    Keeps (Sound w op) (fun h' value => ∀ info, value = .Found info → Seen w request h' info) h
      (statFromFreshList w request parent) := by
  unfold statFromFreshList
  split_ifs with hflags
  · exact @keeps_unavailable w op _ _
  · refine keeps_bind.mpr ⟨trivial, fun opted => ?_⟩
    change Keeps _ _ _ (if !opted then _ else _)
    split_ifs
    · exact @keeps_unavailable w op _ _
    · refine keeps_bind.mpr ⟨trivial, fun answer => ?_⟩
      match answer with
      | .error refusal => exact @keeps_unavailable w op _ _
      | .ok page =>
        have hpage : (⟨.innerList ⟨parent, .default, request.extensions⟩, .ok page⟩ : Sigma Act.Answer) ∈
            h ++ [⟨.optedIn parent, opted⟩] ++ [⟨.innerList ⟨parent, .default, request.extensions⟩, .ok page⟩] := by
              simp
        refine keeps_bind.mpr ((keeps_storeList hop hrequest hpage).imp fun h' _ hh' => ?_)
        intro info hinfo
        exact .inr ⟨parent, name, page, hparent, hinfo, .inr ⟨by simpa using hflags, hrequest ▸ hop, hh' hpage⟩⟩

theorem keeps_statFromParentList (hrequest : request.extensions = op.extensions) :
    Keeps (Sound w op) (fun h' value => ∀ info, value = .Found info → Seen w request h' info) h
      (statFromParentList w request) := by
  unfold statFromParentList
  split_ifs
  · exact @keeps_unavailable w op _ _
  · exact @keeps_unavailable w op _ _
  · split
    · exact @keeps_unavailable w op _ _
    · next parent name hparent =>
      refine keeps_bind.mpr ⟨hop, fun found => ?_⟩
      match found with
      | (now, .Hit (.List page)) =>
        exact fun info hinfo => .inr ⟨parent, name, page, hparent, hinfo, .inl ⟨now, by simp⟩⟩
      | (now, .Hit (.Stat _)) => exact keeps_statFromFreshList hop hrequest hparent
      | (now, .Hit (.ListVersions _)) => exact keeps_statFromFreshList hop hrequest hparent
      | (now, .Narrower _) => exact keeps_statFromFreshList hop hrequest hparent
      | (now, .Miss) => exact keeps_statFromFreshList hop hrequest hparent

/-- What a `stat` answers that has not asked the inner one. -/
def Answers (w : MetadataCacheWrapper) (request : StatCall) (h : History Act.Answer)
    (value : Except Refusal CachedInfo) :
    Prop :=
  ∀ info, value = .ok info → AskedInner h ∨ Seen w request h info

omit hop in
theorem keeps_refused {refusal : Refusal} :
    Keeps (Sound w op) (Answers w request) h (pure (.error refusal) : Call (Except Refusal CachedInfo)) := by
  intro info hinfo
  have hinfo : (.error refusal : Except Refusal CachedInfo) = .ok info := hinfo
  cases hinfo

theorem keeps_statInner (hrequest : request.extensions = op.extensions) (upstream : CostFlags) :
    Keeps (Sound w op) (Answers w request) h (statInner w request upstream) := by
  unfold statInner
  refine keeps_bind.mpr ⟨trivial, fun answer => ?_⟩
  match answer with
  | .error refusal => exact @keeps_refused w op _ _ _
  | .ok info =>
    change Keeps _ _ _ (if statIsCacheable request.address then _ else _)
    split_ifs
    · refine keeps_bind.mpr ⟨⟨hop,
        .inl ⟨{ request with options := upstream }, info, by simp, hrequest, rfl, rfl, rfl⟩⟩, fun r => ?_⟩
      exact fun _ _ => .inl ⟨{ request with options := upstream }, .ok info, by simp⟩
    · exact fun _ _ => .inl ⟨{ request with options := upstream }, .ok info, by simp⟩

theorem keeps_statMissed (hrequest : request.extensions = op.extensions) (upstream : CostFlags) :
    Keeps (Sound w op) (Answers w request) h (statMissed w request upstream) := by
  unfold statMissed
  refine keeps_bind.mpr ((keeps_statFromParentList hop hrequest).imp fun h' value hvalue => ?_)
  match value with
  | .Found found =>
    intro info hinfo
    exact .inr (hvalue info (congrArg _ (Except.ok.inj hinfo)))
  | .NotFound => exact @keeps_refused w op _ _ _
  | .Unavailable => exact keeps_statInner hop hrequest upstream

end Keeps

section Follows

open Routine

variable {w} {h : History Act.Answer}

theorem keeps_stat (request : StatCall) : Keeps (Sound w (.stat request)) (Answers w request) h (stat w request) := by
  unfold stat
  split_ifs with hcredential hcacheable
  · exact ⟨trivial, fun answer => fun _ _ => .inl ⟨request, answer, by simp⟩⟩
  · have hop : (Op.stat request).extensions.resolvedOauthCredential = false := Bool.eq_false_iff.mpr hcredential
    refine keeps_bind.mpr ⟨hop, fun found => ?_⟩
    match found with
    | (now, .Hit (.Stat given)) => exact fun info hinfo => .inr (.inl ⟨now, given, by simp, (Except.ok.inj hinfo).symm⟩)
    | (now, .Hit (.List _)) => exact keeps_statMissed hop rfl request.options
    | (now, .Hit (.ListVersions _)) => exact keeps_statMissed hop rfl request.options
    | (now, .Narrower stored) => exact keeps_statMissed hop rfl (stored.union request.options)
    | (now, .Miss) => exact keeps_statMissed hop rfl request.options
  · have hop : (Op.stat request).extensions.resolvedOauthCredential = false := Bool.eq_false_iff.mpr hcredential
    exact keeps_statInner hop rfl request.options

theorem keeps_list (request : ListCall) : Keeps (Sound w (.list request)) (fun _ _ => True) h (list w request) := by
  unfold list
  split_ifs with hcredential
  · exact ⟨trivial, fun _ => trivial⟩
  · have hop : (Op.list request).extensions.resolvedOauthCredential = false := Bool.eq_false_iff.mpr hcredential
    refine keeps_bind.mpr ⟨trivial, fun answer => ?_⟩
    match answer with
    | .error refusal => exact trivial
    | .ok page =>
      refine keeps_bind.mpr ((keeps_storeList hop rfl (by simp)).imp fun _ _ _ => ?_)
      exact trivial

variable {op : Op}

theorem keeps_invalidateFor (address : Url) : Keeps (Sound w op) (fun _ _ => True) h (invalidateFor address) :=
  ⟨trivial, fun _ => ⟨trivial, fun _ => trivial⟩⟩

theorem keeps_ite {post : History Act.Answer → Unit → Prop} {c : Prop} [Decidable c] {p q : Call Unit}
    (hp : Keeps (Sound w op) post h p) (hq : Keeps (Sound w op) post h q) :
    Keeps (Sound w op) post h (if c then p else q) := by
  split_ifs
  · exact hp
  · exact hq

theorem keeps_invalidateAfter (outcome : Outcome) (mutation : Mutation) :
    Keeps (Sound w op) (fun _ _ => True) h (invalidateAfter outcome mutation) := by
  cases mutation with
  | copy source destination => exact keeps_ite trivial (keeps_invalidateFor destination)
  | rename source destination =>
    exact keeps_ite (keeps_bind.mpr
      ((keeps_invalidateFor source).imp fun _ _ _ => keeps_invalidateFor destination)) trivial
  | deleteDirectory address =>
    exact keeps_ite (keeps_bind.mpr
      ((keeps_invalidateFor address).imp fun _ _ _ => ⟨trivial, fun _ => trivial⟩)) trivial
  | write address => exact keeps_ite (keeps_invalidateFor address) trivial
  | delete address => exact keeps_ite (keeps_invalidateFor address) trivial
  | updateMetadata address => exact keeps_ite (keeps_invalidateFor address) trivial
  | createDirectory address => exact keeps_ite (keeps_invalidateFor address) trivial
  | continueWrite address => exact keeps_ite (keeps_invalidateFor address) trivial

/-- A call does what it may. -/
theorem follows (op : Op) : (op.thread w).Follows (Sound w op) [] := by
  cases op with
  | stat request =>
    have hkeeps : Keeps (Sound w (.stat request)) (fun _ _ => True) []
        (do act (.reply (← stat w request)) : Call Unit) := by
      refine keeps_bind.mpr ((keeps_stat request).imp fun h' value hvalue => ⟨?_, fun _ => trivial⟩)
      match value, hvalue with
      | .ok info, hvalue =>
        rintro _ ⟨⟩
        exact hvalue info rfl
      | .error refusal, _ => exact trivial
    exact hkeeps.follows
  | list request => exact (keeps_list request).follows
  | mutate mutation =>
    have hkeeps : Keeps (Sound w (.mutate mutation)) (fun _ _ => True) [] (mutate mutation) :=
      keeps_bind.mpr ⟨trivial, fun outcome => keeps_invalidateAfter outcome mutation⟩
    exact hkeeps.follows
  | invalidateCachedSubtree pre => exact ⟨trivial, fun _ => ⟨trivial, fun _ => trivial⟩⟩
  | onChange address deleted =>
    refine ⟨trivial, fun _ => ⟨trivial, fun _ => ?_⟩⟩
    cases deleted with
    | true => exact ⟨trivial, fun _ => trivial⟩
    | false => exact trivial
  | applyInvalidation event =>
    cases event with
    | Address url => exact ⟨trivial, fun _ => ⟨trivial, fun _ => trivial⟩⟩
    | Prefix url => exact ⟨trivial, fun _ => trivial⟩
    | All => exact ⟨trivial, fun _ => trivial⟩
  | ttlSweep => exact ⟨trivial, fun _ => trivial⟩

end Follows

/-! ### Runs -/

section Runs

variable {w} {ι : Type} [DecidableEq ι] {trace : List (Step ι)} {s : Cached ι}

/-- What a step is to the cache. -/
def cacheEvent : Step ι → Option (Event CachedInfo)
  | .act _ (.get key requested) (now, found) => some ⟨now, .get key requested, .lookup found⟩
  | .act _ (.insert key payload flags) (now, _, retained) => some ⟨now, .insert key payload flags, .retained retained⟩
  | .act _ (.invalidateAddress address) _ => some ⟨0, .invalidateAddress address, .unit⟩
  | .act _ (.invalidatePrefix pre) _ => some ⟨0, .invalidatePrefix pre, .unit⟩
  | .act _ (.invalidateListsContaining address) _ => some ⟨0, .invalidateListsContaining address, .unit⟩
  | .act _ .invalidateAll _ => some ⟨0, .invalidateAll, .unit⟩
  | .act _ .purgeExpired now => some ⟨now, .purgeExpired, .unit⟩
  | _ => none

/-- What the calls do to the cache is a run of it. -/
theorem cacheRun (run : Runs w trace s) : CacheRun w.U w.limits (trace.filterMap cacheEvent) s.shared := by
  induction run with
  | start h =>
    subst h
    exact .start rfl
  | @step trace s l s' _ h ih =>
    rw [filterMap_append]
    cases l with
    | act t a r =>
      have hexec := Threads.exec_of_step h
      cases a with
      | get key requested =>
        obtain ⟨now, found⟩ := r
        obtain ⟨hfound, hshared⟩ := Option.ite_none_right_eq_some.mp hexec
        rw [← Option.some.inj hshared, hfound]
        exact ih.step (Cache.Step.get s.shared now key requested)
      | insert key payload flags =>
        obtain ⟨now, victims, retained⟩ := r
        obtain ⟨⟨horder, hretained⟩, hshared⟩ := Option.ite_none_right_eq_some.mp hexec
        rw [← Option.some.inj hshared, hretained]
        exact ih.step (Cache.Step.insert s.shared now key payload flags victims horder)
      | invalidateAddress address =>
        rw [← Option.some.inj hexec]
        exact ih.step (Cache.Step.invalidateAddress s.shared 0 address)
      | invalidatePrefix pre =>
        rw [← Option.some.inj hexec]
        exact ih.step (Cache.Step.invalidatePrefix s.shared 0 pre)
      | invalidateListsContaining address =>
        rw [← Option.some.inj hexec]
        exact ih.step (Cache.Step.invalidateListsContaining s.shared 0 address)
      | invalidateAll =>
        rw [← Option.some.inj hexec]
        exact ih.step (Cache.Step.invalidateAll s.shared 0)
      | purgeExpired =>
        rw [← Option.some.inj hexec]
        exact ih.step (Cache.Step.purgeExpired s.shared r)
      | _ =>
        rw [← Option.some.inj hexec]
        exact (append_nil _).symm ▸ ih
    | _ =>
      rw [Threads.shared_of_silent (by exact trivial) h]
      exact (append_nil _).symm ▸ ih

variable {payload : MetadataCachePayload CachedInfo} {post pre : List (Step ι)} {key : MetadataCacheKey}
  {requested : CostFlags} {now : Nanos} {t : ι}

/-- A row that is hit has been inserted under flags that cover the request. -/
theorem inserted_of_hit (run : Runs w (pre ++ .act t (.get key requested) (now, .Hit payload) :: post) s) :
    ∃ t' flags r, .act t' (.insert key payload flags) r ∈ pre ∧ flags.covers requested = true := by
  obtain ⟨s₀, s₁, hrun, hstep⟩ := run.split
  obtain ⟨hfound, -⟩ := Option.ite_none_right_eq_some.mp (Threads.exec_of_step hstep)
  have hget : Cache.Step w.U w.limits s₀.shared
      ⟨now, .get key requested, .lookup (s₀.shared.get now key requested).1⟩ _ :=
    .get s₀.shared now key requested
  rw [← hfound] at hget
  obtain ⟨before, since, insertedAt, flags, htrace, -, -, hcovers⟩ :=
    ((cache_history (cacheRun hrun)).2 _ _ hget).2 key requested payload rfl rfl
  have hmem : (⟨insertedAt, .insert key payload flags, .retained true⟩ : Event CachedInfo) ∈
      pre.filterMap cacheEvent := by
    rw [htrace]
    simp
  obtain ⟨l, hl, hevent⟩ := mem_filterMap.mp hmem
  cases l with
  | act t' a r =>
    cases a with
    | insert key' payload' flags' =>
      obtain ⟨-, hop, -⟩ := Event.mk.inj (Option.some.inj hevent)
      cases hop
      exact ⟨t', _, r, hl, hcovers⟩
    | _ => cases hevent
  | _ => cases hevent

/-- What an insert stores was given to its call before. -/
theorem fill_of_insert {flags : CostFlags} {r : (Act.insert key payload flags).Answer} (run : Runs w trace s)
    (hmem : .act t (.insert key payload flags) r ∈ trace) :
    ∃ extensions h, extensions.resolvedOauthCredential = false ∧ Fill w extensions h key payload flags ∧
      ∀ a r, (⟨a, r⟩ : Sigma Act.Answer) ∈ h → .act t a r ∈ trace := by
  obtain ⟨pre, post, rfl⟩ := append_of_mem hmem
  obtain ⟨before, op, during, hsince, hcredential, hfill⟩ := Threads.allowed_of_run (follows (w := w))
    (fun s hs t => by rw [hs]; rfl) (fun _ _ _ h => h) run
  refine ⟨op.extensions, actsOf t during, hcredential, hfill, fun a r har => ?_⟩
  rw [hsince.split]
  have hduring := mem_actsOf.mp har
  simp [hduring]

/-- The asked request was of the principal of the other, in its credential scope, and without a credential of its own.
-/
def SameScope (w : MetadataCacheWrapper) (request : StatCall) (extensions : Extensions) (address : Url) : Prop :=
  extensions.principalId = request.extensions.principalId ∧
    credentialScope w.digest address = credentialScope w.digest request.address ∧
      extensions.resolvedOauthCredential = false

/-- In the step the inner layer gives the record for the node of the request, in its scope and under flags that cover
its own. -/
def Gives (w : MetadataCacheWrapper) (request : StatCall) (given : CachedInfo) : Step ι → Prop
  | .act _ (.innerStat asked) (.ok info) => info = given ∧ nodeAddress asked.address = nodeAddress request.address ∧
      asked.options.covers request.options = true ∧ SameScope w request asked.extensions asked.address
  | .act _ (.innerList asked) (.ok page) => given ∈ page.items ∧ given.kind = .File ∧
      nodeAddress given.address = nodeAddress request.address ∧
      (CostFlags.mk asked.options.fullMetadata asked.options.versionedAddress).covers request.options = true ∧
      SameScope w request asked.extensions asked.address
  | _ => False

/-- The flags of a listing's rows are no more than those of the listing. -/
theorem covers_list {options : ListOptions}
    (h : (CostFlags.mk false options.versionedAddress).covers requested = true) :
    (CostFlags.mk options.fullMetadata options.versionedAddress).covers requested = true := by
  revert h
  simp only [CostFlags.covers]
  cases options.fullMetadata <;> simp

variable {request : StatCall} {given : CachedInfo}

/-- A `Stat` row leads back to the inner layer. -/
theorem gives_of_statRow
    (run : Runs w (pre ++ .act t (.get (statKey w request) request.options) (now, .Hit (.Stat given)) :: post) s) :
    ∃ l ∈ pre, Gives w request given l := by
  obtain ⟨t', flags, r, hinsert, hcovers⟩ := inserted_of_hit run
  obtain ⟨s₀, -, hrun, -⟩ := run.split
  obtain ⟨extensions, h, hcredential, hfill, hmem⟩ := fill_of_insert hrun hinsert
  rcases hfill with ⟨asked, info, hasked, rfl, hkey, hpayload, rfl⟩ | ⟨asked, page, hasked, rfl, rfl, hrow⟩
  · obtain ⟨-, hprincipal, haddress, hscope⟩ := MetadataCacheKey.mk.inj hkey
    refine ⟨_, hmem _ _ hasked, (MetadataCachePayload.Stat.inj hpayload).symm, haddress.symm, hcovers,
      principalOf_inj.mp hprincipal.symm, hscope.symm, hcredential⟩
  · rcases hrow with ⟨hkey, -⟩ | ⟨item, hitem, hfile, hkey, hpayload⟩
    · cases congrArg MetadataCacheKey.kind hkey
    · obtain ⟨-, hprincipal, haddress, hscope⟩ := MetadataCacheKey.mk.inj hkey
      obtain rfl := MetadataCachePayload.Stat.inj hpayload
      exact ⟨_, hmem _ _ hasked, hitem, hfile, haddress.symm, covers_list hcovers, principalOf_inj.mp hprincipal.symm,
        hscope.symm, hcredential⟩

variable {page : ListPage CachedInfo}

theorem findInPage_found {address : Url} {info : CachedInfo} (h : findInPage page address = .Found info) :
    ∃ item ∈ page.items, item.kind = .File ∧ nodeAddress item.address = nodeAddress address ∧
      info = { item with address := address } := by
  unfold findInPage at h
  split at h
  · next item hitem =>
    have hmatch := List.find?_some hitem
    rw [decide_eq_true_eq] at hmatch
    exact ⟨item, mem_of_find?_eq_some hitem, hmatch.2, hmatch.1, (ListBackedStat.Found.inj h).symm⟩
  · split_ifs at h

/-- A `List` row of the parent leads back to the inner layer. -/
theorem gives_of_listRow (hU : KeepsUserinfo w.U) {parent : Url} {name : Bytes}
    (hparent : parentAndName w.U request.address = some (parent, name)) (hgiven : given ∈ page.items)
    (hfile : given.kind = .File) (haddress : nodeAddress given.address = nodeAddress request.address)
    (run : Runs w (pre ++ .act t (.get (w.listKey (principalOf request.extensions) parent) request.options)
      (now, .Hit (.List page)) :: post) s) : ∃ l ∈ pre, Gives w request given l := by
  obtain ⟨t', flags, r, hinsert, hcovers⟩ := inserted_of_hit run
  obtain ⟨s₀, -, hrun, -⟩ := run.split
  obtain ⟨extensions, h, hcredential, hfill, hmem⟩ := fill_of_insert hrun hinsert
  rcases hfill with ⟨asked, info, hasked, rfl, hkey, hpayload, rfl⟩ | ⟨asked, page', hasked, rfl, rfl, hrow⟩
  · cases congrArg MetadataCacheKey.kind hkey
  · rcases hrow with ⟨hkey, hpayload⟩ | ⟨item, hitem, hfile, hkey, hpayload⟩
    · obtain ⟨-, hprincipal, -, hscope⟩ := MetadataCacheKey.mk.inj hkey
      obtain rfl := MetadataCachePayload.List.inj hpayload
      refine ⟨_, hmem _ _ hasked, hgiven, hfile, haddress, covers_list hcovers,
        principalOf_inj.mp hprincipal.symm, ?_, hcredential⟩
      rw [← hscope, credentialScope_parent hU w.digest hparent]
    · cases congrArg MetadataCacheKey.kind hkey

/-- A `stat` that is answered without the inner one gives back, in the spelling of its request, what the inner layer
gave in its scope; and a call with a credential that was resolved for it neither reads a row nor stores one. -/
theorem cached_stats_stay_in_scope (hU : KeepsUserinfo w.U) (run : Runs w trace s) :
    (∀ pre t info post before request during, trace = pre ++ .act t (.reply (.ok info)) () :: post →
      Since t pre before (.stat request) during → (∀ asked answer, .act t (.innerStat asked) answer ∉ during) →
      ∃ given, info = { given with address := request.address } ∧ ∃ l ∈ pre, Gives w request given l) ∧
    ∀ pre t a r post before op during, trace = pre ++ .act t a r :: post → Since t pre before op during →
      op.extensions.resolvedOauthCredential = true → (∀ key requested, a ≠ .get key requested) ∧
        ∀ key payload flags, a ≠ .insert key payload flags := by
  have hallowed : ∀ pre t a r post before op during, trace = pre ++ .act t a r :: post → Since t pre before op during →
      Sound w op (actsOf t during) a := by
    rintro pre t a r post before op during rfl hsince
    obtain ⟨before', op', during', hsince', hsound⟩ := Threads.allowed_of_run (follows (w := w))
      (fun s hs t => by rw [hs]; rfl) (fun _ _ _ h => h) run
    obtain ⟨rfl, rfl, rfl⟩ := hsince.unique hsince'
    exact hsound
  constructor
  · intro pre t info post before request during htrace hsince hinner
    have hsound : Sound w (.stat request) (actsOf t during) (.reply (.ok info)) :=
      hallowed pre t (.reply (.ok info)) () post before _ during htrace hsince
    -- what the call did before its reply is a part of the trace before it
    have hcut : ∀ {a r}, .act t a r ∈ during → ∃ first rest, trace = first ++ .act t a r :: rest ∧ first ⊆ pre := by
      intro a r hmem
      obtain ⟨first, rest, rfl⟩ := append_of_mem hmem
      refine ⟨before ++ .call t (.stat request) :: first, rest ++ .act t (.reply (.ok info)) () :: post, ?_, ?_⟩
      · rw [htrace, hsince.split]
        simp
      · rw [hsince.split]
        intro l hl
        simp only [mem_append, mem_cons] at hl ⊢
        tauto
    rcases hsound request rfl with ⟨asked, answer, hasked⟩ | hseen
    · exact absurd (mem_actsOf.mp hasked) (hinner asked answer)
    rcases hseen with ⟨now, given, hget, rfl⟩ | ⟨parent, name, page, hparent, hfound, hseen⟩
    · obtain ⟨first, rest, hfirst, hsub⟩ := hcut (mem_actsOf.mp hget)
      obtain ⟨l, hl, hgives⟩ := gives_of_statRow (hfirst ▸ run)
      exact ⟨given, rfl, l, hsub hl, hgives⟩
    · obtain ⟨given, hgiven, hfile, haddress, rfl⟩ := findInPage_found hfound
      rcases hseen with ⟨now, hget⟩ | ⟨hflags, hcredential, hlist⟩
      · obtain ⟨first, rest, hfirst, hsub⟩ := hcut (mem_actsOf.mp hget)
        obtain ⟨l, hl, hgives⟩ := gives_of_listRow hU hparent hgiven hfile haddress (hfirst ▸ run)
        exact ⟨given, rfl, l, hsub hl, hgives⟩
      · have hlist' := mem_actsOf.mp hlist
        refine ⟨given, rfl, .act t (.innerList ⟨parent, .default, request.extensions⟩) (.ok page), ?_,
          hgiven, hfile, haddress, ?_,
          rfl, credentialScope_parent hU w.digest hparent, hcredential⟩
        · rw [hsince.split]
          exact mem_append_right _ (mem_cons_of_mem _ hlist')
        · simpa [CostFlags.isEmpty, CostFlags.covers, ListOptions.default] using hflags
  · intro pre t a r post before op during htrace hsince hcredential
    have hsound := hallowed pre t a r post before op during htrace hsince
    refine ⟨?_, ?_⟩
    · rintro key requested rfl
      exact absurd (hcredential.symm.trans hsound) nofun
    · rintro key payload flags rfl
      exact absurd (hcredential.symm.trans hsound.1) nofun

end Runs

section Example

theorem keepsUserinfo_reference : KeepsUserinfo reference := by
  intro url path
  unfold reference
  dsimp only
  split_ifs
  · exact ⟨rfl, rfl⟩
  · exact ⟨rfl, rfl⟩
  · exact ⟨rfl, rfl⟩

/-- `s3://b/x?v`. -/
def versionAddress : Url :=
  ⟨⟨utf8 "s3", true, [], none, some (utf8 "b"), none, utf8 "/x", some (utf8 "v"), none⟩, by decide⟩

/-- A `stat` of it by `a`. -/
def versionStat : StatCall := ⟨versionAddress, ⟨false, false⟩, ⟨some [0x61], false⟩⟩

def versionInfo : CachedInfo := ⟨versionAddress, .File, some 5, none⟩

def shortWrapper : MetadataCacheWrapper := ⟨reference, ⟨8, 30⟩, fun _ => 0⟩

/-- A `stat` that asks the inner one, and another that hits its row. -/
def twoStats : List (Step ℕ) :=
  [.call 0 (.stat versionStat), .act 0 (.get (statKey shortWrapper versionStat) ⟨false, false⟩) (0, .Miss),
    .act 0 (.innerStat versionStat) (.ok versionInfo),
    .act 0 (.insert (statKey shortWrapper versionStat) (.Stat versionInfo) ⟨false, false⟩) (1, [], true),
    .act 0 (.reply (.ok versionInfo)) (), .call 1 (.stat versionStat),
    .act 1 (.get (statKey shortWrapper versionStat) ⟨false, false⟩) (2, .Hit (.Stat versionInfo))]

/-- The second `stat` of an address is answered by what the first one was given. -/
theorem cached_stats_stay_in_scope_twice :
    ∃ s, Runs shortWrapper (twoStats ++ (.act 1 (.reply (.ok versionInfo)) () : Step ℕ) :: []) s ∧
    ∃ given, versionInfo = { given with address := versionAddress } ∧
    ∃ l ∈ twoStats, Gives shortWrapper versionStat given l := by
  obtain ⟨s, hrun, -⟩ := @Run.of_any (Cached ℕ) (Step ℕ) (fun s => s = .idle .empty) _
    (fun s l => s.step (exec shortWrapper) (Op.thread shortWrapper) l) (fun _ _ _ h => h) (.idle .empty) rfl
    (twoStats ++ (.act 1 (.reply (.ok versionInfo)) () : Step ℕ) :: []) (fun _ => true) (by decide +kernel)
  refine ⟨s, hrun, ?_⟩
  have hsince : Since 1 twoStats (twoStats.take 5) (.stat versionStat) (twoStats.drop 6) :=
    ⟨rfl, by simp [twoStats, Event.Calls]⟩
  exact (cached_stats_stay_in_scope keepsUserinfo_reference hrun).1 twoStats 1 versionInfo [] _ versionStat _ rfl hsince
    (by simp [twoStats])

end Example

end Calls

end OvStorage.Cache
