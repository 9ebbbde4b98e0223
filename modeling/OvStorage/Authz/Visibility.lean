import OvStorage.Authz.Gate

/-!
# What policy hides

The filters of `BuiltinAuthLayer` on what the inner layer lists: pages and streams of entries by
`stat`, roots and their changes by `read` or `list`, change events by `read`.

## The model

`response` is what the layer answers while one policy is live. `Agree` says when two answers of the
inner layer differ only in elements that a principal may not see; a delta of roots that is left with
none says nothing, and a snapshot without roots does. `foldRoots` is a consumer that keeps the roots
as `upsert_inner_roots` of `ovstorage-plugin-core/src/alias.rs` does.
-/

namespace OvStorage.Authz

open Address Interleave List

/-! ### What is visible of an answer -/

variable {δ : Type}

namespace RootInfoChange

/-- The change with the roots that pass. -/
def retain (visible : RootInfo δ → Bool) : RootInfoChange δ → RootInfoChange δ
  | .Snapshot roots => .Snapshot (roots.filter visible)
  | .Added roots => .Added (roots.filter visible)
  | .Removed roots => .Removed (roots.filter visible)
  | .Updated roots => .Updated (roots.filter visible)

/-- A delta without roots. -/
def isSilent : RootInfoChange δ → Bool
  | .Snapshot _ => false
  | .Added roots | .Removed roots | .Updated roots => roots.isEmpty

end RootInfoChange

namespace BuiltinAuthLayer

variable (L : BuiltinAuthLayer)

/-- An element of a stream is hidden if it is there and may not be seen. -/
def shown {α : Type} (visible : α → Bool) : Except Error α → Bool
  | .ok a => visible a
  | .error _ => true

/-- The entries of a listing that the principal may see. -/
def seesEntry (policy : Policy) (principalId : String) (entry : ObjectInfo δ) : Bool :=
  L.isAllowed policy principalId .Stat (some entry.address)

/-- The change events that the principal may see. -/
def seesEvent (policy : Policy) (principalId : String) : ChangeEvent δ → Bool
  | .Object address _ => L.isAllowed policy principalId .Read (some address)
  | .Lapsed _ => true

/-- The roots that the principal may see. -/
def seesRoot (policy : Policy) (principalId : String) (root : RootInfo δ) : Bool :=
  L.isAllowed policy principalId .Read (some root.root) || L.isAllowed policy principalId .List (some root.root)

/-- What can be seen of a stream of changes: the visible roots of each, and no delta without roots. -/
def seenChanges (policy : Policy) (principalId : String) (stream : Yielded (RootInfoChange δ)) :
    Yielded (RootInfoChange δ) :=
  (stream.map fun item => item.map (RootInfoChange.retain (L.seesRoot policy principalId))).filter
    (shown fun change => !change.isSilent)

/-- Two pages differ in hidden entries alone. -/
def AgreePages (policy : Policy) (principalId : String) (page page' : ListPage δ) : Prop :=
  page.items.filter (L.seesEntry policy principalId) = page'.items.filter (L.seesEntry policy principalId) ∧
    page.nextPageToken = page'.nextPageToken

/-- Two streams of entries differ in hidden entries alone. -/
def AgreeEntries (policy : Policy) (principalId : String) (stream stream' : Yielded (ObjectInfo δ)) : Prop :=
  stream.filter (shown (L.seesEntry policy principalId)) = stream'.filter (shown (L.seesEntry policy principalId))

/-- Two streams of change events differ in hidden events alone. -/
def AgreeEvents (policy : Policy) (principalId : String) (stream stream' : Yielded (ChangeEvent δ)) : Prop :=
  stream.filter (shown (L.seesEvent policy principalId)) = stream'.filter (shown (L.seesEvent policy principalId))

/-- Two answers about the roots, with their updates, differ in hidden roots alone. -/
def AgreeRoots (policy : Policy) (principalId : String)
    (answer answer' : RootInfoSnapshot δ × Option (Yielded (RootInfoChange δ))) : Prop :=
  answer.1.roots.filter (L.seesRoot policy principalId) = answer'.1.roots.filter (L.seesRoot policy principalId) ∧
    answer.1.updates = answer'.1.updates ∧
    answer.2.map (L.seenChanges policy principalId) = answer'.2.map (L.seenChanges policy principalId)

/-- Both fail with one error, or both succeed and agree. -/
def AgreeResults {α : Type} (agree : α → α → Prop) : Except Error α → Except Error α → Prop
  | .ok a, .ok a' => agree a a'
  | .error e, .error e' => e = e'
  | _, _ => False

/-- Two answers of the inner layer differ in hidden elements alone. -/
def Agree (policy : Policy) (principalId : String) :
    (call : Call δ) → Except Error call.Answer → Except Error call.Answer → Prop
  | .data (.addressed .list _) => AgreeResults (L.AgreePages policy principalId)
  | .data (.addressed .listStream _) => AgreeResults (L.AgreeEntries policy principalId)
  | .data (.addressed .watchDirectory _) => AgreeResults (L.AgreeEvents policy principalId)
  | .listAddressRoots _ => AgreeResults (L.AgreeRoots policy principalId)
  | _ => Eq

/-! ### The filters -/

variable {L} {policy : Policy}

theorem filterPage_items (principal : ResolvedPrincipal) (page : ListPage δ) :
    L.filterPage principal policy page =
      { page with items := page.items.filter (L.seesEntry policy principal.id) } := by
  have hkeep : ∀ items : List (ObjectInfo δ),
      (items.zip (L.filterListBatch policy principal.id .Stat (items.map fun item => item.address))).filterMap
        (fun row => if row.2 then some row.1 else none) = items.filter (L.seesEntry policy principal.id) := by
    intro items
    induction items with
    | nil => rfl
    | cons item items ih =>
      simp only [filterListBatch, map_cons, zip_cons_cons, filterMap_cons, filter_cons] at ih ⊢
      cases hsees : L.isAllowed policy principal.id .Stat (some item.address) with
      | true => simp [seesEntry, hsees, ← ih]
      | false => simp [seesEntry, hsees, ← ih]
  exact congrArg (fun items => { page with items }) (hkeep page.items)

/-- A filter of the layer passes errors on, and keeps what is visible. -/
theorem filterMap_shown {α : Type} {visible : α → Bool} {f : Except Error α → Option (Except Error α)}
    (hf : ∀ item, f item = if shown visible item then some item else none) (stream : Yielded α) :
    stream.filterMap f = stream.filter (shown visible) := by
  rw [← filterMap_eq_filter]
  refine congrFun (congrArg _ (funext fun item => ?_)) stream
  rw [hf]
  cases hshown : shown visible item with
  | true => simp [Option.guard, hshown]
  | false => simp [Option.guard, hshown]

theorem filterEntries_eq (principal : ResolvedPrincipal) (stream : Yielded (ObjectInfo δ)) :
    L.filterEntries principal policy stream = stream.filter (shown (L.seesEntry policy principal.id)) := by
  refine filterMap_shown (fun item => ?_) stream
  cases item with
  | ok entry => rfl
  | error error => rfl

theorem filterEvents_eq (principal : ResolvedPrincipal) (stream : Yielded (ChangeEvent δ)) :
    L.filterEvents principal policy stream = stream.filter (shown (L.seesEvent policy principal.id)) := by
  refine filterMap_shown (fun item => ?_) stream
  cases item with
  | ok event =>
    cases event with
    | Object address rest => rfl
    | Lapsed rest => rfl
  | error error => rfl

/-- A change is passed on with its visible roots, unless it is a delta that is left with none. -/
theorem filterRootChange_eq (change : RootInfoChange δ) (principalId : String) :
    L.filterRootChange change principalId policy =
      if (change.retain (L.seesRoot policy principalId)).isSilent then none
      else some (change.retain (L.seesRoot policy principalId)) := by
  cases change <;> rfl

theorem filterRootUpdateStream_eq (stream : Yielded (RootInfoChange δ)) (principalId : String) :
    L.filterRootUpdateStream stream principalId policy = L.seenChanges policy principalId stream := by
  unfold filterRootUpdateStream seenChanges
  induction stream with
  | nil => rfl
  | cons item stream ih =>
    rw [filterMap_cons, map_cons, filter_cons, ih]
    cases item with
    | error error => rfl
    | ok change =>
      cases hsilent : (change.retain (L.seesRoot policy principalId)).isSilent with
      | true => simp [filterRootChange_eq, Except.map, shown, hsilent]
      | false => simp [filterRootChange_eq, Except.map, shown, hsilent]

/-! ### Two inner layers -/

/-- What the policy and the inner layer answer to the actions of a verb. -/
def answers (policy : Policy) (inner : (call : Call δ) → Except Error call.Answer) : (a : Act δ) → a.Answer
  | .load => policy
  | .call call => inner call
  | .reload => none

variable (L) in
/-- What the layer answers while one policy is live. -/
def response (policy : Policy) (inner : (call : Call δ) → Except Error call.Answer) (call : Call δ) :
    Except Error call.Answer :=
  (L.serve call).run.eval (answers policy inner)

variable (L) in
/-- Two inner layers whose answers to what the layer passes on differ in hidden elements alone. -/
def AgreeOn (policy : Policy) (inner inner' : (call : Call δ) → Except Error call.Answer) (call : Call δ) : Prop :=
  ∀ principal passed, L.resolvePrincipal call.extensions = .ok principal → L.Passes policy principal call passed →
    L.Agree policy principal.id passed (inner passed) (inner' passed)

section Responses

variable {inner inner' : (call : Call δ) → Except Error call.Answer} {α : Type}

open Routine

theorem eval_callInner (call : Call δ) (f : call.Answer → Gate δ α) :
    (callInner call >>= f).run.eval (answers policy inner) =
      inner call >>= fun answer => (f answer).run.eval (answers policy inner) :=
  eval_bindT _ _ _

/-- The principal and the policy of a response. -/
theorem eval_principal (cx : Extensions) (f : ResolvedPrincipal → Policy → Gate δ α) :
    (do
      let principal ← ofExcept (L.resolvePrincipal cx)
      let policy ← loadPolicy
      f principal policy : Gate δ α).run.eval (answers policy inner) =
    L.resolvePrincipal cx >>= fun principal => (f principal policy).run.eval (answers policy inner) := by
  rw [eval_bindT, eval_ofExcept]
  rfl

theorem eval_check (policy₀ : Policy) (principal : String) (operation : Operation) (address : Option Url)
    (f : Unit → Gate δ α) :
    (ofExcept (L.check policy₀ principal operation address) >>= f).run.eval (answers policy inner) =
      L.check policy₀ principal operation address >>= fun x => (f x).run.eval (answers policy inner) := by
  rw [eval_bindT, eval_ofExcept]

theorem eval_authorize (cx : Extensions) (operation : Operation) (address : Option Url)
    (f : ResolvedPrincipal × Policy × Option Url → Gate δ α) :
    (L.authorize cx operation address >>= f).run.eval (answers policy inner) = (do
      let principal ← L.resolvePrincipal cx
      L.check policy principal.id operation (address.map L.canonicalizeDelegated)
      eval (answers policy inner) (f (principal, policy, address.map L.canonicalizeDelegated)).run) := by
  rw [eval_bindT]
  unfold authorize
  rw [eval_principal]
  cases L.resolvePrincipal cx with
  | error error => rfl
  | ok principal =>
    refine (congrArg (· >>= _) (eval_check _ _ _ _ _)).trans ?_
    cases hcheck : L.check policy principal.id operation (address.map L.canonicalizeDelegated) with
    | error error =>
      simp only [bind, Except.bind, hcheck]
    | ok x =>
      simp only [bind, Except.bind, hcheck]
      rfl

variable {cx : Extensions} {operation : Operation} {address : Option Url}

/-- Two runs that get on alike wherever the principal is resolved and the check passed. -/
theorem checked_congr {f f' : ResolvedPrincipal → Except Error α}
    (hf : ∀ principal, L.resolvePrincipal cx = .ok principal →
      L.isAllowed policy principal.id operation address = true → f principal = f' principal) :
    (do
      let principal ← L.resolvePrincipal cx
      L.check policy principal.id operation address
      f principal) =
    (do
      let principal ← L.resolvePrincipal cx
      L.check policy principal.id operation address
      f' principal) := by
  cases hresolve : L.resolvePrincipal cx with
  | error error => rfl
  | ok principal =>
    cases hcheck : L.check policy principal.id operation address with
    | error error =>
      simp only [bind, Except.bind, hcheck]
    | ok x =>
      simp only [bind, Except.bind, hcheck]
      exact hf principal hresolve (check_eq_ok.mp hcheck)

/-- Results that agree are filtered to the same result. -/
theorem agreeResults_congr {β : Type} {agree : α → α → Prop} {f : α → β} (hf : ∀ a a', agree a a' → f a = f a')
    {x x' : Except Error α} (h : AgreeResults agree x x') :
    (x >>= fun a => (pure (f a) : Except Error β)) = x' >>= fun a => pure (f a) := by
  cases x with
  | error e =>
    cases x' with
    | error e' => exact congrArg Except.error h
    | ok a' => exact h.elim
  | ok a =>
    cases x' with
    | error e' => exact h.elim
    | ok a' => exact congrArg Except.ok (hf a a' h)

/-- What a verb with one address makes of answers that agree. -/
theorem answerFilter_congr (verb : Verb) (principal : ResolvedPrincipal) {request : Request (Addressed δ)}
    {x x' : Except Error (verb.Answer δ)}
    (h : L.Agree policy principal.id (.data (.addressed verb request)) x x') :
    (x >>= fun answer => (pure (L.answerFilter verb principal policy answer) : Except Error _)) =
      x' >>= fun answer => pure (L.answerFilter verb principal policy answer) := by
  cases verb with
  | list =>
    refine agreeResults_congr (fun page page' hpages => ?_) h
    simp only [answerFilter, filterPage_items, hpages.1, hpages.2]
  | listStream =>
    refine agreeResults_congr (fun stream stream' hstreams => ?_) h
    simp only [answerFilter, filterEntries_eq]
    exact hstreams
  | watchDirectory =>
    refine agreeResults_congr (fun stream stream' hstreams => ?_) h
    simp only [answerFilter, filterEvents_eq]
    exact hstreams
  | _ => exact congrArg (· >>= _) h

theorem response_addressed_congr (verb : Verb) (request : Request (Addressed δ))
    (h : L.AgreeOn policy inner inner' (.data (.addressed verb request))) :
    L.response policy inner (.data (.addressed verb request)) =
      L.response policy inner' (.data (.addressed verb request)) := by
  change (L.addressed verb request).run.eval _ = (L.addressed verb request).run.eval _
  rw [addressed_eq]
  unfold throughAuthorize
  rw [eval_authorize, eval_authorize]
  refine checked_congr fun principal hprincipal hallowed => ?_
  rw [eval_callInner, eval_callInner]
  refine answerFilter_congr verb principal (h principal _ hprincipal ⟨rfl, ?_⟩)
  simpa [Admits, delegated, DataCall.rewrite, DataCall.demands] using hallowed

theorem response_checkAccess_congr (request : Request CheckAccessRequest)
    (h : L.AgreeOn (δ := δ) policy inner inner' (.data (.checkAccess request))) :
    L.response policy inner (.data (.checkAccess request)) =
      L.response policy inner' (.data (.checkAccess request)) := by
  change (L.checkAccess request).run.eval _ = (L.checkAccess request).run.eval _
  unfold checkAccess
  rw [eval_authorize, eval_authorize]
  refine checked_congr fun principal hprincipal hallowed => ?_
  rw [eval_callInner, eval_callInner]
  refine congrArg (· >>= _) (h principal _ hprincipal ⟨rfl, ?_⟩)
  simpa [Admits, delegated, DataCall.rewrite, DataCall.demands] using hallowed

/-- Verbs that write their checks out: both runs resolve the same principal and load the same policy. -/
theorem eval_principal_congr {f : ResolvedPrincipal → Policy → Gate δ α}
    (hf : ∀ principal, L.resolvePrincipal cx = .ok principal →
      (f principal policy).run.eval (answers policy inner) = (f principal policy).run.eval (answers policy inner')) :
    (do
      let principal ← ofExcept (L.resolvePrincipal cx)
      let policy ← loadPolicy
      f principal policy : Gate δ α).run.eval (answers policy inner) =
    (do
      let principal ← ofExcept (L.resolvePrincipal cx)
      let policy ← loadPolicy
      f principal policy : Gate δ α).run.eval (answers policy inner') := by
  rw [eval_principal, eval_principal]
  cases hresolve : L.resolvePrincipal cx with
  | error error => rfl
  | ok principal => exact hf principal hresolve

theorem eval_check_congr {principal : String} {f : Unit → Gate δ α}
    (hf : L.isAllowed policy principal operation address = true →
      (f ()).run.eval (answers policy inner) = (f ()).run.eval (answers policy inner')) :
    (ofExcept (L.check policy principal operation address) >>= f).run.eval (answers policy inner) =
      (ofExcept (L.check policy principal operation address) >>= f).run.eval (answers policy inner') := by
  rw [eval_check, eval_check]
  cases hcheck : L.check policy principal operation address with
  | error error => rfl
  | ok x => exact hf (check_eq_ok.mp hcheck)

theorem response_copy_congr (request : Request (Endpoints δ))
    (h : L.AgreeOn policy inner inner' (.data (.copy request))) :
    L.response policy inner (.data (.copy request)) = L.response policy inner' (.data (.copy request)) := by
  change (L.copy request).run.eval _ = (L.copy request).run.eval _
  unfold copy
  refine eval_principal_congr fun principal hprincipal => ?_
  refine eval_check_congr fun hread => ?_
  refine eval_check_congr fun hwrite => ?_
  refine h principal _ hprincipal ⟨rfl, ?_⟩
  simpa [Admits, delegated, DataCall.rewrite, DataCall.demands] using ⟨hread, hwrite⟩

theorem response_rename_congr (request : Request (Endpoints δ))
    (h : L.AgreeOn policy inner inner' (.data (.rename request))) :
    L.response policy inner (.data (.rename request)) = L.response policy inner' (.data (.rename request)) := by
  change (L.rename request).run.eval _ = (L.rename request).run.eval _
  unfold rename
  refine eval_principal_congr fun principal hprincipal => ?_
  refine eval_check_congr fun hread => ?_
  refine eval_check_congr fun hdelete => ?_
  refine eval_check_congr fun hwrite => ?_
  refine h principal _ hprincipal ⟨rfl, ?_⟩
  simpa [Admits, delegated, DataCall.rewrite, DataCall.demands] using ⟨hread, hdelete, hwrite⟩

theorem response_rootInfoFor_congr (url : Url) (cx : Extensions)
    (h : L.AgreeOn policy inner inner' (.data (.rootInfoFor url cx))) :
    L.response policy inner (.data (.rootInfoFor url cx)) = L.response policy inner' (.data (.rootInfoFor url cx)) := by
  change (L.rootInfoFor url cx).run.eval _ = (L.rootInfoFor url cx).run.eval _
  unfold rootInfoFor
  refine eval_principal_congr fun principal hprincipal => ?_
  cases hvisible : L.isRootVisible policy principal.id (L.canonicalizeDelegated url) with
  | false =>
    simp only [hvisible]
    rfl
  | true =>
    simp only [hvisible]
    refine h principal _ hprincipal ⟨rfl, ?_⟩
    simpa [Admits, delegated, DataCall.rewrite, DataCall.demands, isRootVisible] using hvisible

/-- The snapshot and the updates, filtered. -/
theorem filteredRoots_congr {principalId : String}
    {answer answer' : RootInfoSnapshot δ × Option (Yielded (RootInfoChange δ))}
    (h : L.AgreeRoots policy principalId answer answer') :
    (({ answer.1 with roots := answer.1.roots.filter fun root => L.isRootVisible policy principalId root.root } :
        RootInfoSnapshot δ), answer.2.map fun stream => L.filterRootUpdateStream stream principalId policy) =
      (({ answer'.1 with roots := answer'.1.roots.filter fun root => L.isRootVisible policy principalId root.root } :
        RootInfoSnapshot δ), answer'.2.map fun stream => L.filterRootUpdateStream stream principalId policy) := by
  obtain ⟨hroots, hupdates, hstream⟩ := h
  simp only [filterRootUpdateStream_eq]
  refine Prod.ext ?_ hstream
  exact congrArg₂ RootInfoSnapshot.mk hroots hupdates

theorem response_listAddressRoots_congr (cx : Extensions) (h : L.AgreeOn policy inner inner' (.listAddressRoots cx)) :
    L.response policy inner (.listAddressRoots cx) = L.response policy inner' (.listAddressRoots cx) := by
  change (L.listAddressRoots cx).run.eval _ = (L.listAddressRoots cx).run.eval _
  unfold listAddressRoots
  rw [eval_authorize, eval_authorize]
  refine checked_congr fun principal hprincipal hallowed => ?_
  rw [eval_callInner, eval_callInner]
  exact agreeResults_congr (fun answer answer' hroots => filteredRoots_congr hroots)
    (h principal _ hprincipal ⟨rfl, hallowed⟩)

theorem response_listConnections_congr (cx : Extensions) (h : L.AgreeOn policy inner inner' (.listConnections cx)) :
    L.response policy inner (.listConnections cx) = L.response policy inner' (.listConnections cx) := by
  change (L.listConnections cx).run.eval _ = (L.listConnections cx).run.eval _
  unfold listConnections
  rw [eval_authorize, eval_authorize]
  exact checked_congr fun principal hprincipal hallowed => h principal _ hprincipal ⟨rfl, hallowed⟩

/-- The two credential slots, up to the call of the inner layer. -/
theorem eval_credentialSlot_congr {f : Extensions → Gate δ α}
    (hf : ∀ principal, L.resolvePrincipal cx = .ok principal → L.AdmitsSlot policy principal.id cx →
      (f (stamp cx principal)).run.eval (answers policy inner) =
        (f (stamp cx principal)).run.eval (answers policy inner')) :
    (L.authorizeAndStampCredentialSlot cx >>= f).run.eval (answers policy inner) =
      (L.authorizeAndStampCredentialSlot cx >>= f).run.eval (answers policy inner') := by
  rw [eval_bindT, eval_bindT]
  unfold authorizeAndStampCredentialSlot
  rw [eval_bindT, eval_bindT, eval_ofExcept, eval_ofExcept]
  cases haddress : ext.upstreamAuthAddress L.urls cx with
  | error error => rfl
  | ok address =>
    refine (congrArg (· >>= _) (eval_authorize _ _ _ _)).trans
      (Eq.trans ?_ (congrArg (· >>= _) (eval_authorize _ _ _ _)).symm)
    cases hresolve : L.resolvePrincipal cx with
    | error error => rfl
    | ok principal =>
      cases hcheck : L.check policy principal.id .UpdateConnectionCredentials (address.map L.canonicalizeDelegated) with
      | error error =>
        simp only [bind, Except.bind, hcheck]
      | ok x =>
        simp only [bind, Except.bind, hcheck]
        exact hf principal hresolve ⟨address, haddress, check_eq_ok.mp hcheck⟩

/-- Inner layers that agree on what they are asked get the same response. -/
theorem response_congr (call : Call δ) (h : L.AgreeOn policy inner inner' call) :
    L.response policy inner call = L.response policy inner' call := by
  cases call with
  | data request =>
    cases request with
    | addressed verb request => exact response_addressed_congr verb request h
    | checkAccess request => exact response_checkAccess_congr request h
    | copy request => exact response_copy_congr request h
    | rename request => exact response_rename_congr request h
    | rootInfoFor url cx => exact response_rootInfoFor_congr url cx h
  | listAddressRoots cx => exact response_listAddressRoots_congr cx h
  | listConnections cx => exact response_listConnections_congr cx h
  | updateConnectionCredentials request =>
    exact eval_credentialSlot_congr fun principal hprincipal hadmits => h principal _ hprincipal ⟨rfl, hadmits⟩
  | authenticateConnection request =>
    exact eval_credentialSlot_congr fun principal hprincipal hadmits => h principal _ hprincipal ⟨rfl, hadmits⟩

end Responses

/-! ### Folding the changes -/

/-- `upsert_inner_roots`, of one root. -/
def upsertRoot (current : List (RootInfo δ)) (root : RootInfo δ) : List (RootInfo δ) :=
  match current with
  | [] => [root]
  | existing :: rest => if existing.root = root.root then root :: rest else existing :: upsertRoot rest root

/-- What a consumer makes of a change: a snapshot replaces, roots that are added or updated take the place of
those with their address, and roots that are removed go. -/
def applyRootChange (current : List (RootInfo δ)) : RootInfoChange δ → List (RootInfo δ)
  | .Snapshot roots => roots
  | .Added roots | .Updated roots => roots.foldl upsertRoot current
  | .Removed roots => current.filter fun root => !roots.any fun gone => gone.root == root.root

/-- The roots that a consumer holds after a stream of changes. -/
def foldRoots (current : List (RootInfo δ)) (stream : Yielded (RootInfoChange δ)) : List (RootInfo δ) :=
  stream.foldl (fun current item =>
    match item with
    | .ok change => applyRootChange current change
    | .error _ => current) current

section Fold

variable {visible : RootInfo δ → Bool}

/-- The visibility of a root is that of its address. -/
def ByAddress (visible : RootInfo δ → Bool) : Prop :=
  ∀ root root', root.root = root'.root → visible root = visible root'

theorem filter_upsertRoot (hvisible : ByAddress visible) (current : List (RootInfo δ)) (root : RootInfo δ) :
    (upsertRoot current root).filter visible =
      if visible root then upsertRoot (current.filter visible) root else current.filter visible := by
  induction current with
  | nil => cases hroot : visible root <;> simp [upsertRoot, hroot]
  | cons existing rest ih =>
    by_cases hsame : existing.root = root.root
    · have hexisting := hvisible existing root hsame
      cases hroot : visible root with
      | true => simp [upsertRoot, hsame, hroot, hexisting]
      | false => simp [upsertRoot, hsame, hroot, hexisting]
    · cases hexisting : visible existing with
      | true =>
        simp only [upsertRoot, hsame, if_false, filter_cons_of_pos hexisting, ih]
        split
        · rfl
        · rfl
      | false =>
        have hne : ¬visible existing = true := by simp [hexisting]
        simp only [upsertRoot, hsame, if_false, filter_cons_of_neg hne, ih]

theorem filter_upsertRoots (hvisible : ByAddress visible) (roots current : List (RootInfo δ)) :
    (roots.foldl upsertRoot current).filter visible = (roots.filter visible).foldl upsertRoot
      (current.filter visible) := by
  induction roots generalizing current with
  | nil => rfl
  | cons root roots ih =>
    rw [foldl_cons, ih, filter_upsertRoot hvisible, filter_cons]
    split
    · rfl
    · rfl

/-- A consumer of the visible part of a change holds the visible part of what it would hold. -/
theorem filter_applyRootChange (hvisible : ByAddress visible) (current : List (RootInfo δ))
    (change : RootInfoChange δ) :
    (applyRootChange current change).filter visible = applyRootChange (current.filter visible)
      (change.retain visible) := by
  cases change with
  | Snapshot roots => rfl
  | Added roots => exact filter_upsertRoots hvisible roots current
  | Updated roots => exact filter_upsertRoots hvisible roots current
  | Removed roots =>
    simp only [applyRootChange, RootInfoChange.retain, filter_filter]
    refine filter_congr fun root _ => ?_
    cases hroot : visible root with
    | false => simp
    | true =>
      -- what removes a visible root is visible
      have hsame : ∀ gone : RootInfo δ, (visible gone && (gone.root == root.root)) = (gone.root == root.root) := by
        intro gone
        by_cases hgone : gone.root = root.root
        · simp [hgone, hvisible gone root hgone, hroot]
        · simp [hgone]
      simp [any_filter, hsame]

/-- A delta without roots changes nothing. -/
theorem applyRootChange_silent {change : RootInfoChange δ} (h : change.isSilent = true) (current : List (RootInfo δ)) :
    applyRootChange current change = current := by
  cases change with
  | Snapshot roots => cases h
  | _ roots =>
    obtain rfl := isEmpty_iff.mp h
    simp [applyRootChange]

theorem foldRoots_cons (current : List (RootInfo δ)) (item : Except Error (RootInfoChange δ))
    (stream : Yielded (RootInfoChange δ)) :
    foldRoots current (item :: stream) = foldRoots
      (match item with
        | .ok change => applyRootChange current change
        | .error _ => current) stream := rfl

end Fold

theorem seesRoot_byAddress (principalId : String) : ByAddress (L.seesRoot (δ := δ) policy principalId) := by
  intro root root' h
  rw [seesRoot, seesRoot, h]

/-- The fold of what can be seen of the changes is what can be seen of the fold. -/
theorem foldRoots_seenChanges (principalId : String) (current : List (RootInfo δ))
    (stream : Yielded (RootInfoChange δ)) :
    foldRoots (current.filter (L.seesRoot policy principalId)) (L.seenChanges policy principalId stream) =
      (foldRoots current stream).filter (L.seesRoot policy principalId) := by
  induction stream generalizing current with
  | nil => rfl
  | cons item stream ih =>
    rw [foldRoots_cons, ← ih]
    cases item with
    | error error => rfl
    | ok change =>
      rw [filter_applyRootChange (seesRoot_byAddress principalId)]
      unfold seenChanges
      rw [map_cons, filter_cons]
      cases hsilent : (change.retain (L.seesRoot policy principalId)).isSilent with
      | true =>
        rw [applyRootChange_silent hsilent]
        simp [shown, Except.map, hsilent]
      | false => simp [shown, Except.map, hsilent, foldRoots_cons]

/-- The entries that a stream has yielded, errors apart. -/
def entriesOf (stream : Yielded (ObjectInfo δ)) : List (ObjectInfo δ) := stream.filterMap Except.toOption

/-- A page and a stream of the same entries keep the same entries. -/
theorem entriesOf_filterEntries (principal : ResolvedPrincipal) (stream : Yielded (ObjectInfo δ))
    (token : Option Bytes) :
    entriesOf (L.filterEntries principal policy stream) =
      (L.filterPage principal policy ⟨entriesOf stream, token⟩).items := by
  rw [filterEntries_eq, filterPage_items]
  unfold entriesOf
  induction stream with
  | nil => rfl
  | cons item stream ih =>
    cases item with
    | error error =>
      have herror : shown (L.seesEntry policy principal.id) (.error error : Except Error (ObjectInfo δ)) = true := rfl
      rw [filter_cons_of_pos herror]
      exact ih
    | ok entry =>
      cases hsees : L.seesEntry policy principal.id entry with
      | true => simpa [shown, Except.toOption, hsees] using ih
      | false => simpa [shown, Except.toOption, hsees] using ih

/-- What policy hides does not bear on what a principal sees: inner layers that differ in hidden elements alone get
the same responses; a page and a stream keep the same entries; and after every part of the stream of changes, the
fold of the filtered changes over the filtered roots is the filtered fold. -/
theorem hidden_elements_inert (L : BuiltinAuthLayer) (policy : Policy) :
    (∀ (inner inner' : (call : Call δ) → Except Error call.Answer) (call : Call δ), L.AgreeOn policy inner inner' call →
      L.response policy inner call = L.response policy inner' call) ∧
    (∀ (principal : ResolvedPrincipal) (stream : Yielded (ObjectInfo δ)) (token : Option Bytes),
      entriesOf (L.filterEntries principal policy stream) =
        (L.filterPage principal policy ⟨entriesOf stream, token⟩).items) ∧
    ∀ (principal : ResolvedPrincipal) (roots : List (RootInfo δ)) (stream front : Yielded (RootInfoChange δ)),
      front <+: stream →
        L.filterRootUpdateStream front principal.id policy <+: L.filterRootUpdateStream stream principal.id policy ∧
        foldRoots (roots.filter (L.seesRoot policy principal.id)) (L.filterRootUpdateStream front principal.id policy) =
          (foldRoots roots front).filter (L.seesRoot policy principal.id) := by
  refine ⟨fun inner inner' call h => response_congr call h, entriesOf_filterEntries, ?_⟩
  intro principal roots stream front hfront
  refine ⟨hfront.filterMap _, ?_⟩
  rw [filterRootUpdateStream_eq]
  exact foldRoots_seenChanges principal.id roots front

/-- The public part is not to be seen in a listing. -/
def unseenPolicy : Policy :=
  ⟨[⟨utf8 "open", .Allow, [star], none, none, none, 0⟩,
    ⟨utf8 "unseen", .Deny, [star], some [.Stat], some plainPublic, some plainPublic.asStr, 1⟩], none⟩

/-- An inner layer that lists these addresses. -/
def listing (addresses : List Url) : (call : Call Unit) → Except Error call.Answer
  | .data (.addressed .list _) => .ok ⟨addresses.map fun address => ⟨address, ()⟩, none⟩
  | _ => .error ⟨.Unsupported, []⟩

/-- Whether the public part is there makes no difference to a listing of it. -/
theorem hidden_elements_inert_listing :
    anonymousLayer.response unseenPolicy (listing [plainPublic])
      (.data (.addressed .list ⟨Table.empty, plainPublic, ()⟩)) =
      anonymousLayer.response unseenPolicy (listing []) (.data (.addressed .list ⟨Table.empty, plainPublic, ()⟩)) := by
  refine (hidden_elements_inert anonymousLayer unseenPolicy).1 _ _ _ ?_
  rintro principal passed hresolved ⟨rfl, -⟩
  obtain rfl : ⟨"anonymous", none⟩ = principal := Except.ok.inj hresolved
  exact ⟨by decide +kernel, rfl⟩

end BuiltinAuthLayer

end OvStorage.Authz
