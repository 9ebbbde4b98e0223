import OvStorage.Lib.Select
import OvStorage.Routing.RouteTable
import OvStorage.Watch.State

/-!
# Which root a watch is assigned to

`select_scopes`, `longest_root` and `still_owns_scope` of
`ovstorage-plugin-cache/src/notification_drain.rs` each find the root a scope belongs to, and the
route table finds the root a read of it is dispatched to.

## The model

Of `select_scopes` the assignment of each candidate; the antichain and the budget choose among
those. `Held` is what the state keeps of its rows: each is kept under `root_key`, and advertised
roots are canonical.

## What is proved

* `watch_mirrors_dispatch`: the three and the route table give such answers, and
  `still_owns_scope` asks for the assigned one.
-/

namespace OvStorage.Watch

open Address Cache StableSort Routing Select List

/-- `SelectedScope`. -/
structure SelectedScope where
  root : Url
  generation : ℕ
  scope : Url
deriving DecidableEq

/-- The root that `select_scopes` assigns a scope to. -/
def assignedRoot (roots : List RootView) (scope : Url) : Option RootView :=
  roots.find? fun view => isAncestorOrSelf view.root.toParts scope.toParts

/-- What `select_scopes` makes of one candidate. -/
def assignScope (roots : List RootView) (running : List (Bytes × Url × ℕ)) (scope : Url) : Option SelectedScope := do
  let view ← assignedRoot roots scope
  if view.covers then none
  else if view.root.asStr == scope.asStr then none
  else
    let runningHere := running.any fun (key, _, generation) => key == scope.asStr && generation == view.generation
    if !view.admitsProbes && !runningHere then none
    else some ⟨view.root, view.generation, scope⟩

/-- `longest_root`. -/
def longestRoot (roots : List RootView) (address : Url) : Option Url :=
  (maxByKey (fun view : RootView => nodeRank view.root.toParts)
    (roots.filter fun view => isAncestorOrSelf view.root.toParts address.toParts)).map RootView.root

/-- `still_owns_scope`. -/
def ScopedWatchState.stillOwnsScope (U : UrlCrate) (s : ScopedWatchState) (root : Url) (generation : ℕ) (scope : Url) :
    Bool :=
  match s.roots.get (rootKey U root) with
  | none => false
  | some record =>
    if record.generation != generation then false
    else !s.roots.rows.any fun (_, other) =>
      !sameNode other.root.toParts root.toParts && isAncestorOrSelf other.root.toParts scope.toParts &&
        decide (nodeRank root.toParts < nodeRank other.root.toParts)

theorem assignScope_eq_some {roots : List RootView} {running : List (Bytes × Url × ℕ)} {scope : Url}
    {selected : SelectedScope} (h : assignScope roots running scope = some selected) :
    ∃ view, assignedRoot roots scope = some view ∧ selected = ⟨view.root, view.generation, scope⟩ := by
  obtain ⟨view, hview, h⟩ := Option.bind_eq_some_iff.mp h
  refine ⟨view, hview, ?_⟩
  dsimp only at h
  split_ifs at h
  exact (Option.some.inj h).symm

/-! ### A root is kept under its node -/

variable {U : UrlCrate} {address root : Url}

/-- What a root is kept under, written without its userinfo and its last slash. -/
theorem rootKey_eq (law : U.Lawful) (hroot : Canonical U root) :
    ∃ node : Url, rootKey U root = node.asStr ∧ node.toParts =
      { root.toParts with hasAuthority := true, username := [], password := none, path := nodePath root.toParts } := by
  obtain ⟨st, h⟩ := hroot.shape law
  have hset := law.setPath_eq hroot.hierarchical h.nodePath_fixed
  have hc : (root.withPath _ h.nodePath_fixed).cannotBeABase = false := by
    simp [Url.withPath, Parts.cannotBeABase, h.nodePath_fixed.1]
  refine ⟨bareNode (root.withPath _ h.nodePath_fixed), by rw [rootKey, hset]; rfl, ?_⟩
  rw [bareNode_toParts hc]
  rfl

theorem rootKey_eq_iff (law : U.Lawful) {a b : Url} (ha : Canonical U a) (hb : Canonical U b) :
    rootKey U a = rootKey U b ↔ nodeKey a.toParts = nodeKey b.toParts := by
  obtain ⟨na, hka, hna⟩ := rootKey_eq law ha
  obtain ⟨nb, hkb, hnb⟩ := rootKey_eq law hb
  obtain ⟨_, has⟩ := ha.shape law
  obtain ⟨_, hbs⟩ := hb.shape law
  have hnodes : rootKey U a = rootKey U b ↔ na.toParts = nb.toParts := by
    rw [hka, hkb]
    exact ⟨fun h => congrArg Url.toParts (asStr_inj h), congrArg Parts.asStr⟩
  rw [hnodes, hna, hnb]
  simp only [Parts.mk.injEq, nodeKey, Prod.mk.injEq, has.fragment, hbs.fragment, true_and, and_true]

/-- What the state keeps of its rows. -/
structure Held (U : UrlCrate) (s : ScopedWatchState) : Prop where
  keyed : ∀ {key record}, s.roots.get key = some record → key = rootKey U record.root
  canonical : ∀ {key record}, s.roots.get key = some record → Canonical U record.root

/-- Advertised roots stay what they were when they are canonical. -/
theorem Held.handle {s : ScopedWatchState} (hs : Held U s) {event : Event}
    (hcanonical : ∀ root, event = .advertise root → Canonical U root) : Held U (s.handle U event) := by
  have hrow : ∀ {key record}, (s.handle U event).roots.get key = some record →
      key = rootKey U record.root ∧ Canonical U record.root := by
    intro key record' h
    rcases handle_cases h with ⟨record, f, hrecord, hf, rfl⟩ | ⟨root, he, -, hk, rfl⟩
    · rw [hf.root]
      exact ⟨hs.keyed hrecord, hs.canonical hrecord⟩
    · exact ⟨hk, hcanonical root he⟩
  exact ⟨fun h => (hrow h).1, fun h => (hrow h).2⟩

theorem held_after {events : List Event} (hcanonical : ∀ root, .advertise root ∈ events → Canonical U root) :
    Held U (.after U events) := by
  unfold ScopedWatchState.after
  induction events using List.reverseRecOn with
  | nil => exact ⟨fun h => absurd h (Option.some_ne_none _).symm, fun h => absurd h (Option.some_ne_none _).symm⟩
  | append_singleton events event ih =>
    rw [foldl_append]
    refine (ih fun root h => hcanonical root (mem_append_left _ h)).handle fun root he => ?_
    exact hcanonical root (mem_append_right _ (mem_singleton.mpr he.symm))

/-! ### The one answer -/

/-- An answer among some roots: one above the address that none above it outranks, if there is
one above it at all. -/
structure Answers (roots : Url → Prop) (address : Url) (answer : Option Url) : Prop where
  absent : answer = none → ∀ root, roots root → isAncestorOrSelf root.toParts address.toParts = false
  mem : ∀ {root}, answer = some root → roots root
  above : ∀ {root}, answer = some root → isAncestorOrSelf root.toParts address.toParts = true
  longest : ∀ {root}, answer = some root → ∀ other, roots other →
    isAncestorOrSelf other.toParts address.toParts = true → nodeRank other.toParts ≤ nodeRank root.toParts

variable {roots : Url → Prop}

theorem Answers.of_none
    (h : ∀ root, roots root → isAncestorOrSelf root.toParts address.toParts = false) : Answers roots address none :=
  ⟨fun _ => h, nofun, nofun, nofun⟩

theorem Answers.of_some (hmem : roots root) (habove : isAncestorOrSelf root.toParts address.toParts = true)
    (hlongest : ∀ other, roots other → isAncestorOrSelf other.toParts address.toParts = true →
      nodeRank other.toParts ≤ nodeRank root.toParts) : Answers roots address (some root) := by
  refine ⟨nofun, ?_, ?_, ?_⟩
  · rintro _ ⟨⟩
    exact hmem
  · rintro _ ⟨⟩
    exact habove
  · rintro _ ⟨⟩
    exact hlongest

section Answer

variable {U : UrlCrate} (law : U.Lawful) {address : Url} (haddress : Canonical U address)

include law haddress

/-- Answers among roots that name the same nodes name one node. -/
theorem Answers.agree {roots' : Url → Prop} {answer answer' : Option Url} (h : Answers roots address answer)
    (h' : Answers roots' address answer') (hroots : ∀ root, roots root → Canonical U root)
    (hroots' : ∀ root, roots' root → Canonical U root)
    (hsame : ∀ node, (∃ root, roots root ∧ nodeKey root.toParts = node) ↔
      ∃ root, roots' root ∧ nodeKey root.toParts = node) :
    answer.map (fun root => nodeKey root.toParts) = answer'.map fun root => nodeKey root.toParts := by
  cases answer with
  | none =>
    cases answer' with
    | none => rfl
    | some root' =>
      obtain ⟨root, hroot, hkey⟩ := (hsame _).mpr ⟨root', h'.mem rfl, rfl⟩
      have := (isAncestorOrSelf_congr hkey address.toParts).1
      rw [h.absent rfl root hroot, h'.above rfl] at this
      exact absurd this Bool.false_ne_true
  | some root =>
    obtain ⟨twin, htwin, hkey⟩ := (hsame _).mp ⟨root, h.mem rfl, rfl⟩
    obtain ⟨htwinAbove, htwinRank⟩ := isAncestorOrSelf_congr hkey address.toParts
    rw [h.above rfl] at htwinAbove
    cases answer' with
    | none => rw [h'.absent rfl twin htwin] at htwinAbove; exact absurd htwinAbove Bool.false_ne_true
    | some root' =>
      obtain ⟨twin', htwin', hkey'⟩ := (hsame _).mpr ⟨root', h'.mem rfl, rfl⟩
      obtain ⟨htwinAbove', htwinRank'⟩ := isAncestorOrSelf_congr hkey' address.toParts
      rw [h'.above rfl] at htwinAbove'
      -- each is outranked by no twin of the other
      have hle : nodeRank root'.toParts ≤ nodeRank root.toParts := htwinRank' ▸ h.longest rfl twin' htwin' htwinAbove'
      have hge : nodeRank root.toParts ≤ nodeRank root'.toParts := htwinRank ▸ h'.longest rfl twin htwin htwinAbove
      rw [Option.map_some, Option.map_some, nodeKey_eq_of_nodeRank_eq law (hroots root (h.mem rfl))
        (hroots' root' (h'.mem rfl)) haddress (h.above rfl) (h'.above rfl) (le_antisymm hge hle)]

end Answer

/-! ### Who gives it -/

/-- The roots the state holds. -/
def ScopedWatchState.Holds (s : ScopedWatchState) (root : Url) : Prop :=
  ∃ key record, s.roots.get key = some record ∧ record.root = root

section Assignment

variable {U : UrlCrate} {s : ScopedWatchState} {now : Instant} {scope : Url}

/-- The views are those of the rows, with the pauses that have run out over. -/
theorem mem_rootViews {view : RootView} :
    view ∈ s.rootViews now ↔ ∃ key record, s.roots.get key = some record ∧ (expire now record).view = view := by
  unfold ScopedWatchState.rootViews ScopedWatchState.expirePauses Table.map
  rw [mem_sortByKeyDesc, mem_map]
  constructor
  · rintro ⟨row', hrow', rfl⟩
    obtain ⟨row, hrow, rfl⟩ := mem_map.mp hrow'
    exact ⟨row.1, row.2, Table.mem_rows_iff.mp hrow, rfl⟩
  · rintro ⟨key, record, h, rfl⟩
    exact ⟨_, mem_map.mpr ⟨(key, record), Table.mem_rows_iff.mpr h, rfl⟩, rfl⟩

theorem view_expire (now : Instant) (record : ScopedRoot) :
    (expire now record).view.root = record.root ∧ (expire now record).view.generation = record.generation :=
  ⟨(change_expire now).root record, (change_expire now).generation record⟩

variable {root : Url}

theorem exists_view (h : s.Holds root) : ∃ view ∈ s.rootViews now, view.root = root := by
  obtain ⟨key, record, hget, rfl⟩ := h
  exact ⟨_, mem_rootViews.mpr ⟨key, record, hget, rfl⟩, (view_expire now record).1⟩

theorem holds_of_mem_rootViews {view : RootView} (h : view ∈ s.rootViews now) : s.Holds view.root := by
  obtain ⟨key, record, hget, rfl⟩ := mem_rootViews.mp h
  exact ⟨key, record, hget, (view_expire now record).1.symm⟩

/-- The first view above a scope in the order of the views is not outranked. -/
theorem answers_assignedRoot (s : ScopedWatchState) (now : Instant) (scope : Url) :
    Answers s.Holds scope ((assignedRoot (s.rootViews now) scope).map RootView.root) := by
  cases h : assignedRoot (s.rootViews now) scope with
  | none =>
    refine .of_none fun root hroot => ?_
    obtain ⟨view, hview, rfl⟩ : ∃ view ∈ s.rootViews now, view.root = root := exists_view hroot
    exact Bool.eq_false_iff.mpr (List.find?_eq_none.mp h view hview)
  | some view =>
    obtain ⟨hmem, habove, hmax, -⟩ := find?_sortByKeyDesc h
    have hview : view ∈ s.rootViews now := mem_sortByKeyDesc.mpr hmem
    refine .of_some (holds_of_mem_rootViews hview) habove fun other hother hotherAbove => ?_
    obtain ⟨view', hview', rfl⟩ : ∃ view ∈ s.rootViews now, view.root = other := exists_view hother
    exact Prod.Lex.monotone_fst _ _ (hmax view' (mem_sortByKeyDesc.mp hview') hotherAbove)

theorem answers_longestRoot (s : ScopedWatchState) (now : Instant) (scope : Url) :
    Answers s.Holds scope (longestRoot (s.rootViews now) scope) := by
  unfold longestRoot
  cases h : maxByKey (fun view : RootView => nodeRank view.root.toParts)
      ((s.rootViews now).filter fun view => isAncestorOrSelf view.root.toParts scope.toParts) with
  | none =>
    refine .of_none fun root hroot => ?_
    obtain ⟨view, hview, rfl⟩ : ∃ view ∈ s.rootViews now, view.root = root := exists_view hroot
    exact Bool.eq_false_iff.mpr (filter_eq_nil_iff.mp (maxByKey_eq_none_iff.mp h) view hview)
  | some view =>
    have hmax := maxByKey_eq_some_iff.mp h
    obtain ⟨hview, habove⟩ := mem_filter.mp hmax.mem
    refine .of_some (holds_of_mem_rootViews hview) habove fun other hother hotherAbove => ?_
    obtain ⟨view', hview', rfl⟩ : ∃ view ∈ s.rootViews now, view.root = other := exists_view hother
    exact hmax.le view' (mem_filter.mpr ⟨hview', hotherAbove⟩)

theorem answers_lookupPrefix {T : Type} (law : U.Lawful) {items : List (RootInfo × T)}
    (hitems : ∀ item ∈ items, Canonical U item.1.root) (hscope : Canonical U scope) :
    Answers (fun root => ∃ item ∈ items, item.1.root = root) scope
      (((RouteTable.build items).lookupPrefix U scope).map fun item => item.1.root) := by
  cases h : (RouteTable.build items).lookupPrefix U scope with
  | none =>
    refine .of_none fun root hroot => ?_
    obtain ⟨item, hitem, rfl⟩ := hroot
    refine Bool.eq_false_iff.mpr fun habove => ?_
    have := (lookupPrefix_isSome_iff law hitems hscope).mpr ⟨item, hitem, habove⟩
    rw [h] at this
    exact Bool.false_ne_true this
  | some found =>
    obtain ⟨hmem, habove, hmax, -⟩ := lookupPrefix_longest law hitems hscope h
    refine .of_some ⟨found, hmem, rfl⟩ habove ?_
    rintro other ⟨item, hitem, rfl⟩ hotherAbove
    exact hmax item hitem hotherAbove

variable {generation : ℕ}

/-- Ownership, said of the rows. -/
theorem stillOwnsScope_iff : s.stillOwnsScope U root generation scope = true ↔
      ∃ record, s.roots.get (rootKey U root) = some record ∧ record.generation = generation ∧
        ∀ other, s.Holds other → isAncestorOrSelf other.toParts scope.toParts = true →
          nodeRank root.toParts < nodeRank other.toParts → nodeKey other.toParts = nodeKey root.toParts := by
  unfold ScopedWatchState.stillOwnsScope
  cases hget : s.roots.get (rootKey U root) with
  | none => simp
  | some record =>
    have hrows : (!s.roots.rows.any fun (_, other) =>
        !sameNode other.root.toParts root.toParts && isAncestorOrSelf other.root.toParts scope.toParts &&
          decide (nodeRank root.toParts < nodeRank other.root.toParts)) = true ↔
        ∀ other, s.Holds other → isAncestorOrSelf other.toParts scope.toParts = true →
          nodeRank root.toParts < nodeRank other.toParts → nodeKey other.toParts = nodeKey root.toParts := by
      rw [Bool.not_eq_true', any_eq_false]
      constructor
      · rintro h other ⟨key, row, hrow, rfl⟩ habove hrank
        have := h (key, row) (Table.mem_rows_iff.mpr hrow)
        simpa [sameNode, habove, hrank] using this
      · rintro h ⟨key, row⟩ hrow
        have := h row.root ⟨key, row, Table.mem_rows_iff.mp hrow, rfl⟩
        simp only [sameNode, Bool.and_eq_true, Bool.not_eq_true', beq_eq_false_iff_ne, decide_eq_true_eq]
        rintro ⟨⟨hne, habove⟩, hrank⟩
        exact hne (this habove hrank)
    dsimp only
    split_ifs with hgen
    · simp only [bne_iff_ne] at hgen
      simp [hgen]
    · rw [hrows]
      simp only [bne_iff_ne, not_not] at hgen
      simp [hgen]

variable (law : U.Lawful) (hs : Held U s) (hscope : Canonical U scope)

include hs in
theorem Held.canonical_of_holds (h : s.Holds root) : Canonical U root := by
  obtain ⟨_, _, hget, rfl⟩ := h
  exact hs.canonical hget

include law hs hscope in
/-- The root that owns a scope is the one the scope is assigned to. -/
theorem stillOwnsScope_iff_assigned (hroot : Canonical U root)
    (habove : isAncestorOrSelf root.toParts scope.toParts = true) :
    s.stillOwnsScope U root generation scope = true ↔
      ∃ view, assignedRoot (s.rootViews now) scope = some view ∧ sameNode view.root.toParts root.toParts = true ∧
        view.generation = generation := by
  have hanswer := answers_assignedRoot s now scope
  rw [stillOwnsScope_iff]
  constructor
  · rintro ⟨record, hget, hgen, hunranked⟩
    have hkey : nodeKey record.root.toParts = nodeKey root.toParts :=
      ((rootKey_eq_iff law hroot (hs.canonical hget)).mp (hs.keyed hget)).symm
    have hholds : s.Holds record.root := ⟨_, record, hget, rfl⟩
    obtain ⟨hanc, hrank⟩ := isAncestorOrSelf_congr hkey scope.toParts
    cases h : assignedRoot (s.rootViews now) scope with
    | none =>
      rw [h] at hanswer
      exact absurd ((hanswer.absent rfl _ hholds).symm.trans (hanc.trans habove)) Bool.false_ne_true
    | some view =>
      rw [h, Option.map_some] at hanswer
      have hview : view ∈ s.rootViews now := mem_of_find?_eq_some h
      -- the assigned root outranks the owner in no way, so it names its node
      have hle : nodeRank root.toParts ≤ nodeRank view.root.toParts :=
        hrank ▸ hanswer.longest rfl _ hholds (hanc.trans habove)
      have hnode : nodeKey view.root.toParts = nodeKey root.toParts := by
        rcases lt_or_eq_of_le hle with hlt | heq
        · exact hunranked _ (hanswer.mem rfl) (hanswer.above rfl) hlt
        · exact (nodeKey_eq_of_nodeRank_eq law hroot (hs.canonical_of_holds (hanswer.mem rfl)) hscope habove
            (hanswer.above rfl) heq).symm
      refine ⟨view, rfl, beq_iff_eq.mpr hnode, ?_⟩
      obtain ⟨key, record', hget', rfl⟩ := mem_rootViews.mp hview
      rw [(view_expire now record').1] at hnode
      have hsame : key = rootKey U root :=
        (hs.keyed hget').trans ((rootKey_eq_iff law (hs.canonical hget') hroot).mpr hnode)
      rw [hsame, hget] at hget'
      rw [← Option.some.inj hget', (view_expire now record).2, hgen]
  · rintro ⟨view, h, hnode, hgen⟩
    rw [h, Option.map_some] at hanswer
    have hnode := beq_iff_eq.mp hnode
    obtain ⟨key, record, hget, rfl⟩ := mem_rootViews.mp (mem_of_find?_eq_some h)
    rw [(view_expire now record).2] at hgen
    rw [(view_expire now record).1] at hnode hanswer
    have hsame : key = rootKey U root :=
      (hs.keyed hget).trans ((rootKey_eq_iff law (hs.canonical hget) hroot).mpr hnode)
    refine ⟨record, hsame ▸ hget, hgen, fun other hother hotherAbove hlt => ?_⟩
    have hle := hanswer.longest rfl other hother hotherAbove
    rw [(isAncestorOrSelf_congr hnode scope.toParts).2] at hle
    exact absurd hlt (not_lt_of_ge hle)

end Assignment

/-- Whatever the state holds, the root a scope is watched under is the one its reads go to. -/
theorem watch_mirrors_dispatch {U : UrlCrate} (law : U.Lawful) {s : ScopedWatchState} (hs : Held U s) {T : Type}
    {items : List (RootInfo × T)} (hitems : ∀ item ∈ items, Canonical U item.1.root)
    (hsame : ∀ node, (∃ item ∈ items, nodeKey item.1.root.toParts = node) ↔
      ∃ row ∈ s.roots.rows, nodeKey row.2.root.toParts = node)
    {scope : Url} (hscope : Canonical U scope) (now : Instant) :
    (assignedRoot (s.rootViews now) scope).map (fun view => nodeKey view.root.toParts) =
      (longestRoot (s.rootViews now) scope).map (fun root => nodeKey root.toParts) ∧
    (assignedRoot (s.rootViews now) scope).map (fun view => nodeKey view.root.toParts) =
      ((RouteTable.build items).lookupPrefix U scope).map (fun item => nodeKey item.1.root.toParts) ∧
    (∀ running selected, assignScope (s.rootViews now) running scope = some selected →
      ∃ view, assignedRoot (s.rootViews now) scope = some view ∧ selected = ⟨view.root, view.generation, scope⟩) ∧
    ∀ root generation, Canonical U root → isAncestorOrSelf root.toParts scope.toParts = true →
      (s.stillOwnsScope U root generation scope = true ↔
        ∃ view, assignedRoot (s.rootViews now) scope = some view ∧ sameNode view.root.toParts root.toParts = true ∧
          view.generation = generation) := by
  have hholds : ∀ root, s.Holds root → Canonical U root := fun root h => hs.canonical_of_holds h
  have hassigned := answers_assignedRoot s now scope
  refine ⟨?_, ?_, fun running selected h => assignScope_eq_some h, fun root generation hroot habove =>
    stillOwnsScope_iff_assigned law hs hscope hroot habove⟩
  · have := hassigned.agree law hscope (answers_longestRoot s now scope) hholds hholds fun node => Iff.rfl
    rwa [Option.map_map] at this
  · have := hassigned.agree law hscope (answers_lookupPrefix law hitems hscope) hholds
      (fun root ⟨item, hitem, he⟩ => he ▸ hitems item hitem) fun node => ?_
    · rwa [Option.map_map, Option.map_map] at this
    · refine Iff.trans ?_ ((hsame node).symm.trans ?_)
      · constructor
        · rintro ⟨_, ⟨key, record, hget, rfl⟩, hnode⟩
          exact ⟨(key, record), Table.mem_rows_iff.mpr hget, hnode⟩
        · rintro ⟨⟨key, record⟩, hrow, hnode⟩
          exact ⟨record.root, ⟨key, record, Table.mem_rows_iff.mp hrow, rfl⟩, hnode⟩
      · constructor
        · rintro ⟨item, hitem, hnode⟩
          exact ⟨_, ⟨item, hitem, rfl⟩, hnode⟩
        · rintro ⟨_, ⟨item, hitem, rfl⟩, hnode⟩
          exact ⟨item, hitem, hnode⟩

/-- `s3://b/docs/x/`. -/
def docsDirectory : Url :=
  ⟨⟨utf8 "s3", true, [], none, some (utf8 "b"), none, utf8 "/docs/x/", none, none⟩, by decide⟩

/-- A root is advertised, in one of its two spellings, and a root below it. -/
def docsState : ScopedWatchState := .after reference [.advertise docsRoot, .advertise docsDirectory]

/-- Both spellings and the root below them, each with its own target. -/
def nestedRoots : List (RootInfo × ℕ) := (⟨docsDirectory, []⟩, 3) :: docsRoots

theorem nestedRoots_canonical : ∀ item ∈ nestedRoots, Canonical reference item.1.root := by
  intro item h
  rcases mem_cons.mp h with rfl | h
  · exact reference_canonical docsDirectory [utf8 "docs", utf8 "x", []] (by decide +kernel) (by simp [docsDirectory])
  · exact docsRoots_canonical item h

theorem docsState_held : Held reference docsState := by
  refine held_after fun root h => ?_
  rcases mem_cons.mp h with h | h
  · cases h
    exact nestedRoots_canonical (⟨docsRoot, []⟩, 1) (mem_cons_of_mem _ mem_cons_self)
  · cases mem_singleton.mp h
    exact nestedRoots_canonical (⟨docsDirectory, []⟩, 3) mem_cons_self

/-- The reads of a pinned object below both roots go to the nested one, and that is the one it is watched under. -/
theorem watch_mirrors_dispatch_docs :
    (assignedRoot (docsState.rootViews 0) docsObject).map (fun view => nodeKey view.root.toParts) =
      ((RouteTable.build nestedRoots).lookupPrefix reference docsObject).map (fun item => nodeKey item.1.root.toParts) ∧
    docsState.stillOwnsScope reference docsDirectory 1 docsObject = true := by
  have hobject : Canonical reference docsObject :=
    reference_canonical docsObject [utf8 "docs", utf8 "x"] (by decide +kernel) (by decide +kernel)
  have hslashed : nodeKey docsRootSlashed.toParts = nodeKey docsRoot.toParts := by decide +kernel
  have hsame : ∀ node, (∃ item ∈ nestedRoots, nodeKey item.1.root.toParts = node) ↔
      ∃ row ∈ docsState.roots.rows, nodeKey row.2.root.toParts = node := by
    have hrows : docsState.roots.rows = [(rootKey reference docsDirectory, ⟨docsDirectory, .Pending, 1, []⟩),
        (rootKey reference docsRoot, ⟨docsRoot, .Pending, 0, []⟩)] := by decide +kernel
    intro node
    simp [nestedRoots, docsRoots, hrows, hslashed]
  obtain ⟨-, hdispatch, -, howns⟩ :=
    watch_mirrors_dispatch reference_lawful docsState_held nestedRoots_canonical hsame hobject 0
  have hroot : Canonical reference docsDirectory := nestedRoots_canonical (⟨docsDirectory, []⟩, 3) mem_cons_self
  refine ⟨hdispatch, (howns docsDirectory 1 hroot (by decide +kernel)).mpr ?_⟩
  exact ⟨⟨docsDirectory, 1, false, false⟩, by decide +kernel, by decide +kernel, rfl⟩

end OvStorage.Watch
