import OvStorage.Cache.Tree
import OvStorage.Watch.Selection

/-!
# The candidates for a watch

`scope_of` and `WatchScopes` of `ovstorage-plugin-cache/src/notification_drain.rs`: the directories
that cached entries lie in, as the supervisor selects among them.

## The model

Of entries that are equally cold, the order of a hash map decides which one makes room: `Victims`
may be any such choice. A clock reading comes with the call that takes it. The wake of the
supervisor is left out.

## What is proved

* `roots_spared_iff`: whatever is cached, no root is watched as a scope, exactly if every root is
  spelled like a scope.
-/

namespace OvStorage.Watch

open Address Cache Listing Routing SegList StableSort List

/-! ### The code -/

/-- `MAX_CANDIDATE_SCOPES`. -/
def MAX_CANDIDATE_SCOPES : ℕ := 32

/-- `MAX_DENIED_SCOPES`. -/
def MAX_DENIED_SCOPES : ℕ := 256

/-- `MAX_WATCH_SCOPES`. -/
def MAX_WATCH_SCOPES : ℕ := 4

/-- `WatchMode`. -/
inductive WatchMode
  | Recursive | NonRecursive
deriving DecidableEq

/-- `ScopeEntry`. -/
structure ScopeEntry where
  url : Url
  touched : ℕ
  directTouch : Instant
  watched : Bool
deriving DecidableEq

/-- `DeniedScope`. -/
structure DeniedScope where
  /-- `at`. -/
  deniedAt : Instant
  fully : Bool
  root : Url
  generation : ℕ
deriving DecidableEq

/-- `WatchScopes`, with its `ScopeTable`. -/
structure WatchScopes where
  enabled : Bool
  scopes : Table Bytes ScopeEntry
  denied : Table Bytes DeniedScope
  clock : ℕ

/-- Which rows make room, as `min_by_key` may find them. -/
structure Victims where
  coldest : Table Bytes ScopeEntry → Option Bytes
  oldest : Table Bytes DeniedScope → Option Bytes
  coldest_none : ∀ {table}, coldest table = none → table.rows = []
  oldest_none : ∀ {table}, oldest table = none → table.rows = []
  coldest_spec : ∀ {table key}, coldest table = some key →
    ∃ entry, table.get key = some entry ∧
      ∀ row ∈ table.rows, toLex (entry.watched, entry.touched) ≤ toLex (row.2.watched, row.2.touched)
  oldest_spec : ∀ {table key}, oldest table = some key →
    ∃ denied, table.get key = some denied ∧ ∀ row ∈ table.rows, denied.deniedAt ≤ row.2.deniedAt

/-- `scope_of`. -/
def scopeOf (U : UrlCrate) (address : Url) : Option Url :=
  if address.username ≠ [] ∨ address.password.isSome then none
  else if endsWithSlash address then some address.clearQuery.clearFragment
  else (parentAndName U address).map Prod.fst

namespace WatchScopes

/-- `WatchScopes::new`. -/
def new (enabled : Bool) : WatchScopes := ⟨enabled, .empty, .empty, 0⟩

section Code

variable (U : UrlCrate) (V : Victims) (s : WatchScopes)

/-- `note_cached`, for the scope of what was cached. -/
def noteScope (scope : Url) (now : Instant) : WatchScopes :=
  let clock := s.clock + 1
  let touched := s.scopes.map fun entry =>
    if isAncestorOrSelf entry.url.toParts scope.toParts then { entry with touched := clock } else entry
  match touched.get scope.asStr with
  | some _ =>
    { s with clock := clock, scopes := touched.modify scope.asStr fun entry => { entry with directTouch := now } }
  | none =>
    let room :=
      if MAX_CANDIDATE_SCOPES ≤ touched.rows.length then
        ((V.coldest touched).map touched.erase).getD touched
      else touched
    { s with clock := clock, scopes := room.insert scope.asStr ⟨scope, clock, now, false⟩ }

/-- `note_cached`. -/
def noteCached (address : Url) (now : Instant) : WatchScopes :=
  if s.enabled then ((scopeOf U address).map fun scope => s.noteScope V scope now).getD s else s

/-- `deny`. -/
def deny (scope : Url) (mode : WatchMode) (root : Url) (generation : ℕ) (now : Instant) : WatchScopes :=
  let room := if MAX_DENIED_SCOPES ≤ s.denied.rows.length ∧ (s.denied.get scope.asStr).isNone then
    ((V.oldest s.denied).map s.denied.erase).getD s.denied else s.denied
  { s with denied := room.insert scope.asStr ⟨now, mode == .NonRecursive, root, generation⟩ }

/-- `starting_mode`. -/
def startingMode (scope : Url) (ownedBy : Url → ℕ → Url → Bool) (now : Instant) : WatchMode :=
  match s.denied.get scope.asStr with
  | some denied =>
    if now - denied.deniedAt < DENIED_SCOPE_RETRY ∧ ownedBy denied.root denied.generation scope then
      .NonRecursive
    else .Recursive
  | none => .Recursive

/-- `candidates`: whether the entry is not withheld by a refusal. -/
def isLive (ownedBy : Url → ℕ → Url → Bool) (now : Instant) (entry : ScopeEntry) : Bool :=
  match s.denied.get entry.url.asStr with
  | some denied => !denied.fully || decide (DENIED_SCOPE_RETRY ≤ now - denied.deniedAt) ||
      !ownedBy denied.root denied.generation entry.url
  | none => true

/-- The order of candidates: the last touched first, then the deepest, then by `node_key`. -/
def entryKey (entry : ScopeEntry) : ℕ ×ₗ ViewKey := toLex (entry.touched, viewKey ⟨entry.url, 0, false, false⟩)

/-- `candidates`. -/
def candidates (ownedBy : Url → ℕ → Url → Bool) (now : Instant) : List Url :=
  (sortByKeyDesc entryKey ((s.scopes.rows.map Prod.snd).filter (s.isLive ownedBy now))).map ScopeEntry.url

/-- `mark_watched`. -/
def markWatched (watched : List Bytes) : WatchScopes :=
  { s with scopes := ⟨s.scopes.rows.map fun row => (row.1, { row.2 with watched := watched.contains row.1 }), by
      rw [map_map]
      exact s.scopes.nodup⟩ }

end Code

/-- What is written to the registry. -/
inductive Event
  | noteCached (address : Url) (now : Instant)
  | deny (scope : Url) (mode : WatchMode) (root : Url) (generation : ℕ) (now : Instant)
  | markWatched (watched : List Bytes)

/-- One of these calls. -/
def handle (U : UrlCrate) (V : Victims) (s : WatchScopes) : Event → WatchScopes
  | .noteCached address now => s.noteCached U V address now
  | .deny scope mode root generation now => s.deny V scope mode root generation now
  | .markWatched watched => s.markWatched watched

/-- The registry after a history. -/
def after (U : UrlCrate) (V : Victims) (enabled : Bool) (history : List Event) : WatchScopes :=
  history.foldl (handle U V) (.new enabled)

end WatchScopes

/-! ### How a scope is spelled -/

/-- A scope is a directory of its own, without userinfo and query. -/
structure IsScope (U : UrlCrate) (scope : Url) : Prop where
  canonical : Canonical U scope
  query : scope.query = none
  userinfo : scope.username = [] ∧ scope.password = none
  slashed : endsWithSlash scope = true

section Spelling

variable {U : UrlCrate} {address scope : Url}

theorem endsWithSlash_pieces {u : Url} {ss : List Bytes} (h : u.path = pieces slash (ss ++ [[]])) :
    endsWithSlash u = true := by
  simp [endsWithSlash, h]

theorem scopeOf_spelled (law : U.Lawful) (haddress : Canonical U address) (h : scopeOf U address = some scope) :
    IsScope U scope := by
  unfold scopeOf at h
  split_ifs at h with huserinfo hslash
  all_goals push Not at huserinfo
  all_goals obtain ⟨hname, hpassword⟩ := huserinfo
  all_goals obtain ⟨us, hus⟩ := haddress.shape law
  · cases h
    have hparts : (address.clearQuery.clearFragment).toParts =
        { address.toParts with path := pieces slash (escapedSegs address.toParts us), query := none } := by
      simp [clearFragment_toParts, Url.clearQuery, hus.path, hus.fragment]
    obtain ⟨hcanonical, -⟩ := canonical_withSegs law haddress (Or.inl rfl) hparts hus.ne_nil hus.sepFree hus.settled
    have hnone : address.password = none := by simpa using hpassword
    exact ⟨hcanonical, rfl, ⟨hname, hnone⟩, hslash⟩
  · obtain ⟨⟨parent, name⟩, hparent, rfl⟩ := Option.map_eq_some_iff.mp h
    obtain ⟨init, last, -, -, hset, hsep, hparts⟩ := parentAndName_toParts law hus hparent
    obtain ⟨hcanonical, -⟩ := canonical_withSegs law haddress (Or.inl rfl) hparts (by simp) hsep hset
    refine ⟨hcanonical, by rw [hparts], ⟨by rw [hparts]; exact hname, by rw [hparts]; simpa using hpassword⟩, ?_⟩
    refine @endsWithSlash_pieces _ (escapedSegs address.toParts init) ?_
    rw [hparts]
    simp [escapedSegs]

/-- A scope is the scope of itself. -/
theorem scopeOf_self (law : U.Lawful) (h : IsScope U scope) : scopeOf U scope = some scope := by
  obtain ⟨st, hst⟩ := h.canonical.shape law
  unfold scopeOf
  rw [if_neg (by simp [h.userinfo]), if_pos h.slashed]
  refine congrArg some (Url.ext_parts ?_)
  have hparts : { scope.toParts with query := none, fragment := none } =
      { scope.toParts with query := scope.query, fragment := scope.fragment } := by
    rw [h.query, hst.fragment]
  exact hparts

end Spelling

namespace WatchScopes

variable {U : UrlCrate} {V : Victims} {s : WatchScopes}

/-- Every entry is spelled like a scope. -/
def Spelled (U : UrlCrate) (s : WatchScopes) : Prop := ∀ row ∈ s.scopes.rows, IsScope U row.2.url

theorem Spelled.of_erase {table : Table Bytes ScopeEntry} (h : ∀ row ∈ table.rows, IsScope U row.2.url)
    (pick : Option Bytes) :
    ∀ row ∈ ((pick.map table.erase).getD table).rows, IsScope U row.2.url := by
  cases pick with
  | none => exact h
  | some key => exact fun row hrow => h row (Table.mem_erase.mp hrow).1

theorem Spelled.noteScope (hs : s.Spelled U) {scope : Url} (hscope : IsScope U scope) (now : Instant) :
    (s.noteScope V scope now).Spelled U := by
  have htouched : ∀ row ∈ (s.scopes.map fun entry =>
      if isAncestorOrSelf entry.url.toParts scope.toParts then { entry with touched := s.clock + 1 } else entry).rows,
      IsScope U row.2.url := by
    intro row hrow
    obtain ⟨old, hold, rfl⟩ := mem_map.mp hrow
    dsimp only
    split_ifs
    · exact hs old hold
    · exact hs old hold
  unfold WatchScopes.noteScope
  dsimp only
  split
  · intro row hrow
    obtain ⟨old, hold, rfl⟩ := mem_map.mp hrow
    split_ifs
    · exact htouched old hold
    · exact htouched old hold
  · intro row hrow
    rcases Table.mem_insert.mp hrow with rfl | ⟨hrow, -⟩
    · exact hscope
    · split_ifs at hrow
      · exact Spelled.of_erase htouched _ row hrow
      · exact htouched row hrow

theorem Spelled.handle (law : U.Lawful) (hs : s.Spelled U) {event : Event}
    (hcached : ∀ address now, event = .noteCached address now → Canonical U address) :
    (s.handle U V event).Spelled U := by
  cases event with
  | noteCached address now =>
    change (s.noteCached U V address now).Spelled U
    unfold WatchScopes.noteCached
    split_ifs
    · cases hscope : scopeOf U address with
      | none => exact hs
      | some scope => exact hs.noteScope (scopeOf_spelled law (hcached address now rfl) hscope) now
    · exact hs
  | deny scope mode root generation now => exact hs
  | markWatched watched =>
    intro row hrow
    obtain ⟨old, hold, rfl⟩ := mem_map.mp hrow
    exact hs old hold

/-- Whatever is cached, a candidate is spelled like a scope. -/
theorem candidates_spelled (law : U.Lawful) {enabled : Bool} {history : List Event}
    (hcached : ∀ address now, .noteCached address now ∈ history → Canonical U address) (ownedBy : Url → ℕ → Url → Bool)
    (now : Instant) : ∀ scope ∈ (after U V enabled history).candidates ownedBy now, IsScope U scope := by
  have hspelled : (after U V enabled history).Spelled U := by
    unfold after
    induction history using List.reverseRecOn with
    | nil => exact fun row hrow => absurd hrow not_mem_nil
    | append_singleton history event ih =>
      rw [foldl_append]
      refine (ih fun address now h => hcached address now (mem_append_left _ h)).handle law fun address now he => ?_
      exact hcached address now (mem_append_right _ (mem_singleton.mpr he.symm))
  intro scope hscope
  obtain ⟨entry, hentry, rfl⟩ := mem_map.mp hscope
  rw [mem_sortByKeyDesc] at hentry
  obtain ⟨row, hrow, rfl⟩ := mem_map.mp (mem_of_mem_filter hentry)
  exact hspelled row hrow

end WatchScopes

/-! ### Roots that are spelled like a scope -/

/-- No scope can be spelled otherwise and name the node of the root. -/
def SpelledAsScope (root : Url) : Prop :=
  root.query.isSome ∨ endsWithSlash root = true ∧ (root.username = [] ∧ root.password = none) ∧
    (root.host.isSome ∨ root.scheme ∈ SPECIAL)

instance (root : Url) : Decidable (SpelledAsScope root) := inferInstanceAs (Decidable (_ ∨ _))

section Roots

variable {U : UrlCrate} {root scope : Url}

theorem nodePath_concat {u : Parts} {init : Bytes} (h : u.path = init ++ [slash]) :
    nodePath u = if init = [] then [slash] else init := by
  unfold nodePath
  have hstrip : (init ++ [slash]).dropSuffix? [slash] = some init := dropSuffix?_eq_some.mpr rfl
  rw [h, hstrip, Option.getD_some, length_append, length_singleton]
  by_cases hinit : init = []
  · simp [hinit]
  · have := length_pos_iff.mpr hinit
    rw [if_pos (by omega), if_neg hinit]

/-- A path that ends in `/` is told by its node path. -/
theorem path_eq_of_nodePath {u v : Parts} (hu : PathFixed u.scheme u.path) (hv : PathFixed v.scheme v.path)
    (hsu : u.path.getLast? = some slash) (hsv : v.path.getLast? = some slash) (h : nodePath u = nodePath v) :
    u.path = v.path := by
  obtain ⟨init, hinit⟩ := List.getLast?_eq_some_iff.mp hsu
  obtain ⟨init', hinit'⟩ := List.getLast?_eq_some_iff.mp hsv
  have hu := hu.not_slashes
  have hv := hv.not_slashes
  rw [hinit] at hu
  rw [hinit'] at hv
  rw [nodePath_concat hinit, nodePath_concat hinit'] at h
  rw [hinit, hinit']
  split_ifs at h with he he'
  · rw [he, he']
  · simp [← h, List.isPrefixOf] at hv
  · simp [h, List.isPrefixOf] at hu
  · rw [h]

/-- An address that ends in `/` and names the node of a scope is written like it, if they agree on the authority. -/
theorem asStr_eq_of_node (law : U.Lawful) (hroot : Canonical U root)
    (huserinfo : root.username = [] ∧ root.password = none) (hslash : endsWithSlash root = true)
    (hscope : IsScope U scope) (hwritten : root.hasAuthority = scope.hasAuthority)
    (h : nodeKey scope.toParts = nodeKey root.toParts) : root.asStr = scope.asStr := by
  simp only [nodeKey, Prod.mk.injEq] at h
  obtain ⟨hscheme, hhost, hport, hpath, hquery⟩ := h
  obtain ⟨rs, hrs⟩ := hroot.shape law
  obtain ⟨ss, hss⟩ := hscope.canonical.shape law
  obtain ⟨hname, hpassword⟩ := huserinfo
  obtain ⟨hsname, hspassword⟩ := hscope.userinfo
  have hpaths :=
    path_eq_of_nodePath hrs.pathFixed hss.pathFixed (beq_iff_eq.mp hslash) (beq_iff_eq.mp hscope.slashed) hpath.symm
  have hparts : root.toParts = scope.toParts := by
    have hmk : Parts.mk root.scheme root.hasAuthority root.username root.password root.host root.port root.path
          root.query root.fragment =
        Parts.mk scope.scheme scope.hasAuthority scope.username scope.password scope.host scope.port scope.path
          scope.query scope.fragment := by
      rw [hscheme, hwritten, hname, hsname, hpassword, hspassword, hhost, hport, hpaths, ← hquery,
        hrs.fragment, hss.fragment]
    exact hmk
  exact congrArg Parts.asStr hparts

/-- A root that is spelled like a scope and names the node of one is written like it. -/
theorem parts_eq_of_node (law : U.Lawful) (hroot : Canonical U root) (hspelled : SpelledAsScope root)
    (hscope : IsScope U scope) (h : nodeKey scope.toParts = nodeKey root.toParts) : root.asStr = scope.asStr := by
  obtain ⟨hscheme, hhost, -, -, hquery⟩ : scope.scheme = root.scheme ∧ scope.host = root.host ∧ scope.port = root.port ∧
      nodePath scope.toParts = nodePath root.toParts ∧ scope.query = root.query := by
        simpa only [nodeKey, Prod.mk.injEq] using h
  rcases hspelled with hpinned | ⟨hslash, huserinfo, hauthority⟩
  · simp [← hquery, hscope.query] at hpinned
  refine asStr_eq_of_node law hroot huserinfo hslash hscope ?_ h
  rcases hauthority with hsome | hspecial
  · rw [root.wf.host_authority hsome, scope.wf.host_authority (hhost ▸ hsome)]
  · rw [(root.wf.special hspecial).1, (scope.wf.special (hscheme ▸ hspecial)).1]

/-- The address without the `//` of an empty authority. -/
def withoutAuthority (u : Url) (hhost : u.host = none) (hpath : PathFixed u.scheme u.path)
    (hspecial : u.scheme ∉ SPECIAL) : Url :=
  ⟨{ u.toParts with hasAuthority := false },
    { u.wf with
      host_authority := by simp [hhost]
      path_absolute := by simp
      path_dot := fun _ => hpath.not_dot
      special := fun h => absurd h hspecial }⟩

/-- A canonical address without its userinfo, with the authority written or not, and with other segments. -/
theorem canonical_respelled (law : U.Lawful) (hroot : Canonical U root) {v : Url} {written : Bool} {st : List Bytes}
    (hv : v.toParts = { root.toParts with
      hasAuthority := written, username := [], password := none, path := pieces slash (escapedSegs root.toParts st) })
    (hne : st ≠ []) (hsep : SepFree slash st) (hset : Settled st) : Canonical U v ∧ Shape v.toParts st := by
  obtain ⟨rs, hrs⟩ := hroot.shape law
  have hshape : Shape v.toParts st := by
    refine ⟨?_, hne, hsep, hset, ?_, ?_⟩
    · rw [hv]
      refine congrArg (pieces slash) (escapedSegs_congr ?_ ?_ st) <;> rfl
    · rw [hv]
      exact hrs.lowercase
    · rw [hv]
      exact hrs.fragment
  have hparsed : U.Parsed v := by
    refine law.parse_respell root v hroot.parsed ?_ hshape.not_driveShare
    refine ⟨by rw [hv], Or.inl (by rw [hv]), by rw [hv], Or.inr ⟨by rw [hv], by rw [hv]⟩, hshape.pathFixed, ?_,
      hshape.fragment⟩
    rw [hv]
    exact law.parsed_query root hroot.parsed
  exact ⟨canonical_of_shape law hshape hparsed, hshape⟩

/-- A root that is not spelled like a scope has a scope on its node that is written otherwise. -/
theorem exists_scope (law : U.Lawful) (hroot : Canonical U root) (hnot : ¬SpelledAsScope root) :
    ∃ scope, IsScope U scope ∧ nodeKey scope.toParts = nodeKey root.toParts ∧ root.asStr ≠ scope.asStr := by
  obtain ⟨rs, hrs⟩ := hroot.shape law
  unfold SpelledAsScope at hnot
  push Not at hnot
  obtain ⟨hquery, hnot⟩ := hnot
  replace hquery := Option.not_isSome_iff_eq_none.mp hquery
  by_cases hplain : endsWithSlash root = true ∧ (root.username = [] ∧ root.password = none) ∧ root.hasAuthority = true
  · -- only an empty authority can be left out
    obtain ⟨hslash, huserinfo, hauthority⟩ := hplain
    obtain ⟨hhost, hspecial⟩ := hnot hslash huserinfo
    replace hhost := Option.not_isSome_iff_eq_none.mp hhost
    have hparts : (withoutAuthority root hhost hrs.pathFixed hspecial).toParts =
        { root.toParts with
          hasAuthority := false, username := [], password := none
          path := pieces slash (escapedSegs root.toParts rs) } := by
      rw [← huserinfo.1, ← huserinfo.2, ← hrs.path]
      rfl
    obtain ⟨hcanonical, -⟩ := canonical_respelled law hroot hparts hrs.ne_nil hrs.sepFree hrs.settled
    refine ⟨_, ⟨hcanonical, hquery, huserinfo, hslash⟩, rfl, fun hsame => ?_⟩
    have hwritten : root.hasAuthority = false := congrArg (fun u : Url => u.hasAuthority) (asStr_inj hsame)
    exact absurd (hauthority.symm.trans hwritten) (by decide)
  · -- the closing slash, the userinfo or the authority makes a difference
    have hbare := bareNode_toParts hroot.hierarchical
    have hset : Settled (nodeSegs rs ++ [[]]) :=
      Settled.append (nodeSegs_names hrs.settled) (show Settled [[]] from Or.inl rfl)
    have hsep : SepFree slash (nodeSegs rs ++ [[]]) := by simp [hrs.nodeSegs_sepFree]
    have hfix : PathFixed (bareNode root).scheme (pieces slash (escapedSegs root.toParts (nodeSegs rs ++ [[]]))) := by
      rw [hbare]
      exact pathFixed_escaped root.toParts (by simp) hsep hset
    have hparts : ((bareNode root).withPath _ hfix).toParts =
        { root.toParts with
          hasAuthority := true, username := [], password := none
          path := pieces slash (escapedSegs root.toParts (nodeSegs rs ++ [[]])) } :=
      congrArg (fun bare : Parts =>
        { bare with path := pieces slash (escapedSegs root.toParts (nodeSegs rs ++ [[]])) }) hbare
    obtain ⟨hcanonical, hshape⟩ := canonical_respelled law hroot hparts (by simp) hsep hset
    have hslash : endsWithSlash ((bareNode root).withPath _ hfix) = true :=
      @endsWithSlash_pieces _ (escapedSegs root.toParts (nodeSegs rs)) (by rw [hparts]; simp [escapedSegs])
    refine ⟨_, ⟨hcanonical, by rw [hparts]; exact hquery, by rw [hparts]; exact ⟨rfl, rfl⟩, hslash⟩, ?_, ?_⟩
    · have hpath : nodePath ((bareNode root).withPath _ hfix).toParts = nodePath root.toParts := by
        rw [hshape.nodePath_eq, hrs.nodePath_eq, nodeSegs_concat_nil]
        refine congrArg nodeText (escapedSegs_congr ?_ ?_ _) <;> rw [hparts]
      rw [nodeKey, nodeKey, hpath, hparts]
    · intro hsame
      rw [← asStr_inj hsame] at hslash hparts
      exact hplain ⟨hslash, by rw [hparts]; exact ⟨rfl, rfl⟩, by rw [hparts]⟩

end Roots

/-! ### No root is watched as a scope -/

/-- Whatever is cached and however the roots stand, no scope that is selected names the node of its root. -/
def RootsSpared (U : UrlCrate) (V : Victims) (roots : List Url) : Prop :=
  ∀ (enabled : Bool) (history : List WatchScopes.Event) (ownedBy : Url → ℕ → Url → Bool)
    (now : Instant) (q : Selection),
    (∀ address now, .noteCached address now ∈ history → Canonical U address) → (q.roots.map RootView.root).Perm roots →
    q.roots.Pairwise (fun a b => viewKey b ≤ viewKey a) →
    q.candidates = (WatchScopes.after U V enabled history).candidates ownedBy now →
    ∀ s ∈ q.selectScopes, nodeKey s.scope.toParts ≠ nodeKey s.root.toParts

section Spared

variable {U : UrlCrate} {V : Victims} {roots : List Url}

theorem spared_of_spelled (law : U.Lawful) (hroots : ∀ root ∈ roots, Canonical U root)
    (h : ∀ root ∈ roots, SpelledAsScope root) :
    RootsSpared U V roots := by
  intro enabled history ownedBy now q hcached hperm hsorted hcandidates s hs hsame
  obtain ⟨heligible, -⟩ := (Selection.mem_antichain_iff hsorted).mp (q.selectScopes_subperm.subset hs)
  obtain ⟨before, view, after, hsplit, hroot, -⟩ := heligible.longest
  have hview : view ∈ q.roots := by simp [hsplit]
  have hmem : s.root ∈ roots := hperm.subset (hroot ▸ mem_map_of_mem hview)
  have hscope : IsScope U s.scope := by
    have hcandidate := heligible.candidate
    rw [hcandidates] at hcandidate
    exact WatchScopes.candidates_spelled law hcached ownedBy now s.scope hcandidate
  exact heligible.spelled (parts_eq_of_node law (hroots _ hmem) (h _ hmem) hscope hsame)

/-- Where a single scope is cached, it is the only candidate. -/
theorem candidates_single (law : U.Lawful) {scope : Url} (hscope : IsScope U scope) (ownedBy : Url → ℕ → Url → Bool) :
    (WatchScopes.after U V true [.noteCached scope 0]).candidates ownedBy 0 = [scope] := by
  have hafter : WatchScopes.after U V true [.noteCached scope 0] = (WatchScopes.new true).noteScope V scope 0 := by
    simp [WatchScopes.after, WatchScopes.handle, WatchScopes.noteCached, WatchScopes.new, scopeOf_self law hscope]
  rw [hafter]
  rfl

/-- A root that is not spelled like a scope is watched as one. -/
theorem watched_of_not_spelled (law : U.Lawful) (hroots : ∀ root ∈ roots, Canonical U root)
    (hdistinct : (roots.map fun root => nodeKey root.toParts).Nodup) {root : Url} (hroot : root ∈ roots)
    (hnot : ¬SpelledAsScope root) : ¬RootsSpared U V roots := by
  intro hspared
  obtain ⟨scope, hscope, hnode, hspelling⟩ := exists_scope law (hroots root hroot) hnot
  -- every root was refused and grants probes
  let views := sortByKeyDesc viewKey (roots.map fun root => (⟨root, 0, false, true⟩ : RootView))
  let q : Selection := ⟨views, [scope], MAX_WATCH_SCOPES, fun _ => false, fun _ => true, [], []⟩
  have hmemView : ∀ {view}, view ∈ views ↔ ∃ root ∈ roots, (⟨root, 0, false, true⟩ : RootView) = view := by
    intro view
    simp [views]
  have hassigned : assignedRoot views scope = some ⟨root, 0, false, true⟩ := by
    obtain ⟨habove, hrank⟩ := isAncestorOrSelf_congr hnode scope.toParts
    have hself : isAncestorOrSelf scope.toParts scope.toParts = true :=
      (isAncestorOrSelf_iff law hscope.canonical hscope.canonical).mpr (Node.Covers.refl _)
    rw [hself] at habove
    cases hfound : assignedRoot views scope with
    | none =>
      have hnone := List.find?_eq_none.mp hfound _ (hmemView.mpr ⟨root, hroot, rfl⟩)
      exact absurd habove.symm hnone
    | some view =>
      obtain ⟨hmem, hviewAbove, hmax, -⟩ := find?_sortByKeyDesc hfound
      obtain ⟨root', hroot', rfl⟩ := mem_map.mp hmem
      have hle : nodeRank root.toParts ≤ nodeRank root'.toParts :=
        Prod.Lex.monotone_fst _ _ (hmax ⟨root, 0, false, true⟩ (mem_map_of_mem hroot) habove.symm)
      have hge : nodeRank root'.toParts ≤ nodeRank root.toParts :=
        hrank ▸ nodeRank_le law (hroots root' hroot') hscope.canonical hviewAbove
      have hkey := nodeKey_eq_of_nodeRank_eq law (hroots root hroot) (hroots root' hroot') hscope.canonical
          habove.symm hviewAbove
        (le_antisymm hle hge)
      rw [inj_on_of_nodup_map hdistinct hroot hroot' hkey]
  have hassign : q.assigned = [⟨root, 0, scope⟩] := by
    have hscopeAssigned : assignScope q.roots q.running scope = some ⟨root, 0, scope⟩ := by
      simp [assignScope, q, hassigned, hspelling]
    exact filterMap_cons_some hscopeAssigned
  have hchain : (⟨root, 0, scope⟩ : SelectedScope) ∈ q.antichain := by
    refine Topmost.mem_topmost.mpr ⟨by simp [hassign], fun other hother => ?_⟩
    rw [hassign, mem_singleton] at hother
    simp [Selection.coversOver, hother]
  have hselected : (⟨root, 0, scope⟩ : SelectedScope) ∈ q.selectScopes := by
    refine Selection.mem_selectScopes (nodup_singleton _) ?_ hchain
    have hlen := (q.selectScopes_subperm.length_le).trans (length_filter_le _ _)
    rw [hassign] at hlen
    exact Nat.lt_of_le_of_lt hlen (show 1 < MAX_WATCH_SCOPES by decide)
  refine hspared true [.noteCached scope 0] (fun _ _ _ => true) 0 q ?_ ?_ (pairwise_sortByKeyDesc _ _)
    (candidates_single law hscope _).symm _ hselected hnode
  · intro address now hmem
    obtain ⟨⟩ := mem_singleton.mp hmem
    exact hscope.canonical
  · have hperm := (perm_sortByKeyDesc viewKey
      (roots.map fun root => (⟨root, 0, false, true⟩ : RootView))).map RootView.root
    rwa [map_map, map_id''] at hperm
    exact fun _ => rfl

/-- No root is watched as a scope, whatever is cached, exactly if every root is spelled like a scope. -/
theorem roots_spared_iff (law : U.Lawful) (hroots : ∀ root ∈ roots, Canonical U root)
    (hdistinct : (roots.map fun root => nodeKey root.toParts).Nodup) :
    RootsSpared U V roots ↔ ∀ root ∈ roots, SpelledAsScope root := by
  refine ⟨fun h root hroot => ?_, spared_of_spelled law hroots⟩
  by_contra hnot
  exact watched_of_not_spelled law hroots hdistinct hroot hnot h

end Spared

/-- The row of least key that comes last makes room. -/
def lastVictims : Victims where
  coldest table :=
    (Select.maxByKey (fun row => OrderDual.toDual (toLex (row.2.watched, row.2.touched))) table.rows).map Prod.fst
  oldest table := (Select.maxByKey (fun row => OrderDual.toDual row.2.deniedAt) table.rows).map Prod.fst
  coldest_none h := Select.maxByKey_eq_none_iff.mp (Option.map_eq_none_iff.mp h)
  oldest_none h := Select.maxByKey_eq_none_iff.mp (Option.map_eq_none_iff.mp h)
  coldest_spec {table key} h := by
    obtain ⟨row, hrow, rfl⟩ := Option.map_eq_some_iff.mp h
    have hmax := Select.maxByKey_eq_some_iff.mp hrow
    exact ⟨row.2, Table.mem_rows_iff.mp hmax.mem, fun other hother => hmax.le other hother⟩
  oldest_spec {table key} h := by
    obtain ⟨row, hrow, rfl⟩ := Option.map_eq_some_iff.mp h
    have hmax := Select.maxByKey_eq_some_iff.mp hrow
    exact ⟨row.2, Table.mem_rows_iff.mp hmax.mem, fun other hother => hmax.le other hother⟩

/-- `s3://b/docs/`. -/
def docsScope : Url :=
  ⟨⟨utf8 "s3", true, [], none, some (utf8 "b"), none, utf8 "/docs/", none, none⟩, by decide⟩

theorem roots_spared_docs : RootsSpared reference lastVictims [docsScope] := by
  refine (@roots_spared_iff reference lastVictims [docsScope] reference_lawful ?_ (by simp)).mpr ?_
  · intro root hroot
    obtain rfl := mem_singleton.mp hroot
    exact reference_canonical _ [utf8 "docs", []] (by decide +kernel) (by simp [docsScope])
  · intro root hroot
    obtain rfl := mem_singleton.mp hroot
    decide +kernel

/-- `s3://b/docs/x?versionId=1` is cached below the refused root `s3://b/docs`. -/
def docsPass : Selection where
  roots := [⟨docsRoot, 0, false, true⟩]
  candidates :=
    (WatchScopes.after reference lastVictims true [.noteCached docsObject 0]).candidates (fun _ _ _ => true) 0
  budget := MAX_WATCH_SCOPES
  canCover _ := false
  mayOpenRecursive _ := true
  running := []
  defendedScopes := []

/-- The root is watched as the scope `s3://b/docs/`. -/
theorem refused_root_watched : ¬RootsSpared reference lastVictims [docsRoot] := by
  intro hspared
  have hselected : docsPass.selectScopes.map (fun s => (s.root, s.scope)) = [(docsRoot, docsScope)] := by decide +kernel
  obtain ⟨s, hs, hpair⟩ := mem_map.mp (hselected ▸ mem_singleton_self _)
  obtain ⟨hroot, hscope⟩ := Prod.mk.inj hpair
  refine hspared true [.noteCached docsObject 0] (fun _ _ _ => true) 0 docsPass ?_ (List.Perm.refl _)
    (pairwise_singleton ..) rfl
    s hs ?_
  · intro address now hmem
    obtain ⟨⟩ := mem_singleton.mp hmem
    exact reference_canonical docsObject [utf8 "docs", utf8 "x"] (by decide +kernel) (by decide +kernel)
  · rw [hroot, hscope]
    decide +kernel

end OvStorage.Watch
