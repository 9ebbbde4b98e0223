import OvStorage.Lib.StableSort
import OvStorage.Address.Containment

/-!
# The route table

`RouteTable` of `ovstorage-plugin/src/routing.rs`: the longest-prefix table that the
host `Router` and the connection-owning plugins share. A lookup has two tiers, the
prefix scan and the scheme fallback.

## The model

The table is generic in the target, as in the source. Of a `RootInfo` the table reads
the root and its `user_metadata`; the collision warning of `build` changes nothing
and is left out. `scheme_fallbacks` is a map from a scheme to an index, filled by
`or_insert` in ranked order.

## What is proved

`lookupPrefix_spec`: the most specific root that covers the address answers, and the second tier only where the first
has none.
-/

namespace OvStorage.Routing

open Address StableSort SegList

/-! ### The code -/

/-- `RootInfo`, as far as a route table reads it. -/
structure RootInfo where
  root : Url
  userMetadata : List (String × String)

/-- `SCHEME_FALLBACK_METADATA_KEY`. -/
def SCHEME_FALLBACK_METADATA_KEY : String := "org.omniverse.ovstorage/scheme-fallback"

/-- `SCHEME_FALLBACK_ANONYMOUS`. -/
def SCHEME_FALLBACK_ANONYMOUS : String := "anonymous"

/-- `SCHEME_FALLBACK_PLACEHOLDER_HOST`. -/
def SCHEME_FALLBACK_PLACEHOLDER_HOST : Bytes := utf8 "anonymous-fallback.invalid"

/-- `is_scheme_fallback_root`: marked, and shaped like one. -/
def isSchemeFallbackRoot (root : RootInfo) : Bool :=
  if root.userMetadata.lookup SCHEME_FALLBACK_METADATA_KEY != some SCHEME_FALLBACK_ANONYMOUS then false
  else
    let hostlessOrPlaceholder := match root.root.host with
      | none => true
      | some host => host == [] || host == SCHEME_FALLBACK_PLACEHOLDER_HOST
    hostlessOrPlaceholder && root.root.path == [slash] && root.root.query.isNone

/-- `CARRIED_QUERY_KEYS`. -/
def CARRIED_QUERY_KEYS : List Bytes := [utf8 "versionId", utf8 "versionid", utf8 "generation", utf8 "revision"]

/-- `generated_rule_may_answer`: no query, or one whose keys all select a version. -/
def generatedRuleMayAnswer (addr : Parts) : Bool :=
  match addr.query with
  | none => true
  | some query =>
    ((query.splitOn 0x26).filter (· ≠ [])).all fun piece => CARRIED_QUERY_KEYS.contains (cutAt 0x3D piece).1

/-- `RouteTable<T>`. -/
structure RouteTable (T : Type) where
  entries : List (RootInfo × T)
  /-- Scheme to the index of the first-ranked fallback root for it. -/
  schemeFallbacks : List (Bytes × ℕ)

variable {T : Type}

/-- One turn of the loop that fills `scheme_fallbacks`: `entry(..).or_insert(index)`. -/
def insertFallback (fallbacks : List (Bytes × ℕ)) (entry : (RootInfo × T) × ℕ) : List (Bytes × ℕ) :=
  let scheme := entry.1.1.root.scheme
  if isSchemeFallbackRoot entry.1.1 && (fallbacks.lookup scheme).isNone then (scheme, entry.2) :: fallbacks
  else fallbacks

/-- `RouteTable::build`. -/
def RouteTable.build (items : List (RootInfo × T)) : RouteTable T :=
  let entries := sortByKeyDesc (fun item : RootInfo × T => nodeRank item.1.root.toParts) items
  { entries, schemeFallbacks := entries.zipIdx.foldl insertFallback [] }

/-- `RouteTable::lookup_prefix`. -/
def RouteTable.lookupPrefix (U : UrlCrate) (table : RouteTable T) (url : Url) : Option (RootInfo × T) :=
  table.entries.find? fun entry => (relativeSuffix U url entry.1.root).isSome

/-- `RouteTable::lookup`. -/
def RouteTable.lookup (U : UrlCrate) (table : RouteTable T) (url : Url) : Option (RootInfo × T) :=
  (table.lookupPrefix U url).or <|
    if !generatedRuleMayAnswer url.toParts then none
    else do
      let index ← table.schemeFallbacks.lookup url.scheme
      table.entries[index]?

/-! ### The first tier -/

section Prefix

variable {U : UrlCrate} (law : U.Lawful) {items : List (RootInfo × T)}
  (hroots : ∀ item ∈ items, Canonical U item.1.root) {u : Url} (hu : Canonical U u)

include law hroots hu

theorem lookupPrefix_isSome_iff :
    ((RouteTable.build items).lookupPrefix U u).isSome = true ↔
      ∃ item ∈ items, isAncestorOrSelf item.1.root.toParts u.toParts = true := by
  unfold RouteTable.lookupPrefix RouteTable.build
  rw [find?_sortByKeyDesc_isSome]
  constructor
  · rintro ⟨item, hm, h⟩
    exact ⟨item, hm, (relativeSuffix_isSome_iff law (hroots item hm) hu).mp h⟩
  · rintro ⟨item, hm, h⟩
    exact ⟨item, hm, (relativeSuffix_isSome_iff law (hroots item hm) hu).mpr h⟩

/-- The answer covers the address, no root that covers it is more specific, and it stands
first among the roots as specific as it. -/
theorem lookupPrefix_longest {r : RootInfo × T} (h : (RouteTable.build items).lookupPrefix U u = some r) :
    r ∈ items ∧ isAncestorOrSelf r.1.root.toParts u.toParts = true ∧
    (∀ item ∈ items, isAncestorOrSelf item.1.root.toParts u.toParts = true →
      nodeRank item.1.root.toParts ≤ nodeRank r.1.root.toParts) ∧
    items.find? (fun item => (relativeSuffix U u item.1.root).isSome &&
      decide (nodeRank item.1.root.toParts = nodeRank r.1.root.toParts)) = some r := by
  obtain ⟨hmem, hp, hmax, hfirst⟩ := find?_sortByKeyDesc h
  refine ⟨hmem, (relativeSuffix_isSome_iff law (hroots r hmem) hu).mp hp, ?_, hfirst⟩
  intro item hm hanc
  exact hmax item hm ((relativeSuffix_isSome_iff law (hroots item hm) hu).mpr hanc)

/-- Two roots above one address that are as specific as each other name one node. -/
theorem nodeKey_eq_of_rank_eq {a b : RootInfo × T} (ha : a ∈ items) (hb : b ∈ items)
    (hau : isAncestorOrSelf a.1.root.toParts u.toParts = true)
    (hbu : isAncestorOrSelf b.1.root.toParts u.toParts = true)
    (h : nodeRank a.1.root.toParts = nodeRank b.1.root.toParts) :
    nodeKey a.1.root.toParts = nodeKey b.1.root.toParts :=
  nodeKey_eq_of_nodeRank_eq law (hroots a ha) (hroots b hb) hu hau hbu h

end Prefix

/-- What a root covers and how specific it is depend on its node alone. -/
theorem isAncestorOrSelf_congr {a b : Parts} (h : nodeKey a = nodeKey b) (u : Parts) :
    isAncestorOrSelf a u = isAncestorOrSelf b u ∧ nodeRank a = nodeRank b := by
  simp only [nodeKey, Prod.mk.injEq] at h
  obtain ⟨hs, hh, hp, hn, hq⟩ := h
  exact ⟨by simp only [isAncestorOrSelf, hs, hh, hp, hn, hq],
    by simp only [nodeRank, nodeSegmentCount, hn, hq]⟩

section Order

variable {U : UrlCrate} (law : U.Lawful) {items : List (RootInfo × T)}
  (hroots : ∀ item ∈ items, Canonical U item.1.root) {u : Url} (hu : Canonical U u)

include law hroots hu

/-- Among the roots that name the node of the answer, the answer stands first. -/
theorem lookupPrefix_earliest {r : RootInfo × T} (h : (RouteTable.build items).lookupPrefix U u = some r) :
    items.find? (fun item => decide (nodeKey item.1.root.toParts = nodeKey r.1.root.toParts)) = some r := by
  obtain ⟨hmem, hru, -, hfirst⟩ := lookupPrefix_longest law hroots hu h
  rw [← hfirst, ← List.head?_filter, ← List.head?_filter]
  congr 1
  apply List.filter_congr
  intro item hm
  rw [Bool.eq_iff_iff, Bool.and_eq_true, decide_eq_true_eq, decide_eq_true_eq,
    relativeSuffix_isSome_iff law (hroots item hm) hu]
  constructor
  · intro hkey
    obtain ⟨hanc, hrank⟩ := isAncestorOrSelf_congr hkey u.toParts
    exact ⟨hanc.trans hru, hrank⟩
  · rintro ⟨hanc, hrank⟩
    exact nodeKey_eq_of_rank_eq law hroots hu hm hmem hanc hru hrank

/-- The node of the answer does not depend on the order of the input. -/
theorem lookupPrefix_perm {items' : List (RootInfo × T)} (hperm : items'.Perm items) :
    ((RouteTable.build items').lookupPrefix U u).map (fun r => nodeKey r.1.root.toParts) =
      ((RouteTable.build items).lookupPrefix U u).map fun r => nodeKey r.1.root.toParts := by
  have hroots' : ∀ item ∈ items', Canonical U item.1.root := fun item hm => hroots item (hperm.mem_iff.mp hm)
  have hsome : ((RouteTable.build items').lookupPrefix U u).isSome =
      ((RouteTable.build items).lookupPrefix U u).isSome := by
    rw [Bool.eq_iff_iff, lookupPrefix_isSome_iff law hroots' hu, lookupPrefix_isSome_iff law hroots hu]
    simp only [hperm.mem_iff]
  cases h' : (RouteTable.build items').lookupPrefix U u with
  | none =>
    rw [h'] at hsome
    cases h : (RouteTable.build items).lookupPrefix U u with
    | none => rfl
    | some r => simp [h] at hsome
  | some r' =>
    rw [h'] at hsome
    cases h : (RouteTable.build items).lookupPrefix U u with
    | none => simp [h] at hsome
    | some r =>
      -- each of the two answers is at least as specific as the other
      obtain ⟨hm', hu', hmax', -⟩ := lookupPrefix_longest law hroots' hu h'
      obtain ⟨hm, hru, hmax, -⟩ := lookupPrefix_longest law hroots hu h
      have hrank := le_antisymm (hmax r' (hperm.mem_iff.mp hm') hu') (hmax' r (hperm.mem_iff.mpr hm) hru)
      exact congrArg some (nodeKey_eq_of_rank_eq law hroots hu (hperm.mem_iff.mp hm') hm hu' hru hrank)

end Order

/-! ### The second tier -/

/-- What an entry of `scheme_fallbacks` points at. -/
def FallbackEntry (entries : List (RootInfo × T)) (p : Bytes × ℕ) : Prop :=
  ∃ e, entries[p.2]? = some e ∧ isSchemeFallbackRoot e.1 = true ∧ e.1.root.scheme = p.1

variable {entries : List (RootInfo × T)} {fallbacks : List (Bytes × ℕ)}

theorem insertFallback_entry
    (h : ∀ p ∈ fallbacks, FallbackEntry entries p) {x : (RootInfo × T) × ℕ} (hx : entries[x.2]? = some x.1) :
    ∀ p ∈ insertFallback fallbacks x, FallbackEntry entries p := by
  unfold insertFallback
  dsimp only
  split_ifs with hc
  · rw [Bool.and_eq_true] at hc
    intro p hp
    rcases List.mem_cons.mp hp with rfl | hp
    · exact ⟨x.1, hx, hc.1, rfl⟩
    · exact h p hp
  · exact h

theorem foldl_insertFallback_entry (xs : List ((RootInfo × T) × ℕ)) (hxs : ∀ x ∈ xs, entries[x.2]? = some x.1)
    (h : ∀ p ∈ fallbacks, FallbackEntry entries p) :
    ∀ p ∈ xs.foldl insertFallback fallbacks, FallbackEntry entries p := by
  induction xs generalizing fallbacks with
  | nil => exact h
  | cons x xs ih =>
    rw [List.foldl_cons]
    exact ih (fun y hy => hxs y (List.mem_cons_of_mem x hy)) (insertFallback_entry h (hxs x List.mem_cons_self))

theorem build_fallbacks (items : List (RootInfo × T)) :
    ∀ p ∈ (RouteTable.build items).schemeFallbacks, FallbackEntry (RouteTable.build items).entries p := by
  apply foldl_insertFallback_entry
  · rintro ⟨e, i⟩ hx
    exact List.mk_mem_zipIdx_iff_getElem?.mp hx
  · simp

/-- What the second tier adds is a marked scheme root of the address's scheme. -/
theorem lookup_of_prefix_none {U : UrlCrate} {items : List (RootInfo × T)} {u : Url} {r : RootInfo × T}
    (hnone : (RouteTable.build items).lookupPrefix U u = none) (h : (RouteTable.build items).lookup U u = some r) :
    r ∈ items ∧ isSchemeFallbackRoot r.1 = true ∧ r.1.root.scheme = u.scheme := by
  unfold RouteTable.lookup at h
  rw [hnone, Option.none_or] at h
  split_ifs at h
  obtain ⟨index, hi, he⟩ := Option.bind_eq_some_iff.mp h
  obtain ⟨l₁, l₂, hl, -⟩ := List.lookup_eq_some_iff.mp hi
  obtain ⟨e, hget, hmark, hscheme⟩ := build_fallbacks items (u.scheme, index) (by rw [hl]; simp)
  obtain rfl : e = r := Option.some.inj (hget.symm.trans he)
  exact ⟨mem_sortByKeyDesc.mp (List.mem_of_getElem? hget), hmark, hscheme⟩

/-! ### The table -/

/-- What a lookup answers, for every table of canonical roots and every canonical address. -/
theorem lookup_spec {U : UrlCrate} (law : U.Lawful) (items : List (RootInfo × T))
    (hroots : ∀ item ∈ items, Canonical U item.1.root) (u : Url) (hu : Canonical U u) :
    -- the first tier answers exactly when a root is an ancestor-or-self
    (((RouteTable.build items).lookupPrefix U u).isSome = true ↔
      ∃ item ∈ items, isAncestorOrSelf item.1.root.toParts u.toParts = true) ∧
    -- with one of the greatest rank, and the earliest of those that name its node
    (∀ r, (RouteTable.build items).lookupPrefix U u = some r →
      isAncestorOrSelf r.1.root.toParts u.toParts = true ∧
      (∀ item ∈ items, isAncestorOrSelf item.1.root.toParts u.toParts = true →
        nodeRank item.1.root.toParts ≤ nodeRank r.1.root.toParts) ∧
      items.find? (fun item => decide (nodeKey item.1.root.toParts = nodeKey r.1.root.toParts)) = some r) ∧
    -- a tie is one node
    (∀ a ∈ items, ∀ b ∈ items, isAncestorOrSelf a.1.root.toParts u.toParts = true →
      isAncestorOrSelf b.1.root.toParts u.toParts = true →
      nodeRank a.1.root.toParts = nodeRank b.1.root.toParts →
      nodeKey a.1.root.toParts = nodeKey b.1.root.toParts) ∧
    -- so the order of the input does not choose the node
    (∀ items' : List (RootInfo × T), items'.Perm items →
      ((RouteTable.build items').lookupPrefix U u).map (fun r => nodeKey r.1.root.toParts) =
        ((RouteTable.build items).lookupPrefix U u).map fun r => nodeKey r.1.root.toParts) ∧
    -- and the second tier adds a scheme fallback root only where no root is an ancestor-or-self
    ((∃ item ∈ items, isAncestorOrSelf item.1.root.toParts u.toParts = true) →
      (RouteTable.build items).lookup U u = (RouteTable.build items).lookupPrefix U u) ∧
    (∀ r, (RouteTable.build items).lookup U u = some r → (RouteTable.build items).lookupPrefix U u ≠ some r →
      (¬ ∃ item ∈ items, isAncestorOrSelf item.1.root.toParts u.toParts = true) ∧
      r ∈ items ∧ isSchemeFallbackRoot r.1 = true ∧ r.1.root.scheme = u.scheme) := by
  have hsome := lookupPrefix_isSome_iff law hroots hu
  refine ⟨hsome, ?_, ?_, fun items' hperm => lookupPrefix_perm law hroots hu hperm, ?_, ?_⟩
  · intro r hr
    obtain ⟨-, hanc, hmax, -⟩ := lookupPrefix_longest law hroots hu hr
    exact ⟨hanc, hmax, lookupPrefix_earliest law hroots hu hr⟩
  · exact fun a ha b hb hau hbu h => nodeKey_eq_of_rank_eq law hroots hu ha hb hau hbu h
  · intro hex
    obtain ⟨r, hr⟩ := Option.isSome_iff_exists.mp (hsome.mpr hex)
    rw [RouteTable.lookup, hr, Option.some_or]
  · intro r hr hne
    cases hp : (RouteTable.build items).lookupPrefix U u with
    | some r' =>
      rw [RouteTable.lookup, hp, Option.some_or] at hr
      exact absurd (hp.trans hr) hne
    | none =>
      refine ⟨fun hex => ?_, lookup_of_prefix_none hp hr⟩
      have := hsome.mpr hex
      rw [hp] at this
      exact absurd this (by simp)

/-- `s3://b/docs`. -/
def docsRoot : Url :=
  ⟨⟨utf8 "s3", true, [], none, some (utf8 "b"), none, utf8 "/docs", none, none⟩, by decide⟩

theorem wellFormed_docsRootSlashed :
    (⟨utf8 "s3", true, utf8 "reader", none, some (utf8 "b"), none, utf8 "/docs/", none, none⟩ : Parts).WellFormed := by
      decide

/-- `s3://reader@b/docs/`, the same node. -/
def docsRootSlashed : Url :=
  ⟨⟨utf8 "s3", true, utf8 "reader", none, some (utf8 "b"), none, utf8 "/docs/", none, none⟩, wellFormed_docsRootSlashed⟩

/-- `s3://b/docs/x?versionId=1`. -/
def docsObject : Url :=
  ⟨⟨utf8 "s3", true, [], none, some (utf8 "b"), none, utf8 "/docs/x", some (utf8 "versionId=1"), none⟩, by decide⟩

/-- The two roots, each with its own target. -/
def docsRoots : List (RootInfo × ℕ) := [(⟨docsRoot, []⟩, 1), (⟨docsRootSlashed, []⟩, 2)]

theorem docsRoots_canonical : ∀ item ∈ docsRoots, Canonical reference item.1.root := by
  intro item h
  simp only [docsRoots, List.mem_cons, List.not_mem_nil, or_false] at h
  rcases h with rfl | rfl
  · exact reference_canonical docsRoot [utf8 "docs"] (by decide +kernel) (by decide +kernel)
  · exact reference_canonical docsRootSlashed [utf8 "docs", []] (by decide +kernel) (by decide +kernel)

/-- Two spellings of one root above a pinned object. -/
theorem lookup_spec_docs :
    isAncestorOrSelf docsRoot.toParts docsObject.toParts = true ∧
    ((RouteTable.build docsRoots).lookupPrefix reference docsObject).isSome = true := by
  have hanc : isAncestorOrSelf docsRoot.toParts docsObject.toParts = true := by decide
  have hobj : Canonical reference docsObject :=
    reference_canonical docsObject [utf8 "docs", utf8 "x"] (by decide +kernel) (by decide +kernel)
  exact ⟨hanc, (lookup_spec reference_lawful docsRoots docsRoots_canonical docsObject hobj).1.mpr
    ⟨_, List.mem_cons_self, hanc⟩⟩

end OvStorage.Routing
