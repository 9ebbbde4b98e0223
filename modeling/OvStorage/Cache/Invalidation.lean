import OvStorage.Address.Containment
import OvStorage.Cache.Metadata

/-!
# Invalidation by address

The rows of the metadata cache are keyed on `node_address`, a serialization, and the
three sweeps decide on serializations which rows to drop: `node_spellings` compares
whole ones, `is_under_prefix` strips one from the other. This module holds those tests
against the nodes the addresses name.

## What is proved

For canonical addresses, with or without a trailing slash, userinfo, a query, a port, or
an authority that is absent or empty:

* `invalidation_exact`: each sweep drops exactly the rows it should, whatever
  principal or credential they are kept under.
-/

namespace OvStorage.Cache

open Address SegList

/-! ### The address a row is keyed on -/

theorem dropUserinfo_toParts (u : Url) :
    (dropUserinfo u).toParts = { u.toParts with username := [], password := none } := by
  unfold dropUserinfo
  split_ifs with hui
  · -- userinfo implies a host, and is not on `file:`, so neither setter refuses
    have hnone : ¬ (u.host = none ∨ u.scheme = FILE) := by
      rintro (h | h)
      · have hhost := u.wf.userinfo_host hui
        simp [h] at hhost
      · obtain ⟨h1, h2, -⟩ := u.wf.file_plain h
        simp [h1, h2] at hui
    simp only [Url.clearPassword, hnone, if_false, Url.clearUsername]
  · simp only [not_or, not_not, Option.not_isSome_iff_eq_none] at hui
    rw [← hui.1, ← hui.2]

variable {u a b p : Url}

theorem writeAuthority_toParts (hc : u.cannotBeABase = false) :
    (writeAuthority u).toParts = { u.toParts with hasAuthority := true } := by
  unfold writeAuthority
  split_ifs with hh
  · unfold Url.setHostEmpty
    split_ifs with hs
    · rw [← (u.wf.special (hs.resolve_left (by simp [hc]))).1]
    · rfl
  · rw [← u.wf.host_authority (Option.isSome_iff_ne_none.mpr hh)]

/-- `node_address` writes the address without userinfo and with its authority. -/
theorem bareNode_toParts (hc : u.cannotBeABase = false) :
    (bareNode u).toParts = { u.toParts with hasAuthority := true, username := [], password := none } := by
  have hd := dropUserinfo_toParts u
  have hc' : (dropUserinfo u).cannotBeABase = false := by rw [hd]; exact hc
  rw [bareNode, writeAuthority_toParts hc', hd]

/-- What stands before the path in a `node_address`. -/
def nodeFront (u : Parts) : Bytes := u.scheme ++ colon :: slash :: slash :: u.hostPort

variable {st : List Bytes}

theorem nodeAddress_eq (h : Shape u.toParts st) :
    nodeAddress u = nodeFront u.toParts ++ u.path ++ tagged question u.query := by
  have hparts := bareNode_toParts h.hierarchical
  rw [nodeAddress, asStr_of_fixed (by rw [hparts]; exact h.pathFixed), hparts]
  simp [Parts.front, Parts.userinfo, nodeFront, Parts.hostPort, h.fragment]

variable {U : UrlCrate}

theorem bareNode_parsed (law : U.Lawful) (hu : Canonical U u) : U.Parsed (bareNode u) := by
  obtain ⟨st, h⟩ := hu.shape law
  have hparts := bareNode_toParts hu.hierarchical
  refine law.parse_respell u (bareNode u) hu.parsed ?_ ?_
  · rw [hparts]
    exact ⟨rfl, Or.inl rfl, rfl, Or.inr ⟨rfl, rfl⟩, h.pathFixed, law.parsed_query u hu.parsed, h.fragment⟩
  · rw [hparts]
    exact h.not_driveShare

theorem bareNode_hierarchical (hc : u.cannotBeABase = false) : (bareNode u).cannotBeABase = false := by
  rw [bareNode_toParts hc]
  rfl

/-- Two rows are keyed on one address exactly when these components agree. -/
theorem bareNode_withPath_eq_iff (ha : a.cannotBeABase = false) (hu : u.cannotBeABase = false)
    (hfa : a.fragment = none) (hfu : u.fragment = none) {q : Bytes} (hq : PathFixed (bareNode u).scheme q) :
    nodeAddress a = ((bareNode u).withPath q hq).asStr ↔
      a.scheme = u.scheme ∧ a.host = u.host ∧ a.port = u.port ∧ a.path = q ∧ a.query = u.query := by
  have hpa := bareNode_toParts ha
  have hpu := bareNode_toParts hu
  have hkey : nodeAddress a = ((bareNode u).withPath q hq).asStr ↔
      (bareNode a).toParts = { (bareNode u).toParts with path := q } := by
    constructor
    · intro h
      exact congrArg Url.toParts (asStr_inj (v := (bareNode u).withPath q hq) h)
    · intro h
      unfold nodeAddress
      rw [h]
      rfl
  rw [hkey, hpa, hpu]
  simp only [Parts.mk.injEq, hfa, hfu, true_and, and_true]

/-! ### The two spellings -/

/-- A row's address is one of the spellings exactly when it names the same node. -/
theorem nodeAddress_mem_spellings_iff (law : U.Lawful) (ha : Canonical U a) (hu : Canonical U u) :
    nodeAddress a = (nodeSpellings U u).1 ∨ nodeAddress a = (nodeSpellings U u).2 ↔
      nodeKey a.toParts = nodeKey u.toParts := by
  obtain ⟨as, has⟩ := ha.shape law
  obtain ⟨us, hus⟩ := hu.shape law
  have hscheme : (bareNode u).scheme = u.scheme := by rw [bareNode_toParts hu.hierarchical]
  have hfix : PathFixed (bareNode u).scheme (nodePath u.toParts) := hscheme ▸ hus.nodePath_fixed
  have hparse : U.parse (nodeAddress u) = .ok (bareNode u) := bareNode_parsed law hu
  have hset : U.setPath (bareNode u) (nodePath u.toParts) = (bareNode u).withPath _ hfix :=
    law.setPath_eq (bareNode_hierarchical hu.hierarchical) hfix
  have hone := bareNode_withPath_eq_iff (q := nodePath u.toParts) ha.hierarchical hu.hierarchical has.fragment
    hus.fragment hfix
  have hkey : nodeKey a.toParts = nodeKey u.toParts ↔
      a.scheme = u.scheme ∧ a.host = u.host ∧ a.port = u.port ∧ nodePath a.toParts = nodePath u.toParts ∧
        a.query = u.query := by
    simp only [nodeKey, Prod.mk.injEq]
  simp only [nodeSpellings, hparse, hset]
  rw [hkey]
  by_cases hroot : nodePath u.toParts = [slash]
  · -- the root has one spelling
    simp only [hroot, if_true, or_self] at hone ⊢
    rw [hone]
    constructor
    · rintro ⟨h1, h2, h3, h4, h5⟩
      exact ⟨h1, h2, h3, hroot ▸ hus.nodePath_of_spelling (Or.inl (h4.trans hroot.symm)), h5⟩
    · rintro ⟨h1, h2, h3, h4, h5⟩
      refine ⟨h1, h2, h3, ?_, h5⟩
      rcases has.path_cases with hp | ⟨-, hne⟩
      · exact hp.trans h4
      · exact absurd h4 hne
  · have hfix' : PathFixed (bareNode u).scheme (nodePath u.toParts ++ [slash]) :=
      hscheme ▸ hus.nodePath_slash_fixed hroot
    have hset' : U.setPath ((bareNode u).withPath _ hfix) (nodePath u.toParts ++ [slash]) =
        (bareNode u).withPath _ hfix' :=
      Url.ext_parts (law.setPath_fixed ((bareNode u).withPath _ hfix) _
        (by simp [Url.withPath, Parts.cannotBeABase, hfix.1]) hfix')
    have htwo := bareNode_withPath_eq_iff (q := nodePath u.toParts ++ [slash]) ha.hierarchical hu.hierarchical
      has.fragment hus.fragment hfix'
    simp only [hroot, if_false, hset']
    rw [hone, htwo]
    constructor
    · rintro (⟨h1, h2, h3, h4, h5⟩ | ⟨h1, h2, h3, h4, h5⟩)
      · exact ⟨h1, h2, h3, hus.nodePath_of_spelling (Or.inl h4), h5⟩
      · exact ⟨h1, h2, h3, hus.nodePath_of_spelling (Or.inr ⟨h4, hroot⟩), h5⟩
    · rintro ⟨h1, h2, h3, h4, h5⟩
      rcases has.path_cases with hp | ⟨hp, -⟩
      · exact Or.inl ⟨h1, h2, h3, hp.trans h4, h5⟩
      · exact Or.inr ⟨h1, h2, h3, by rw [hp, h4], h5⟩

/-! ### The prefix test -/

theorem slash_notMem_hostPort (u : Url) : slash ∉ u.hostPort :=
  notMem_hostPort (fun h hh => (u.wf.host_bytes h hh).1) (by decide +kernel) (by decide +kernel)

/-- `host:port` determines the host and the port. -/
theorem hostPort_inj (h : a.hostPort = b.hostPort) : a.host = b.host ∧ a.port = b.port := by
  have he := congrArg readHostPort h
  rw [readHostPort_hostPort a.wf, readHostPort_hostPort b.wf, Prod.mk.injEq] at he
  refine ⟨?_, he.2⟩
  have hne : ∀ u : Url, u.host = if u.host.getD [] = [] then none else some (u.host.getD []) := by
    intro u
    cases hh : u.host with
    | none => simp
    | some x =>
      have hx : x ≠ [] := by rintro rfl; exact u.wf.host_ne hh
      simp [hx]
  rw [hne a, hne b, he.1]

/-- Behind the front begins a path, so two texts that agree agree in front and path. -/
theorem nodeFront_append_inj {x y : Bytes} (hx : AtSep slash x) (hy : AtSep slash y)
    (h : nodeFront a.toParts ++ x = nodeFront b.toParts ++ y) :
    a.scheme = b.scheme ∧ a.host = b.host ∧ a.port = b.port ∧ x = y := by
  simp only [nodeFront, List.append_assoc, List.cons_append] at h
  obtain ⟨hs, h⟩ := AtSep.append_inj a.wf.scheme_bytes.1 b.wf.scheme_bytes.1 (atSep_cons _) (atSep_cons _) h
  simp only [List.cons.injEq, true_and] at h
  obtain ⟨hhp, hxy⟩ := AtSep.append_inj (slash_notMem_hostPort a) (slash_notMem_hostPort b) hx hy h
  obtain ⟨hh, hp⟩ := hostPort_inj hhp
  exact ⟨hs, hh, hp, hxy⟩

theorem nodeFront_congr {a b : Parts} (hs : a.scheme = b.scheme) (hh : a.host = b.host) (hp : a.port = b.port) :
    nodeFront a = nodeFront b := by
  simp only [nodeFront, Parts.hostPort, hs, hh, hp]

theorem question_notMem_front (u : Url) : question ∉ nodeFront u.toParts := by
  simp only [nodeFront, List.mem_append, List.mem_cons, not_or]
  exact ⟨u.wf.scheme_bytes.2.1, by decide, by decide, by decide,
    notMem_hostPort (fun h hh => (u.wf.host_bytes h hh).2.1) (by decide +kernel) (by decide +kernel)⟩

theorem splitQuery_nodeAddress (h : Shape u.toParts st) :
    splitQuery (nodeAddress u) = (nodeFront u.toParts ++ u.path, u.query) := by
  rw [nodeAddress_eq h, splitQuery]
  apply cutAt_append_tagged
  rw [List.mem_append, not_or]
  exact ⟨question_notMem_front u, u.wf.path_bytes.1⟩

/-- Dropping one trailing `/` leaves the front and the segments of the node. -/
theorem dropSuffix?_slash_path {u : Parts} (h : Shape u st) (front : Bytes) :
    ((front ++ u.path).dropSuffix? [slash]).getD (front ++ u.path) =
      front ++ pieces slash (escapedSegs u (nodeSegs st)) := by
  obtain ⟨init, last, hst, -, -⟩ := settled_concat h.settled h.ne_nil
  by_cases hl : last = []
  · subst hl
    have hpath : front ++ u.path = (front ++ pieces slash (escapedSegs u init)) ++ [slash] := by
      rw [h.path, hst]; simp [escapedSegs]
    rw [hpath, dropSuffix?_eq_some.mpr rfl, hst, nodeSegs_concat_nil]
    rfl
  · have hns : nodeSegs st = st := by rw [hst, nodeSegs_concat hl]
    have hlast : slash ∉ percentEncode (canonicalPathSet u) last :=
      slash_notMem_percentEncode (h.sepFree last (by simp [hst]))
    have hpath : front ++ u.path = (front ++ pieces slash (escapedSegs u init) ++ [slash]) ++
        percentEncode (canonicalPathSet u) last := by
      rw [h.path, hst]; simp [escapedSegs]
    rw [hns, ← h.path]
    rw [hpath, dropSuffix?_slash_of_not_mem hlast (fun he => hl (percentEncode_eq_nil_iff.mp he))]
    rfl

/-- A trailing `/` does not matter to a front of node segments. -/
theorem front_nodeSegs_iff {ns : List Bytes} (hns : ∀ s ∈ ns, s ≠ []) : ns <+: st ↔ ns <+: nodeSegs st := by
  constructor
  · rintro ⟨us, rfl⟩
    rcases List.eq_nil_or_concat us with rfl | ⟨init, last, rfl⟩
    · rw [List.append_nil, nodeSegs_of_nonempty hns]
    · rw [List.concat_eq_append, ← List.append_assoc]
      by_cases hl : last = []
      · subst hl
        rw [nodeSegs_concat_nil]
        exact List.prefix_append ns init
      · rw [nodeSegs_concat hl, List.append_assoc]
        exact List.prefix_append ns _
  · exact fun h => h.trans (nodeSegs_front st)

/-- Behind the front and the segments of `p`'s node, the serialization of `a` ends or goes on
with a `/`. -/
def stripsAtBoundary (addrPath prefixPath : Bytes) : Bool :=
  match addrPath.dropPrefix? prefixPath with
  | some rest => rest.isEmpty || rest.head? == some slash
  | none => false

/-- The strip succeeds at a segment boundary exactly when front and segments agree. -/
theorem stripsAtBoundary_iff {as ps : List Bytes} (has : Shape a.toParts as) (hps : Shape p.toParts ps) :
    stripsAtBoundary (nodeFront a.toParts ++ a.path)
      (nodeFront p.toParts ++ pieces slash (escapedSegs p.toParts (nodeSegs ps))) = true ↔
    p.scheme = a.scheme ∧ p.host = a.host ∧ p.port = a.port ∧ nodeSegs ps <+: nodeSegs as := by
  unfold stripsAtBoundary
  constructor
  · intro h
    split at h
    · rename_i rest hr
      rw [dropPrefix?_eq_some, List.append_assoc] at hr
      have hrest : AtSep slash rest := by
        rw [Bool.or_eq_true, List.isEmpty_iff, beq_iff_eq] at h
        exact h.imp_right List.head?_eq_some_iff.mp
      have hap : AtSep slash a.path := Or.inr (List.head?_eq_some_iff.mp has.path_head)
      have hxp : AtSep slash (pieces slash (escapedSegs p.toParts (nodeSegs ps)) ++ rest) := by
        cases escapedSegs p.toParts (nodeSegs ps) with
        | nil => simpa using hrest
        | cons s ss => exact Or.inr ⟨_, rfl⟩
      obtain ⟨hs, hh, hport, hpath⟩ := nodeFront_append_inj hap hxp hr
      have hset : ∀ ns, escapedSegs p.toParts ns = escapedSegs a.toParts ns := escapedSegs_congr hs.symm (by rw [hh])
      rw [has.path, hset, pieces_append_iff (escapedSegs_sepFree hps.nodeSegs_sepFree)
        (escapedSegs_sepFree has.sepFree) hrest] at hpath
      obtain ⟨us, hus, -⟩ := hpath
      have hpre : nodeSegs ps <+: as := by
        have := (List.prefix_append (escapedSegs a.toParts (nodeSegs ps)) us).map percentDecode
        rwa [← hus, map_decode_escaped, map_decode_escaped] at this
      exact ⟨hs.symm, hh.symm, hport.symm,
        (front_nodeSegs_iff fun s hs => (nodeSegs_names hps.settled s hs).1).mp hpre⟩
    · exact absurd h (by simp)
  · rintro ⟨hs, hh, hport, hpre⟩
    obtain ⟨us, hus⟩ := hpre.trans (nodeSegs_front as)
    have hset : ∀ ns, escapedSegs p.toParts ns = escapedSegs a.toParts ns := escapedSegs_congr hs (by rw [hh])
    have hd : (nodeFront a.toParts ++ a.path).dropPrefix?
        (nodeFront p.toParts ++ pieces slash (escapedSegs p.toParts (nodeSegs ps))) =
        some (pieces slash (escapedSegs a.toParts us)) := by
      rw [dropPrefix?_eq_some, nodeFront_congr hs hh hport, has.path, ← hus, hset]
      simp [escapedSegs]
    rw [hd]
    cases us with
    | nil => rfl
    | cons s us => rfl

/-- The string test on the keys of two rows is `is_ancestor_or_self` on the addresses. -/
theorem isUnderPrefix_nodeAddress (law : U.Lawful) (ha : Canonical U a) (hp : Canonical U p) :
    isUnderPrefix (nodeAddress a) (nodeAddress p) = isAncestorOrSelf p.toParts a.toParts := by
  obtain ⟨as, has⟩ := ha.shape law
  obtain ⟨ps, hps⟩ := hp.shape law
  have hstrip := stripsAtBoundary_iff has hps
  rw [Bool.eq_iff_iff, hps.isAncestorOrSelf_iff has, hps.covers_iff has]
  unfold isUnderPrefix
  simp only [splitQuery_nodeAddress has, splitQuery_nodeAddress hps, dropSuffix?_slash_path hps]
  split_ifs with hq
  · simp only [Bool.and_eq_true, bne_iff_ne] at hq
    simp only [false_iff, not_and, not_or]
    exact fun _ _ _ _ => ⟨Option.isSome_iff_ne_none.mp hq.1, hq.2⟩
  · have hq' : p.query = none ∨ p.query = a.query := by
      cases hpq : p.query with
      | none => exact Or.inl rfl
      | some w =>
        rw [hpq] at hq
        simpa using hq
    refine hstrip.trans ?_
    simp only [hq', and_true]

/-! ### The sweeps -/

variable {Info : Type}

/-- The rows are kept under the addresses of nodes. -/
def Keyed (U : UrlCrate) (state : CacheState Info) : Prop :=
  ∀ row ∈ state.entries.rows, ∃ a, Canonical U a ∧ row.1.address = nodeAddress a

/-- Each sweep drops exactly the rows whose address it names: the same node, at or below it,
and the listings at or above it. -/
theorem invalidation_exact {U : UrlCrate} (law : U.Lawful) (state : CacheState Info) (hrows : Keyed U state)
    (u : Url) (hu : Canonical U u) (row : MetadataCacheKey × Entry Info) :
    (row ∈ (state.invalidateAddress U u).entries.rows ↔ row ∈ state.entries.rows ∧
      ∃ a, Canonical U a ∧ row.1.address = nodeAddress a ∧ nodeKey a.toParts ≠ nodeKey u.toParts) ∧
    (row ∈ (state.invalidatePrefix u).entries.rows ↔ row ∈ state.entries.rows ∧
      ∃ a, Canonical U a ∧ row.1.address = nodeAddress a ∧ isAncestorOrSelf u.toParts a.toParts = false) ∧
    (row ∈ (state.invalidateListsContaining u).entries.rows ↔ row ∈ state.entries.rows ∧
      ∃ a, Canonical U a ∧ row.1.address = nodeAddress a ∧
        ¬ (row.1.kind = .List ∧ isAncestorOrSelf a.toParts u.toParts = true)) := by
  refine ⟨?_, ?_, ?_⟩
  · simp only [CacheState.invalidateAddress, retainWithSize_entries, Table.mem_retain, Bool.and_eq_true, bne_iff_ne]
    refine and_congr_right fun hm => ?_
    rw [← not_or]
    constructor
    · intro hne
      obtain ⟨a, ha, he⟩ := hrows row hm
      refine ⟨a, ha, he, fun hkey => hne ?_⟩
      rw [he]
      exact (nodeAddress_mem_spellings_iff law ha hu).mpr hkey
    · rintro ⟨a, ha, he, hne⟩ hmem
      rw [he] at hmem
      exact hne ((nodeAddress_mem_spellings_iff law ha hu).mp hmem)
  · simp only [CacheState.invalidatePrefix, retainWithSize_entries, Table.mem_retain, Bool.not_eq_true']
    refine and_congr_right fun hm => ?_
    constructor
    · intro hne
      obtain ⟨a, ha, he⟩ := hrows row hm
      rw [he, isUnderPrefix_nodeAddress law ha hu] at hne
      exact ⟨a, ha, he, hne⟩
    · rintro ⟨a, ha, he, hne⟩
      rw [he, isUnderPrefix_nodeAddress law ha hu]
      exact hne
  · simp only [CacheState.invalidateListsContaining, retainWithSize_entries, Table.mem_retain, Bool.not_eq_true',
      Bool.and_eq_false_iff, beq_eq_false_iff_ne]
    refine and_congr_right fun hm => ?_
    rw [← Bool.not_eq_true, ← not_and_or]
    constructor
    · intro hne
      obtain ⟨a, ha, he⟩ := hrows row hm
      rw [he, isUnderPrefix_nodeAddress law hu ha] at hne
      exact ⟨a, ha, he, hne⟩
    · rintro ⟨a, ha, he, hne⟩
      rw [he, isUnderPrefix_nodeAddress law hu ha]
      exact hne

/-- `s3://reader@b/docs/`, listed with a credential. -/
def listedAddress : Url :=
  ⟨⟨utf8 "s3", true, utf8 "reader", none, some (utf8 "b"), none, utf8 "/docs/", none, none⟩, by decide⟩

/-- `s3://b/docs-old`, which `s3://b/docs` is not under. -/
def siblingAddress : Url :=
  ⟨⟨utf8 "s3", true, [], none, some (utf8 "b"), none, utf8 "/docs-old", none, none⟩, by decide⟩

/-- A cached listing of one record. -/
def listedRow : MetadataCacheKey × Entry ℕ :=
  (⟨.List, some "alice", nodeAddress listedAddress, some 1⟩, ⟨.List ⟨[7], none⟩, 0, 0, 1, 1, ⟨false, false⟩⟩)

/-- A sweep of the sibling leaves the listing. -/
theorem invalidation_exact_sibling :
    listedRow ∈ ((⟨⟨[listedRow], by simp⟩, 1⟩ : CacheState ℕ).invalidatePrefix siblingAddress).entries.rows := by
  have hlisted : Canonical reference listedAddress :=
    reference_canonical listedAddress [utf8 "docs", []] (by decide +kernel) (by decide +kernel)
  have hsibling : Canonical reference siblingAddress :=
    reference_canonical siblingAddress [utf8 "docs-old"] (by decide +kernel) (by decide +kernel)
  have hkeyed : Keyed reference (⟨⟨[listedRow], by simp⟩, 1⟩ : CacheState ℕ) := by
    intro row hrow
    rw [List.mem_singleton.mp hrow]
    exact ⟨listedAddress, hlisted, rfl⟩
  refine (invalidation_exact reference_lawful _ hkeyed siblingAddress hsibling listedRow).2.1.mpr ⟨by simp, ?_⟩
  exact ⟨listedAddress, hlisted, rfl, by decide⟩

end OvStorage.Cache
