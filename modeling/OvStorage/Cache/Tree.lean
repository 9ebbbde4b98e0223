import OvStorage.Cache.Invalidation
import OvStorage.Cache.Wrapper

/-!
# A hierarchical store

What the metadata cache is held against: a store whose objects form a tree.

## The model

A `Tree` says what a store holds at each node; a node that holds something lies in a directory.
`Tree.Performs` says what a successful mutation makes of a tree: it changes its own node or
subtree, and may make the directories above its target that are missing. `Lists` says what the
page of a complete listing holds. `Outside.Serves`: the inner layer answers from the tree.

The addresses of the store are canonical and carry no query (`Plain`).
-/

namespace OvStorage.Address

open SegList

/-- The node of that name in a directory. -/
def Node.child (n : Node) (name : Bytes) : Node := { n with segs := n.segs ++ [name] }

theorem Node.covers_child (n : Node) (name : Bytes) : n.Covers (n.child name) :=
  ⟨rfl, rfl, rfl, List.prefix_append _ _, Or.inr rfl⟩

/-- What lies above a child is the child, or lies above its directory. -/
theorem Node.Covers.of_child {a n : Node} {name : Bytes} (hn : n.query = none) (h : a.Covers (n.child name)) :
    a = n.child name ∨ a.Covers n := by
  rcases List.prefix_concat_iff.mp h.segs with hsegs | hsegs
  · have hquery : a.query = n.query := h.query.elim (·.trans hn.symm) id
    exact Or.inl (Node.ext h.scheme h.host h.port hsegs hquery)
  · exact Or.inr ⟨h.scheme, h.host, h.port, hsegs, h.query⟩

/-- An address that does not end in `/` is written as its node path. -/
theorem Shape.path_of_object {u : Parts} {st : List Bytes} (h : Shape u st) (hu : u.path.getLast? ≠ some slash) :
    u.path = nodePath u := by
  rcases h.path_cases with hpath | ⟨hpath, -⟩
  · exact hpath
  · rw [hpath] at hu
    simp at hu

/-- The directory spelling of a node path. -/
theorem Shape.directoryPath {u : Parts} {st : List Bytes} (h : Shape u st) :
    (if nodePath u = [slash] then nodePath u else nodePath u ++ [slash]) =
      pieces slash (escapedSegs u (nodeSegs st ++ [[]])) := by
  have hnames := escapedSegs_nonempty (nodeSegs_names h.settled) u
  rw [h.nodePath_eq]
  by_cases hns : nodeSegs st = []
  · rw [hns]
    rfl
  · have hes : escapedSegs u (nodeSegs st) ≠ [] := by simpa [escapedSegs] using hns
    rw [if_neg (mt (nodeText_eq_root_iff hnames).mp hes), nodeText, if_neg hes]
    simp [escapedSegs]

end OvStorage.Address

namespace OvStorage.Cache

open Address SegList Listing

/-- An address of the store. -/
structure Plain (U : UrlCrate) (a : Url) : Prop where
  canonical : Canonical U a
  query : a.query = none

/-! ### Addresses and their keys -/

section Keys

variable {U : UrlCrate} {a b : Url}

theorem nodeKey_eq_iff (law : U.Lawful) (ha : Canonical U a) (hb : Canonical U b) :
    nodeKey a.toParts = nodeKey b.toParts ↔ nodeOf a.toParts = nodeOf b.toParts := by
  obtain ⟨as, has⟩ := ha.shape law
  obtain ⟨bs, hbs⟩ := hb.shape law
  exact has.nodeKey_eq_iff hbs

/-- Addresses have one `node_address` exactly when they differ in nothing but userinfo. -/
theorem nodeAddress_eq_iff (law : U.Lawful) (ha : Canonical U a) (hb : Canonical U b) :
    nodeAddress a = nodeAddress b ↔
      a.scheme = b.scheme ∧ a.host = b.host ∧ a.port = b.port ∧ a.path = b.path ∧ a.query = b.query := by
  obtain ⟨as, has⟩ := ha.shape law
  obtain ⟨bs, hbs⟩ := hb.shape law
  have hparts := bareNode_toParts hb.hierarchical
  have hfix : PathFixed (bareNode b).scheme b.path := by
    rw [hparts]
    exact hbs.pathFixed
  have hself : (bareNode b).withPath b.path hfix = bareNode b := Url.ext_parts <| by
    change { (bareNode b).toParts with path := b.path } = (bareNode b).toParts
    rw [hparts]
  have hiff := bareNode_withPath_eq_iff ha.hierarchical hb.hierarchical has.fragment hbs.fragment hfix
  rwa [hself] at hiff

/-- What is keyed alike names one node. -/
theorem nodeOf_eq_of_nodeAddress (law : U.Lawful) (ha : Canonical U a) (hb : Canonical U b)
    (h : nodeAddress a = nodeAddress b) : nodeOf a.toParts = nodeOf b.toParts := by
  obtain ⟨hscheme, hhost, hport, hpath, hquery⟩ := (nodeAddress_eq_iff law ha hb).mp h
  refine (nodeKey_eq_iff law ha hb).mp ?_
  simp only [nodeKey, nodePath, hscheme, hhost, hport, hpath, hquery]

theorem ne_slash_of_object (h : endsWithSlash a = false) : a.path.getLast? ≠ some slash := by
  simpa [endsWithSlash] using h

/-- The object spellings of one node are keyed alike. -/
theorem nodeAddress_eq_of_nodeOf (law : U.Lawful) (ha : Canonical U a) (hb : Canonical U b)
    (h : nodeOf a.toParts = nodeOf b.toParts) (hsa : endsWithSlash a = false) (hsb : endsWithSlash b = false) :
    nodeAddress a = nodeAddress b := by
  obtain ⟨as, has⟩ := ha.shape law
  obtain ⟨bs, hbs⟩ := hb.shape law
  have hkey := (nodeKey_eq_iff law ha hb).mpr h
  simp only [nodeKey, Prod.mk.injEq] at hkey
  obtain ⟨hscheme, hhost, hport, hpath, hquery⟩ := hkey
  refine (nodeAddress_eq_iff law ha hb).mpr ⟨hscheme, hhost, hport, ?_, hquery⟩
  rw [has.path_of_object (ne_slash_of_object hsa), hbs.path_of_object (ne_slash_of_object hsb), hpath]

/-- A path that ends in `/` and is the path of its node is the root. -/
theorem nodePath_eq_root (h : a.path = nodePath a.toParts) (hslash : endsWithSlash a = true) :
    nodePath a.toParts = [slash] := by
  rw [nodePath] at h ⊢
  split_ifs at h ⊢ with hlen
  · obtain ⟨init, hinit⟩ : ∃ init, a.path = init ++ [slash] := by
      rw [endsWithSlash, beq_iff_eq] at hslash
      exact List.getLast?_eq_some_iff.mp hslash
    have hdrop : (init ++ [slash]).dropSuffix? [slash] = some init := dropSuffix?_eq_some.mpr rfl
    rw [hinit, hdrop] at h
    simp at h
  · rfl

/-- What is cached of an address is keyed on an address: an accepted address is read back from its text, its key is read
back as the same address without userinfo, with its authority written out, whose own key it is, and two accepted
addresses have one key exactly if they name one node and agree on the closing slash. -/
theorem nodeAddress_readsBack (law : U.Lawful) {text text' : Bytes} (ha : addressParse U text = .ok a)
    (hb : addressParse U text' = .ok b) :
    addressParse U a.asStr = .ok a ∧
    (∃ c, addressParse U (nodeAddress a) = .ok c ∧ nodeAddress c = nodeAddress a ∧
      c.toParts = { a.toParts with hasAuthority := true, username := [], password := none }) ∧
    (nodeAddress a = nodeAddress b ↔ nodeKey a.toParts = nodeKey b.toParts ∧ endsWithSlash a = endsWithSlash b) := by
  replace ha := addressParse_canonical law ha
  replace hb := addressParse_canonical law hb
  have hreads : ∀ {c}, Canonical U c → addressParse U c.asStr = .ok c := fun {c} hc => by
    have hparsed : U.parse c.asStr = .ok c := hc.parsed
    rw [addressParse, hparsed]
    dsimp only
    rw [if_neg (by simp [hc.hierarchical]), hc.fixed]
  obtain ⟨as, has⟩ := ha.shape law
  obtain ⟨bs, hbs⟩ := hb.shape law
  refine ⟨hreads ha, ⟨bareNode a, hreads ?_, ?_, bareNode_toParts ha.hierarchical⟩, ?_⟩
  · refine canonical_of_shape law (?_ : Shape (bareNode a).toParts as) (bareNode_parsed law ha)
    rw [bareNode_toParts ha.hierarchical]
    exact { has with }
  · refine congrArg Parts.asStr ?_
    rw [bareNode_toParts (bareNode_hierarchical ha.hierarchical), bareNode_toParts ha.hierarchical]
  · rw [nodeAddress_eq_iff law ha hb]
    constructor
    · rintro ⟨hscheme, hhost, hport, hpath, hquery⟩
      simp only [nodeKey, nodePath, endsWithSlash, hscheme, hhost, hport, hpath, hquery, and_self]
    · rintro ⟨hkey, hslash⟩
      simp only [nodeKey, Prod.mk.injEq] at hkey
      obtain ⟨hscheme, hhost, hport, hpath, hquery⟩ := hkey
      refine ⟨hscheme, hhost, hport, ?_, hquery⟩
      rcases has.path_cases with hpa | ⟨hpa, hra⟩ <;> rcases hbs.path_cases with hpb | ⟨hpb, hrb⟩
      · rw [hpa, hpb, hpath]
      · exact absurd (hpath.symm.trans (nodePath_eq_root hpa (hslash.trans (by simp [endsWithSlash, hpb])))) hrb
      · exact absurd (hpath.trans (nodePath_eq_root hpb (hslash.symm.trans (by simp [endsWithSlash, hpa])))) hra
      · rw [hpa, hpb, hpath]

theorem nodeAddress_readsBack_userinfo : ∃ a, addressParse reference (utf8 "s3://k:v@B//x/../y z/") = .ok a ∧
    addressParse reference a.asStr = .ok a := by
  have hok : (addressParse reference (utf8 "s3://k:v@B//x/../y z/")).isOk = true := by decide +kernel
  cases ha : addressParse reference (utf8 "s3://k:v@B//x/../y z/") with
  | error error =>
    rw [ha] at hok
    cases hok
  | ok a => exact ⟨a, rfl, (nodeAddress_readsBack reference_lawful ha ha).1⟩

variable {u parent : Url}

/-- The address with another path, and neither query nor fragment. -/
theorem plain_withPath (law : U.Lawful) {v : Url} (hu : Canonical U u) {st : List Bytes}
    (hv : v.toParts = { u.toParts with path := pieces slash (escapedSegs u.toParts st), query := none })
    (hne : st ≠ []) (hsep : SepFree slash st) (hset : Settled st) :
    Plain U v ∧ nodeOf v.toParts = { nodeOf u.toParts with segs := nodeSegs st, query := none } := by
  obtain ⟨hcanonical, hsegs⟩ := canonical_withSegs law hu (Or.inl rfl) hv hne hsep hset
  refine ⟨⟨hcanonical, by rw [hv]⟩, ?_⟩
  rw [nodeOf, hsegs, hv, nodeOf]

/-- The second spelling is the address with its directory path. -/
theorem nodeSpellings_snd (law : U.Lawful) (hu : Canonical U u) {st : List Bytes} (hst : Shape u.toParts st)
    (hfix : PathFixed (bareNode u).scheme (pieces slash (escapedSegs u.toParts (nodeSegs st ++ [[]])))) :
    (nodeSpellings U u).2 = ((bareNode u).withPath _ hfix).asStr := by
  have hscheme : (bareNode u).scheme = u.scheme := by rw [bareNode_toParts hu.hierarchical]
  have hbase := bareNode_hierarchical hu.hierarchical
  have hparse : U.parse (nodeAddress u) = .ok (bareNode u) := bareNode_parsed law hu
  have hbare : (U.setPath (bareNode u) (nodePath u.toParts)).toParts =
      { (bareNode u).toParts with path := nodePath u.toParts } :=
    law.setPath_fixed _ _ hbase (hscheme ▸ hst.nodePath_fixed)
  have hdir := hst.directoryPath
  simp only [nodeSpellings, hparse]
  split_ifs with hroot
  · rw [if_pos hroot] at hdir
    rw [hbare, hdir]
    rfl
  · rw [if_neg hroot] at hdir
    have hslashed := law.setPath_fixed (U.setPath (bareNode u) (nodePath u.toParts)) (nodePath u.toParts ++ [slash])
      (by rw [hbare]; simp [Parts.cannotBeABase, hst.nodePath_fixed.1]) (by rw [hbare, hdir]; exact hfix)
    rw [hslashed, hbare, hdir]
    rfl

/-- The key of a listing is that of the directory spelling of the node. -/
theorem exists_directorySpelling (law : U.Lawful) (hu : Plain U u) :
    ∃ a, Plain U a ∧ nodeAddress a = (nodeSpellings U u).2 ∧ nodeOf a.toParts = nodeOf u.toParts := by
  obtain ⟨us, hus⟩ := hu.canonical.shape law
  have hscheme : (bareNode u).scheme = u.scheme := by rw [bareNode_toParts hu.canonical.hierarchical]
  have hset : Settled (nodeSegs us ++ [[]]) :=
    Settled.append (nodeSegs_names hus.settled) (show Settled [[]] from Or.inl rfl)
  have hsep : SepFree slash (nodeSegs us ++ [[]]) := by simp [hus.nodeSegs_sepFree]
  have hfix : PathFixed u.scheme (pieces slash (escapedSegs u.toParts (nodeSegs us ++ [[]]))) :=
    pathFixed_escaped u.toParts (by simp) hsep hset
  have hspelling := nodeSpellings_snd law hu.canonical hus (hscheme ▸ hfix)
  have hparts : (u.withPath _ hfix).toParts =
      { u.toParts with path := pieces slash (escapedSegs u.toParts (nodeSegs us ++ [[]])), query := none } := by
    rw [← hu.query]
    rfl
  obtain ⟨hplain, hnode⟩ := plain_withPath law hu.canonical hparts (by simp) hsep hset
  refine ⟨u.withPath _ hfix, hplain, ?_, ?_⟩
  · obtain ⟨as, has⟩ := hplain.canonical.shape law
    rw [hspelling]
    exact (bareNode_withPath_eq_iff hplain.canonical.hierarchical hu.canonical.hierarchical has.fragment hus.fragment
      (hscheme ▸ hfix)).mpr ⟨rfl, rfl, rfl, rfl, rfl⟩
  · rw [hnode, nodeSegs_concat_nil, nodeOf, hus.decodedSegments, hu.query]

/-- The parent of an address is written with the segments before its last one and a closing slash. -/
theorem parentAndName_toParts (law : U.Lawful) {name : Bytes} {us : List Bytes} (hus : Shape u.toParts us)
    (h : parentAndName U u = some (parent, name)) :
    ∃ init last, us = init ++ [last] ∧ last ≠ [] ∧ Settled (init ++ [[]]) ∧
    SepFree slash (init ++ [[]]) ∧ parent.toParts =
      { u.toParts with path := pieces slash (escapedSegs u.toParts (init ++ [[]])), query := none } := by
  obtain ⟨init, last, rfl, hnames, -⟩ := settled_concat hus.settled hus.ne_nil
  have hsep : SepFree slash (init ++ [[]]) := by
    have := hus.sepFree
    simp_all
  have hset : Settled (init ++ [[]]) := Settled.append hnames (show Settled [[]] from Or.inl rfl)
  have hhead : (heads slash u.path).getLast? = some (pieces slash (escapedSegs u.toParts (init ++ [[]]))) := by
    rw [hus.path, heads_pieces (escapedSegs_sepFree hus.sepFree)]
    simp [escapedSegs, List.getLast?_map, List.getLast?_range]
  simp only [parentAndName, hhead] at h
  split_ifs at h with hskip hname
  cases h
  have hlast : last ≠ [] := by
    rintro rfl
    have hend : u.path.getLast? = some slash := by
      rw [hus.path]
      simp [escapedSegs]
    simp [endsWithSlash, hend] at hskip
  have hfix : PathFixed u.scheme (pieces slash (escapedSegs u.toParts (init ++ [[]]))) :=
    pathFixed_escaped u.toParts (by simp) hsep hset
  have hset' := law.setPath_fixed u _ hus.hierarchical hfix
  exact ⟨init, last, rfl, hlast, hset, hsep, by simp [clearFragment_toParts, Url.clearQuery, hset', hus.fragment]⟩

/-- The parent of an address of the store is the directory of its node. -/
theorem parentAndName_spec (law : U.Lawful) {name : Bytes} (hu : Plain U u)
    (h : parentAndName U u = some (parent, name)) :
    Plain U parent ∧ ∃ last, nodeOf u.toParts = (nodeOf parent.toParts).child last := by
  obtain ⟨us, hus⟩ := hu.canonical.shape law
  obtain ⟨init, last, rfl, hlast, hset, hsep, hparts⟩ := parentAndName_toParts law hus h
  obtain ⟨hplain, hnode⟩ := plain_withPath law hu.canonical hparts (by simp) hsep hset
  refine ⟨hplain, last, ?_⟩
  rw [hnode, nodeOf, hus.decodedSegments, nodeSegs_concat hlast, nodeSegs_concat_nil, hu.query]
  rfl

end Keys

/-! ### Trees -/

/-- What a `stat` says of an object, apart from its address. -/
structure Attrs where
  kind : ObjectKind
  size : Option UInt64
  etag : Option Bytes
deriving DecidableEq

def attrs (info : CachedInfo) : Attrs := ⟨info.kind, info.size, info.details⟩

/-- What a store holds at each node. -/
structure Tree where
  item : Node → Option Attrs
  parents : ∀ n name, item (n.child name) ≠ none → ∃ i, item n = some i ∧ isDirectoryLike i.kind = true

namespace Tree

variable (t t' : Tree)

/-- Nothing changes but in the scope, and but for directories made above the target. -/
def ChangesOnly (target : Node) (scope : Node → Prop) : Prop :=
  ∀ n, scope n ∨ t'.item n = t.item n ∨ t.item n = none ∧ n.Covers target

/-- The node at the same place under another root. -/
def place (root : Node) (segs : List Bytes) : Node := { root with segs := root.segs ++ segs }

/-- A write that has landed: there is an object, and nothing else has changed. -/
def Writes (u : Node) : Prop := (∃ i, t'.item u = some i ∧ i.kind = .File) ∧ t.ChangesOnly t' u (· = u)

/-- What a successful mutation makes of the tree. -/
def Performs : Mutation → Prop
  | .write address => t.Writes t' (nodeOf address.toParts)
  | .continueWrite address => t.Writes t' (nodeOf address.toParts)
  | .delete address =>
    (∃ i, t.item (nodeOf address.toParts) = some i ∧ i.kind = .File) ∧ t'.item (nodeOf address.toParts) = none ∧
      ∀ n ≠ nodeOf address.toParts, t'.item n = t.item n
  | .updateMetadata address =>
    (t'.item (nodeOf address.toParts)).map Attrs.kind = (t.item (nodeOf address.toParts)).map Attrs.kind ∧
      ∀ n ≠ nodeOf address.toParts, t'.item n = t.item n
  | .createDirectory address =>
    (∃ i, t'.item (nodeOf address.toParts) = some i ∧ isDirectoryLike i.kind = true) ∧
      t.ChangesOnly t' (nodeOf address.toParts) (· = nodeOf address.toParts)
  | .deleteDirectory address =>
    ∀ n, (Node.Covers (nodeOf address.toParts) n → t'.item n = none) ∧
      (¬Node.Covers (nodeOf address.toParts) n → t'.item n = t.item n)
  -- the subtree appears at the destination, perhaps under new etags
  | .copy source destination =>
    (∀ segs i, t.item (place (nodeOf source.toParts) segs) = some i →
      ∃ i', t'.item (place (nodeOf destination.toParts) segs) = some i' ∧ i'.kind = i.kind ∧ i'.size = i.size) ∧
      t.ChangesOnly t' (nodeOf destination.toParts) (Node.Covers (nodeOf destination.toParts))
  | .rename source destination =>
    (∀ segs, t.item (place (nodeOf source.toParts) segs) ≠ none →
      t'.item (place (nodeOf destination.toParts) segs) = t.item (place (nodeOf source.toParts) segs)) ∧
      (∀ n, Node.Covers (nodeOf source.toParts) n → ¬Node.Covers (nodeOf destination.toParts) n → t'.item n = none) ∧
      t.ChangesOnly t' (nodeOf destination.toParts)
        fun n => Node.Covers (nodeOf source.toParts) n ∨ Node.Covers (nodeOf destination.toParts) n

end Tree

/-- The page is a complete listing of the directory. -/
structure Lists (U : UrlCrate) (t : Tree) (n : Node) (page : ListPage CachedInfo) : Prop where
  complete : page.nextPageToken = none
  items : ∀ info ∈ page.items, Plain U info.address ∧ t.item (nodeOf info.address.toParts) = some (attrs info) ∧
    (∃ name, nodeOf info.address.toParts = n.child name) ∧ (info.kind = .File → endsWithSlash info.address = false)
  covers : ∀ name, t.item (n.child name) ≠ none → ∃ info ∈ page.items, nodeOf info.address.toParts = n.child name

/-- The answer is that of the store. -/
def Answers (t : Tree) (a : Url) : Except Refusal CachedInfo → Prop
  | .ok info => t.item (nodeOf a.toParts) = some (attrs info)
  | .error refusal => (∃ message, refusal = .NotFound message) ∧ t.item (nodeOf a.toParts) = none

theorem Answers.of_gone {t : Tree} {a : Url} {result : Except Refusal CachedInfo} (h : Answers t a result)
    (hgone : t.item (nodeOf a.toParts) = none) : ∃ message, result = .error (.NotFound message) := by
  cases result with
  | ok info => exact absurd (hgone.symm.trans h) (by simp)
  | error refusal =>
    obtain ⟨⟨message, rfl⟩, -⟩ := h
    exact ⟨message, rfl⟩

/-- The inner layer answers from the tree; a listing it may refuse. -/
structure Outside.Serves (outside : Outside) (U : UrlCrate) (t : Tree) : Prop where
  stat : ∀ a flags, Plain U a → Answers t a (outside.stat a flags)
  list : ∀ listed options page, Plain U listed → listIsCacheable listed options = true →
    outside.list listed options = .ok page → Lists U t (nodeOf listed.toParts) page

/-! ### What a listing answers -/

/-- What a row says of a `stat`. -/
def ListBackedStat.Agrees (t : Tree) (a : Url) : ListBackedStat → Prop
  | .Found info => t.item (nodeOf a.toParts) = some (attrs info)
  | .NotFound => t.item (nodeOf a.toParts) = none
  | .Unavailable => True

/-- A complete listing of its directory answers a `stat` of an object as the store does. -/
theorem Lists.findInPage {U : UrlCrate} (law : U.Lawful) {t : Tree} {n : Node} {page : ListPage CachedInfo}
    (h : Lists U t n page) {a : Url} (ha : Plain U a) (hobject : endsWithSlash a = false) {name : Bytes}
    (hchild : nodeOf a.toParts = n.child name) : (findInPage page a).Agrees t a := by
  unfold Cache.findInPage
  split
  · rename_i info hfind
    obtain ⟨hplain, hitem, -, -⟩ := h.items info (List.mem_of_find?_eq_some hfind)
    have hkey := List.find?_some hfind
    simp only [decide_eq_true_eq] at hkey
    rw [nodeOf_eq_of_nodeAddress law hplain.canonical ha.canonical hkey.1] at hitem
    exact hitem
  · rename_i hnone
    split_ifs with hdirectory htoken
    · trivial
    · trivial
    · by_contra hpresent
      rw [ListBackedStat.Agrees, hchild] at hpresent
      obtain ⟨info, hmem, hnode⟩ := h.covers name hpresent
      obtain ⟨hplain, -, -, hfile⟩ := h.items info hmem
      have hsame := hnode.trans hchild.symm
      by_cases hkind : info.kind = .File
      · have hkey := nodeAddress_eq_of_nodeOf law hplain.canonical ha.canonical hsame (hfile hkind) hobject
        have := List.find?_eq_none.mp hnone info hmem
        simp [hkey, hkind] at this
      · refine hdirectory (List.any_eq_true.mpr ⟨info, hmem, decide_eq_true ⟨hkind, ?_⟩⟩)
        exact (nodeKey_eq_iff law hplain.canonical ha.canonical).mpr hsame

end OvStorage.Cache
