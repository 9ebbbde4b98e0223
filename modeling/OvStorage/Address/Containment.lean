import OvStorage.Address.Node

/-!
# Containment

`is_ancestor_or_self`, `relative_suffix` and `same_node` of
`ovstorage-plugin/src/address.rs`.

`is_ancestor_or_self` compares components, `relative_suffix` recovers what lies
below by stripping serializations: first the prefix's own, then the prefix's path
written behind the address's authority, then the prefix's node path.
-/

namespace OvStorage.Address

open SegList

/-! ### The code -/

/-- `path_contains`: segment-aligned containment over two node paths. -/
def pathContains (pre path : Bytes) : Bool :=
  if pre = path then true
  else
    match path.dropPrefix? pre with
    | some rest => pre.getLast? == some slash || rest.head? == some slash
    | none => false

/-- `is_ancestor_or_self`. -/
def isAncestorOrSelf (pre addr : Parts) : Bool :=
  if pre.scheme ≠ addr.scheme ∨ pre.host ≠ addr.host ∨ pre.port ≠ addr.port then false
  else if !pathContains (nodePath pre) (nodePath addr) then false
  else
    match pre.query with
    | none => true
    | some pinned => addr.query == some pinned

/-- `same_node`. -/
def sameNode (a b : Parts) : Bool := nodeKey a == nodeKey b

/-- `relative_suffix`. -/
def relativeSuffix (U : UrlCrate) (addr pre : Url) : Option Bytes :=
  if !isAncestorOrSelf pre.toParts addr.toParts then none
  else
    match addr.asStr.dropPrefix? pre.asStr with
    | some suffix => some suffix
    | none =>
      let head := U.setPath addr.clearQuery.clearFragment pre.path
      match addr.asStr.dropPrefix? head.asStr with
      | some suffix => some suffix
      | none => addr.asStr.dropPrefix? (U.setPath head (nodePath pre.toParts)).asStr

/-! ### Node paths -/

variable {us ns : List Bytes}

theorem getLast?_pieces_ne (hne : ns ≠ []) (hsep : SepFree slash ns) (hnn : ∀ s ∈ ns, s ≠ []) :
    (pieces slash ns).getLast? ≠ some slash := by
  obtain ⟨init, last, rfl⟩ : ∃ init last, ns = init ++ [last] :=
    ⟨ns.dropLast, ns.getLast hne, (List.dropLast_append_getLast hne).symm⟩
  have hl : last ≠ [] := hnn last (by simp)
  intro he
  rw [pieces_append, pieces_cons, pieces_nil, List.append_nil, List.getLast?_append_of_ne_nil _ (by simp),
    List.getLast?_cons_of_ne_nil hl] at he
  exact hsep last (by simp) (List.mem_of_getLast? he)

/-- Containment of node paths is a front of segments. -/
theorem pathContains_nodeText {ms : List Bytes} (hns : SepFree slash ns) (hms : SepFree slash ms)
    (hnn : ∀ s ∈ ns, s ≠ []) : pathContains (nodeText ns) (nodeText ms) = true ↔ ns <+: ms := by
  have hslash : ∀ ks, ∃ t, nodeText ks = slash :: t := by
    intro ks
    cases ks with
    | nil => exact ⟨[], rfl⟩
    | cons k ks => exact ⟨k ++ pieces slash ks, by simp [nodeText]⟩
  by_cases hn : ns = []
  · -- the root contains everything
    subst hn
    obtain ⟨t, ht⟩ := hslash ms
    have hd : (nodeText ms).dropPrefix? [slash] = some t := by rw [dropPrefix?_eq_some, ht]; rfl
    have hroot : nodeText [] = [slash] := rfl
    simp only [List.nil_prefix, iff_true, pathContains, hroot, hd]
    split <;> simp
  · have hntext : nodeText ns = pieces slash ns := by simp [nodeText, hn]
    have hend : ((pieces slash ns).getLast? == some slash) = false := by
      simpa using getLast?_pieces_ne hn hns hnn
    rw [hntext]
    by_cases hm : ms = []
    · -- no proper path is above the root
      subst hm
      obtain ⟨s, ss, rfl⟩ := List.exists_cons_of_ne_nil hn
      have hs : s ≠ [] := hnn s List.mem_cons_self
      have hno : ∀ r, ([slash] : Bytes) ≠ pieces slash (s :: ss) ++ r := by
        intro r he
        rw [pieces_cons, List.cons_append, List.cons.injEq] at he
        exact hs (List.append_eq_nil_iff.mp (List.append_eq_nil_iff.mp he.2.symm).1).1
      have hd : (nodeText []).dropPrefix? (pieces slash (s :: ss)) = none := by
        rw [Option.eq_none_iff_forall_ne_some]
        intro r hr
        exact hno r (dropPrefix?_eq_some.mp hr)
      have hneq : pieces slash (s :: ss) ≠ nodeText [] := fun he => hno [] (by rw [List.append_nil, he]; rfl)
      rw [pathContains, if_neg hneq, hd]
      simp
    · have hmtext : nodeText ms = pieces slash ms := by simp [nodeText, hm]
      rw [hmtext]
      constructor
      · intro h
        unfold pathContains at h
        split_ifs at h with he
        · rw [pieces_inj hns hms he]
        · split at h
          · rename_i rest hr
            rw [hend, Bool.false_or, beq_iff_eq] at h
            obtain ⟨t, ht⟩ := List.head?_eq_some_iff.mp h
            obtain ⟨us, hu, -⟩ := (pieces_append_iff hns hms (Or.inr ⟨t, ht⟩)).mp (dropPrefix?_eq_some.mp hr)
            exact ⟨us, hu.symm⟩
          · exact absurd h (by simp)
      · rintro ⟨us, rfl⟩
        have hd : (pieces slash (ns ++ us)).dropPrefix? (pieces slash ns) = some (pieces slash us) := by
          rw [dropPrefix?_eq_some, pieces_append]
        unfold pathContains
        rw [hd]
        split_ifs with he
        · rfl
        · cases us with
          | nil => exact absurd (by simp) he
          | cons u us => simp

variable {u : Parts}

/-- The component test, component by component. -/
theorem isAncestorOrSelf_eq_true {p : Parts} :
    isAncestorOrSelf p u = true ↔ p.scheme = u.scheme ∧ p.host = u.host ∧ p.port = u.port ∧
      pathContains (nodePath p) (nodePath u) = true ∧ (p.query = none ∨ p.query = u.query) := by
  unfold isAncestorOrSelf
  by_cases hs : p.scheme ≠ u.scheme ∨ p.host ≠ u.host ∨ p.port ≠ u.port
  · rw [if_pos hs]
    refine iff_of_false (by simp) ?_
    rintro ⟨h1, h2, h3, -⟩
    rcases hs with hs | hs | hs
    exacts [hs h1, hs h2, hs h3]
  · rw [if_neg hs]
    push Not at hs
    simp only [hs, true_and]
    cases pathContains (nodePath p) (nodePath u) with
    | false => simp
    | true =>
      cases p.query with
      | none => simp
      | some q =>
        simp only [Bool.not_true, Bool.false_eq_true, if_false, beq_iff_eq, reduceCtorEq, false_or, true_and]
        exact eq_comm

section Shaped

variable {p u : Parts} {ps us : List Bytes}

/-- Coverage of nodes, on shapes. -/
theorem Shape.covers_iff (hp : Shape p ps) (hu : Shape u us) :
    (nodeOf p).Covers (nodeOf u) ↔ p.scheme = u.scheme ∧ p.host = u.host ∧ p.port = u.port ∧
      nodeSegs ps <+: nodeSegs us ∧ (p.query = none ∨ p.query = u.query) := by
  constructor
  · rintro ⟨h1, h2, h3, h4, h5⟩
    rw [nodeOf, nodeOf, hp.decodedSegments, hu.decodedSegments] at h4
    exact ⟨h1, h2, h3, h4, h5⟩
  · rintro ⟨h1, h2, h3, h4, h5⟩
    refine ⟨h1, h2, h3, ?_, h5⟩
    rw [nodeOf, nodeOf, hp.decodedSegments, hu.decodedSegments]
    exact h4

theorem Shape.segs_of_covers (hp : Shape p ps) (hu : Shape u us) (h : (nodeOf p).Covers (nodeOf u)) :
    nodeSegs ps <+: nodeSegs us :=
  ((hp.covers_iff hu).mp h).2.2.2.1

/-- The component test, on shapes: coverage of nodes. -/
theorem Shape.isAncestorOrSelf_iff (hp : Shape p ps) (hu : Shape u us) :
    isAncestorOrSelf p u = true ↔ (nodeOf p).Covers (nodeOf u) := by
  have hpath : p.scheme = u.scheme → p.host = u.host →
      (pathContains (nodePath p) (nodePath u) = true ↔ nodeSegs ps <+: nodeSegs us) := by
    intro hs hh
    have hset : ∀ ns, escapedSegs p ns = escapedSegs u ns := escapedSegs_congr hs (by rw [hh])
    rw [hp.nodePath_eq, hu.nodePath_eq, hset, pathContains_nodeText (escapedSegs_sepFree hp.nodeSegs_sepFree)
      (escapedSegs_sepFree hu.nodeSegs_sepFree) (escapedSegs_nonempty (nodeSegs_names hp.settled) u)]
    constructor
    · intro h
      simpa [map_decode_escaped] using h.map percentDecode
    · exact fun h => h.map _
  rw [hp.covers_iff hu, isAncestorOrSelf_eq_true]
  refine and_congr_right fun hs => and_congr_right fun hh => and_congr_right fun _ => ?_
  rw [hpath hs hh]

end Shaped

variable {U : UrlCrate}

/-- `is_ancestor_or_self` on canonical addresses is coverage of nodes. -/
theorem isAncestorOrSelf_iff (law : U.Lawful) {p u : Url} (hp : Canonical U p) (hu : Canonical U u) :
    isAncestorOrSelf p.toParts u.toParts = true ↔ (nodeOf p.toParts).Covers (nodeOf u.toParts) := by
  obtain ⟨ps, hps⟩ := hp.shape law
  obtain ⟨us, hus⟩ := hu.shape law
  exact hps.isAncestorOrSelf_iff hus

/-- Two addresses above one address that are as specific as each other name one node. -/
theorem nodeKey_eq_of_nodeRank_eq (law : U.Lawful) {a b u : Url} (ha : Canonical U a) (hb : Canonical U b)
    (hu : Canonical U u) (hau : isAncestorOrSelf a.toParts u.toParts = true)
    (hbu : isAncestorOrSelf b.toParts u.toParts = true) (h : nodeRank a.toParts = nodeRank b.toParts) :
    nodeKey a.toParts = nodeKey b.toParts := by
  obtain ⟨as, has⟩ := ha.shape law
  obtain ⟨bs, hbs⟩ := hb.shape law
  rw [has.nodeKey_eq_iff hbs]
  rw [has.nodeRank_eq, hbs.nodeRank_eq] at h
  exact Node.Covers.eq_of_rank_eq ((isAncestorOrSelf_iff law ha hu).mp hau) ((isAncestorOrSelf_iff law hb hu).mp hbu) h

/-- Nothing above an address is more specific than its own node. -/
theorem nodeRank_le (law : U.Lawful) {p u : Url} (hp : Canonical U p) (hu : Canonical U u)
    (h : isAncestorOrSelf p.toParts u.toParts = true) : nodeRank p.toParts ≤ nodeRank u.toParts := by
  obtain ⟨ps, hps⟩ := hp.shape law
  obtain ⟨us, hus⟩ := hu.shape law
  rw [hps.nodeRank_eq, hus.nodeRank_eq]
  exact ((isAncestorOrSelf_iff law hp hu).mp h).rank_le

/-! ### Stripping serializations -/

/-- What a serialization has before a path that does not begin with `//`. -/
def Parts.front (u : Parts) : Bytes :=
  u.scheme ++ colon :: (if u.hasAuthority then slash :: slash :: (u.userinfo ++ u.hostPort) else [])

theorem PathFixed.not_slashes {scheme p : Bytes} (h : PathFixed scheme p) : [slash, slash].isPrefixOf p = false := by
  obtain ⟨ss, rfl, hsep, hfix⟩ := h.exists_pieces
  rw [← Bool.not_eq_true, List.isPrefixOf_iff_prefix]
  rintro ⟨t, ht⟩
  cases ss with
  | nil => exact hfix
  | cons s ss =>
    rw [sepFree_cons] at hsep
    obtain ⟨rfl, hrest⟩ :=
      AtSep.append_inj (s := []) (by simp) hsep.1 (atSep_cons t) (atSep_pieces ss) (List.cons.inj ht).2
    have hnil := hfix.2.1 rfl
    rw [hnil] at hrest
    exact absurd hrest (by simp)

theorem asStr_of_fixed (h : PathFixed u.scheme u.path) :
    u.asStr = u.front ++ (u.path ++ (tagged question u.query ++ tagged hash u.fragment)) := by
  unfold Parts.asStr Parts.front Parts.authority
  rw [h.not_slashes]
  simp

/-- The front does not depend on what follows the authority. -/
theorem front_of_path (u : Parts) (path : Bytes) (query fragment : Option Bytes) :
    ({ u with path := path, query := query, fragment := fragment } : Parts).front = u.front := rfl

/-- An address's own serialization with another path, and nothing behind it. -/
theorem asStr_head (law : U.Lawful) {u : Url} (hc : u.cannotBeABase = false) {q : Bytes}
    (hq : PathFixed u.scheme q) : (U.setPath u.clearQuery.clearFragment q).asStr = u.front ++ q := by
  have hset : (U.setPath u.clearQuery.clearFragment q).toParts =
      { u.toParts with path := q, query := none, fragment := none } :=
    law.setPath_fixed u.clearQuery.clearFragment q hc hq
  rw [hset, asStr_of_fixed hq]
  simp [front_of_path]

/-- The path of a covered address continues the node path above it. -/
theorem Shape.path_of_covers {p : Parts} {ps : List Bytes} (hp : Shape p ps) (hu : Shape u us)
    (hs : p.scheme = u.scheme) (hh : p.host = u.host) (h : nodeSegs ps <+: nodeSegs us) :
    ∃ rest, u.path = nodePath p ++ rest := by
  have hset : ∀ ns, escapedSegs p ns = escapedSegs u ns := escapedSegs_congr hs (by rw [hh])
  rw [hp.nodePath_eq, nodeText]
  split_ifs with hn
  · obtain ⟨t, ht⟩ := List.head?_eq_some_iff.mp hu.path_head
    exact ⟨t, ht⟩
  · obtain ⟨rs, hrs⟩ := h.trans (nodeSegs_front us)
    rw [hu.path, hset, ← hrs]
    exact ⟨pieces slash (escapedSegs u rs), by simp [escapedSegs]⟩

/-- The serialization of a canonical address. -/
theorem Shape.asStr_eq (h : Shape u us) : u.asStr = u.front ++ (u.path ++ tagged question u.query) := by
  rw [asStr_of_fixed h.pathFixed, h.fragment]
  simp

/-- An address whose path the setter keeps. -/
structure Kept (u : Parts) : Prop where
  hierarchical : u.cannotBeABase = false
  path : PathFixed u.scheme u.path

theorem Shape.kept (h : Shape u us) : Kept u := ⟨h.hierarchical, h.pathFixed⟩

theorem Canonical.kept (law : U.Lawful) {u : Url} (h : Canonical U u) : Kept u.toParts := by
  obtain ⟨us, hus⟩ := h.shape law
  exact hus.kept

/-- A node path is the path, or what its last slash closes. -/
theorem nodePath_cases (h : u.path.head? = some slash) :
    nodePath u = u.path ∨ nodePath u ≠ [] ∧ u.path = nodePath u ++ [slash] := by
  unfold nodePath
  split_ifs with hlen
  · cases hd : u.path.dropSuffix? [slash] with
    | none => exact Or.inl rfl
    | some init =>
      rw [dropSuffix?_eq_some] at hd
      refine Or.inr ⟨?_, hd⟩
      rintro rfl
      simp [hd] at hlen
  · obtain ⟨t, ht⟩ := List.head?_eq_some_iff.mp h
    rw [ht, List.length_cons] at hlen
    have htnil : t = [] := List.length_eq_zero_iff.mp (by omega)
    exact Or.inl (by rw [ht, htnil])

theorem nodePath_front (h : u.path.head? = some slash) : nodePath u <+: u.path := by
  rcases nodePath_cases h with he | ⟨-, he⟩
  · rw [he]
  · exact ⟨[slash], he.symm⟩

/-- The segments a kept path has without its closing slash are kept as well. -/
theorem Kept.nodePath_fixed (h : Kept u) : PathFixed u.scheme (nodePath u) := by
  rcases nodePath_cases h.path.1 with he | ⟨hne, he⟩
  · rw [he]
    exact h.path
  · obtain ⟨ss, hpath, hsep, hfix⟩ := h.path.exists_pieces
    rw [he] at hpath
    cases hn : nodePath u with
    | nil => exact absurd hn hne
    | cons b t =>
      have hb : b = slash := by
        have := h.path.1
        rw [he, hn] at this
        simpa using this
      subst hb
      obtain ⟨rs, hrs, hrsep⟩ := (show AtSep slash (slash :: t) from atSep_cons t).exists_pieces
      rw [hn, hrs, show [slash] = pieces slash [([] : Bytes)] from rfl, ← pieces_append] at hpath
      have hsegs : rs ++ [[]] = ss := pieces_inj (by simp [hrsep]) hsep hpath
      rw [hrs]
      refine PathFixed.of_pieces hrsep ?_
      cases rs with
      | nil => simp at hrs
      | cons r rs =>
        rw [← hsegs] at hfix
        refine ⟨fun s hs => hfix.1 s (List.mem_append_left _ hs), fun hr => ?_, hfix.2.2⟩
        exact absurd (hfix.2.1 hr) (by simp)

/-- The heads that `relative_suffix` spells with the authority of the address. -/
theorem relativeSuffix_heads (law : U.Lawful) {u p : Url} (hu : Kept u.toParts) (hp : Kept p.toParts)
    (hscheme : p.scheme = u.scheme) :
    (U.setPath u.clearQuery.clearFragment p.path).asStr = u.front ++ p.path ∧
    (U.setPath (U.setPath u.clearQuery.clearFragment p.path) (nodePath p.toParts)).asStr =
      u.front ++ nodePath p.toParts := by
  have hpfix : PathFixed u.scheme p.path := hscheme ▸ hp.path
  have hnfix : PathFixed u.scheme (nodePath p.toParts) := hscheme ▸ hp.nodePath_fixed
  refine ⟨asStr_head law hu.hierarchical hpfix, ?_⟩
  have h1 := law.setPath_eq (u := u.clearQuery.clearFragment) hu.hierarchical hpfix
  have h2 : (U.setPath u.clearQuery.clearFragment p.path).cannotBeABase = false := by
    rw [h1]
    simp [Url.withPath, Parts.cannotBeABase, hpfix.1]
  have h3 := law.setPath_fixed (U.setPath u.clearQuery.clearFragment p.path) (nodePath p.toParts) h2
    (by rw [h1]; exact hnfix)
  rw [h3, asStr_of_fixed (by rw [h1]; exact hnfix), h1]
  simp [front_of_path, Url.withPath, Url.clearQuery, Url.clearFragment]

theorem pathContains_iff {pre path : Bytes} :
    pathContains pre path = true ↔
      pre = path ∨ ∃ rest, path = pre ++ rest ∧ (pre.getLast? = some slash ∨ rest.head? = some slash) := by
  unfold pathContains
  split_ifs with he
  · exact iff_of_true rfl (Or.inl he)
  · rw [or_iff_right he]
    cases hd : path.dropPrefix? pre with
    | none =>
      refine iff_of_false (by simp) ?_
      rintro ⟨rest, hrest, -⟩
      rw [dropPrefix?_eq_some.mpr hrest] at hd
      cases hd
    | some rest =>
      rw [dropPrefix?_eq_some] at hd
      subst hd
      simp

/-- What contains a path contains the fronts of it that are longer than itself. -/
theorem pathContains_front {pre front path : Bytes} (h : pathContains pre path = true) (hfront : front <+: path)
    (hlen : pre.length < front.length) : pathContains pre front = true := by
  rw [pathContains_iff] at h ⊢
  rcases h with rfl | ⟨rest, rfl, hend⟩
  · exact absurd hfront.length_le (by omega)
  · obtain ⟨mid, rfl⟩ := List.prefix_of_prefix_length_le (List.prefix_append pre rest) hfront (Nat.le_of_lt hlen)
    refine Or.inr ⟨mid, rfl, hend.imp_right fun hhead => ?_⟩
    obtain ⟨tail, htail⟩ := (List.prefix_append_right_inj pre).mp hfront
    cases mid with
    | nil => simp at hlen
    | cons b mid =>
      rw [← htail] at hhead
      simpa using hhead

/-- One of the strips succeeds exactly when the component test does. -/
theorem Kept.relativeSuffix_isSome_iff (law : U.Lawful) {p u : Url} (hp : Kept p.toParts) (hu : Kept u.toParts) :
    (relativeSuffix U u p).isSome = true ↔ isAncestorOrSelf p.toParts u.toParts = true := by
  unfold relativeSuffix
  cases hanc : isAncestorOrSelf p.toParts u.toParts with
  | false => simp
  | true =>
    simp only [Bool.not_true, Bool.false_eq_true, if_false, iff_true]
    obtain ⟨hscheme, -, -, hpath, -⟩ := isAncestorOrSelf_eq_true.mp hanc
    split
    · rfl
    · split
      · rfl
      · -- the last strip, by the node path behind the address's own authority
        obtain ⟨rest, hrest⟩ : nodePath p.toParts <+: u.path := by
          rcases pathContains_iff.mp hpath with he | ⟨mid, he, -⟩
          · exact he ▸ nodePath_front hu.path.1
          · exact List.IsPrefix.trans ⟨mid, he.symm⟩ (nodePath_front hu.path.1)
        have hsome : u.asStr.dropPrefix? (u.front ++ nodePath p.toParts) =
            some (rest ++ (tagged question u.query ++ tagged hash u.fragment)) := by
          rw [dropPrefix?_eq_some, asStr_of_fixed hu.path, ← hrest]
          simp
        rw [(relativeSuffix_heads law hu hp hscheme).2, hsome]
        rfl

/-- On canonical addresses a strip succeeds exactly when the component test does. -/
theorem relativeSuffix_isSome_iff (law : U.Lawful) {p u : Url} (hp : Canonical U p) (hu : Canonical U u) :
    (relativeSuffix U u p).isSome = true ↔ isAncestorOrSelf p.toParts u.toParts = true :=
  (hp.kept law).relativeSuffix_isSome_iff law (hu.kept law)

end OvStorage.Address
