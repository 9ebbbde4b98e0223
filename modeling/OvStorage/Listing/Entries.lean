import OvStorage.Address.Suffix
import OvStorage.Lib.Ancestry

/-!
# Listed entries

An `ObjectInfo` of a listing, and the helpers of `ovstorage-plugin/src/routing.rs` that both
list folds share: which entries are directories and which of them are markers, the trailing
slash a directory is given, and the directories between the listed prefix and an entry.

## The model

What a listing says about an object besides its address, kind and size (the entity tag, the
version, the times, the checksums, the metadata) is carried along and never read: it is one
field `details`, of any type, and `bare` is what an inferred directory has there.
-/

namespace OvStorage.Listing

open Address SegList List

/-! ### The code -/

/-- `ObjectKind`. -/
inductive ObjectKind
  | File
  | Directory
  | DirectoryMarker
  | DirectoryInferred
deriving DecidableEq

/-- `ObjectInfo`. -/
structure ObjectInfo (δ : Type*) where
  address : Url
  kind : ObjectKind
  size : Option UInt64
  details : δ
deriving DecidableEq

/-- `path().ends_with('/')`. -/
def endsWithSlash (address : Url) : Bool := address.path.getLast? == some slash

/-- `is_directory_like`. -/
def isDirectoryLike : ObjectKind → Bool
  | .Directory | .DirectoryMarker | .DirectoryInferred => true
  | .File => false

/-- `is_concrete_directory`. -/
def isConcreteDirectory : ObjectKind → Bool
  | .Directory | .DirectoryMarker => true
  | .File | .DirectoryInferred => false

/-- `address::key`. -/
def key (url : Parts) : Bytes := percentDecode (withoutLeading url.path)

section Generic

variable {δ : Type*}

/-- `is_flat_marker_entry`. -/
def isFlatMarkerEntry (item : ObjectInfo δ) : Bool :=
  item.kind == .DirectoryMarker || (item.kind == .File && endsWithSlash item.address && item.size.getD 0 == 0)

/-- `normalize_directory_address`. -/
def normalizeDirectoryAddress (U : UrlCrate) (item : ObjectInfo δ) : ObjectInfo δ :=
  if isDirectoryLike item.kind && !endsWithSlash item.address then
    { item with address := U.setPath item.address (item.address.path ++ [slash]) }
  else item

/-- `inferred_directory_info`. -/
def inferredDirectoryInfo (bare : δ) (address : Url) : ObjectInfo δ := ⟨address, .DirectoryInferred, none, bare⟩

end Generic

/-- `Url::set_query`. -/
def setQuery (U : UrlCrate) (url : Url) : Option Bytes → Url
  | some query => U.setQuery url query
  | none => url.clearQuery

/-- The closure of `ancestor_addresses` that makes an ancestor of a candidate path. -/
def ancestorAt (U : UrlCrate) (listedPrefix address : Url) (candidate : Bytes) : Url :=
  U.setPath (setQuery U address listedPrefix.query).clearFragment candidate

/-- `ancestor_addresses`. -/
def ancestorAddresses (U : UrlCrate) (listedPrefix address : Url) : List Url :=
  let floor := (nodePath listedPrefix.toParts).length
  let ceiling := (nodePath address.toParts).length
  ((heads slash address.path).filter fun candidate =>
    let node := max (withoutTrailing candidate).length 1
    decide (floor < node) && decide (node < ceiling)).map (ancestorAt U listedPrefix address)

/-- The ancestors both folds look at: none outside of the listed prefix. -/
def entryAncestors (U : UrlCrate) (listedPrefix address : Url) : List Url :=
  if (relativeSuffix U address listedPrefix).isSome then ancestorAddresses U listedPrefix address else []

/-! ### Truncations -/

section Truncations

variable {U : UrlCrate} {P a : Url} {c : Bytes}

theorem withoutTrailing_concat (t : Bytes) : withoutTrailing (t ++ [slash]) = t := by
  rw [withoutTrailing, dropSuffix?_eq_some.mpr rfl]
  rfl

/-- What the query setter does to the address of an ancestor. -/
theorem setQuery_toParts (law : U.Lawful) (hP : U.Parsed P) (hscheme : P.scheme = a.scheme) :
    (setQuery U a P.query).clearFragment.toParts = { a.toParts with query := P.query, fragment := none } := by
  cases hq : P.query with
  | none => rfl
  | some q =>
    have hfixed := law.parsed_query P hP q hq
    rw [clearFragment_toParts, setQuery, law.setQuery_escapes a q hfixed.controls,
      percentEncode_of_fixed (by rw [← hscheme]; exact hfixed)]

/-- The ancestor at a truncation. -/
theorem ancestorAt_toParts (law : U.Lawful) (hP : U.Parsed P) (ha : Kept a.toParts) (hscheme : P.scheme = a.scheme)
    (hc : c ∈ heads slash a.path) :
    (ancestorAt U P a c).toParts = { a.toParts with path := c, query := P.query, fragment := none } := by
  have hw := setQuery_toParts (a := a) law hP hscheme
  have hset := law.setPath_fixed (setQuery U a P.query).clearFragment c (by rw [hw]; exact ha.hierarchical)
    (by rw [hw]; exact ha.path.of_mem_heads hc)
  rw [ancestorAt, hset, hw]

theorem kept_ancestorAt (law : U.Lawful) (hP : U.Parsed P) (ha : Kept a.toParts) (hscheme : P.scheme = a.scheme)
    (hc : c ∈ heads slash a.path) : Kept (ancestorAt U P a c).toParts := by
  rw [ancestorAt_toParts law hP ha hscheme hc]
  have hfix := ha.path.of_mem_heads hc
  exact ⟨by simp [Parts.cannotBeABase, hfix.1], hfix⟩

/-! ### Which truncations are ancestors -/

/-- The length of the node path of a truncation. -/
def nodeLength (candidate : Bytes) : ℕ := max (withoutTrailing candidate).length 1

theorem nodeLength_of_closed (h : c.getLast? = some slash) : nodeLength c = max (c.length - 1) 1 := by
  obtain ⟨t, rfl⟩ := List.getLast?_eq_some_iff.mp h
  rw [nodeLength, withoutTrailing_concat, length_append, length_singleton, Nat.add_sub_cancel]

theorem nodePath_closed {u : Parts} {t : Bytes} (h : u.path = t ++ [slash]) (ht : t ≠ []) : nodePath u = t := by
  have hlen := length_pos_iff.mpr ht
  rw [nodePath, h, if_pos (by rw [length_append, length_singleton]; omega), dropSuffix?_eq_some.mpr rfl]
  rfl

/-- The test of `ancestor_addresses`. -/
def Between (listedPrefix address : Parts) (candidate : Bytes) : Prop :=
  (nodePath listedPrefix).length < nodeLength candidate ∧ nodeLength candidate < (nodePath address).length

instance (listedPrefix address : Parts) (candidate : Bytes) : Decidable (Between listedPrefix address candidate) :=
  inferInstanceAs (Decidable (_ ∧ _))

theorem ancestorAddresses_eq (U : UrlCrate) (P a : Url) :
    ancestorAddresses U P a =
      ((heads slash a.path).filter fun c => decide (Between P.toParts a.toParts c)).map (ancestorAt U P a) := by
  refine congrArg (List.map _) (filter_congr fun c _ => ?_)
  exact (Bool.decide_and _ _).symm

theorem nodePath_length_pos (u : Parts) : 1 ≤ (nodePath u).length := by
  unfold nodePath
  split_ifs with h
  · cases hd : u.path.dropSuffix? [slash] with
    | none => rw [Option.getD_none]; omega
    | some init =>
      rw [dropSuffix?_eq_some] at hd
      rw [hd, length_append, length_singleton] at h
      rw [Option.getD_some]
      omega
  · exact Nat.le_refl 1

/-- A truncation between is closed by a slash behind its own node path. -/
theorem Between.closed {p u : Parts} (h : Between p u c) (hc : c.getLast? = some slash) :
    ∃ t, c = t ++ [slash] ∧ t ≠ [] ∧ (nodePath p).length < t.length ∧ t.length < (nodePath u).length ∧
      nodeLength c = t.length := by
  obtain ⟨t, rfl⟩ := List.getLast?_eq_some_iff.mp hc
  have hpos := nodePath_length_pos p
  obtain ⟨h1, h2⟩ := h
  have hn : nodeLength (t ++ [slash]) = max t.length 1 := by rw [nodeLength, withoutTrailing_concat]
  rw [hn] at h1 h2
  have hlen : max t.length 1 = t.length := by omega
  rw [hlen] at h1 h2
  refine ⟨t, rfl, ?_, h1, h2, hn.trans hlen⟩
  rintro rfl
  simp at h1

/-- A shorter truncation has the shorter node path. -/
theorem nodeLength_lt {d : Bytes} (hc : c.getLast? = some slash) (hd : d.getLast? = some slash)
    (hlt : c.length < d.length) (h : 1 < nodeLength d) : nodeLength c < nodeLength d := by
  rw [nodeLength_of_closed hd] at h ⊢
  rw [nodeLength_of_closed hc]
  omega

/-! ### Chains -/

theorem entryAncestors_of_isAncestorOrSelf (law : U.Lawful) (hP : Kept P.toParts) (ha : Kept a.toParts)
    (h : isAncestorOrSelf P.toParts a.toParts = true) : entryAncestors U P a = ancestorAddresses U P a :=
  if_pos ((hP.relativeSuffix_isSome_iff law ha).mpr h)

/-- An ancestor, and what it is a truncation of. -/
theorem mem_entryAncestors (law : U.Lawful) (hP : Kept P.toParts) (ha : Kept a.toParts) {b : Url}
    (hb : b ∈ entryAncestors U P a) :
    isAncestorOrSelf P.toParts a.toParts = true ∧
      ∃ c ∈ heads slash a.path, Between P.toParts a.toParts c ∧ b = ancestorAt U P a c := by
  unfold entryAncestors at hb
  split_ifs at hb with h
  · refine ⟨(hP.relativeSuffix_isSome_iff law ha).mp h, ?_⟩
    rw [ancestorAddresses_eq] at hb
    obtain ⟨c, hc, rfl⟩ := mem_map.mp hb
    obtain ⟨hc, hbetween⟩ := mem_filter.mp hc
    exact ⟨c, hc, of_decide_eq_true hbetween, rfl⟩
  · cases hb

/-- The prefix is above an ancestor too. -/
theorem isAncestorOrSelf_ancestorAt (law : U.Lawful) (hP : U.Parsed P) (ha : Kept a.toParts)
    (h : isAncestorOrSelf P.toParts a.toParts = true) (hc : c ∈ heads slash a.path)
    (hb : Between P.toParts a.toParts c) : isAncestorOrSelf P.toParts (ancestorAt U P a c).toParts = true := by
  obtain ⟨hscheme, hhost, hport, hpath, -⟩ := isAncestorOrSelf_eq_true.mp h
  obtain ⟨hfront, hlast⟩ := mem_heads hc
  obtain ⟨t, rfl, htne, h1, h2, -⟩ := hb.closed hlast
  have hparts := ancestorAt_toParts law hP ha hscheme hc
  have hnode : nodePath (ancestorAt U P a (t ++ [slash])).toParts = t := nodePath_closed (by rw [hparts]) htne
  rw [isAncestorOrSelf_eq_true, hnode, hparts]
  refine ⟨hscheme, hhost, hport, pathContains_front hpath ?_ h1, Or.inr rfl⟩
  exact prefix_of_prefix_length_le ((prefix_append t [slash]).trans hfront) (nodePath_front ha.path.1)
    (Nat.le_of_lt h2)

/-- The ancestors of an ancestor are those of the entry that are above it. -/
theorem ancestorAddresses_ancestorAt (law : U.Lawful) (hP : U.Parsed P) (ha : Kept a.toParts)
    (hscheme : P.scheme = a.scheme) (hc : c ∈ heads slash a.path) (hb : Between P.toParts a.toParts c) :
    ∃ rest, ancestorAddresses U P a =
      ancestorAddresses U P (ancestorAt U P a c) ++ ancestorAt U P a c :: rest := by
  obtain ⟨pre, post, hsplit⟩ := append_of_mem hc
  have hlast := (mem_heads hc).2
  obtain ⟨t, rfl, htne, h1, -, hlen⟩ := hb.closed hlast
  have hkept := kept_ancestorAt law hP ha hscheme hc
  have hparts := ancestorAt_toParts law hP ha hscheme hc
  generalize hself : ancestorAt U P a (t ++ [slash]) = b at hkept hparts ⊢
  have hpath : b.path = t ++ [slash] := by rw [hparts]
  have hnode : nodePath b.toParts = t := nodePath_closed hpath htne
  have hsorted := hsplit ▸ pairwise_length_heads slash a.path
  have hpre : ∀ d ∈ pre, Between P.toParts a.toParts d ↔ Between P.toParts b.toParts d := by
    intro d hd
    have hdm : d ∈ heads slash a.path := by
      rw [hsplit]
      exact mem_append_left _ hd
    have hshort : d.length < (t ++ [slash]).length := (pairwise_append.mp hsorted).2.2 d hd _ mem_cons_self
    have hpos := nodePath_length_pos P.toParts
    have hlt := nodeLength_lt (mem_heads hdm).2 hlast hshort (by omega)
    rw [Between, Between, hnode]
    have := hb.2
    constructor
    · rintro ⟨h3, -⟩
      exact ⟨h3, by omega⟩
    · rintro ⟨h3, h4⟩
      exact ⟨h3, by omega⟩
  have hnot : ¬ Between P.toParts b.toParts (t ++ [slash]) := by
    rintro ⟨-, h⟩
    rw [hnode] at h
    omega
  have hanc : ∀ d ∈ pre, ancestorAt U P b d = ancestorAt U P a d := by
    intro d hd
    have hdm : d ∈ heads slash a.path := by
      rw [hsplit]
      exact mem_append_left _ hd
    have hdb : d ∈ heads slash b.path := by
      rw [hpath, heads_of_heads hsplit]
      exact mem_append_left _ hd
    apply Url.ext_parts
    rw [ancestorAt_toParts law hP hkept (by rw [hparts]; exact hscheme) hdb, ancestorAt_toParts law hP ha hscheme hdm,
      hparts]
  rw [ancestorAddresses_eq, ancestorAddresses_eq, hpath, heads_of_heads hsplit, hsplit, filter_append,
    filter_append, filter_cons_of_pos (p := fun c => decide (Between P.toParts a.toParts c)) (decide_eq_true hb),
    filter_cons_of_neg (by simpa using hnot), filter_nil, append_nil, map_append, map_cons, hself,
    filter_congr fun d hd => decide_eq_decide.mpr (hpre d hd),
    map_congr_left fun d hd => hanc d (mem_of_mem_filter hd)]
  exact ⟨_, rfl⟩

/-- The ancestors of entries are chains. -/
theorem entryAncestors_lawful (law : U.Lawful) (hparsed : U.Parsed P) (hP : Kept P.toParts) :
    Ancestry.Lawful (entryAncestors U P) endsWithSlash fun a => Kept a.toParts := by
  have hscheme : ∀ {x : Url}, isAncestorOrSelf P.toParts x.toParts = true → P.scheme = x.scheme :=
    fun h => (isAncestorOrSelf_eq_true.mp h).1
  refine ⟨?_, ?_, ?_, ?_, ?_⟩
  · intro x b hx hb
    obtain ⟨hanc, c, hc, -, rfl⟩ := mem_entryAncestors law hP hx hb
    exact kept_ancestorAt law hparsed hx (hscheme hanc) hc
  · intro x b hx hb
    obtain ⟨hanc, c, hc, -, rfl⟩ := mem_entryAncestors law hP hx hb
    rw [endsWithSlash, ancestorAt_toParts law hparsed hx (hscheme hanc) hc]
    exact beq_iff_eq.mpr (mem_heads hc).2
  · intro x b hx hb
    obtain ⟨hanc, c, hc, hbetween, rfl⟩ := mem_entryAncestors law hP hx hb
    rw [entryAncestors_of_isAncestorOrSelf law hP hx hanc,
      entryAncestors_of_isAncestorOrSelf law hP (kept_ancestorAt law hparsed hx (hscheme hanc) hc)
        (isAncestorOrSelf_ancestorAt law hparsed hx hanc hc hbetween)]
    exact ancestorAddresses_ancestorAt law hparsed hx (hscheme hanc) hc hbetween
  · intro x hx
    unfold entryAncestors
    split_ifs with h
    · have hanc := (hP.relativeSuffix_isSome_iff law hx).mp h
      rw [ancestorAddresses_eq]
      have hnodup : ((heads slash x.path).filter fun c => decide (Between P.toParts x.toParts c)).Nodup :=
        ((pairwise_length_heads slash x.path).imp fun hlt he => by rw [he] at hlt; omega).filter _
      refine hnodup.map_on ?_
      intro c hc d hd he
      have hpath := congrArg (fun u : Url => u.path) he
      simp only [ancestorAt_toParts law hparsed hx (hscheme hanc) (mem_of_mem_filter hc),
        ancestorAt_toParts law hparsed hx (hscheme hanc) (mem_of_mem_filter hd)] at hpath
      exact hpath
    · exact nodup_nil
  · intro x hx hb
    obtain ⟨hanc, c, hc, hbetween, he⟩ := mem_entryAncestors law hP hx hb
    obtain ⟨t, rfl, htne, -, hlt, -⟩ := hbetween.closed (mem_heads hc).2
    have hpath : x.path = t ++ [slash] := by
      conv_lhs => rw [he, ancestorAt_toParts law hparsed hx (hscheme hanc) hc]
    rw [nodePath_closed hpath htne] at hlt
    omega

/-! ### Directories gain a slash -/

theorem normalizeDirectoryAddress_kept {δ : Type*} (law : U.Lawful) {item : ObjectInfo δ}
    (h : Kept item.address.toParts) :
    Kept (normalizeDirectoryAddress U item).address.toParts := by
  unfold normalizeDirectoryAddress
  split_ifs with hslash
  · have hfix : PathFixed item.address.scheme (item.address.path ++ [slash]) := by
      refine h.path.close fun hlast => ?_
      rw [endsWithSlash, hlast] at hslash
      simp at hslash
    show Kept (U.setPath item.address (item.address.path ++ [slash])).toParts
    rw [law.setPath_fixed _ _ h.hierarchical hfix]
    exact ⟨by simp [Parts.cannotBeABase, hfix.1], hfix⟩
  · exact h

end Truncations

end OvStorage.Listing
