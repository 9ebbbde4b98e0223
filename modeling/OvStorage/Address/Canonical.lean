import Mathlib.Data.Prod.Lex
import OvStorage.Address.UrlCrate

/-!
# Canonical addresses

`canonicalize` of `ovstorage-layer/src/address.rs` and the string entry point
`address::parse` of `ovstorage-plugin/src/address.rs`, which every address passes
on its way into the layer chain; and the comparison forms the chain reads off an
address (`nodePath`, `nodeKey`, `nodeRank`, `nodeAddress`, `nodeSpellings`).

## The model

`Canonical` is what the rest of the chain is promised: an address with a
hierarchical path that its own serialization parses back to and that
`canonicalize` leaves alone. `Shape` says what that comes to: a path whose decoded
segments are settled, escaped with the set of the address.

## What is proved

* `canonicalize_idem`, `addressParse_canonical`: canonicalizing is idempotent, and parsing gives what is canonical.
* `Canonical.shape`, `canonical_of_shape`: the two descriptions agree.
-/

namespace OvStorage.Address

open SegList

/-! ### Errors -/

/-- The error codes that are raised here. -/
inductive ErrorCode
  | InvalidArgument
  | NoRoute
  | Unsupported
  | Internal
  | AliasChainTooLong
  | AuthRequired
  | PermissionDenied
  | NotFound
  | AlreadyExists
  | DirectoryNotEmpty
  | PreconditionFailed
  | ObjectModified
  | ResourceExhausted
  | Cancelled
  | Transient
  | RouteConflict
  | CommitAmbiguous
  | DeadlineExceeded
deriving DecidableEq

/-- `Error::new(code, message)`, before the message is redacted. -/
structure Error where
  code : ErrorCode
  message : Bytes
deriving DecidableEq

/-- `RedactedUrl`: scheme, host, port and path. -/
def redactedUrl (url : Url) : Bytes :=
  if url.cannotBeABase then url.scheme ++ utf8 ":<opaque>"
  else
    url.scheme ++ utf8 "://" ++
      (match url.host with
        | none => []
        | some host => host ++ tagged colon (url.port.map decimal)) ++ url.path

/-! ### The code -/

/-- `canonical_path_set`: by the scheme and by whether there is a host. -/
def canonicalPathSet (u : Parts) : AsciiSet :=
  if u.scheme = FILE then
    if u.host.isSome then CANONICAL_FILE_SHARE_PATH else CANONICAL_FILE_PATH
  else CANONICAL_PATH

/-- The empty-authority path rule of `canonicalize`: an authority with no path gains a `/`. -/
def giveRootPath (U : UrlCrate) (url : Url) : Url :=
  if url.hasAuthority && url.path.isEmpty then U.setPath url [slash] else url

/-- `canonicalize`. -/
def canonicalize (U : UrlCrate) (url : Url) : Url :=
  if url.cannotBeABase then url
  else
    let url := giveRootPath U url.lowercaseHost.clearFragment
    U.setPath url (canonicalPath (canonicalPathSet url.toParts) url.path)

/-- `address::parse`. -/
def addressParse (U : UrlCrate) (value : Bytes) : Except Error Url :=
  match U.parse value with
  | .error error => .error ⟨.InvalidArgument, utf8 "invalid URL: " ++ error⟩
  | .ok url =>
    if url.cannotBeABase then
      .error ⟨.InvalidArgument, utf8 "address must have an authority; scheme '" ++ url.scheme ++
        utf8 "' was parsed as authority-less"⟩
    else .ok (canonicalize U url)

/-- `node_path`: the path with one trailing `/` removed, except at the root. -/
def nodePath (url : Parts) : Bytes :=
  if 1 < url.path.length then (url.path.dropSuffix? [slash]).getD url.path else [slash]

/-- `node_key`: equal for two spellings of one node. -/
def nodeKey (url : Parts) : Bytes × Option Bytes × Option UInt16 × Bytes × Option Bytes :=
  (url.scheme, url.host, url.port, nodePath url, url.query)

instance lawfulBEq_nodeKey : LawfulBEq (Bytes × Option Bytes × Option UInt16 × Bytes × Option Bytes) := inferInstance

/-- `node_segment_count`. -/
def nodeSegmentCount (url : Parts) : ℕ := (((nodePath url).splitOn slash).filter (· ≠ [])).length

/-- `node_rank`: depth, then whether a query is pinned. -/
def nodeRank (url : Parts) : ℕ ×ₗ Bool := toLex (nodeSegmentCount url, url.query.isSome)

/-- The first step of `node_address`: drop the userinfo, when there is any. -/
def dropUserinfo (url : Url) : Url :=
  if url.username ≠ [] ∨ url.password.isSome then url.clearPassword.clearUsername else url

/-- The second step of `node_address`: write the authority of an address without a host. -/
def writeAuthority (url : Url) : Url := if h : url.host = none then url.setHostEmpty h else url

/-- The address `node_address` serializes. -/
def bareNode (url : Url) : Url := writeAuthority (dropUserinfo url)

/-- `node_address`: the serialization a consumer keys on. -/
def nodeAddress (url : Url) : Bytes := (bareNode url).asStr

/-- `node_spellings`: without a trailing `/`, then with one; one spelling at the root. -/
def nodeSpellings (U : UrlCrate) (url : Url) : Bytes × Bytes :=
  let path := nodePath url.toParts
  let bare := match U.parse (nodeAddress url) with
    | .ok bare => bare
    | .error _ => url
  let bare := U.setPath bare path
  if path = [slash] then (bare.asStr, bare.asStr)
  else (bare.asStr, (U.setPath bare (path ++ [slash])).asStr)

/-! ### What the setter is given -/

theorem canonicalPathSet_mem (u : Parts) : canonicalPathSet u ∈ canonicalPathSets := by
  unfold canonicalPathSet canonicalPathSets
  split_ifs <;> simp

variable {set : AsciiSet}

/-- What the escape sets hold besides `%`: the crate's own set and `\`. -/
theorem canonicalPathSets_holds (hset : set ∈ canonicalPathSets) {b : UInt8}
    (h : shouldPercentEncode set b = false) : shouldPercentEncode PATH b = false ∧ b ≠ backslash := by
  have key : ∀ set ∈ canonicalPathSets, ∀ b : UInt8, shouldPercentEncode set b = false →
      shouldPercentEncode PATH b = false ∧ b ≠ backslash := by
    intro set hset
    simp only [canonicalPathSets, List.mem_cons, List.not_mem_nil, or_false] at hset
    rcases hset with rfl | rfl | rfl
    · exact forall_uint8 (by decide +kernel)
    · exact forall_uint8 (by decide +kernel)
    · exact forall_uint8 (by decide +kernel)
  exact key set hset b h

theorem escape_fixed : ∀ b : UInt8, b = percent ∨ (hexDigit b).isSome = true →
    shouldPercentEncode PATH b = false ∧ b ≠ backslash ∧ b ≠ slash ∧ b ≠ bar ∧ b ≠ colon :=
  forall_uint8 (by decide +kernel)

theorem PATH_keepsEscapes : PATH.KeepsEscapes := fun b hb => (escape_fixed b hb).1

/-- An escaped segment is one the setter keeps. -/
theorem segFixed_percentEncode (hset : set ∈ canonicalPathSets) {s : Bytes} (hs : slash ∉ s)
    (hdot : s ≠ [dot] ∧ s ≠ [dot, dot]) (scheme : Bytes) : SegFixed scheme (percentEncode set s) := by
  rw [SegFixed, percentDecode_percentEncode (canonicalPathSets_percent hset).1]
  refine ⟨?_, hdot⟩
  intro b hb
  have hsl : b ≠ slash := fun he => slash_notMem_percentEncode hs (he ▸ hb)
  rcases mem_percentEncode hb with h | h | h
  · exact ⟨(escape_fixed b (Or.inl h)).1, hsl, fun _ => (escape_fixed b (Or.inl h)).2.1⟩
  · exact ⟨(escape_fixed b (Or.inr h)).1, hsl, fun _ => (escape_fixed b (Or.inr h)).2.1⟩
  · exact ⟨(canonicalPathSets_holds hset h.2).1, hsl, fun _ => (canonicalPathSets_holds hset h.2).2⟩

/-- A byte the set escapes, other than a `%` or a digit, is not in an escaped text. -/
theorem notMem_percentEncode {b : UInt8} (hb : shouldPercentEncode set b = true) (hp : b ≠ percent)
    (hd : hexDigit b = none) (s : Bytes) : b ∉ percentEncode set s := by
  intro hm
  rcases mem_percentEncode hm with h | h | h
  · exact hp h
  · simp [hd] at h
  · rw [hb] at h; exact absurd h.2 (by decide)

variable {st ss : List Bytes}

theorem Settled.not_dot (h : Settled ss) : ∀ s ∈ ss, s ≠ [dot] ∧ s ≠ [dot, dot] := by
  induction ss with
  | nil => simp
  | cons s ss ih =>
    cases ss with
    | nil =>
      intro t ht
      rw [List.mem_singleton.mp ht]
      rcases h with rfl | h
      · simp
      · exact h.2
    | cons t ss =>
      intro x hx
      rcases List.mem_cons.mp hx with rfl | hx
      · exact h.1.2
      · exact ih h.2 x hx

/-- A settled path, escaped with the set of the address. -/
def escapedSegs (u : Parts) (st : List Bytes) : List Bytes := st.map (percentEncode (canonicalPathSet u))

variable {u v : Parts}

theorem escapedSegs_sepFree (h : SepFree slash st) : SepFree slash (escapedSegs u st) :=
  sepFree_percentEncode h

theorem segsFixed_escaped (u : Parts) (hne : st ≠ []) (hsep : SepFree slash st) (hset : Settled st) :
    SegsFixed u.scheme (escapedSegs u st) := by
  cases st with
  | nil => exact absurd rfl hne
  | cons s ss =>
    have hmem := canonicalPathSet_mem u
    refine ⟨?_, ?_, ?_⟩
    · intro t ht
      obtain ⟨x, hx, rfl⟩ := List.mem_map.mp (show t ∈ escapedSegs u (s :: ss) from ht)
      exact segFixed_percentEncode hmem (hsep x hx) (hset.not_dot x hx) u.scheme
    · intro he
      rw [percentEncode_eq_nil_iff] at he
      cases ss with
      | nil => rfl
      | cons t ss => exact absurd he hset.1.1
    · -- on `file:` both sets hold `|`
      rintro hf ⟨a, -, -, he⟩
      have hbar : shouldPercentEncode (canonicalPathSet u) bar = true := by
        unfold canonicalPathSet
        rw [if_pos hf]
        split_ifs <;> decide
      refine notMem_percentEncode hbar (by decide) (by decide) s ?_
      rw [he]
      simp

theorem pathFixed_escaped (u : Parts) (hne : st ≠ []) (hsep : SepFree slash st) (hset : Settled st) :
    PathFixed u.scheme (pieces slash (escapedSegs u st)) :=
  PathFixed.of_pieces (escapedSegs_sepFree hsep) (segsFixed_escaped u hne hsep hset)

/-- The path stage on an absolute path: settled segments, escaped. -/
theorem canonicalPath_absolute (u : Parts) {p : Bytes} (hp : p.head? = some slash) :
    ∃ st, st ≠ [] ∧ SepFree slash st ∧ Settled st ∧
      canonicalPath (canonicalPathSet u) p = pieces slash (escapedSegs u st) := by
  obtain ⟨t, rfl⟩ := List.head?_eq_some_iff.mp hp
  have hd : (percentDecode (slash :: t)).head? = some slash := by
    rw [percentDecode_cons (by decide)]; rfl
  obtain ⟨st, hne, hsep, hset, he⟩ := normalizePathBytes_absolute hd
  refine ⟨st, hne, hsep, hset, ?_⟩
  rw [canonicalPath, he, percentEncode_pieces (canonicalPathSets_percent (canonicalPathSet_mem u)).2]
  rfl

/-! ### What canonicalizing does -/

/-- The path `canonicalize` reads: an empty one counts as the root. -/
def rootedPath (p : Bytes) : Bytes := if p = [] then [slash] else p

theorem rootedPath_head {u : Url} (hc : u.cannotBeABase = false) : (rootedPath u.path).head? = some slash := by
  unfold rootedPath
  split_ifs with he
  · rfl
  · cases ha : u.hasAuthority with
    | true => exact (u.wf.path_absolute ha).resolve_left he
    | false => simpa [Parts.cannotBeABase, ha] using hc

theorem canonicalPathSet_congr (hs : u.scheme = v.scheme) (hh : u.host.isSome = v.host.isSome) :
    canonicalPathSet u = canonicalPathSet v := by
  unfold canonicalPathSet
  rw [hs, hh]

theorem escapedSegs_congr (hs : u.scheme = v.scheme) (hh : u.host.isSome = v.host.isSome)
    (st : List Bytes) : escapedSegs u st = escapedSegs v st := by
  unfold escapedSegs
  rw [canonicalPathSet_congr hs hh]

theorem pathFixed_root (scheme : Bytes) : PathFixed scheme [slash] := by
  refine PathFixed.of_pieces (show SepFree slash [[]] by simp) ⟨?_, by simp, ?_⟩
  · intro t ht
    rw [List.mem_singleton.mp ht]
    exact ⟨by simp, by simp [percentDecode], by simp [percentDecode]⟩
  · rintro - ⟨a, ha, -⟩
    simp at ha

/-- What `canonicalize` gives the setter is kept. -/
theorem canonicalPath_fixed {u : Url} (hc : u.cannotBeABase = false) :
    PathFixed u.scheme (canonicalPath (canonicalPathSet u.toParts) (rootedPath u.path)) := by
  obtain ⟨st, hne, hsep, hset, he⟩ := canonicalPath_absolute u.toParts (rootedPath_head hc)
  rw [he]
  exact pathFixed_escaped u.toParts hne hsep hset

variable {U : UrlCrate}

theorem giveRootPath_toParts (law : U.Lawful) {w : Url} (hc : w.cannotBeABase = false) :
    (giveRootPath U w).toParts = { w.toParts with path := rootedPath w.path } := by
  unfold giveRootPath rootedPath
  by_cases he : w.path = []
  · have ha : w.hasAuthority = true := by
      by_contra hn
      simp [Parts.cannotBeABase, he, hn] at hc
    rw [if_pos (by simp [ha, he]), law.setPath_fixed w _ hc (pathFixed_root _), if_pos he]
  · rw [if_neg (by simp [he]), if_neg he]

/-- Each component, canonicalized. -/
theorem canonicalize_toParts (law : U.Lawful) {u : Url} (hc : u.cannotBeABase = false) : (canonicalize U u).toParts =
      { u.toParts with
        host := u.host.map (List.map toAsciiLowercase)
        path := canonicalPath (canonicalPathSet u.toParts) (rootedPath u.path)
        fragment := none } := by
  unfold canonicalize
  rw [if_neg (by simp [hc])]
  have hrooted := giveRootPath_toParts law (w := u.lowercaseHost.clearFragment) hc
  -- `w` is the address the last setter is called on
  generalize giveRootPath U u.lowercaseHost.clearFragment = w at hrooted ⊢
  have hset : canonicalPathSet w.toParts = canonicalPathSet u.toParts := by
    rw [hrooted]
    exact canonicalPathSet_congr rfl (by simp [Url.clearFragment, Url.lowercaseHost])
  have hpath : w.path = rootedPath u.path := by rw [hrooted]; rfl
  have hwc : w.cannotBeABase = false := by
    simp [Parts.cannotBeABase, hpath, rootedPath_head hc]
  have hscheme : w.scheme = u.scheme := by rw [hrooted]; rfl
  simp only [hset, hpath]
  rw [law.setPath_fixed w _ hwc (by rw [hscheme]; exact canonicalPath_fixed hc), hrooted]
  rfl

/-- The rest of the chain is promised addresses of this kind. -/
structure Canonical (U : UrlCrate) (u : Url) : Prop where
  hierarchical : u.cannotBeABase = false
  parsed : U.Parsed u
  fixed : canonicalize U u = u

/-- What a canonical address looks like: `st` are the decoded segments of its path. -/
structure Shape (u : Parts) (st : List Bytes) : Prop where
  path : u.path = pieces slash (escapedSegs u st)
  ne_nil : st ≠ []
  sepFree : SepFree slash st
  settled : Settled st
  lowercase : u.host.map (List.map toAsciiLowercase) = u.host
  fragment : u.fragment = none

theorem Shape.escaped_ne_nil (h : Shape u st) : escapedSegs u st ≠ [] := by
  simpa [escapedSegs] using h.ne_nil

theorem Shape.path_head (h : Shape u st) : u.path.head? = some slash := by
  rw [h.path]
  obtain ⟨s, ss, he⟩ := List.exists_cons_of_ne_nil h.escaped_ne_nil
  rw [he]
  rfl

theorem Shape.hierarchical (h : Shape u st) : u.cannotBeABase = false := by
  simp [Parts.cannotBeABase, h.path_head]

theorem Shape.pathFixed (h : Shape u st) : PathFixed u.scheme u.path := by
  rw [h.path]
  exact pathFixed_escaped u h.ne_nil h.sepFree h.settled

/-- The decoded path. -/
theorem Shape.decoded (h : Shape u st) : percentDecode u.path = pieces slash st := by
  have hp := (canonicalPathSets_percent (canonicalPathSet_mem u)).1
  have hmap : st.map (percentDecode ∘ percentEncode (canonicalPathSet u)) = st := by
    conv_rhs => rw [← List.map_id st]
    exact List.map_congr_left fun s _ => percentDecode_percentEncode hp s
  rw [h.path, percentDecode_pieces, escapedSegs, List.map_map, hmap]

/-- A path of that shape is a fixed point of the path stage. -/
theorem Shape.canonicalPath (h : Shape u st) : canonicalPath (canonicalPathSet u) u.path = u.path := by
  have hst : Stack.Settled ⟨[], st⟩ := ⟨⟨by simp, h.sepFree⟩, by simp, h.settled⟩
  have hnorm : normalizePathBytes (pieces slash st) = pieces slash st := normalizePathBytes_of_settled hst
  rw [Address.canonicalPath, h.decoded, hnorm,
    percentEncode_pieces (canonicalPathSets_percent (canonicalPathSet_mem u)).2,
    h.path]
  rfl

theorem canonicalize_of_shape (law : U.Lawful) {u : Url} (h : Shape u.toParts st) : canonicalize U u = u := by
  apply Url.ext_parts
  have hroot : rootedPath u.path = u.path := by
    unfold rootedPath
    rw [if_neg]
    intro he
    have := h.path_head
    rw [he] at this
    exact absurd this (by simp)
  rw [canonicalize_toParts law h.hierarchical, hroot, h.canonicalPath, h.lowercase, ← h.fragment]

/-- An address of that shape is canonical. -/
theorem canonical_of_shape (law : U.Lawful) {u : Url} (h : Shape u.toParts st) (hp : U.Parsed u) : Canonical U u :=
  ⟨h.hierarchical, hp, canonicalize_of_shape law h⟩

/-- What `canonicalize` returns has that shape. -/
theorem canonicalize_shape (law : U.Lawful) {u : Url} (hc : u.cannotBeABase = false) :
    ∃ st, Shape (canonicalize U u).toParts st := by
  obtain ⟨st, hne, hsep, hset, he⟩ := canonicalPath_absolute u.toParts (rootedPath_head hc)
  refine ⟨st, ?_⟩
  rw [canonicalize_toParts law hc]
  refine ⟨?_, hne, hsep, hset, ?_, rfl⟩
  · refine he.trans (congrArg _ (escapedSegs_congr ?_ ?_ st))
    · rfl
    · simp
  · simp only [Option.map_map]
    congr 1
    funext h
    exact map_lowercase_idem h

/-- Decoding what `canonicalize` wrote. -/
theorem canonicalize_decoded (law : U.Lawful) {u : Url} (hc : u.cannotBeABase = false) :
    percentDecode (canonicalize U u).path = normalizePathBytes (percentDecode (rootedPath u.path)) := by
  rw [canonicalize_toParts law hc]
  exact percentDecode_canonicalPath (canonicalPathSets_percent (canonicalPathSet_mem _)).1 _

/-- The segments of a canonicalized address, when no escape decodes to a `/`. -/
theorem canonicalize_shape_of_pieces (law : U.Lawful) {u : Url} (hc : u.cannotBeABase = false)
    (hpath : u.path = pieces slash ss) (hne : ss ≠ []) (hsep : SepFree slash (ss.map percentDecode)) :
    Shape (canonicalize U u).toParts (normalSegs (ss.map percentDecode)) := by
  obtain ⟨st, hst⟩ := canonicalize_shape law hc
  have hroot : rootedPath u.path = pieces slash ss := by
    rw [rootedPath, if_neg (by rw [hpath]; exact mt pieces_eq_nil_iff.mp hne), hpath]
  have hdecoded : pieces slash st = pieces slash (normalSegs (ss.map percentDecode)) := by
    rw [← hst.decoded, canonicalize_decoded law hc, hroot, percentDecode_pieces, normalizePathBytes_pieces hsep]
  have hspec := normalSegs_spec (by simpa using hne) hsep
  rwa [pieces_inj hst.sepFree hspec.2.1 hdecoded] at hst

/-- A canonical address has that shape. -/
theorem Canonical.shape (law : U.Lawful) {u : Url} (h : Canonical U u) : ∃ st, Shape u.toParts st := by
  obtain ⟨st, hst⟩ := canonicalize_shape law h.hierarchical
  rw [h.fixed] at hst
  exact ⟨st, hst⟩

/-- Canonicalizing is idempotent, also on an opaque address. -/
theorem canonicalize_idem (law : U.Lawful) (u : Url) : canonicalize U (canonicalize U u) = canonicalize U u := by
  cases hc : u.cannotBeABase with
  | true => simp [canonicalize, hc]
  | false =>
    obtain ⟨st, hst⟩ := canonicalize_shape law hc
    exact canonicalize_of_shape law hst

theorem Shape.not_driveShare (h : Shape u st) : ¬ u.DriveShare := by
  rintro ⟨hf, hh, s, hs, a, -, -, rfl⟩
  -- with a host the set holds `:`
  have hcolon : shouldPercentEncode (canonicalPathSet u) colon = true := by
    unfold canonicalPathSet
    rw [if_pos hf, if_pos hh]
    decide
  rw [h.path, pathSegs_pieces (escapedSegs_sepFree h.sepFree)] at hs
  have hm : [a, colon] ∈ escapedSegs u st := List.mem_of_head? hs
  obtain ⟨x, -, hx⟩ := List.mem_map.mp hm
  refine notMem_percentEncode hcolon (by decide) (by decide) x ?_
  rw [hx]
  simp

/-- What `address::parse` returns is canonical. -/
theorem addressParse_canonical (law : U.Lawful) {value : Bytes} {u : Url}
    (h : addressParse U value = .ok u) : Canonical U u := by
  unfold addressParse at h
  split at h
  · cases h
  · rename_i url hparse
    split_ifs at h with hc
    cases h
    rw [Bool.not_eq_true] at hc
    obtain ⟨st, hst⟩ := canonicalize_shape law hc
    have hparsed := law.parse_asStr value url hparse
    have hparts := canonicalize_toParts law hc
    refine canonical_of_shape law hst (law.parse_respell url _ hparsed ?_ hst.not_driveShare)
    rw [hparts]
    refine ⟨rfl, Or.inr rfl, rfl, Or.inl ⟨rfl, rfl⟩, ?_, ?_, rfl⟩
    · exact canonicalPath_fixed hc
    · exact law.parsed_query url hparsed

/-! ### Addresses to try things on -/

instance (ss : List Bytes) : Decidable (SepFree slash ss) := inferInstanceAs (Decidable (∀ s ∈ ss, slash ∉ s))

instance decidableSettled : (ss : List Bytes) → Decidable (Settled ss)
  | [] => isTrue trivial
  | [s] => inferInstanceAs (Decidable (s = [] ∨ Names s))
  | s :: t :: ss =>
    have := decidableSettled (t :: ss)
    inferInstanceAs (Decidable (Names s ∧ Settled (t :: ss)))

instance (u : Parts) (st : List Bytes) : Decidable (Shape u st) :=
  decidable_of_iff
    (u.path = pieces slash (escapedSegs u st) ∧ st ≠ [] ∧ SepFree slash st ∧ Settled st ∧
      u.host.map (List.map toAsciiLowercase) = u.host ∧ u.fragment = none)
    ⟨fun ⟨a, b, c, d, e, f⟩ => ⟨a, b, c, d, e, f⟩, fun ⟨a, b, c, d, e, f⟩ => ⟨a, b, c, d, e, f⟩⟩

/-- An address of the shape, and with an escaped query, is canonical for `reference`. -/
theorem reference_canonical (u : Url) (st : List Bytes) (h : Shape u.toParts st)
    (hq : ∀ q ∈ u.query, QueryFixed u.scheme q) : Canonical reference u :=
  canonical_of_shape reference_lawful h (reference_parsed_iff.mpr ⟨hq, h.not_driveShare⟩)

end OvStorage.Address
