import OvStorage.Authz.Prefix

/-!
# Policy prefixes as written

The guards of `parse_prefix` read the text of a prefix; the scope of the rule is what the
parser made of it. Here the two are compared: which accepted prefixes pass the address
layer's own test `parsing_preserves_node`, and what scope they get.

## The model

`ReadsWritten` is what the guards rely on in the parser: on a text with nothing in its path
to resolve or to fold, and whose authority it keeps, the parser keeps the segments as written
(a `C|` of a `file:` path included) and escapes what its `PATH` set asks for.

## What is proved

* `parsePrefix_as_written`: an accepted prefix whose authority is kept has the decoded segments it spells.
* `file_root_accepted`: `file:/root/` is accepted and does not pass.
-/

namespace OvStorage.Authz

open Address SegList List

/-! ### What the guards rely on in the parser -/

/-- The segments of a path as written; the leading `/` may be missing. -/
def rawSegs (path : Bytes) : List Bytes :=
  if path.head? = some slash then pathSegs path else path.splitOn slash

/-- The text has no path to resolve: no dot segment, escaped or not, no empty segment inside, and
no `\` that the parser takes for a separator. -/
structure Unresolving (raw path : Bytes) : Prop where
  untrimmed : trimmedByParser raw = false
  located : rawPrefixPath raw = some path
  unfolded :
    ((splitOnce colon raw).any fun (scheme, _) => schemeFoldsBackslash scheme && raw.contains backslash) = false
  authority : ((rawAuthority raw).any fun authority => (hostPortRegion authority).contains backslash) = false
  resolved : resolvingSegment true ((path.splitOn slash).map percentDecode) = none

/-- How the parser reads a text as written. -/
structure ReadsWritten (U : UrlCrate) (raw : Bytes) : Prop where
  scheme : ∀ u, U.parse raw = .ok u → trimmedByParser raw = false →
    (splitOnce colon raw).map (fun (scheme, _) => scheme.map toAsciiLowercase) = some u.scheme
  path : ∀ u path, U.parse raw = .ok u → u.cannotBeABase = false → parsingPreservesAuthority U raw = true →
    Unresolving raw path →
    u.path = pieces slash ((rawSegs path).map (percentEncode PATH))

/-! ### Escapes that the guards refuse -/

theorem hexDigit_lower : ∀ h : UInt8, ∀ x, hexDigit h = some x →
    x.toNat < 16 ∧ toAsciiLowercase h = toAsciiLowercase (hexUpper x.toNat) := by
  have hall : ∀ h : UInt8, (hexDigit h).all (fun x =>
      decide (x.toNat < 16 ∧ toAsciiLowercase h = toAsciiLowercase (hexUpper x.toNat))) = true :=
    forall_uint8 (by decide +kernel)
  intro h x hx
  have hdigit := hall h
  rw [hx] at hdigit
  exact of_decide_eq_true hdigit

theorem nibbles : ∀ x y : Fin 16, (((UInt8.ofNat x) <<< 4) ||| UInt8.ofNat y).toNat = 16 * x + y := by
  decide +kernel

/-- The lower-case text of an escape is the one of its byte. -/
theorem unescape_lower {h l v : UInt8} (hv : unescape percent h l = some v) :
    [percent, h, l].map toAsciiLowercase =
      [percent, hexUpper (v.toNat / 16), hexUpper (v.toNat % 16)].map toAsciiLowercase := by
  obtain ⟨-, x, y, hx, hy, rfl⟩ := unescape_eq_some hv
  obtain ⟨hx16, hx⟩ := hexDigit_lower h x hx
  obtain ⟨hy16, hy⟩ := hexDigit_lower l y hy
  have hv : ((x <<< 4) ||| y).toNat = 16 * x.toNat + y.toNat := by
    have := nibbles ⟨x.toNat, hx16⟩ ⟨y.toNat, hy16⟩
    simpa only [UInt8.ofNat_toNat] using this
  have hdiv : ((x <<< 4) ||| y).toNat / 16 = x.toNat := by omega
  have hmod : ((x <<< 4) ||| y).toNat % 16 = y.toNat := by omega
  simp only [map_cons, map_nil, hdiv, hmod, hx, hy]

theorem find_isSome_of_infix {needle hay : Bytes} (h : needle <:+: hay) : (find needle hay).isSome = true := by
  induction hay with
  | nil =>
    rw [infix_nil.mp h]
    rfl
  | cons b bs ih =>
    unfold find
    split_ifs with hp
    · rfl
    · rcases infix_cons_iff.mp h with hf | hi
      · exact absurd (List.isPrefixOf_iff_prefix.mpr hf) hp
      · simpa using ih hi

/-- The escape of a byte, in lower case. -/
def lowerEscape (v : UInt8) : Bytes := [percent, hexUpper (v.toNat / 16), hexUpper (v.toNat % 16)].map toAsciiLowercase

/-- A byte whose escape is not found is in the decoded text only as itself. -/
theorem mem_of_mem_percentDecode {path s : Bytes} {v : UInt8}
    (hno : (find (lowerEscape v) (path.map toAsciiLowercase)).isSome = false) (hs : s <:+: path)
    (hv : v ∈ percentDecode s) : v ∈ s := by
  rcases mem_percentDecode hv with hm | ⟨h, l, hin, he⟩
  · exact hm
  · have hfound := find_isSome_of_infix ((hin.trans hs).map toAsciiLowercase)
    rw [unescape_lower he, show List.map _ _ = lowerEscape v from rfl, hno] at hfound
    cases hfound

/-! ### Segments that do not resolve -/

/-- Past the first segment, the check finds nothing exactly in settled segments. -/
theorem resolvingSegment_false {ss : List Bytes} : resolvingSegment false ss = none ↔ Settled ss := by
  induction ss with
  | nil => exact iff_of_true rfl trivial
  | cons s ss ih =>
    unfold resolvingSegment
    cases ss with
    | nil =>
      simp only [Settled, Names]
      by_cases h1 : s = [dot] <;> by_cases h2 : s = [dot, dot] <;> simp_all [resolvingSegment]
      exact Classical.em _
    | cons t ss =>
      rw [show Settled (s :: t :: ss) ↔ Names s ∧ Settled (t :: ss) from Iff.rfl, ← ih, Names]
      by_cases h1 : s = [dot] <;> by_cases h2 : s = [dot, dot] <;> by_cases h3 : s = [] <;> simp_all

/-- The segments of an unresolving path are settled. -/
theorem settled_rawSegs {path : Bytes} (h : resolvingSegment true ((path.splitOn slash).map percentDecode) = none) :
    Settled ((rawSegs path).map percentDecode) := by
  obtain ⟨s, ss, rfl, hs, hss⟩ := exists_segments slash path
  rw [splitOn_append_pieces hs hss, map_cons] at h
  unfold rawSegs pathSegs
  rw [splitOn_append_pieces hs hss]
  by_cases hne : s = []
  · subst hne
    cases ss with
    | nil => exact Or.inl rfl
    | cons t ss => simpa [← resolvingSegment_false, resolvingSegment, percentDecode] using h
  · have hhead : (s ++ pieces slash ss).head? ≠ some slash := by
      intro he
      obtain ⟨b, s, rfl⟩ := exists_cons_of_ne_nil hne
      rw [cons_append, List.head?_cons, Option.some.injEq] at he
      exact hs (by simp [he])
    rw [if_neg hhead, ← resolvingSegment_false, map_cons]
    have hdec : percentDecode s ≠ [] := by
      intro he
      exact hne (percentDecode_eq_nil.mp he)
    simpa [resolvingSegment, hdec] using h

/-! ### Accepted prefixes -/

section Accepted

variable {U : UrlCrate} {pre : Bytes} {url : Url}

/-- The scope is the canonical form of what the parser returned. -/
theorem Accepts.parse (h : Accepts U pre url) :
    ∃ u, U.parse pre = .ok u ∧ u.cannotBeABase = false ∧ url = canonicalize U u := by
  have hp := h.parsed
  unfold addressParse at hp
  split at hp
  · cases hp
  · rename_i u hu
    split_ifs at hp with hc
    exact ⟨u, hu, by simpa using hc, (Except.ok.inj hp).symm⟩

theorem schemeFoldsBackslash_lower (scheme : Bytes) :
    schemeFoldsBackslash (scheme.map toAsciiLowercase) = schemeFoldsBackslash scheme := by
  unfold schemeFoldsBackslash
  rw [map_lowercase_idem]

/-- The guards read the scheme of the text where the code reads the parsed one. -/
theorem Accepts.unfolded (law : U.Lawful) (reads : ReadsWritten U pre) (h : Accepts U pre url) :
    ((splitOnce colon pre).any fun (scheme, _) => schemeFoldsBackslash scheme && pre.contains backslash) = false := by
  obtain ⟨u, hu, hc, rfl⟩ := h.parse
  have hs := reads.scheme u hu h.untrimmed
  have hf := h.folded
  rw [canonicalize_toParts law hc] at hf
  cases hsplit : splitOnce colon pre with
  | none => rfl
  | some p =>
    rw [hsplit, Option.map_some, Option.some.injEq] at hs
    rw [← hs, schemeFoldsBackslash_lower] at hf
    simpa using hf

variable {path scheme rest : Bytes}

theorem Accepts.scheme_eq (law : U.Lawful) (reads : ReadsWritten U pre) (h : Accepts U pre url)
    (hsplit : splitOnce colon pre = some (scheme, rest)) : url.scheme = scheme.map toAsciiLowercase := by
  obtain ⟨u, hu, hc, rfl⟩ := h.parse
  have hs := reads.scheme u hu h.untrimmed
  rw [hsplit, Option.map_some, Option.some.injEq] at hs
  rw [canonicalize_toParts law hc]
  exact hs.symm

/-- No segment of an accepted path decodes to two. -/
theorem Accepts.slash_notMem (h : Accepts U pre url) {s : Bytes} (hpath : rawPrefixPath pre = some path)
    (hs : s ∈ path.splitOn slash) : slash ∉ percentDecode s := by
  intro hm
  have hfind : (find (lowerEscape slash) (path.map toAsciiLowercase)).isSome = false := by
    have hu := h.unescaped
    rw [hpath, List.find?_eq_none] at hu
    have := hu (lowerEscape slash) (by unfold escapedSeparators; split_ifs <;> decide)
    simpa using this
  exact sepFree_splitOn slash path s hs (mem_of_mem_percentDecode hfind (infix_of_mem_splitOn hs) hm)

theorem rawPrefixPath_subset (h : rawPrefixPath pre = some path) : path ⊆ pre := by
  unfold rawPrefixPath at h
  split at h
  · cases h
  · rename_i scheme rest hsplit
    obtain ⟨-, rfl⟩ := splitOnce_eq_some_iff.mp hsplit
    split at h
    · rename_i after hafter
      rw [dropPrefix?_eq_some] at hafter
      simp only at h
      split_ifs at h
      cases h
      intro b hb
      have hb := takeWhile_subset _ hb
      have hb := dropWhile_subset _ hb
      simp [hafter, hb]
    · cases h
      intro b hb
      have hb := takeWhile_subset _ hb
      simp [hb]

/-- On `file:` there is no backslash in the decoded path to fold. -/
theorem Accepts.backslash_notMem (h : Accepts U pre url) (hpath : rawPrefixPath pre = some path)
    (hfile : url.scheme = FILE) : backslash ∉ percentDecode path := by
  intro hm
  have hlower : FILE.map toAsciiLowercase = FILE := by decide
  have hfind : (find (lowerEscape backslash) (path.map toAsciiLowercase)).isSome = false := by
    have hu := h.unescaped
    rw [hpath, List.find?_eq_none] at hu
    have := hu (lowerEscape backslash) (by unfold escapedSeparators; rw [hfile, if_pos hlower]; decide)
    simpa using this
  have hraw := rawPrefixPath_subset hpath (mem_of_mem_percentDecode hfind infix_rfl hm)
  have hfold := h.folded
  rw [hfile, show schemeFoldsBackslash FILE = true from by decide, Bool.true_and] at hfold
  simp [hraw] at hfold

/-- What the guard decodes as a whole are the segments as written, decoded. -/
theorem Accepts.writtenSegments_eq (law : U.Lawful) (reads : ReadsWritten U pre) (h : Accepts U pre url)
    (hsplit : splitOnce colon pre = some (scheme, rest)) (hpath : rawPrefixPath pre = some path) :
    writtenSegments scheme path = (path.splitOn slash).map percentDecode := by
  have hdecoded : (percentDecode path).splitOn slash = (path.splitOn slash).map percentDecode := by
    have hfree : ∀ s ∈ path.splitOn slash, slash ∉ percentDecode s := fun s hs => h.slash_notMem hpath hs
    obtain ⟨s, ss, rfl, hs, hss⟩ := exists_segments slash path
    rw [splitOn_append_pieces hs hss] at hfree ⊢
    rw [percentDecode_append_pieces, splitOn_append_pieces (hfree s mem_cons_self)]
    · rfl
    · intro t ht
      obtain ⟨x, hx, rfl⟩ := mem_map.mp ht
      exact hfree x (mem_cons_of_mem s hx)
  simp only [writtenSegments, ← h.scheme_eq law reads hsplit]
  split_ifs with hfile
  · have hkeep : (percentDecode path).map (fun b => if b = backslash then slash else b) = percentDecode path := by
      conv_rhs => rw [← map_id (percentDecode path)]
      refine map_congr_left fun b hb => if_neg ?_
      rintro rfl
      exact h.backslash_notMem hpath hfile hb
    rw [hkeep, hdecoded]
  · exact hdecoded

/-- An accepted prefix with a path has nothing in it to resolve. -/
theorem Accepts.unresolving (law : U.Lawful) (reads : ReadsWritten U pre) (h : Accepts U pre url)
    (hpath : rawPrefixPath pre = some path) : Unresolving pre path := by
  refine ⟨h.untrimmed, hpath, h.unfolded law reads, h.authority, ?_⟩
  obtain ⟨u, hu, -, -⟩ := h.parse
  have hs := reads.scheme u hu h.untrimmed
  have hr := h.resolved
  unfold resolvingPrefixSegment at hr
  cases hsplit : splitOnce colon pre with
  | none => rw [hsplit] at hs; cases hs
  | some p =>
    obtain ⟨scheme, rest⟩ := p
    simpa only [hsplit, hpath, h.writtenSegments_eq law reads hsplit hpath] using hr

theorem rawSegs_ne_nil (path : Bytes) : rawSegs path ≠ [] := by
  unfold rawSegs pathSegs
  split_ifs with h
  · obtain ⟨ss, hne, rfl, hss⟩ := exists_pieces h
    rw [splitOn_pieces hss]
    exact hne
  · exact splitOn_ne_nil slash path

theorem rawSegs_subset (path : Bytes) : rawSegs path ⊆ path.splitOn slash := by
  unfold rawSegs pathSegs
  split_ifs
  · exact tail_subset _
  · exact List.Subset.refl _

/-- The segments a prefix spells, decoded. -/
def spelledSegments (pre : Bytes) : List Bytes :=
  match rawPrefixPath pre with
  | none => []
  | some path => ((path.splitOn slash).map percentDecode).filter (· ≠ [])

/-- What is in front of the leading `/` does not count. -/
theorem rawSegs_filter (path : Bytes) :
    ((rawSegs path).map percentDecode).filter (· ≠ []) = ((path.splitOn slash).map percentDecode).filter (· ≠ []) := by
  unfold rawSegs pathSegs
  split_ifs with h
  · obtain ⟨ss, -, rfl, hss⟩ := exists_pieces h
    rw [splitOn_pieces hss]
    simp [percentDecode]
  · rfl

/-- The scope has the segments the prefix spells. -/
theorem Accepts.decodedSegments_eq (law : U.Lawful) (reads : ReadsWritten U pre) (h : Accepts U pre url)
    (ha : parsingPreservesAuthority U pre = true) :
    decodedSegments url.toParts = spelledSegments pre := by
  obtain ⟨u, hu, hc, rfl⟩ := h.parse
  unfold spelledSegments
  cases hpath : rawPrefixPath pre with
  | none =>
    obtain ⟨st, hst⟩ := canonicalize_shape law hc
    have hslash : ∀ b ∈ rootedPath u.path, b = slash := by
      have hl := h.located
      unfold rootedPath
      split_ifs
      · simp
      · simpa [hu, hpath, Except.toOption] using hl
    have hplain : percentDecode (rootedPath u.path) = rootedPath u.path := by
      generalize rootedPath u.path = p at hslash
      induction p with
      | nil => rfl
      | cons b p ih =>
        rw [percentDecode_cons (by rw [hslash b mem_cons_self]; decide),
          ih fun x hx => hslash x (mem_cons_of_mem b hx)]
    have hne : rootedPath u.path ≠ [] := by
      intro hn
      have := rootedPath_head hc
      simp [hn] at this
    have hdecoded : pieces slash st = [slash] := by
      rw [← hst.decoded, canonicalize_decoded law hc, hplain, normalizePathBytes_slashes hne hslash]
    have hroot : st = [[]] := pieces_inj hst.sepFree (by simp) hdecoded
    rw [hst.decodedSegments, hroot]
    rfl
  | some path =>
    have hun := h.unresolving law reads hpath
    have hw := reads.path u path hu hc ha hun
    have hset : Settled ((rawSegs path).map percentDecode) := settled_rawSegs hun.resolved
    have hsep : SepFree slash ((rawSegs path).map percentDecode) := by
      intro t ht
      obtain ⟨x, hx, rfl⟩ := mem_map.mp ht
      exact h.slash_notMem hpath (rawSegs_subset path hx)
    have hmap : ((rawSegs path).map (percentEncode PATH)).map percentDecode = (rawSegs path).map percentDecode := by
      rw [map_map]
      exact map_congr_left fun s _ => percentDecode_percentEncode_keeps PATH_keepsEscapes s
    have hst := canonicalize_shape_of_pieces law hc hw (by simpa using rawSegs_ne_nil path) (by rwa [hmap])
    rw [hst.decodedSegments, hmap, normalSegs_of_settled hset, nodeSegs_of_settled hset]
    exact rawSegs_filter path

theorem mem_beforeQuery {b : UInt8} {raw : Bytes} (h : b ∈ beforeQuery raw) : b ∈ raw := takeWhile_subset _ h

/-- Where `scheme://` is written, the two scans for the path agree. -/
theorem rawPath_eq {authority : Bytes} (h : rawAuthority pre = some authority) :
    rawPath pre = match rawPrefixPath pre with
      | some path => .Path path
      | none => .Empty := by
  unfold rawAuthority at h
  unfold rawPath rawPrefixPath
  cases hsplit : splitOnce colon pre with
  | none => simp [hsplit] at h
  | some p =>
    obtain ⟨scheme, rest⟩ := p
    cases hrest : rest.dropPrefix? [slash, slash] with
    | none => simp [hsplit, hrest] at h
    | some after =>
      simp only [hrest]
      split_ifs <;> rfl

/-- Without it, `raw_path` cannot find the path. -/
theorem rawPath_unlocatable (h : rawAuthority pre = none) : rawPath pre = .Unlocatable := by
  unfold rawAuthority at h
  unfold rawPath
  cases hsplit : splitOnce colon pre with
  | none => rfl
  | some p =>
    obtain ⟨scheme, rest⟩ := p
    cases hrest : rest.dropPrefix? [slash, slash] with
    | none => simp [hrest]
    | some after => simp [hsplit, hrest] at h

theorem resolvingSegment_eq_none {b : Bool} {ss : List Bytes} (h : resolvingSegment b ss = none) :
    ∀ s ∈ ss, s ≠ [dot] ∧ s ≠ [dot, dot] := by
  induction ss generalizing b with
  | nil => simp
  | cons s ss ih =>
    unfold resolvingSegment at h
    split_ifs at h with h1 h2 h3
    intro x hx
    rcases mem_cons.mp hx with rfl | hx
    · exact ⟨h1, h2⟩
    · exact ih h x hx

/-- Which of the accepted prefixes pass the test of the address layer. -/
theorem Accepts.preservesNode_iff (law : U.Lawful) (reads : ReadsWritten U pre) (h : Accepts U pre url)
    (ha : parsingPreservesAuthority U pre = true) :
    parsingPreservesNode U pre = true ↔
      (rawAuthority pre).isSome ∨ (U.parse pre).toOption.map (·.asStr) = some pre := by
  have hfold : ((splitOnce colon pre).any fun (scheme, _) =>
      schemeFoldsBackslash scheme && (beforeQuery pre).contains backslash) = false := by
    have hu := h.unfolded law reads
    cases hsplit : splitOnce colon pre with
    | none => rfl
    | some p =>
      rw [hsplit] at hu
      simp only [Option.any_some, Bool.and_eq_false_iff] at hu ⊢
      refine hu.imp_right fun hno => ?_
      rw [← Bool.not_eq_true, contains_iff_mem] at hno ⊢
      exact fun hm => hno (mem_beforeQuery hm)
  unfold parsingPreservesNode
  rw [h.untrimmed, hfold, h.authority, ha, if_neg Bool.false_ne_true, if_neg Bool.false_ne_true,
    if_neg Bool.false_ne_true, Bool.not_true, if_neg Bool.false_ne_true]
  cases hauth : rawAuthority pre with
  | none =>
    rw [rawPath_unlocatable hauth]
    cases U.parse pre with
    | error e => simp [Except.toOption]
    | ok u => simp [Except.toOption]
  | some authority =>
    rw [rawPath_eq hauth]
    simp only [Option.isSome_some, true_or, iff_true]
    cases hpath : rawPrefixPath pre with
    | none => rfl
    | some path =>
      have hdots := resolvingSegment_eq_none (h.unresolving law reads hpath).resolved
      simp only [Bool.not_eq_true', any_eq_false]
      intro s hs
      simpa using hdots _ (mem_map_of_mem hs)

/-- A host is there exactly when the text spells one; `localhost` counts as none. -/
def HostAsSpelled (raw : Bytes) (host : Option Bytes) : Prop :=
  match rawAuthority raw with
  | none => host = none
  | some authority =>
    if authority = [] then host = none
    else host.isSome ∨ (percentDecode authority).map toAsciiLowercase = utf8 "localhost"

theorem Accepts.host (law : U.Lawful) (h : Accepts U pre url) (ha : parsingPreservesAuthority U pre = true) :
    HostAsSpelled pre url.host := by
  obtain ⟨u, hu, hc, rfl⟩ := h.parse
  rw [canonicalize_toParts law hc]
  unfold parsingPreservesAuthority at ha
  rw [if_neg (by simp [h.untrimmed])] at ha
  split_ifs at ha
  unfold HostAsSpelled
  cases hauth : rawAuthority pre with
  | none => simpa [hauth, hu] using ha
  | some authority =>
    simp only [hauth, hu] at ha ⊢
    split_ifs at ha ⊢ with hempty hhost
    · simpa using ha
    · exact Or.inl (by simpa using hhost)
    · exact Or.inr (by simpa using ha)

end Accepted

/-! ### The prefixes of the loader -/

/-- An accepted prefix whose authority the parser keeps passes the address layer's test
exactly when it spells `scheme://` or is its own serialization; its scope has a host exactly
when it spells one, and the segments it spells. -/
theorem parsePrefix_as_written {U : UrlCrate} (law : U.Lawful) {id pre : Bytes} {url : Url}
    (reads : ReadsWritten U pre) (h : parsePrefix U id pre = .ok (some url))
    (ha : parsingPreservesAuthority U pre = true) :
    (parsingPreservesNode U pre = true ↔
      (rawAuthority pre).isSome ∨ (U.parse pre).toOption.map (·.asStr) = some pre) ∧
    HostAsSpelled pre url.host ∧
    decodedSegments url.toParts = spelledSegments pre := by
  have hacc := parsePrefix_eq_some.mp h
  exact ⟨hacc.preservesNode_iff law reads ha, hacc.host law ha, hacc.decodedSegments_eq law reads ha⟩

theorem readsWritten_of_parse {U : UrlCrate} {raw : Bytes} {u : Url} (hu : U.parse raw = .ok u)
    (hs : (splitOnce colon raw).map (fun (scheme, _) => scheme.map toAsciiLowercase) = some u.scheme)
    (hp : ∀ path ∈ rawPrefixPath raw,
      u.path = pieces slash ((rawSegs path).map (percentEncode PATH))) : ReadsWritten U raw where
  scheme := by
    intro v hv _
    rw [hu] at hv
    rw [← Except.ok.inj hv]
    exact hs
  path := by
    intro v path hv _ _ hun
    rw [hu] at hv
    rw [← Except.ok.inj hv]
    exact hp path hun.located

/-- The share of a team. -/
def teamShare : Url :=
  ⟨⟨utf8 "s3", true, [], none, some (utf8 "corp"), none, utf8 "/team%20a/", none, none⟩, by decide +kernel⟩

theorem parsePrefix_as_written_team :
    parsingPreservesNode reference (utf8 "s3://corp/team%20a/") = true ∧
      HostAsSpelled (utf8 "s3://corp/team%20a/") teamShare.host ∧
      decodedSegments teamShare.toParts = spelledSegments (utf8 "s3://corp/team%20a/") := by
  have hparse : reference.parse (utf8 "s3://corp/team%20a/") = .ok teamShare := by decide +kernel
  have hreads : ReadsWritten reference (utf8 "s3://corp/team%20a/") :=
    readsWritten_of_parse hparse (by decide +kernel) (by decide +kernel)
  have hload : parsePrefix reference (utf8 "team") (utf8 "s3://corp/team%20a/") = .ok (some teamShare) := by
    decide +kernel
  obtain ⟨hnode, hhost, hsegs⟩ := parsePrefix_as_written reference_lawful hreads hload (by decide +kernel)
  exact ⟨hnode.mpr (Or.inl (by decide +kernel)), hhost, hsegs⟩

/-! ### A prefix without `//` -/

/-- What the parser makes of `file:/root/`. -/
def fileRoot : Url := ⟨⟨FILE, true, [], none, none, none, utf8 "/root/", none, none⟩, by decide +kernel⟩

/-- The parser on serializations and on `file:/root/`. -/
def fileRootCrate : UrlCrate :=
  { reference with parse := fun raw => if raw = utf8 "file:/root/" then .ok fileRoot else reference.parse raw }

/-- No address serializes without the authority of its special scheme. -/
theorem asStr_ne_fileRoot (v : Url) : v.asStr ≠ utf8 "file:/root/" := by
  intro h
  have hread := readParts_asStr v.wf
  rw [h] at hread
  have hv : v.toParts = ⟨FILE, false, [], none, none, none, utf8 "/root/", none, none⟩ :=
    Option.some.inj (hread.symm.trans (by decide +kernel))
  have hspecial := (v.wf.special (by rw [hv]; decide)).1
  rw [hv] at hspecial
  cases hspecial

theorem fileRootCrate_parse (v : Url) : fileRootCrate.parse v.asStr = reference.parse v.asStr :=
  if_neg (asStr_ne_fileRoot v)

theorem fileRootCrate_parsed (v : Url) : fileRootCrate.Parsed v ↔ reference.Parsed v := by
  unfold UrlCrate.Parsed
  rw [fileRootCrate_parse]

theorem fileRootCrate_lawful : fileRootCrate.Lawful :=
  { reference_lawful with
    parse_asStr := by
      intro raw u h
      rw [fileRootCrate_parsed]
      by_cases hraw : raw = utf8 "file:/root/"
      · have hu : fileRoot = u := Except.ok.inj ((if_pos hraw).symm.trans h)
        rw [← hu, reference_parsed_iff]
        exact ⟨by simp [fileRoot], not_driveShare_of_host rfl⟩
      · exact reference_lawful.parse_asStr raw u ((if_neg hraw).symm.trans h)
    parsed_query := fun u h => reference_lawful.parsed_query u ((fileRootCrate_parsed u).mp h)
    parse_respell := fun u v h hr hd =>
      (fileRootCrate_parsed v).mpr (reference_lawful.parse_respell u v ((fileRootCrate_parsed u).mp h) hr hd)
    parse_driveShare := by
      intro u v h hr hd
      rw [fileRootCrate_parse]
      exact reference_lawful.parse_driveShare u v ((fileRootCrate_parsed u).mp h) hr hd }

/-- `file:/root/` is accepted, and its serialization is another text. -/
theorem file_root_accepted :
    fileRootCrate.Lawful ∧ ReadsWritten fileRootCrate (utf8 "file:/root/") ∧
      parsePrefix fileRootCrate (utf8 "root") (utf8 "file:/root/") = .ok (some fileRoot) ∧
      parsingPreservesNode fileRootCrate (utf8 "file:/root/") = false := by
  have hparse : fileRootCrate.parse (utf8 "file:/root/") = .ok fileRoot := by decide +kernel
  exact ⟨fileRootCrate_lawful, readsWritten_of_parse hparse (by decide +kernel) (by decide +kernel), by decide +kernel,
    by decide +kernel⟩

end OvStorage.Authz
