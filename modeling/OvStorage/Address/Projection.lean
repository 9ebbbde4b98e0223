import OvStorage.Address.Suffix

/-!
# Projection

`replace_prefix` of `ovstorage-plugin/src/address.rs`, by which an alias moves an address
from under one prefix to under another.

The suffix below the prefix is joined to the path of the replacement as text. The text was
escaped for the scheme of the address and is read again on the scheme of the replacement;
when the two differ, a `file:` replacement can take the first segment for a drive letter and
a special scheme escapes a `'` of the query.

## What is proved

* `replacePrefix_projects`: the result is the address under the replacement exactly when
  nothing of the address is read differently there.
-/

namespace OvStorage.Address

open SegList List

/-! ### The code -/

/-- The path `replace_prefix` sets, for the path part of the suffix. -/
def joinedPath (url replacement : Parts) (suffixPath : Bytes) : Bytes :=
  if suffixPath = [] then
    let base := nodePath replacement
    if base = [slash] ∨ url.path.getLast? ≠ some slash then base else base ++ [slash]
  else withoutTrailing replacement.path ++ slash :: withoutLeading suffixPath

/-- `replace_prefix`. -/
def replacePrefix (U : UrlCrate) (url pre replacement : Url) : Except Error Url :=
  match relativeSuffix U url pre with
  | none => .error ⟨.NoRoute, utf8 "address is not under the selected route prefix"⟩
  | some suffix =>
    let rest := (cutAt hash suffix).1
    let suffixPath := (cutAt question rest).1
    let out := U.setPath replacement (joinedPath url.toParts replacement.toParts suffixPath)
    let out := match url.query with
      | some query => U.setQuery out query
      | none => out
    addressParse U out.clearFragment.asStr

/-! ### The joined path -/

/-- The segments the projection should have: the node of the replacement, then what is below
the prefix; the root has only one spelling. -/
def landedTail (rs ts : List Bytes) : List Bytes := if nodeSegs rs = [] ∧ ts = [] then [[]] else ts

/-- The segments of the joined path; there is an empty one more when the strip cut into `//`. -/
def joinedSegs (u p r : Parts) (us ps rs : List Bytes) : List Bytes :=
  escapedSegs r (nodeSegs rs) ++ (if SplitsAuthority u p then [[]] else []) ++
    escapedSegs u (landedTail rs (tailSegs ps us))

section Joined

variable {u p r : Parts} {us ps rs : List Bytes}

/-- Below such a prefix is the whole address. -/
theorem SplitsAuthority.tailSegs_eq (h : SplitsAuthority u p) (hp : Shape p ps) (us : List Bytes) :
    tailSegs ps us = us := by
  have hps : escapedSegs p ps = [[]] := by
    have hpath := h.2.2.1
    rw [hp.path] at hpath
    exact pieces_inj (escapedSegs_sepFree hp.sepFree) (by simp) (hpath.trans (by rfl))
  have hnil : nodeSegs ps = [] := by
    rw [← map_decode_escaped p ps, hps]
    rfl
  rw [tailSegs, hnil]
  rfl

/-- The joined path, as segments. -/
theorem joinedPath_segs (hu : Shape u us) (hp : Shape p ps) (hr : Shape r rs) (hscheme : p.scheme = u.scheme)
    (hhost : p.host = u.host) (hsegs : us = nodeSegs ps ++ tailSegs ps us) {σ : Bytes}
    (hσ : SplitsAuthority u p ∧ σ = slash :: u.path ∨
      ¬ SplitsAuthority u p ∧ (u.path = p.path ++ σ ∨ ¬ p.path <+: u.path ∧ u.path = nodePath p ++ σ)) :
    joinedPath u r σ = pieces slash (joinedSegs u p r us ps rs) := by
  unfold joinedPath joinedSegs
  rcases hσ with ⟨hsplit, rfl⟩ | ⟨hsplit, hσ⟩
  · have htail := hsplit.tailSegs_eq hp us
    rw [if_neg (by simp), if_pos hsplit, hr.withoutTrailing_eq, withoutLeading_cons, htail, landedTail,
      if_neg fun h => hu.ne_nil h.2, hu.path]
    simp
  · rw [if_neg hsplit, append_nil]
    rcases hu.suffix_segs hp hscheme hhost hsegs hσ with ⟨rfl, hts⟩ | ⟨hne, hts, htail⟩
    · have hslash : u.path.getLast? = some slash ↔ tailSegs ps us = [[]] := by
        rw [hu.getLast?_slash_iff]
        rcases hts with hts | hts
        · conv_lhs => rw [hsegs, hts, append_nil]
          refine iff_of_false ?_ (by simp [hts])
          exact fun hl => (nodeSegs_names hp.settled [] (mem_of_getLast? hl)).1 rfl
        · conv_lhs => rw [hsegs, hts]
          simp [hts]
      rw [if_pos rfl, hr.nodePath_eq, nodeText, landedTail]
      by_cases hroot : nodeSegs rs = []
      · rcases hts with hts | hts <;> simp [hroot, hts, escapedSegs]
      · have hne : escapedSegs r (nodeSegs rs) ≠ [] := by simpa [escapedSegs] using hroot
        have hbase : pieces slash (escapedSegs r (nodeSegs rs)) ≠ [slash] := by
          intro he
          have : escapedSegs r (nodeSegs rs) = [[]] :=
            pieces_inj (escapedSegs_sepFree hr.nodeSegs_sepFree) (by simp) (he.trans (by rfl))
          exact escapedSegs_nonempty (nodeSegs_names hr.settled) r [] (by rw [this]; simp) rfl
        simp only [if_neg hne]
        rw [if_neg (show ¬ (nodeSegs rs = [] ∧ tailSegs ps us = []) from fun h => hroot h.1)]
        rcases hts with hts | hts
        · rw [if_pos (Or.inr (by rw [Ne, hslash, hts]; simp)), hts]
          simp [escapedSegs]
        · rw [if_neg (by rw [not_or, not_not]; exact ⟨hbase, hslash.mpr hts⟩), hts]
          simp [escapedSegs]
    · rw [if_neg hne, hr.withoutTrailing_eq, htail, landedTail, if_neg fun h => hts h.2, pieces_append]

end Joined

/-! ### The result -/

/-- The query of the projection: the one of the address, escaped for the replacement. -/
def landedQuery (u r : Parts) : Option Bytes :=
  match u.query with
  | some q => some (percentEncode (querySet r.scheme) q)
  | none => r.query

/-- What `replace_prefix` serializes. -/
def landed (u r : Parts) (js : List Bytes) : Parts :=
  { r with path := pieces slash (writtenSegs r.scheme js), query := landedQuery u r }

section Landed

variable {u p r : Url} {us ps rs : List Bytes}

theorem landedTail_spec (rs : List Bytes) (hu : Shape u.toParts us) (hsegs : us = nodeSegs ps ++ tailSegs ps us) :
    Settled (landedTail rs (tailSegs ps us)) ∧ SepFree slash (landedTail rs (tailSegs ps us)) := by
  unfold landedTail
  split_ifs
  · exact ⟨Or.inl rfl, by simp⟩
  · exact ⟨Settled.of_append (hsegs ▸ hu.settled), fun s hs => hu.sepFree s (mem_of_mem_drop hs)⟩

/-- The joined segments are kept by the setter, but for a drive letter. -/
theorem joinedSegs_fixed (hu : Shape u.toParts us) (hr : Shape r.toParts rs)
    (hsegs : us = nodeSegs ps ++ tailSegs ps us) (hroot : ¬ (SplitsAuthority u.toParts p.toParts ∧ nodeSegs rs = [])) :
    joinedSegs u.toParts p.toParts r.toParts us ps rs ≠ [] ∧
    (∀ s ∈ joinedSegs u.toParts p.toParts r.toParts us ps rs, SegFixed r.scheme s) ∧
    ∀ ts, joinedSegs u.toParts p.toParts r.toParts us ps rs = [] :: ts → ts = [] := by
  obtain ⟨hset, hsep⟩ := landedTail_spec rs hu hsegs
  have hfix : ∀ s ∈ joinedSegs u.toParts p.toParts r.toParts us ps rs, SegFixed r.scheme s := by
    intro s hs
    simp only [joinedSegs, mem_append] at hs
    rcases hs with (hs | hs) | hs
    · obtain ⟨x, hx, rfl⟩ := mem_map.mp hs
      exact segFixed_percentEncode (canonicalPathSet_mem _) (hr.nodeSegs_sepFree x hx)
        (nodeSegs_names hr.settled x hx).2 r.scheme
    · have hnil : s = [] := by
        split_ifs at hs
        · exact mem_singleton.mp hs
        · cases hs
      rw [hnil]
      exact ⟨by simp, by simp [percentDecode], by simp [percentDecode]⟩
    · obtain ⟨x, hx, rfl⟩ := mem_map.mp hs
      exact segFixed_percentEncode (canonicalPathSet_mem _) (hsep x hx) (hset.not_dot x hx) r.scheme
  unfold joinedSegs at hfix ⊢
  cases hrs : nodeSegs rs with
  | cons x xs =>
    refine ⟨by simp [escapedSegs], hrs ▸ hfix, ?_⟩
    intro ts he
    have hx : x ≠ [] := (nodeSegs_names hr.settled x (by rw [hrs]; exact mem_cons_self)).1
    simp only [escapedSegs, map_cons, cons_append, List.cons.injEq, percentEncode_eq_nil_iff] at he
    exact absurd he.1 hx
  | nil =>
    have hsplit : ¬ SplitsAuthority u.toParts p.toParts := fun h => hroot ⟨h, hrs⟩
    rw [hrs] at hfix
    simp only [if_neg hsplit, append_nil, escapedSegs, map_nil, nil_append] at hfix ⊢
    refine ⟨?_, hfix, ?_⟩
    · rw [Ne, map_eq_nil_iff, landedTail]
      split_ifs with h
      · simp
      · exact fun hn => h ⟨hrs, hn⟩
    · intro ts he
      generalize landedTail rs (tailSegs ps us) = tail at hset he
      cases tail with
      | nil => cases he
      | cons t tail =>
        rw [map_cons, List.cons.injEq, percentEncode_eq_nil_iff] at he
        cases tail with
        | nil => exact he.2.symm
        | cons t' tail => exact absurd he.1 hset.1.1

/-- Each component of the projection. -/
theorem replacePrefix_toParts {U : UrlCrate} (law : U.Lawful) (hu : Shape u.toParts us) (hp : Shape p.toParts ps)
    (hr : Shape r.toParts rs) (huq : U.Parsed u) (hrp : U.Parsed r)
    (hanc : isAncestorOrSelf p.toParts u.toParts = true)
    (hroot : ¬ (SplitsAuthority u.toParts p.toParts ∧ nodeSegs rs = [])) :
    ∃ w v : Url, replacePrefix U u p r = .ok v ∧ v = canonicalize U w ∧ w.cannotBeABase = false ∧
      w.toParts = { landed u.toParts r.toParts (joinedSegs u.toParts p.toParts r.toParts us ps rs) with
        host := if (landed u.toParts r.toParts (joinedSegs u.toParts p.toParts r.toParts us ps rs)).DriveShare then none
          else r.host } := by
  have hcov := (hp.isAncestorOrSelf_iff hu).mp hanc
  have hcovs := hp.segs_of_covers hu hcov
  have hsegs := segs_eq_of_covers hcovs
  obtain ⟨suffix, hsuffix, hσ⟩ := relativeSuffix_path law hu hp hanc
  have hjoin := joinedPath_segs hu hp hr hcov.scheme hcov.host hsegs hσ
  obtain ⟨hne, hfix, hhead⟩ := joinedSegs_fixed (p := p) hu hr hsegs hroot
  obtain ⟨hpath, hset⟩ := law.setPath_written hr.hierarchical hne hfix hhead
  -- `out` is what is serialized
  obtain ⟨out, hout, hparts⟩ : ∃ out : Url, replacePrefix U u p r = addressParse U out.asStr ∧
      out.toParts = landed u.toParts r.toParts (joinedSegs u.toParts p.toParts r.toParts us ps rs) := by
    unfold replacePrefix
    rw [hsuffix]
    simp only [show (cutAt question (cutAt hash suffix).1).1 = suffixPath suffix from rfl, hjoin]
    cases hq : u.query with
    | none =>
      refine ⟨_, rfl, ?_⟩
      rw [clearFragment_toParts, hset, landed, landedQuery, hq, hr.fragment]
    | some q =>
      refine ⟨_, rfl, ?_⟩
      have hctl := (law.parsed_query u huq q hq).controls
      have hout := law.setQuery_escapes
          (U.setPath r (pieces slash (joinedSegs u.toParts p.toParts r.toParts us ps rs))) q
        hctl
      rw [clearFragment_toParts, hout, hset, landed, landedQuery, hq, hr.fragment]
  have hrespell : Respells r.toParts out.toParts := by
    rw [hparts]
    refine ⟨rfl, Or.inl rfl, rfl, Or.inl ⟨rfl, rfl⟩, hpath, ?_, hr.fragment⟩
    intro q hq
    simp only [landed, landedQuery] at hq
    split at hq
    · rw [← Option.some.inj hq]
      exact queryFixed_percentEncode r.scheme _
    · exact law.parsed_query r hrp q hq
  have hhier : ∀ w : Url, w.path = out.path → w.cannotBeABase = false := by
    intro w hw
    rw [Parts.cannotBeABase, hw, hparts]
    simp [landed, hpath.1]
  by_cases hd : out.toParts.DriveShare
  · have hparse := law.parse_driveShare r out hrp hrespell hd
    cases hw : U.parse out.asStr with
    | error e => rw [hw] at hparse; cases hparse
    | ok w =>
      rw [hw] at hparse
      have hwp : w.toParts = { out.toParts with host := none } := Except.ok.inj hparse
      have hwc := hhier w (by rw [hwp])
      refine ⟨w, _, ?_, rfl, hwc, ?_⟩
      · rw [hout, addressParse, hw]
        simp [hwc]
      · rw [hwp, hparts, if_pos (hparts ▸ hd)]
  · have hparse : U.parse out.asStr = .ok out := law.parse_respell r out hrp hrespell hd
    have hwc := hhier out rfl
    refine ⟨out, _, ?_, rfl, hwc, ?_⟩
    · rw [hout, addressParse, hparse]
      simp [hwc]
    · rw [hparts, if_neg (hparts ▸ hd)]
      rfl

end Landed

/-! ### Where the projection lands -/

variable {as bs : List Bytes}

theorem nodeSegs_append_names (h : ∀ s ∈ as, Names s) : nodeSegs (as ++ bs) = as ++ nodeSegs bs := by
  rcases eq_nil_or_concat bs with rfl | ⟨init, last, rfl⟩
  · have hlast : as.getLast? ≠ some [] := fun hl => (h [] (mem_of_getLast? hl)).1 rfl
    simp [nodeSegs, hlast]
  · rw [concat_eq_append, ← append_assoc]
    by_cases hl : last = []
    · subst hl
      rw [nodeSegs_concat_nil, nodeSegs_concat_nil]
    · rw [nodeSegs_concat hl, nodeSegs_concat hl, append_assoc]

theorem nodeSegs_landedTail (rs ts : List Bytes) : nodeSegs (landedTail rs ts) = nodeSegs ts := by
  unfold landedTail
  split_ifs with h
  · rw [h.2]
    rfl
  · rfl

/-- One empty segment more, between segments that name something and settled ones, collapses. -/
theorem normalSegs_gap (has : ∀ s ∈ as, Names s) (hne : bs ≠ []) (hbs : Settled bs) :
    normalSegs (as ++ [[]] ++ bs) = as ++ bs := by
  have hcollapse : collapseSegs (as ++ [[]] ++ bs) = as ++ bs := by
    induction as with
    | nil =>
      obtain ⟨b, bs, rfl⟩ := exists_cons_of_ne_nil hne
      rw [nil_append, singleton_append, collapseSegs, if_pos rfl, collapseSegs_of_settled hbs]
      rfl
    | cons a as ih =>
      have ha : a ≠ [] := (has a mem_cons_self).1
      have ih := ih fun s hs => has s (mem_cons_of_mem a hs)
      obtain ⟨x, xs, hx⟩ := exists_cons_of_ne_nil (show as ++ [[]] ++ bs ≠ [] by simp)
      rw [hx] at ih
      rw [cons_append, cons_append, hx, collapseSegs, if_neg ha, ih]
      rfl
  rw [normalSegs, hcollapse, resolve_of_settled (Settled.append has hbs)]
  rfl

variable {set : AsciiSet} {s q : Bytes}

theorem percentEncode_eq_self_iff : percentEncode set q = q ↔ ∀ b ∈ q, shouldPercentEncode set b = false := by
  constructor
  · intro h
    have hlen : ∀ q : Bytes, q.length ≤ (percentEncode set q).length := by
      intro q
      induction q with
      | nil => rfl
      | cons b q ih =>
        rw [percentEncode_cons]
        unfold encodeByte
        split_ifs <;> simp only [length_append, length_cons, length_nil] <;> omega
    induction q with
    | nil => simp
    | cons b q ih =>
      rw [percentEncode_cons] at h
      unfold encodeByte at h
      split_ifs at h with hb
      · have h1 := congrArg List.length h
        have h2 := hlen q
        simp only [length_append, length_cons, length_nil] at h1
        omega
      · rw [singleton_append, List.cons.injEq] at h
        intro x hx
        rcases mem_cons.mp hx with rfl | hx
        · simpa using hb
        · exact ih h.2 x hx
  · exact percentEncode_of_fixed

/-- `b'\''`. -/
abbrev apostrophe : UInt8 := 0x27

/-- The query sets differ in the `'` of a special scheme. -/
theorem querySet_iff (scheme : Bytes) (b : UInt8) : shouldPercentEncode (querySet scheme) b = false ↔
    shouldPercentEncode (querySet []) b = false ∧ (scheme ∈ SPECIAL → b ≠ apostrophe) := by
  unfold querySet
  rw [if_neg (show ([] : Bytes) ∉ SPECIAL by decide)]
  by_cases h : scheme ∈ SPECIAL
  · rw [if_pos h]
    simp only [h, true_imp_iff]
    revert b
    exact forall_uint8 (by decide +kernel)
  · rw [if_neg h]
    simp [h]

/-- A query of one scheme is kept on another unless a special scheme finds a `'` in it. -/
theorem queryFixed_iff {scheme : Bytes} (h : QueryFixed scheme q) (scheme' : Bytes) :
    QueryFixed scheme' q ↔ (scheme' ∈ SPECIAL → apostrophe ∉ q) := by
  constructor
  · intro h' hs hm
    exact ((querySet_iff scheme' apostrophe).mp (h' apostrophe hm)).2 hs rfl
  · intro hno b hb
    refine (querySet_iff scheme' b).mpr ⟨((querySet_iff scheme b).mp (h b hb)).1, fun hs he => ?_⟩
    exact hno hs (he ▸ hb)

/-! ### Drive letters -/

theorem alphabetic_kept {a : UInt8} (ha : isAsciiAlphabetic a) (hset : set ∈ canonicalPathSets) :
    shouldPercentEncode set a = false := by
  have key : ∀ set ∈ canonicalPathSets, ∀ a : UInt8, isAsciiAlphabetic a → shouldPercentEncode set a = false := by
    intro set hset
    simp only [canonicalPathSets, mem_cons, not_mem_nil, or_false] at hset
    rcases hset with rfl | rfl | rfl
    · exact forall_uint8 (by decide +kernel)
    · exact forall_uint8 (by decide +kernel)
    · exact forall_uint8 (by decide +kernel)
  exact key set hset a ha

/-- A pair of a letter and a byte is escaped to such a pair exactly when the set keeps the byte. -/
theorem percentEncode_pair_iff (hset : set ∈ canonicalPathSets) {b : UInt8} :
    (∃ a ∈ (percentEncode set s).head?, isAsciiAlphabetic a ∧ percentEncode set s = [a, b]) ↔
      (∃ a ∈ s.head?, isAsciiAlphabetic a ∧ s = [a, b]) ∧ shouldPercentEncode set b = false := by
  have hpair : ∀ {a}, isAsciiAlphabetic a → shouldPercentEncode set b = false → percentEncode set [a, b] = [a, b] := by
    intro a ha hkeep
    refine percentEncode_eq_self_iff.mpr fun x hx => ?_
    simp only [mem_cons, not_mem_nil, or_false] at hx
    rcases hx with rfl | rfl
    · exact alphabetic_kept ha hset
    · exact hkeep
  constructor
  · rintro ⟨a, -, ha, he⟩
    have hs : s = [a, b] := by
      rw [← percentDecode_percentEncode (canonicalPathSets_percent hset).1 s, he]
      rfl
    subst hs
    refine ⟨⟨a, rfl, ha, rfl⟩, ?_⟩
    exact percentEncode_eq_self_iff.mp he b (by simp)
  · rintro ⟨⟨a, -, ha, rfl⟩, hkeep⟩
    rw [hpair ha hkeep]
    exact ⟨a, rfl, ha, rfl⟩

theorem keeps_bar_iff (u : Parts) : shouldPercentEncode (canonicalPathSet u) bar = false ↔ u.scheme ≠ FILE := by
  unfold canonicalPathSet
  split_ifs with h1 h2
  · exact iff_of_false (by decide) (by simp [h1])
  · exact iff_of_false (by decide) (by simp [h1])
  · exact iff_of_true (by decide) h1

theorem keeps_colon_iff (u : Parts) :
    shouldPercentEncode (canonicalPathSet u) colon = false ↔ ¬ (u.scheme = FILE ∧ u.host.isSome) := by
  unfold canonicalPathSet
  split_ifs with h1 h2
  · exact iff_of_false (by decide) (by simp [h1, h2])
  · exact iff_of_true (by decide) (by simp [h2])
  · exact iff_of_true (by decide) (by simp [h1])

theorem barDrive_escaped_iff (u : Parts) :
    BarDrive (percentEncode (canonicalPathSet u) s) ↔ BarDrive s ∧ u.scheme ≠ FILE := by
  rw [← keeps_bar_iff]
  exact percentEncode_pair_iff (canonicalPathSet_mem u)

theorem colonDrive_escaped_iff (u : Parts) :
    ColonDrive (percentEncode (canonicalPathSet u) s) ↔ ColonDrive s ∧ ¬ (u.scheme = FILE ∧ u.host.isSome) := by
  rw [← keeps_colon_iff]
  exact percentEncode_pair_iff (canonicalPathSet_mem u)

/-- The first segment of a path and of its node are alike in what the empty one is not. -/
theorem head_nodeSegs_iff {D : Bytes → Prop} (hD : ¬ D []) (ss : List Bytes) :
    (∃ s ∈ (nodeSegs ss).head?, D s) ↔ ∃ s ∈ ss.head?, D s := by
  cases ss with
  | nil => rfl
  | cons s ss =>
    rcases nodeSegs_cases (show s :: ss ≠ [] by simp) with he | he
    · rw [← he]
    · cases hn : nodeSegs (s :: ss) with
      | nil =>
        rw [hn] at he
        rw [he]
        simpa using hD
      | cons x xs =>
        rw [hn] at he
        rw [he]
        simp

section Drive

variable {u p r : Parts} {us ps rs : List Bytes}

/-- What the first joined segment can be: below a root replacement, the first one of the tail. -/
theorem head_joinedSegs_iff {D : Bytes → Prop} {K : Parts → Prop} (hD : ¬ D [])
    (hK : ∀ (w : Parts) (s : Bytes), D (percentEncode (canonicalPathSet w) s) ↔ D s ∧ K w) (hr : ¬ K r)
    (hroot : ¬ (SplitsAuthority u p ∧ nodeSegs rs = [])) :
    (∃ s ∈ (joinedSegs u p r us ps rs).head?, D s) ↔
      nodeSegs rs = [] ∧ K u ∧ ∃ s ∈ (nodeSegs (tailSegs ps us)).head?, D s := by
  unfold joinedSegs
  cases hrs : nodeSegs rs with
  | cons x xs => simp [escapedSegs, hK, hr]
  | nil =>
    have hsplit : ¬ SplitsAuthority u p := fun h => hroot ⟨h, hrs⟩
    rw [← nodeSegs_landedTail rs, head_nodeSegs_iff hD]
    simp only [escapedSegs, map_nil, nil_append, if_neg hsplit]
    cases landedTail rs (tailSegs ps us) with
    | nil => simp
    | cons t ts =>
      simp only [map_cons, List.head?_cons, Option.mem_def, Option.some.injEq, exists_eq_left', hK, true_and]
      exact and_comm

/-- What a `file:` setter takes for a drive letter. -/
theorem bar_joinedSegs_iff (us ps : List Bytes) (hf : r.scheme = FILE)
    (hroot : ¬ (SplitsAuthority u p ∧ nodeSegs rs = [])) :
    (∃ s ∈ (joinedSegs u p r us ps rs).head?, BarDrive s) ↔
      nodeSegs rs = [] ∧ u.scheme ≠ FILE ∧ ∃ s ∈ (nodeSegs (tailSegs ps us)).head?, BarDrive s :=
  head_joinedSegs_iff (K := fun w => w.scheme ≠ FILE) (by decide) (fun w _ => barDrive_escaped_iff w)
    (by simp [hf]) hroot

/-- What costs a `file:` share its host. -/
theorem colon_joinedSegs_iff (us ps : List Bytes) (hf : r.scheme = FILE) (hh : r.host.isSome)
    (hroot : ¬ (SplitsAuthority u p ∧ nodeSegs rs = [])) :
    (∃ s ∈ (joinedSegs u p r us ps rs).head?, ColonDrive s) ↔
      nodeSegs rs = [] ∧ ¬ (u.scheme = FILE ∧ u.host.isSome) ∧
        ∃ s ∈ (nodeSegs (tailSegs ps us)).head?, ColonDrive s :=
  head_joinedSegs_iff (K := fun w => ¬ (w.scheme = FILE ∧ w.host.isSome)) (by decide)
    (fun w _ => colonDrive_escaped_iff w) (by simp [hf, hh]) hroot

end Drive

/-! ### When the projection is the address under the replacement -/

/-- The segments the address has below the prefix. -/
def below (u p : Parts) : List Bytes := (decodedSegments u).drop (decodedSegments p).length

/-- The address is the one under the replacement that the other is under the prefix. -/
structure Projects (u p r v : Parts) : Prop where
  scheme : v.scheme = r.scheme
  host : v.host = r.host
  port : v.port = r.port
  segs : decodedSegments v = decodedSegments r ++ below u p
  trailing : v.path.getLast? = some slash ↔ u.path.getLast? = some slash ∨ decodedSegments v = []
  query : v.query = u.query.or r.query

/-- Nothing of the address is read differently under the replacement: no `'` in a query for a
special scheme, and no drive letter in first place for `file:`, unless it was escaped for the
address already. -/
structure ReadsAlike (u p r : Parts) : Prop where
  query : r.scheme ∈ SPECIAL → ∀ q ∈ u.query, apostrophe ∉ q
  bar : r.scheme = FILE → decodedSegments r = [] → ∀ s ∈ (below u p).head?, BarDrive s → u.scheme = FILE
  colon : r.scheme = FILE → r.host.isSome → decodedSegments r = [] → ∀ s ∈ (below u p).head?, ColonDrive s →
    u.scheme = FILE ∧ u.host.isSome

section Main

variable {U : UrlCrate} {u p r : Url} {us ps rs : List Bytes}

theorem Shape.below_eq (hu : Shape u.toParts us) (hp : Shape p.toParts ps)
    (hsegs : us = nodeSegs ps ++ tailSegs ps us) :
    below u.toParts p.toParts = nodeSegs (tailSegs ps us) := by
  have h : nodeSegs us = nodeSegs ps ++ nodeSegs (tailSegs ps us) := by
    conv_lhs => rw [hsegs]
    exact nodeSegs_append_names (nodeSegs_names hp.settled)
  rw [below, hu.decodedSegments, hp.decodedSegments, h, drop_left]

theorem map_decode_joinedSegs (u p r : Parts) (us ps rs : List Bytes) :
    (joinedSegs u p r us ps rs).map percentDecode =
      nodeSegs rs ++ (if SplitsAuthority u p then [[]] else []) ++ landedTail rs (tailSegs ps us) := by
  unfold joinedSegs
  rw [map_append, map_append, map_decode_escaped, map_decode_escaped]
  congr 2
  split_ifs <;> rfl

theorem joinedSegs_sepFree (hu : Shape u.toParts us) (hr : Shape r.toParts rs)
    (hsegs : us = nodeSegs ps ++ tailSegs ps us) :
    SepFree slash ((joinedSegs u.toParts p.toParts r.toParts us ps rs).map percentDecode) := by
  rw [map_decode_joinedSegs, sepFree_append, sepFree_append]
  refine ⟨⟨hr.nodeSegs_sepFree, ?_⟩, (landedTail_spec rs hu hsegs).2⟩
  split_ifs <;> simp

/-- The joined path settles to the node of the replacement and the tail. -/
theorem normalSegs_joinedSegs (hu : Shape u.toParts us) (hp : Shape p.toParts ps) (hr : Shape r.toParts rs)
    (hsegs : us = nodeSegs ps ++ tailSegs ps us) :
    normalSegs ((joinedSegs u.toParts p.toParts r.toParts us ps rs).map percentDecode) =
      nodeSegs rs ++ landedTail rs (tailSegs ps us) := by
  obtain ⟨hset, -⟩ := landedTail_spec rs hu hsegs
  have hnames := nodeSegs_names hr.settled
  rw [map_decode_joinedSegs]
  split_ifs with hsplit
  · refine normalSegs_gap hnames ?_ hset
    rw [hsplit.tailSegs_eq hp us, landedTail, if_neg fun h => hu.ne_nil h.2]
    exact hu.ne_nil
  · rw [append_nil]
    exact normalSegs_of_settled (Settled.append hnames hset)

theorem Settled.cons_names {t : Bytes} {ss : List Bytes} (h : Settled (s :: ss)) (ht : Names t) :
    Settled (t :: ss) := by
  cases ss with
  | nil => exact Or.inr ht
  | cons x ss => exact ⟨ht, h.2⟩

theorem names_colonDrive {a : UInt8} : Names [a, colon] := by
  refine ⟨by simp, by simp, ?_⟩
  simp only [ne_eq, List.cons.injEq, and_true, not_and]
  exact fun _ => by decide

theorem writtenSegs_of_not_bar {scheme : Bytes} {ss : List Bytes} (h : ¬ (scheme = FILE ∧ ∃ s ∈ ss.head?, BarDrive s)) :
    writtenSegs scheme ss = ss := by
  cases ss with
  | nil => rfl
  | cons s ss => rw [writtenSegs, if_neg fun hb => h ⟨hb.1, s, rfl, hb.2⟩]

variable {w : Url}

/-- A tail whose first segment is taken for a drive letter lands on the drive. -/
theorem landed_of_bar (law : U.Lawful) (hu : Shape u.toParts us) (hp : Shape p.toParts ps) (hr : Shape r.toParts rs)
    (hsegs : us = nodeSegs ps ++ tailSegs ps us)
    (hroot : ¬ (SplitsAuthority u.toParts p.toParts ∧ nodeSegs rs = [])) (hwc : w.cannotBeABase = false)
    (hf : r.scheme = FILE)
    (hw : w.path = pieces slash (writtenSegs r.scheme (joinedSegs u.toParts p.toParts r.toParts us ps rs)))
    (hbar : ∃ s ∈ (joinedSegs u.toParts p.toParts r.toParts us ps rs).head?, BarDrive s) :
    decodedSegments (canonicalize U w).toParts = writtenSegs r.scheme (below u.toParts p.toParts) := by
  have hnil : nodeSegs rs = [] := ((bar_joinedSegs_iff us ps hf hroot).mp hbar).1
  have hsplit : ¬ SplitsAuthority u.toParts p.toParts := fun h => hroot ⟨h, hnil⟩
  have hdecode := map_decode_joinedSegs u.toParts p.toParts r.toParts us ps rs
  have hsep := joinedSegs_sepFree (p := p) hu hr hsegs
  obtain ⟨hset, -⟩ := landedTail_spec rs hu hsegs
  rw [hnil, if_neg hsplit, nil_append, nil_append] at hdecode
  obtain ⟨s, hs, a, -, ha, rfl⟩ := hbar
  obtain ⟨js, hjs⟩ := List.head?_eq_some_iff.mp hs
  rw [hjs] at hw hdecode hsep
  rw [writtenSegs_drive hf ha] at hw
  rw [← hdecode] at hset
  simp only [map_cons, sepFree_cons] at hsep hset hdecode
  have hsettled : Settled ([a, colon] :: js.map percentDecode) := hset.cons_names names_colonDrive
  have hst := canonicalize_shape_of_pieces law hwc hw (by simp) (by
    rw [map_cons, sepFree_cons]
    exact ⟨(segFixed_colonDrive ha FILE).slash_notMem, hsep.2⟩)
  rw [map_cons, show percentDecode [a, colon] = [a, colon] from rfl, normalSegs_of_settled hsettled] at hst
  have hbar : percentDecode [a, bar] = [a, bar] := rfl
  have hnames : ∀ t ∈ [[a, bar]], Names t := by
    intro t ht
    rw [mem_singleton.mp ht]
    refine ⟨by simp, by simp, ?_⟩
    simp only [ne_eq, List.cons.injEq, and_true, not_and]
    exact fun _ => by decide
  have hcolon : ∀ t ∈ [[a, colon]], Names t := by
    intro t ht
    rw [mem_singleton.mp ht]
    exact names_colonDrive
  have hbelow : below u.toParts p.toParts = [a, bar] :: nodeSegs (js.map percentDecode) := by
    rw [hu.below_eq hp hsegs, ← nodeSegs_landedTail rs (tailSegs ps us), ← hdecode, hbar]
    exact nodeSegs_append_names hnames
  rw [hst.decodedSegments, hbelow, writtenSegs_drive hf ha]
  exact nodeSegs_append_names hcolon

/-- A tail whose first segment the setter took for a drive letter lands elsewhere. -/
theorem not_projects_of_bar (law : U.Lawful) (hu : Shape u.toParts us) (hp : Shape p.toParts ps)
    (hr : Shape r.toParts rs) (hsegs : us = nodeSegs ps ++ tailSegs ps us)
    (hroot : ¬ (SplitsAuthority u.toParts p.toParts ∧ nodeSegs rs = [])) (hwc : w.cannotBeABase = false)
    (hf : r.scheme = FILE)
    (hw : w.path = pieces slash (writtenSegs r.scheme (joinedSegs u.toParts p.toParts r.toParts us ps rs)))
    (hbar : ∃ s ∈ (joinedSegs u.toParts p.toParts r.toParts us ps rs).head?, BarDrive s) :
    decodedSegments (canonicalize U w).toParts ≠ decodedSegments r.toParts ++ below u.toParts p.toParts := by
  rw [landed_of_bar law hu hp hr hsegs hroot hwc hf hw hbar]
  obtain ⟨hnil, -, s, hs, a, -, ha, rfl⟩ := (bar_joinedSegs_iff us ps hf hroot).mp hbar
  rw [← hu.below_eq hp hsegs] at hs
  obtain ⟨rest, hrest⟩ := List.head?_eq_some_iff.mp hs
  rw [hr.decodedSegments, hnil, hrest, writtenSegs_drive hf ha, nil_append]
  intro he
  simp only [List.cons.injEq, true_and, and_true] at he
  exact absurd he (by decide)

/-- The query of the projection is the one it should be unless a `'` was escaped. -/
theorem landedQuery_eq_iff {u r : Parts} (h : ∀ q ∈ u.query, QueryFixed u.scheme q) :
    landedQuery u r = u.query.or r.query ↔ (r.scheme ∈ SPECIAL → ∀ q ∈ u.query, apostrophe ∉ q) := by
  unfold landedQuery
  cases hq : u.query with
  | none => simp
  | some q =>
    have hiff := queryFixed_iff (h q hq) r.scheme
    simp only [Option.some_or, Option.some.injEq, Option.mem_def, forall_eq']
    rw [percentEncode_eq_self_iff]
    exact hiff

/-- A tail that is kept lands where it should. -/
theorem projected_path (law : U.Lawful) (hu : Shape u.toParts us) (hp : Shape p.toParts ps) (hr : Shape r.toParts rs)
    (hsegs : us = nodeSegs ps ++ tailSegs ps us) (hwc : w.cannotBeABase = false)
    (hne : joinedSegs u.toParts p.toParts r.toParts us ps rs ≠ [])
    (hw : w.path = pieces slash (joinedSegs u.toParts p.toParts r.toParts us ps rs)) :
    decodedSegments (canonicalize U w).toParts = decodedSegments r.toParts ++ below u.toParts p.toParts ∧
      ((canonicalize U w).path.getLast? = some slash ↔
        u.path.getLast? = some slash ∨ decodedSegments (canonicalize U w).toParts = []) := by
  have hst := canonicalize_shape_of_pieces law hwc hw hne (joinedSegs_sepFree hu hr hsegs)
  rw [normalSegs_joinedSegs hu hp hr hsegs] at hst
  have hnames := nodeSegs_names hr.settled
  have hdecoded : decodedSegments (canonicalize U w).toParts = nodeSegs rs ++ nodeSegs (tailSegs ps us) := by
    rw [hst.decodedSegments, nodeSegs_append_names hnames, nodeSegs_landedTail]
  refine ⟨by rw [hdecoded, hr.decodedSegments, hu.below_eq hp hsegs], ?_⟩
  rw [hst.getLast?_slash_iff, hu.getLast?_slash_iff, hdecoded]
  have hlast : ∀ {as bs : List Bytes}, (∀ s ∈ as, Names s) →
      ((as ++ bs).getLast? = some [] ↔ bs.getLast? = some []) := by
    intro as bs has
    rcases eq_nil_or_concat bs with rfl | ⟨init, last, rfl⟩
    · rw [append_nil]
      exact iff_of_false (fun hl => (has [] (mem_of_getLast? hl)).1 rfl) (by simp)
    · rw [List.getLast?_append_of_ne_nil _ (by simp)]
  have hus : us.getLast? = some [] ↔ (tailSegs ps us).getLast? = some [] := by
    conv_lhs => rw [hsegs]
    exact hlast (nodeSegs_names hp.settled)
  rw [hlast hnames, hus]
  unfold landedTail
  split_ifs with h
  · refine iff_of_true rfl (Or.inr ?_)
    rw [h.1, h.2]
    rfl
  · constructor
    · exact Or.inl
    · rintro (hl | hl)
      · exact hl
      · -- the landed node is the root, and the tail is the empty segment of a trailing `/`
        obtain ⟨h1, h2⟩ := append_eq_nil_iff.mp hl
        have hts : tailSegs ps us ≠ [] := fun hn => h ⟨h1, hn⟩
        rcases nodeSegs_cases hts with he | he
        · exact absurd (he.trans h2) hts
        · rw [he, h2]
          rfl

/-- The projection is what it should be exactly when the address reads alike. -/
theorem exists_projects_iff (law : U.Lawful) (hu : Shape u.toParts us) (hp : Shape p.toParts ps)
    (hr : Shape r.toParts rs) (huq : U.Parsed u) (hrp : U.Parsed r)
    (hanc : isAncestorOrSelf p.toParts u.toParts = true)
    (hroot : ¬ (SplitsAuthority u.toParts p.toParts ∧ nodeSegs rs = [])) :
    ∃ v, replacePrefix U u p r = .ok v ∧
      (Projects u.toParts p.toParts r.toParts v.toParts ↔ ReadsAlike u.toParts p.toParts r.toParts) := by
  obtain ⟨w, v, hrep, rfl, hwc, hw⟩ := replacePrefix_toParts law hu hp hr huq hrp hanc hroot
  have hcovs : nodeSegs ps <+: nodeSegs us := by
    have h := ((hp.isAncestorOrSelf_iff hu).mp hanc).segs
    rwa [nodeOf, nodeOf, hp.decodedSegments, hu.decodedSegments] at h
  have hsegs := segs_eq_of_covers hcovs
  obtain ⟨hne, hfix, -⟩ := joinedSegs_fixed (p := p) hu hr hsegs hroot
  have hparts := canonicalize_toParts law hwc
  have hquery := landedQuery_eq_iff (r := r.toParts) (law.parsed_query u huq)
  have hbelow := hu.below_eq hp hsegs
  have hrd := hr.decodedSegments
  refine ⟨_, hrep, ?_⟩
  by_cases hbar : r.scheme = FILE ∧ ∃ s ∈ (joinedSegs u.toParts p.toParts r.toParts us ps rs).head?, BarDrive s
  · -- the setter rewrote the first segment
    have hno := not_projects_of_bar law hu hp hr hsegs hroot hwc hbar.1 (by rw [hw]; rfl) hbar.2
    refine iff_of_false (fun h => hno h.segs) fun h => ?_
    obtain ⟨hnil, hfile, s, hs, hd⟩ := (bar_joinedSegs_iff us ps hbar.1 hroot).mp hbar.2
    exact hfile (h.bar hbar.1 (by rw [hrd, hnil]) s (by rwa [hbelow]) hd)
  · have hwritten := writtenSegs_of_not_bar hbar
    have hshare : (landed u.toParts r.toParts (joinedSegs u.toParts p.toParts r.toParts us ps rs)).DriveShare ↔
        r.scheme = FILE ∧ r.host.isSome ∧
          ∃ s ∈ (joinedSegs u.toParts p.toParts r.toParts us ps rs).head?, ColonDrive s := by
      rw [Parts.DriveShare, landed, hwritten,
        pathSegs_pieces fun s hs => (hfix s hs).slash_notMem]
    obtain ⟨hdecoded, hslash⟩ := projected_path law hu hp hr hsegs hwc hne (by rw [hw, landed, hwritten])
    have hbar_field : r.scheme = FILE → decodedSegments r.toParts = [] →
        ∀ s ∈ (below u.toParts p.toParts).head?, BarDrive s → u.scheme = FILE := by
      intro hf hnil s hs hd
      by_contra hne
      refine hbar ⟨hf, (bar_joinedSegs_iff us ps hf hroot).mpr ⟨by rwa [← hrd], hne, s, by rwa [← hbelow], hd⟩⟩
    have hhost : (canonicalize U w).host = r.host ↔
        ¬ (landed u.toParts r.toParts (joinedSegs u.toParts p.toParts r.toParts us ps rs)).DriveShare := by
      rw [hparts, hw]
      constructor
      · intro h hd
        simp only [if_pos hd, Option.map_none] at h
        have := (hshare.mp hd).2.1
        rw [← h] at this
        cases this
      · intro hd
        simp only [if_neg hd]
        exact hr.lowercase
    constructor
    · intro h
      refine ⟨?_, hbar_field, ?_⟩
      · apply hquery.mp
        rw [← h.query, hparts, hw]
        rfl
      · intro hf hh hnil s hs hd
        by_contra hne
        refine hhost.mp h.host (hshare.mpr ⟨hf, hh, ?_⟩)
        exact (colon_joinedSegs_iff us ps hf hh hroot).mpr ⟨by rwa [← hrd], hne, s, by rwa [← hbelow], hd⟩
    · intro h
      refine ⟨by rw [hparts, hw]; rfl, hhost.mpr fun hd => ?_, by rw [hparts, hw]; rfl, hdecoded, hslash, ?_⟩
      · obtain ⟨hf, hh, hcolon⟩ := hshare.mp hd
        obtain ⟨hnil, hno, s, hs, hd⟩ := (colon_joinedSegs_iff us ps hf hh hroot).mp hcolon
        exact hno (h.colon hf hh (by rw [hrd, hnil]) s (by rwa [hbelow]) hd)
      · rw [← hquery.mpr h.query, hparts, hw]
        rfl

end Main

/-! ### Where every projection lands -/

/-- The first segment below the prefix is taken for a drive letter and rewritten. -/
def TakesBar (u p r : Parts) : Prop :=
  r.scheme = FILE ∧ decodedSegments r = [] ∧ u.scheme ≠ FILE ∧ ∃ s ∈ (below u p).head?, BarDrive s

/-- The first segment below the prefix is taken for a drive letter that a share cannot have. -/
def TakesColon (u p r : Parts) : Prop :=
  r.scheme = FILE ∧ decodedSegments r = [] ∧ ¬ (u.scheme = FILE ∧ u.host.isSome) ∧
    ∃ s ∈ (below u p).head?, ColonDrive s

instance (u p r : Parts) : Decidable (TakesBar u p r) :=
  inferInstanceAs (Decidable (_ ∧ _ ∧ _ ∧ ∃ s ∈ (below u p).head?, _))

instance (u p r : Parts) : Decidable (TakesColon u p r) :=
  inferInstanceAs (Decidable (_ ∧ _ ∧ _ ∧ ∃ s ∈ (below u p).head?, _))

/-- The segments of the projection. -/
def landedSegs (u p r : Parts) : List Bytes :=
  if TakesBar u p r then writtenSegs r.scheme (below u p) else decodedSegments r ++ below u p

/-- The host of the projection. -/
def landedHost (u p r : Parts) : Option Bytes := if TakesBar u p r ∨ TakesColon u p r then none else r.host

section Landing

variable {U : UrlCrate} {u p r : Url}

variable {us ps rs : List Bytes}

theorem takesBar_iff (hu : Shape u.toParts us) (hp : Shape p.toParts ps) (hr : Shape r.toParts rs)
    (hsegs : us = nodeSegs ps ++ tailSegs ps us) (hroot : ¬ (SplitsAuthority u.toParts p.toParts ∧ nodeSegs rs = [])) :
    TakesBar u.toParts p.toParts r.toParts ↔
      r.scheme = FILE ∧ ∃ s ∈ (joinedSegs u.toParts p.toParts r.toParts us ps rs).head?, BarDrive s := by
  rw [TakesBar, hr.decodedSegments, hu.below_eq hp hsegs]
  exact and_congr_right fun hf => (bar_joinedSegs_iff us ps hf hroot).symm

/-- The projection is read without the host of its share exactly if it begins with a drive letter. -/
theorem landed_driveShare_iff (hu : Shape u.toParts us) (hp : Shape p.toParts ps)
    (hr : Shape r.toParts rs) (hsegs : us = nodeSegs ps ++ tailSegs ps us)
    (hroot : ¬ (SplitsAuthority u.toParts p.toParts ∧ nodeSegs rs = [])) :
    (landed u.toParts r.toParts (joinedSegs u.toParts p.toParts r.toParts us ps rs)).DriveShare ↔
      r.host.isSome ∧ (TakesBar u.toParts p.toParts r.toParts ∨ TakesColon u.toParts p.toParts r.toParts) := by
  obtain ⟨-, hfix, -⟩ := joinedSegs_fixed (p := p) hu hr hsegs hroot
  have hsep : SepFree slash (joinedSegs u.toParts p.toParts r.toParts us ps rs) := fun s hs => (hfix s hs).slash_notMem
  rw [takesBar_iff hu hp hr hsegs hroot, TakesColon, hr.decodedSegments, hu.below_eq hp hsegs, Parts.DriveShare, landed]
  by_cases hbar : r.scheme = FILE ∧ ∃ s ∈ (joinedSegs u.toParts p.toParts r.toParts us ps rs).head?, BarDrive s
  · obtain ⟨hf, s, hs, a, -, ha, rfl⟩ := hbar
    obtain ⟨js, hjs⟩ := List.head?_eq_some_iff.mp hs
    rw [hjs, sepFree_cons] at hsep
    have hseps : SepFree slash ([a, colon] :: js) := by
      rw [sepFree_cons]
      exact ⟨(segFixed_colonDrive ha FILE).slash_notMem, hsep.2⟩
    simp only [hjs, writtenSegs_drive hf ha, pathSegs_pieces hseps]
    constructor
    · exact fun h => ⟨h.2.1, Or.inl ⟨hf, [a, bar], rfl, a, rfl, ha, rfl⟩⟩
    · exact fun h => ⟨hf, h.1, [a, colon], rfl, a, rfl, ha, rfl⟩
  · rw [writtenSegs_of_not_bar hbar, pathSegs_pieces hsep]
    constructor
    · rintro ⟨hf, hh, hcolon⟩
      exact ⟨hh, Or.inr ⟨hf, (colon_joinedSegs_iff us ps hf hh hroot).mp hcolon⟩⟩
    · rintro ⟨hh, h | ⟨hf, hcolon⟩⟩
      · exact absurd h hbar
      · exact ⟨hf, hh, (colon_joinedSegs_iff us ps hf hh hroot).mpr hcolon⟩

/-- Every projection but that of a strip that cuts into `//` under a root: what it is, component
by component. -/
theorem replacePrefix_landing (law : U.Lawful) (hu : Canonical U u) (hp : Canonical U p) (hr : Canonical U r)
    (hanc : isAncestorOrSelf p.toParts u.toParts = true)
    (hroot : ¬ (SplitsAuthority u.toParts p.toParts ∧ decodedSegments r.toParts = [])) :
    ∃ v, replacePrefix U u p r = .ok v ∧ v.scheme = r.scheme ∧ v.host = landedHost u.toParts p.toParts r.toParts ∧
      v.port = r.port ∧ v.hasAuthority = r.hasAuthority ∧
      decodedSegments v.toParts = landedSegs u.toParts p.toParts r.toParts := by
  obtain ⟨us, hus⟩ := hu.shape law
  obtain ⟨ps, hps⟩ := hp.shape law
  obtain ⟨rs, hrs⟩ := hr.shape law
  have hrd := hrs.decodedSegments
  rw [hrd] at hroot
  obtain ⟨w, v, hrep, rfl, hwc, hw⟩ := replacePrefix_toParts law hus hps hrs hu.parsed hr.parsed hanc hroot
  have hcovs : nodeSegs ps <+: nodeSegs us := by
    have h := ((hps.isAncestorOrSelf_iff hus).mp hanc).segs
    rwa [nodeOf, nodeOf, hps.decodedSegments, hus.decodedSegments] at h
  have hsegs := segs_eq_of_covers hcovs
  obtain ⟨hne, -, -⟩ := joinedSegs_fixed (p := p) hus hrs hsegs hroot
  have hparts := canonicalize_toParts law hwc
  have hpath : w.path = pieces slash (writtenSegs r.scheme (joinedSegs u.toParts p.toParts r.toParts us ps rs)) := by
    rw [hw]
    rfl
  have hbar := takesBar_iff hus hps hrs hsegs hroot
  have hshare := landed_driveShare_iff hus hps hrs hsegs hroot
  refine ⟨_, hrep, by rw [hparts, hw]; rfl, ?_, by rw [hparts, hw]; rfl, by rw [hparts, hw]; rfl, ?_⟩
  · rw [hparts, hw, landedHost]
    dsimp only
    by_cases htakes : TakesBar u.toParts p.toParts r.toParts ∨ TakesColon u.toParts p.toParts r.toParts
    · rw [if_pos htakes]
      cases hh : r.host with
      | none => simp
      | some h => rw [if_pos (hshare.mpr ⟨by simp [hh], htakes⟩), Option.map_none]
    · rw [if_neg htakes, if_neg fun hd => htakes (hshare.mp hd).2]
      exact hrs.lowercase
  · by_cases htakes : TakesBar u.toParts p.toParts r.toParts
    · obtain ⟨hf, hdrive⟩ := hbar.mp htakes
      rw [landedSegs, if_pos htakes]
      exact landed_of_bar law hus hps hrs hsegs hroot hwc hf hpath hdrive
    · rw [landedSegs, if_neg htakes]
      refine (projected_path law hus hps hrs hsegs hwc hne ?_).1
      rw [hpath, writtenSegs_of_not_bar fun h => htakes (hbar.mpr h)]

end Landing

/-- The address reads alike, and the strip does not hand a `//` to a root replacement. -/
def ProjectionSafe (u p r : Parts) : Prop :=
  ReadsAlike u p r ∧ ¬ (SplitsAuthority u p ∧ decodedSegments r = [])

/-- Two addresses under one prefix that project onto one are one, but for the slash of the root. -/
theorem Projects.inj {u u' p r v : Parts} (h : Projects u p r v) (h' : Projects u' p r v)
    (hc : (nodeOf p).Covers (nodeOf u)) (hc' : (nodeOf p).Covers (nodeOf u')) :
    decodedSegments u = decodedSegments u' ∧
      (decodedSegments v ≠ [] → (u.path.getLast? = some slash ↔ u'.path.getLast? = some slash)) := by
  have hbelow : below u p = below u' p := append_cancel_left (h.segs.symm.trans h'.segs)
  have hsplit : ∀ w : Parts, (nodeOf p).Covers (nodeOf w) → decodedSegments w = decodedSegments p ++ below w p := by
    intro w hw
    obtain ⟨rest, hrest⟩ := hw.segs
    have hrest : decodedSegments p ++ rest = decodedSegments w := hrest
    rw [below, ← hrest, drop_left]
  refine ⟨by rw [hsplit u hc, hsplit u' hc', hbelow], fun hne => ?_⟩
  have h1 := h.trailing
  have h2 := h'.trailing
  simp only [hne, or_false] at h1 h2
  exact h1.symm.trans h2

/-- A safe projection succeeds and is the address under the replacement; no other is, unless the
strip cut into `//` under a root; and no two addresses project safely onto one. -/
theorem replacePrefix_projects {U : UrlCrate} (law : U.Lawful) {u p r : Url} (hu : Canonical U u) (hp : Canonical U p)
    (hr : Canonical U r) (hanc : isAncestorOrSelf p.toParts u.toParts = true) :
    (ProjectionSafe u.toParts p.toParts r.toParts →
      ∃ v, replacePrefix U u p r = .ok v ∧ Projects u.toParts p.toParts r.toParts v.toParts) ∧
    ((∃ v, replacePrefix U u p r = .ok v ∧ Projects u.toParts p.toParts r.toParts v.toParts) →
      ProjectionSafe u.toParts p.toParts r.toParts ∨
        SplitsAuthority u.toParts p.toParts ∧ decodedSegments r.toParts = []) ∧
    ∀ u' v : Url, Canonical U u' → isAncestorOrSelf p.toParts u'.toParts = true →
      ProjectionSafe u.toParts p.toParts r.toParts → ProjectionSafe u'.toParts p.toParts r.toParts →
      replacePrefix U u p r = .ok v → replacePrefix U u' p r = .ok v →
      decodedSegments u.toParts = decodedSegments u'.toParts ∧
        (decodedSegments v.toParts ≠ [] → (u.path.getLast? = some slash ↔ u'.path.getLast? = some slash)) := by
  obtain ⟨ps, hps⟩ := hp.shape law
  obtain ⟨rs, hrs⟩ := hr.shape law
  have hiff : ∀ w : Url, Canonical U w → isAncestorOrSelf p.toParts w.toParts = true →
      ¬ (SplitsAuthority w.toParts p.toParts ∧ decodedSegments r.toParts = []) → ∃ v, replacePrefix U w p r = .ok v ∧
        (Projects w.toParts p.toParts r.toParts v.toParts ↔ ReadsAlike w.toParts p.toParts r.toParts) := by
    intro w hw hanc hroot
    obtain ⟨ws, hws⟩ := hw.shape law
    rw [hrs.decodedSegments] at hroot
    exact exists_projects_iff law hws hps hrs hw.parsed hr.parsed hanc hroot
  refine ⟨?_, ?_, ?_⟩
  · rintro ⟨hread, hroot⟩
    obtain ⟨v, hv, h⟩ := hiff u hu hanc hroot
    exact ⟨v, hv, h.mpr hread⟩
  · rintro ⟨v, hv, hproj⟩
    by_cases hroot : SplitsAuthority u.toParts p.toParts ∧ decodedSegments r.toParts = []
    · exact Or.inr hroot
    · obtain ⟨v', hv', h⟩ := hiff u hu hanc hroot
      obtain rfl : v = v' := Except.ok.inj (hv.symm.trans hv')
      exact Or.inl ⟨h.mp hproj, hroot⟩
  · intro u' v hu' hanc' hsafe hsafe' hv hv'
    obtain ⟨v1, hv1, h1⟩ := hiff u hu hanc hsafe.2
    obtain ⟨v2, hv2, h2⟩ := hiff u' hu' hanc' hsafe'.2
    obtain rfl : v = v1 := Except.ok.inj (hv.symm.trans hv1)
    obtain rfl : v = v2 := Except.ok.inj (hv'.symm.trans hv2)
    exact (h1.mpr hsafe.1).inj (h2.mpr hsafe'.1) ((isAncestorOrSelf_iff law hp hu).mp hanc)
      ((isAncestorOrSelf_iff law hp hu').mp hanc')

/-- `s3://b/p`. -/
def bucketPart : Url := ⟨⟨utf8 "s3", true, [], none, some (utf8 "b"), none, utf8 "/p", none, none⟩, by decide +kernel⟩

/-- `s3://b/p/C|/x`. -/
def barKey : Url := ⟨⟨utf8 "s3", true, [], none, some (utf8 "b"), none, utf8 "/p/C|/x", none, none⟩, by decide +kernel⟩

/-- `file:///`. -/
def localRoot : Url := ⟨⟨FILE, true, [], none, none, none, utf8 "/", none, none⟩, by decide +kernel⟩

/-- `file:///C:/x`. -/
def driveFile : Url := ⟨⟨FILE, true, [], none, none, none, utf8 "/C:/x", none, none⟩, by decide +kernel⟩

/-- `s3://b/p/C|/x` under the alias `s3://b/p` → `file:///` lands on the file `x` of drive `C:`. -/
theorem projection_on_a_drive :
    Canonical reference barKey ∧ Canonical reference bucketPart ∧ Canonical reference localRoot ∧
      isAncestorOrSelf bucketPart.toParts barKey.toParts = true ∧
      replacePrefix reference barKey bucketPart localRoot = .ok driveFile ∧
      ¬ ∃ v, replacePrefix reference barKey bucketPart localRoot = .ok v ∧
        Projects barKey.toParts bucketPart.toParts localRoot.toParts v.toParts := by
  have hrun : replacePrefix reference barKey bucketPart localRoot = .ok driveFile := by decide +kernel
  refine ⟨reference_canonical _ [utf8 "p", utf8 "C|", utf8 "x"] (by decide +kernel) (by simp [barKey]),
    reference_canonical _ [utf8 "p"] (by decide +kernel) (by simp [bucketPart]),
    reference_canonical _ [[]] (by decide +kernel) (by simp [localRoot]), by decide +kernel, hrun, ?_⟩
  rintro ⟨v, hv, h⟩
  obtain rfl : driveFile = v := Except.ok.inj (hrun.symm.trans hv)
  exact absurd h.segs (by decide +kernel)

/-- `file://server/share`. -/
def shareRoot : Url :=
  ⟨⟨FILE, true, [], none, some (utf8 "server"), none, utf8 "/share", none, none⟩, by decide +kernel⟩

theorem replacePrefix_projects_share :
    ∃ v, replacePrefix reference barKey bucketPart shareRoot = .ok v ∧
      Projects barKey.toParts bucketPart.toParts shareRoot.toParts v.toParts := by
  have hsegs : decodedSegments shareRoot.toParts ≠ [] := by decide +kernel
  have hu : Canonical reference barKey :=
    reference_canonical _ [utf8 "p", utf8 "C|", utf8 "x"] (by decide +kernel) (by simp [barKey])
  have hp : Canonical reference bucketPart :=
    reference_canonical _ [utf8 "p"] (by decide +kernel) (by simp [bucketPart])
  have hr : Canonical reference shareRoot :=
    reference_canonical _ [utf8 "share"] (by decide +kernel) (by simp [shareRoot])
  refine (replacePrefix_projects reference_lawful hu hp hr (by decide +kernel)).1 ⟨⟨?_, ?_, ?_⟩, fun h => hsegs h.2⟩
  · intro _ q hq
    cases hq
  · exact fun _ hnil => absurd hnil hsegs
  · exact fun _ _ hnil => absurd hnil hsegs

end OvStorage.Address
